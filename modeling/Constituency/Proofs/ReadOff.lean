import Constituency.Derivation.Parse
import Constituency.Search.BestChart
import Constituency.Proofs.Parse

/-!
Reading a tree off the links of a chart. A parse that the links lead to is read as its spans, as
long as it does not have more spans than the chart allows.
-/

namespace Constituency.BestChart

variable {α : Type} {chart : BestChart α} {grammar : Grammar}

/-- The links of a chart lead to a parse, with the unary rules at its top or below them. -/
inductive Reads (chart : BestChart α) (grammar : Grammar) : Phase → Parse → Prop
  | word {label : Label} {position : Nat}
    (origin : (chart.entries.get position (position + 1) label).origin = .terminal) :
    Reads chart grammar .beforeUnary (.word label position)
  | binary {label : Label} {left right : Parse} {number : Nat}
    (origin : (chart.entries.get left.start right.stop label).origin = .binary number left.stop)
    (found : grammar.binaryRule? number = some ⟨label, left.label, right.label⟩)
    (meet : left.stop = right.start) (onLeft : Reads chart grammar .afterUnary left)
    (onRight : Reads chart grammar .afterUnary right) :
    Reads chart grammar .beforeUnary (.binary label left right)
  | keep {parse : Parse}
    (link : (chart.entries.get parse.start parse.stop parse.label).link = .keep)
    (below : Reads chart grammar .beforeUnary parse) : Reads chart grammar .afterUnary parse
  | unary {label : Label} {child : Parse}
    (link : (chart.entries.get child.start child.stop label).link = .unary child.label)
    (below : Reads chart grammar .afterUnary child) :
    Reads chart grammar .afterUnary (.unary label child)

theorem readItems_eq {phase : Phase} {parse : Parse} (reads : chart.Reads grammar phase parse)
    (pending : List (Item × Phase)) (spans : List Span)
    (room : spans.length + parse.spans.length ≤ chart.spanLimit + 1) :
    chart.readItems grammar ((parse.item, phase) :: pending) spans =
      chart.readItems grammar pending (parse.spans.reverse ++ spans) := by
  induction reads generalizing pending spans with
  | @word label position origin =>
    rw [Parse.spans, List.length_singleton] at room
    rw [readItems, if_neg (by omega)]
    simp only [Parse.item, Parse.start, Parse.stop, Parse.label, origin]
    rfl
  | @binary label left right number origin found meet onLeft onRight ihLeft ihRight =>
    simp only [Parse.spans, List.length_cons, List.length_append] at room
    rw [readItems, if_neg (by omega)]
    simp only [Parse.item, Parse.start, Parse.stop, Parse.label, origin, found]
    have first := ihLeft ((right.item, .afterUnary) :: pending)
      ((Parse.binary label left right).top :: spans) (by rw [List.length_cons]; omega)
    have second := ihRight pending
      (left.spans.reverse ++ (Parse.binary label left right).top :: spans)
      (by rw [List.length_append, List.length_reverse, List.length_cons]; omega)
    have slot : right.item = ⟨left.stop, right.stop, right.label⟩ := by rw [Parse.item, meet]
    rw [second, slot] at first
    rw [Parse.spans, List.reverse_cons, List.reverse_append, List.append_assoc, List.append_assoc,
      List.singleton_append, ← first]
    rfl
  | @keep parse link below ih =>
    have some : 0 < parse.spans.length := List.length_pos_of_mem parse.top_mem_spans
    rw [readItems, if_neg (by omega)]
    simp only [Parse.item, link]
    exact ih pending spans room
  | @unary label child link below ih =>
    simp only [Parse.spans, List.length_cons] at room
    rw [readItems, if_neg (by omega)]
    simp only [Parse.item, Parse.start, Parse.stop, Parse.label, link]
    have rest := ih pending ((Parse.unary label child).top :: spans)
      (by rw [List.length_cons]; omega)
    rw [Parse.spans, List.reverse_cons, List.append_assoc, List.singleton_append, ← rest]
    rfl

theorem readTree_eq {parse : Parse} (reads : chart.Reads grammar .afterUnary parse)
    (starts : parse.start = 0) (stops : parse.stop = chart.words)
    (room : parse.spans.length ≤ chart.spanLimit + 1) :
    chart.readTree grammar parse.label = .ok parse.spans := by
  have whole := readItems_eq reads [] [] (by simpa using room)
  rw [readTree, ← starts, ← stops]
  refine whole.trans ?_
  rw [readItems, List.append_nil, List.reverse_reverse]

end Constituency.BestChart
