import Mathlib
import Constituency.Tree.Binary
import Constituency.Proofs.Preorder

/-!
Binary trees as flat parses. The spans of a tree are those of its parse, and the parents it keeps
with them are the ones that the spans wait for.
-/

namespace Constituency

namespace Parse

/-- A parse below a unary rule, if there is one. -/
def capped (parse : Parse) : Option Label → Parse
  | none => parse
  | some label => .unary label parse

section Capped

variable (parse : Parse) (top : Option Label)

@[simp] theorem label_capped : (parse.capped top).label = top.getD parse.label := by
  cases top <;> rfl

@[simp] theorem start_capped : (parse.capped top).start = parse.start := by
  cases top <;> rfl

@[simp] theorem stop_capped : (parse.capped top).stop = parse.stop := by
  cases top <;> rfl

@[simp] theorem contiguous_capped : (parse.capped top).Contiguous ↔ parse.Contiguous := by
  cases top <;> rfl

theorem flat_capped (bare : parse.isUnary = false) : (parse.capped top).Flat ↔ parse.Flat := by
  cases top with
  | none => rfl
  | some label => exact ⟨fun flat => flat.2, fun flat => ⟨bare, flat⟩⟩

theorem length_spans_capped :
    (parse.capped top).spans.length = top.toList.length + parse.spans.length := by
  cases top with
  | none => simp [capped]
  | some label => simp [capped, spans, Nat.add_comm]

end Capped

theorem capped_inj {parse parse' : Parse} {top top' : Option Label} (bare : parse.isUnary = false)
    (bare' : parse'.isUnary = false) (same : parse.capped top = parse'.capped top') :
    top = top' ∧ parse = parse' := by
  cases top <;> cases top' <;> simp only [capped] at same
  · exact ⟨rfl, same⟩
  · subst same
    cases bare
  · subst same
    cases bare'
  · cases same
    exact ⟨rfl, rfl⟩

end Parse

namespace Tree

def parse : Tree → Parse
  | leaf head position => (Parse.word head.label position).capped head.top
  | branch head left right => (Parse.binary head.label left.parse right.parse).capped head.top

@[simp] theorem label_parse (tree : Tree) : tree.parse.label = tree.head.outer := by
  cases tree <;> exact Parse.label_capped _ _

@[simp] theorem start_parse (tree : Tree) : tree.parse.start = tree.start := by
  induction tree with
  | leaf head position => simp [parse, start, Parse.start]
  | branch head left right ih _ => simp [parse, start, Parse.start, ih]

@[simp] theorem stop_parse (tree : Tree) : tree.parse.stop = tree.stop := by
  induction tree with
  | leaf head position => simp [parse, stop, Parse.stop]
  | branch head left right _ ih => simp [parse, stop, Parse.stop, ih]

theorem flat_parse (tree : Tree) : tree.parse.Flat := by
  induction tree with
  | leaf head position => exact (Parse.flat_capped _ _ rfl).mpr trivial
  | branch head left right ihLeft ihRight => exact (Parse.flat_capped _ _ rfl).mpr ⟨ihLeft, ihRight⟩

theorem parse_injective : Function.Injective parse := by
  intro tree other same
  induction tree generalizing other with
  | leaf head position =>
    cases other with
    | leaf head' position' =>
      obtain ⟨tops, words⟩ := Parse.capped_inj rfl rfl same
      cases head
      cases head'
      cases words
      cases tops
      rfl
    | branch => cases (Parse.capped_inj rfl rfl same).2
  | branch head left right ihLeft ihRight =>
    cases other with
    | leaf => cases (Parse.capped_inj rfl rfl same).2
    | branch head' left' right' =>
      obtain ⟨tops, below⟩ := Parse.capped_inj rfl rfl same
      obtain ⟨labels, first, second⟩ := Parse.binary.inj below
      rw [ihLeft first, ihRight second]
      cases head
      cases head'
      cases labels
      cases tops
      rfl

theorem contiguous_branch {head : Head} {left right : Tree} :
    (branch head left right).parse.Contiguous ↔
      left.stop = right.start ∧ left.parse.Contiguous ∧ right.parse.Contiguous := by
  simp [parse, Parse.Contiguous]

section Leaves

def leaves : Tree → List Nat
  | leaf _ position => [position]
  | branch _ left right => left.leaves ++ right.leaves

theorem nodeCount_eq (tree : Tree) : tree.nodeCount + 1 = 2 * tree.leaves.length := by
  induction tree with
  | leaf head position => rfl
  | branch head left right ihLeft ihRight =>
    simp only [nodeCount, leaves, List.length_append]
    omega

theorem exists_leaves_cons (tree : Tree) : ∃ later, tree.leaves = tree.start :: later := by
  induction tree with
  | leaf head position => exact ⟨[], rfl⟩
  | branch head left right ih _ =>
    obtain ⟨later, whole⟩ := ih
    exact ⟨later ++ right.leaves, by rw [leaves, whole]; rfl⟩

theorem exists_leaves_concat (tree : Tree) :
    ∃ earlier last, tree.leaves = earlier ++ [last] ∧ tree.stop = last + 1 := by
  induction tree with
  | leaf head position => exact ⟨[], position, rfl, rfl⟩
  | branch head left right _ ih =>
    obtain ⟨earlier, last, whole, stops⟩ := ih
    exact ⟨left.leaves ++ earlier, last, by rw [leaves, whole, List.append_assoc], stops⟩

/-- A tree whose leaves are the words of an interval, in order, is contiguous over it. -/
theorem contiguous_of_leaves {tree : Tree} {first count : Nat}
    (whole : tree.leaves = List.range' first count) :
    tree.parse.Contiguous ∧ tree.start = first ∧ tree.stop = first + count := by
  induction tree generalizing first count with
  | leaf head position =>
    have one : count = 1 := by simpa [leaves] using (congrArg List.length whole).symm
    subst one
    simp only [leaves, List.range'_one, List.cons.injEq, and_true] at whole
    subst whole
    exact ⟨(Parse.contiguous_capped _ _).mpr trivial, rfl, rfl⟩
  | branch head left right ihLeft ihRight =>
    obtain ⟨front, within, onLeft, onRight⟩ := List.range'_eq_append_iff.mp whole.symm
    obtain ⟨contiguous, starts, stops⟩ := ihLeft onLeft
    obtain ⟨contiguous', starts', stops'⟩ := ihRight onRight
    refine ⟨contiguous_branch.mpr ⟨?_, contiguous, contiguous'⟩, starts, ?_⟩
    · rw [stops, starts', Nat.mul_one]
    · change right.stop = first + count
      omega

theorem leaves_of_contiguous {tree : Tree} (contiguous : tree.parse.Contiguous) :
    tree.leaves = List.range' tree.start (tree.stop - tree.start) := by
  induction tree with
  | leaf head position => simp [leaves, start, stop]
  | branch head left right ihLeft ihRight =>
    obtain ⟨meet, onLeft, onRight⟩ := contiguous_branch.mp contiguous
    have first := onLeft.start_lt_stop
    have second := onRight.start_lt_stop
    simp only [start_parse, stop_parse] at first second
    have joined := List.range'_append_1 (s := left.start) (m := left.stop - left.start)
      (n := right.stop - right.start)
    rw [show left.start + (left.stop - left.start) = right.start by omega] at joined
    rw [leaves, ihLeft onLeft, ihRight onRight, joined]
    congr 1
    change _ = right.stop - left.start
    omega

end Leaves

section Linked

variable {tree : Tree} (parent : Option Nat) (place : Nat)

theorem length_spans_parse (tree : Tree) : tree.parse.spans.length = tree.spanCount := by
  induction tree with
  | leaf head position => simp [parse, Parse.length_spans_capped, Parse.spans, spanCount]
  | branch head left right ihLeft ihRight =>
    simp only [parse, Parse.length_spans_capped, Parse.spans, spanCount, List.length_cons,
      List.length_append, ihLeft, ihRight]
    omega

theorem ownSpan_branch (head : Head) {left right : Tree} (meet : left.stop = right.start) :
    (branch head left right).ownSpan = (Parse.binary head.label left.parse right.parse).top := by
  simp [ownSpan, Parse.top, meet]

theorem mem_spans_branch {head : Head} {left right : Tree} {span : Span}
    (inside : span ∈ left.parse.spans ++ right.parse.spans) :
    span ∈ (branch head left right).parse.spans := by
  obtain ⟨label, top⟩ := head
  cases top with
  | none => exact List.mem_cons_of_mem _ inside
  | some top => exact List.mem_cons_of_mem _ (List.mem_cons_of_mem _ inside)

theorem linkedSpansFrom_eq (contiguous : tree.parse.Contiguous) :
    tree.linkedSpansFrom parent place = (tree.parse.top, parent) ::
      (tree.parse.lowerLinks place).map fun link => (link.1.1, some link.2) := by
  induction tree generalizing parent place with
  | leaf head position =>
    obtain ⟨label, top⟩ := head
    cases top <;> rfl
  | branch head left right ihLeft ihRight =>
    obtain ⟨meet, onLeft, onRight⟩ := contiguous_branch.mp contiguous
    have own := ownSpan_branch head meet
    obtain ⟨label, top⟩ := head
    rw [linkedSpansFrom, ihLeft _ _ onLeft, ihRight _ _ onRight, nodeSpans, own,
      ← length_spans_parse]
    cases top with
    | none => simp [Tree.head, parse, Parse.capped, Parse.lowerLinks]
    | some top =>
      have outer : (parse (branch ⟨label, some top⟩ left right)).top =
          .unary left.start right.stop ⟨top, label⟩ := by
        simp [parse, Parse.capped, Parse.top, Parse.start, Parse.stop, Parse.label]
      rw [outer]
      simp [Tree.head, parse, Parse.capped, Parse.lowerLinks, start, stop]

theorem linkedSpans_eq (contiguous : tree.parse.Contiguous) :
    tree.linkedSpans = (tree.parse.top, none) ::
      (tree.parse.lowerLinks 0).map fun link => (link.1.1, some link.2) :=
  linkedSpansFrom_eq none 0 contiguous

theorem spans_eq (contiguous : tree.parse.Contiguous) : tree.spans = tree.parse.spans := by
  rw [spans, linkedSpans_eq contiguous, List.map_cons, List.map_map, Parse.spans_eq_cons]
  rfl

theorem parents_eq (contiguous : tree.parse.Contiguous) :
    tree.parents = tree.parse.parents := by
  rw [parents, linkedSpans_eq contiguous, List.map_cons, List.map_map]
  rfl

end Linked

end Tree

end Constituency
