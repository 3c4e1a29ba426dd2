import Mathlib
import Constituency.Proofs.GrownTree
import Constituency.Proofs.ParseScore

/-!
Spans in any order. A list of spans that is made into a tree has just the spans of that tree, and it
scores the same in whatever order they are listed, also where the labels of parents count.
-/

namespace Constituency

namespace Treelike

variable {spans others : List Span}

theorem find?_eq (treelike : Treelike spans) {span : Span} (member : span ∈ spans) {item : Item}
    (slot : item ∈ span.slots) :
    spans.find? (fun other => decide (item ∈ other.slots)) = some span := by
  obtain ⟨place, here⟩ := List.mem_iff_getElem?.mp member
  rw [List.find?_eq_bind_findIdx?_getElem?, treelike.findIdx?_eq here slot]
  exact here

theorem find?_perm (treelike : Treelike spans) (perm : others.Perm spans) (item : Item) :
    others.find? (fun other => decide (item ∈ other.slots)) =
      spans.find? fun other => decide (item ∈ other.slots) := by
  cases found : spans.find? fun other => decide (item ∈ other.slots) with
  | none =>
    rw [List.find?_eq_none] at found ⊢
    exact fun span member => found span (perm.mem_iff.mp member)
  | some span =>
    have slot := List.find?_some found
    have member := List.mem_of_find?_eq_some found
    exact (treelike.perm perm).find?_eq (perm.mem_iff.mpr member) (of_decide_eq_true slot)

end Treelike

namespace Problem

variable {problem : Problem EReal} {spans others : List Span}

theorem scoreWith_bySlot (problem : Problem EReal) (secondOrder : Bool)
    (known : ∀ span ∈ spans, problem.grammar.contains span.rule = true) :
    problem.scoreWith secondOrder spans (Parents.bySlot spans) =
      .ok (spans.map fun span => problem.placedScore span
        (if secondOrder then
          (spans.find? fun other => decide (span.item ∈ other.slots)).map Span.label
        else none)).sum := by
  have pairs (place : Span → Option Nat) :
      spans.zip (spans.map place) = spans.map fun span => (span, place span) := by
    simpa using @List.zip_map' _ _ _ id place spans
  rw [problem.scoreWith_eq_sum secondOrder known, Parents.bySlot, pairs, List.map_map]
  simp only [Function.comp_def, List.find?_eq_bind_findIdx?_getElem?, Option.map_bind]

theorem score_perm (problem : Problem EReal) (secondOrder : Bool) {parse : Parse}
    (contiguous : parse.Contiguous) (distinct : (parse.spans.map Span.item).Nodup)
    (starts : parse.start = 0) (stops : parse.stop = problem.length)
    (known : ∀ span ∈ parse.spans, problem.grammar.contains span.rule = true)
    (perm : spans.Perm parse.spans) :
    problem.score secondOrder spans = problem.score secondOrder parse.spans := by
  have treelike := Parse.treelike contiguous distinct
  have known' : ∀ span ∈ spans, problem.grammar.contains span.rule = true :=
    fun span member => known span (perm.mem_iff.mp member)
  rw [score, score, Parse.ofTree_eq contiguous distinct perm starts stops,
    Parse.ofTree_eq contiguous distinct (.refl _) starts stops]
  refine (problem.scoreWith_bySlot secondOrder known').trans ?_
  refine Eq.trans ?_ (problem.scoreWith_bySlot secondOrder known).symm
  simp only [treelike.find?_perm perm]
  exact congrArg Except.ok (perm.map _).sum_eq

end Problem

end Constituency
