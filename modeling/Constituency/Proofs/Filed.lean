import Constituency.Grammar.Build
import Constituency.Proofs.Numbering

/-!
Numbered rules filed under their parents: the numbers under a parent are those of its rules, in the
order in which the rules came.
-/

namespace Constituency.Grammar

variable {R : Type}

def numbersUnder (parentOf : R → Label) (rules : List R) (parent : Label) : List Nat :=
  (rules.zipIdx.filter fun (rule, _) => parentOf rule = parent).map Prod.snd

theorem mem_numbersUnder {parentOf : R → Label} {rules : List R} {parent : Label}
    {number : Nat} :
    number ∈ numbersUnder parentOf rules parent ↔
      ∃ rule, rules[number]? = some rule ∧ parentOf rule = parent := by
  simp [numbersUnder, List.mem_zipIdx_iff_getElem?]

variable [BEq R] [Hashable R]

structure Filed (parentOf : R → Label) (rules : Numbering R)
    (index : Std.HashMap Label (Array Nat)) : Prop where
  sound : rules.Sound
  size_le : rules.size ≤ numberLimit
  index_eq : ∀ parent,
    (index.getD parent #[]).toList = numbersUnder parentOf rules.toList parent

namespace Filed

variable {parentOf : R → Label}

theorem empty : Filed parentOf .empty {} :=
  ⟨.empty, by simp, by simp [numbersUnder]⟩

variable [LawfulBEq R] [LawfulHashable R]

theorem push {rules : Numbering R} {index : Std.HashMap Label (Array Nat)}
    (filed : Filed parentOf rules index) {rule : R} (new : rules.find? rule = none)
    (room : rules.size < numberLimit) :
    Filed parentOf (rules.push rule) (fileUnder index (parentOf rule) rules.size) := by
  refine ⟨filed.sound.push new, by rw [Numbering.size_push]; exact room, ?_⟩
  intro parent
  have old := filed.index_eq parent
  rw [Std.HashMap.getD_eq_getD_getElem?] at old
  by_cases same : parentOf rule = parent
  · subst same
    rw [fileUnder, Std.HashMap.getD_eq_getD_getElem?, Std.HashMap.getElem?_alter_self,
      Option.getD_some, Array.toList_push, old]
    simp [numbersUnder, List.zipIdx_append, Numbering.length_toList]
  · have other : (parentOf rule == parent) = false := by simpa using same
    rw [fileUnder, Std.HashMap.getD_eq_getD_getElem?, Std.HashMap.getElem?_alter, other]
    simpa [numbersUnder, List.zipIdx_append, same] using old

end Filed

end Constituency.Grammar
