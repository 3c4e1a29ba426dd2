import Constituency.Proofs.Filed
import Constituency.Proofs.UnaryGraph

/-!
The bottom-up order of the unary rules. Rules without a cycle give labels a rank below the number
of labels, which falls from the parent to the child of every rule, and the order goes by the rank
of the children; so no rule builds a label that an earlier rule has used.
-/

namespace Constituency.Grammar

open Fold UnaryGraph

def UnaryStep (grammar : Grammar) (parent child : Label) : Prop :=
  ⟨parent, child⟩ ∈ grammar.unaryRules.toList

/-- No chain of unary rules leads from a label back to it. -/
def Acyclic (grammar : Grammar) : Prop :=
  ∀ label, ¬ Relation.TransGen grammar.UnaryStep label label

def Registered (grammar : Grammar) (label : Label) : Prop := label.toNat < grammar.labelCount

theorem mem_allLabels {grammar : Grammar} {label : Label} :
    label ∈ grammar.allLabels ↔ grammar.Registered label :=
  Label.mem_first grammar.labelCount label

structure Ranked (grammar : Grammar) (rank : Label → Nat) : Prop where
  bounded : ∀ label, grammar.Registered label → rank label < grammar.labelCount
  falls : ∀ rule ∈ grammar.unaryRules.toList, rank rule.child < rank rule.parent

/-- What the unary rules of a grammar are known by: their table, with labels of the label table
only. -/
structure UnaryFiled (grammar : Grammar) : Prop where
  filed : Filed UnaryRule.parent grammar.unaryRules grammar.unaryByParent
  registered : ∀ rule ∈ grammar.unaryRules.toList,
    grammar.Registered rule.parent ∧ grammar.Registered rule.child

/-- The tables of the unary rules fit together: each rule has a number, under which it is listed at
its parent and comes once in the order of the rules, and none goes from a label to itself. -/
structure UnaryTables (grammar : Grammar) : Prop where
  filed : Filed UnaryRule.parent grammar.unaryRules grammar.unaryByParent
  apart : ∀ rule ∈ grammar.unaryRules.toList, rule.parent ≠ rule.child
  order : grammar.unaryOrder.Perm (List.range grammar.unaryRules.size)

variable {grammar : Grammar}

theorem UnaryTables.contains_iff (tables : grammar.UnaryTables) (rule : UnaryRule) :
    grammar.contains (.unary rule) = true ↔ rule ∈ grammar.unaryRules.toList :=
  tables.filed.sound.find?_isSome_iff rule

theorem Ranked.acyclic {rank : Label → Nat} (ranked : grammar.Ranked rank) : grammar.Acyclic := by
  intro label round
  have falls {parent child : Label} (down : Relation.TransGen grammar.UnaryStep parent child) :
      rank child < rank parent := by
    induction down with
    | single step => exact ranked.falls _ step
    | tail _ step ih => exact (ranked.falls _ step).trans ih
  exact Nat.lt_irrefl _ (falls round)

namespace UnaryFiled

theorem mem_unaryChildren (filed : grammar.UnaryFiled) (parent child : Label) :
    child ∈ grammar.unaryChildren parent ↔ grammar.UnaryStep parent child := by
  have numbers : grammar.unaryWithParent parent =
      numbersUnder UnaryRule.parent grammar.unaryRules.toList parent :=
    filed.filed.index_eq parent
  have step : grammar.UnaryStep parent child ↔
      ∃ number : Nat, grammar.unaryRules.toList[number]? = some ⟨parent, child⟩ :=
    List.mem_iff_getElem?
  simp only [step, unaryChildren, List.mem_filterMap, numbers, mem_numbersUnder, unaryRule?,
    Option.map_eq_some_iff, Numbering.get?_eq]
  constructor
  · intro found
    obtain ⟨number, ⟨rule, found, rfl⟩, rule', found', rfl⟩ := found
    rw [found] at found'
    cases found'
    exact ⟨number, found⟩
  · intro found
    obtain ⟨number, found⟩ := found
    exact ⟨number, ⟨_, found, rfl⟩, _, found, rfl⟩

theorem exists_left (filed : grammar.UnaryFiled) (acyclic : grammar.Acyclic) :
    ∃ left, leavingOrder grammar.labelCount grammar.unaryChildren = .ok left ∧
      Settled grammar.labelCount grammar.unaryChildren left ∧
      ∀ label, grammar.Registered label → label ∈ left.toList := by
  have ends := leavingOrder_ends grammar.labelCount grammar.unaryChildren
  cases result : leavingOrder grammar.labelCount grammar.unaryChildren with
  | error cycle =>
    rw [result] at ends
    obtain ⟨label, round⟩ := IsCycle.transGen ends
    have along : ∀ parent child, child ∈ grammar.unaryChildren parent →
        grammar.UnaryStep parent child :=
      fun parent child => (filed.mem_unaryChildren parent child).mp
    exact absurd (Relation.TransGen.mono along _ _ round) (acyclic label)
  | ok left =>
    rw [result] at ends
    exact ⟨left, rfl, ends.1, ends.2⟩

theorem unaryCycle?_eq_none (filed : grammar.UnaryFiled) (acyclic : grammar.Acyclic) :
    grammar.unaryCycle? = none := by
  obtain ⟨left, ok, _⟩ := filed.exists_left acyclic
  rw [unaryCycle?, ok]

theorem ranked_of_left (filed : grammar.UnaryFiled) {left : Numbering Label}
    (settled : Settled grammar.labelCount grammar.unaryChildren left)
    (all : ∀ label, grammar.Registered label → label ∈ left.toList) :
    grammar.Ranked fun label => (left.find? label).getD 0 := by
  have number_of {label : Label} (registered : grammar.Registered label) :
      ∃ number, left.find? label = some number :=
    Option.isSome_iff_exists.mp
      ((settled.sound.find?_isSome_iff label).mpr (all label registered))
  constructor
  · intro label registered
    obtain ⟨number, found⟩ := number_of registered
    have few := length_le_of_distinct settled.sound.toList_nodup settled.bounded
    have inside := settled.sound.lt_size found
    rw [Numbering.length_toList] at few
    rw [found, Option.getD_some]
    exact Nat.lt_of_lt_of_le inside few
  · intro rule member
    obtain ⟨parent, child⟩ := filed.registered rule member
    obtain ⟨number, found⟩ := number_of parent
    obtain ⟨earlier, before, foundChild⟩ := settled.ordered rule.parent number found rule.child
      ((filed.mem_unaryChildren _ _).mpr member) child
    simpa [found, foundChild] using before

theorem exists_ranked (filed : grammar.UnaryFiled) (acyclic : grammar.Acyclic) :
    ∃ rank, grammar.Ranked rank := by
  obtain ⟨left, _, settled, all⟩ := filed.exists_left acyclic
  exact ⟨_, filed.ranked_of_left settled all⟩

theorem unaryCycle?_ends (filed : grammar.UnaryFiled) :
    grammar.Acyclic ∧ grammar.unaryCycle? = none ∨ ¬ grammar.Acyclic ∧
      ∃ cycle, IsCycle grammar.unaryChildren cycle ∧ grammar.unaryCycle? = some cycle := by
  by_cases acyclic : grammar.Acyclic
  · exact .inl ⟨acyclic, filed.unaryCycle?_eq_none acyclic⟩
  · have ends := leavingOrder_ends grammar.labelCount grammar.unaryChildren
    rw [unaryCycle?]
    cases result : leavingOrder grammar.labelCount grammar.unaryChildren with
    | error cycle =>
      rw [result] at ends
      exact .inr ⟨acyclic, cycle, ends, rfl⟩
    | ok left =>
      rw [result] at ends
      exact absurd (filed.ranked_of_left ends.1 ends.2).acyclic acyclic

end UnaryFiled

/-- The numbers of rules in an order in which no rule builds what an earlier one has used. -/
def Ascends (grammar : Grammar) (numbers : List Nat) : Prop :=
  numbers.Pairwise fun earlier later => ∀ rule rule', grammar.unaryRule? earlier = some rule →
    grammar.unaryRule? later = some rule' → rule'.parent ≠ rule.child

theorem bottomUpOrder_perm (grammar : Grammar) :
    grammar.bottomUpOrder.Perm (List.range grammar.unaryRules.size) := by
  rw [bottomUpOrder]
  cases leavingOrder grammar.labelCount grammar.unaryChildren with
  | error cycle => exact .refl _
  | ok left => exact List.mergeSort_perm _ _

theorem UnaryFiled.ascends_bottomUpOrder (filed : grammar.UnaryFiled)
    (acyclic : grammar.Acyclic) : grammar.Ascends grammar.bottomUpOrder := by
  obtain ⟨left, ok, settled, all⟩ := filed.exists_left acyclic
  have ranked := filed.ranked_of_left settled all
  rw [Ascends, bottomUpOrder, ok]
  refine (List.pairwise_mergeSort (by simp; omega) (by simp; omega) _).imp ?_
  intro earlier later sorted rule rule' found found' same
  have falls := ranked.falls rule'
    ((Numbering.mem_toList_iff _ _).mpr ⟨later, found'⟩)
  simp only [found, found', Option.bind_some, decide_eq_true_eq] at sorted
  rw [same] at falls
  exact Nat.not_lt.mpr sorted falls

end Constituency.Grammar
