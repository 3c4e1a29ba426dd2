import Mathlib
import Constituency.Proofs.HillClimb
import Constituency.Proofs.SpanOrder
import Constituency.Proofs.UnaryRules

/-!
Local optima. Every sweep that takes a move brings a climb to a higher score, so that it comes to
no tree twice, and only finitely many trees stand over a sentence. Given enough sweeps a climb ends
with one that takes no move, at a tree from which none leads higher.
-/

namespace Constituency

open Relation

instance : Finite Head := by
  refine Finite.of_injective (fun head : Head => (head.label, head.top)) ?_
  rintro ⟨label, top⟩ ⟨label', top'⟩ same
  obtain ⟨rfl, rfl⟩ := Prod.mk.inj same
  rfl

theorem Tree.finite_leaves (positions : List Nat) :
    {tree : Tree | tree.leaves = positions}.Finite := by
  induction size : positions.length using Nat.strong_induction_on generalizing positions with
  | h size ih =>
    subst size
    let within := {count | 0 < count ∧ count < positions.length}
    let divided (count : Nat) : Set Tree :=
      Set.image2 (fun head (pair : Tree × Tree) => branch head pair.1 pair.2) Set.univ
        ({left | left.leaves = positions.take count} ×ˢ
          {right | right.leaves = positions.drop count})
    have single : (Set.image2 leaf Set.univ {position | position ∈ positions}).Finite :=
      Set.finite_univ.image2 _ positions.finite_toSet
    have each : ∀ count ∈ within, (divided count).Finite := by
      rintro count ⟨some, less⟩
      have left := ih (positions.take count).length (by rw [List.length_take]; omega) _ rfl
      have right := ih (positions.drop count).length (by rw [List.length_drop]; omega) _ rfl
      exact Set.finite_univ.image2 _ (left.prod right)
    have counts : within.Finite :=
      (Set.finite_lt_nat positions.length).subset fun _ inside => inside.2
    refine (single.union (counts.biUnion each)).subset ?_
    rintro (⟨head, position⟩ | ⟨head, left, right⟩) whole
    · have member : position ∈ positions := whole ▸ List.mem_singleton_self position
      exact .inl ⟨head, trivial, position, member, rfl⟩
    · have both : positions = left.leaves ++ right.leaves := whole.symm
      obtain ⟨_, onLeft⟩ := left.exists_leaves_cons
      obtain ⟨_, onRight⟩ := right.exists_leaves_cons
      have inside : left.leaves.length ∈ within := by
        simp [within, both, onLeft, onRight]
      refine .inr (Set.mem_biUnion inside ⟨head, trivial, (left, right), ⟨?_, ?_⟩, rfl⟩)
      · simp [both]
      · simp [both]

namespace Climb

variable {problem : Problem EReal} {secondOrder : Bool} {climb last : Climb EReal} {sweeps : Nat}
  {later : List EReal}

/-- The last of some scores is the one before it once more: with a sweep that takes a move the score
rises, so that a climb with these scores has ended with one that takes none. -/
def Rests (scores : List EReal) : Prop := ∃ earlier score, scores = earlier ++ [score, score]

/-- The trees that moves lead to from the tree reached, of no lower score. -/
def ahead (problem : Problem EReal) (secondOrder : Bool) (climb : Climb EReal) : Set Tree :=
  {other | ReflTransGen problem.Move climb.tree other ∧
    ∀ score, treeScore problem secondOrder other = .ok score → climb.score ≤ score}

theorem finite_reached {tree : Tree} (derives : problem.Derives tree) :
    {other | ReflTransGen problem.Move tree other}.Finite := by
  refine (Tree.finite_leaves (List.range' 0 problem.length)).subset fun other reaches => ?_
  exact (derives.of_reaches reaches).leaves_eq

theorem Stands.mem_ahead (stands : climb.Stands problem secondOrder) :
    climb.tree ∈ climb.ahead problem secondOrder := by
  refine ⟨.refl, fun score scored => ?_⟩
  rw [Except.ok.inj (scored.symm.trans stands.scored)]

theorem Stands.finite_ahead (stands : climb.Stands problem secondOrder) :
    (climb.ahead problem secondOrder).Finite :=
  (finite_reached stands.derives).subset fun _ member => member.1

namespace Course

variable (course : Course problem secondOrder sweeps climb later last)

include course

theorem isChain_le : (climb.score :: later).IsChain (· ≤ ·) := by
  induction course with
  | out => exact .singleton _
  | rest _ _ score => exact .cons_cons score.ge (.singleton _)
  | rise _ _ higher _ ih => exact .cons_cons higher.le ih

theorem isChain_lt : (climb.score :: later).dropLast.IsChain (· < ·) := by
  induction course with
  | out => exact .nil
  | rest => exact .singleton _
  | @rise _ _ _ _ later _ _ higher _ ih =>
    rw [List.dropLast_cons_cons]
    cases later with
    | nil => exact .singleton _
    | cons score later => exact .cons_cons higher ih

theorem rests_or_out : Rests (climb.score :: later) ∨ later.length = sweeps := by
  induction course with
  | out => exact .inr rfl
  | rest _ _ score => exact .inl ⟨[], _, by rw [score]; rfl⟩
  | @rise _ climb _ _ _ _ _ _ _ ih =>
    refine ih.imp ?_ (congrArg (· + 1))
    rintro ⟨earlier, score, whole⟩
    exact ⟨climb.score :: earlier, score, by rw [whole]; rfl⟩

theorem peak (rests : Rests (climb.score :: later)) :
    ∀ path, last.PeakAt problem secondOrder path := by
  obtain ⟨earlier, score, whole⟩ := rests
  induction course generalizing earlier with
  | out =>
    have length := congrArg List.length whole
    simp at length
  | rest _ _ _ peak => exact peak
  | rise _ _ higher _ ih =>
    cases earlier with
    | nil =>
      obtain ⟨first, rest⟩ := List.cons.inj whole
      obtain ⟨second, _⟩ := List.cons.inj rest
      exact absurd higher (first.trans second.symm).not_lt
    | cons _ earlier => exact ih earlier (List.cons.inj whole).2

/-- A climb that runs out of sweeps has come by more trees than it had sweeps: each sweep leaves one
behind for good. -/
theorem rests_or_lt :
    Rests (climb.score :: later) ∨ sweeps < (climb.ahead problem secondOrder).ncard := by
  induction course with
  | out stands => exact .inr ((Set.ncard_pos stands.finite_ahead).mpr ⟨_, stands.mem_ahead⟩)
  | rest _ _ score => exact .inl ⟨[], _, by rw [score]; rfl⟩
  | @rise _ climb next _ _ stands moves higher _ ih =>
    refine ih.imp ?_ fun less => ?_
    · rintro ⟨earlier, score, whole⟩
      exact ⟨climb.score :: earlier, score, by rw [whole]; rfl⟩
    · have fewer : next.ahead problem secondOrder ⊂ climb.ahead problem secondOrder := by
        refine ⟨fun other member => ?_, fun all => ?_⟩
        · exact ⟨moves.to_reflTransGen.trans member.1, fun score scored =>
            higher.le.trans (member.2 score scored)⟩
        · exact higher.not_ge ((all stands.mem_ahead).2 _ stands.scored)
      exact Nat.lt_of_le_of_lt less (Set.ncard_lt_ncard fewer stands.finite_ahead)

end Course

/-- Hill climbing from any spans that are made into a tree over the sentence, if their rules are in
the grammar. The scores rise from sweep to sweep, except that the last one may be the one before; it
is then the score of a tree from which no move leads higher. That is how the climb ends if it is
given as many sweeps as there are trees to reach. -/
theorem ofSpans_ends_at_peak (served : problem.grammar.Served) {spans : List Span} {tree : Tree}
    (plain : ∀ span ∈ spans, span.Plain)
    (made : Tree.ofSpans spans problem.length = .ok tree)
    (known : ∀ span ∈ spans, problem.grammar.contains span.rule = true) (secondOrder : Bool)
    (maxSweeps : Nat) :
    ∃ climb score, Climb.ofSpans problem secondOrder maxSweeps spans = .ok climb ∧
      problem.score secondOrder spans = .ok score ∧
      (score :: climb.trace).IsChain (· ≤ ·) ∧ (score :: climb.trace).dropLast.IsChain (· < ·) ∧
      (∀ entry ∈ climb.trace, score ≤ entry) ∧
      Parents.ofTree climb.derivation.spans problem.length = .ok climb.tree.parents ∧
      problem.score secondOrder climb.derivation.spans = .ok climb.derivation.score ∧
      climb.tree.nodeCount = tree.nodeCount ∧
      (Rests (score :: climb.trace) → ∀ path,
        ∀ other ∈ climb.tree.moves problem.grammar problem.sentence path,
          ∃ lower, problem.score secondOrder other.spans = .ok lower ∧ lower ≤ climb.score) ∧
      (Rests (score :: climb.trace) ∨ climb.trace.length = maxSweeps) ∧
      {other | ReflTransGen problem.Move tree other}.Finite ∧
      ({other | ReflTransGen problem.Move tree other}.ncard ≤ maxSweeps →
        Rests (score :: climb.trace)) := by
  have tables := served.unaryTables
  have perm := Tree.perm_of_ofSpans made plain
  obtain ⟨contiguous, starts, stops⟩ := Tree.of_ofSpans made
  have derives : problem.Derives tree :=
    ⟨contiguous, starts, stops, fun span member => known span (perm.mem_iff.mpr member)⟩
  obtain ⟨score, climb, scored, ok, course⟩ :=
    @exists_course problem secondOrder tables _ _ made derives.known maxSweeps
  have reached := derives.of_reaches course.reaches
  have chain := course.isChain_le
  have listed : climb.derivation.spans = climb.tree.spans := course.stands.listed
  refine ⟨climb, score, ok, ?_, chain, course.isChain_lt, ?_, listed ▸ reached.accepted tables,
    listed ▸ ?_, ?_, ?_, course.rests_or_out, finite_reached derives, ?_⟩
  · rw [problem.score_perm secondOrder contiguous (derives.distinct tables)
      (tree.start_parse.trans starts) (tree.stop_parse.trans stops) derives.known perm,
      ← Tree.spans_eq contiguous, derives.score_spans secondOrder tables, scored]
  · exact fun entry member => List.rel_of_pairwise_cons chain.pairwise member
  · exact (reached.score_spans secondOrder tables).trans course.stands.scored
  · have before := derives.nodeCount_eq
    have after := reached.nodeCount_eq
    omega
  · intro rests path other member
    rw [(reached.admitted ⟨path, member⟩).1.score_spans secondOrder tables]
    exact course.peak rests path other member
  · intro enough
    refine course.rests_or_lt.resolve_right (Nat.not_lt.mpr (le_trans ?_ enough))
    exact Set.ncard_le_ncard (fun _ member => member.1) (finite_reached derives)

section Row

open Grammar

theorem ofSpans_ends_at_peak_row : ∃ sweeps climb score,
    Climb.ofSpans (.uniform row twoWords) true sweeps Tree.relabelled.spans = .ok climb ∧
      Rests (score :: climb.trace) ∧ ∀ path, ∀ other ∈ climb.tree.moves row twoWords path,
        ∃ lower, (Problem.uniform row twoWords).score true other.spans = .ok lower ∧
          lower ≤ climb.score := by
  have contiguous : Tree.relabelled.parse.Contiguous :=
    Tree.contiguous_branch.mpr ⟨rfl, trivial, trivial⟩
  have spans := Tree.spans_eq contiguous
  have parses : (Problem.uniform row twoWords).Parses Tree.relabelled.parse :=
    Problem.row_parses _ _
  have made : Tree.ofSpans Tree.relabelled.spans 2 = .ok Tree.relabelled :=
    Tree.ofSpans_spans contiguous (by decide) rfl rfl
  have plain : ∀ span ∈ Tree.relabelled.spans, span.Plain := spans ▸ Parse.plain
  have known : ∀ span ∈ Tree.relabelled.spans, row.contains span.rule = true :=
    spans ▸ parses.admits.contains_rule row_built.coherent
  obtain ⟨climb, score, ok, _, _, _, _, _, _, _, peak, _, _, ends⟩ :=
    @ofSpans_ends_at_peak (.uniform row twoWords) row_built.served _ _ plain made known true
      {other | ReflTransGen (Problem.uniform row twoWords).Move Tree.relabelled other}.ncard
  exact ⟨_, climb, score, ok, ends le_rfl, peak (ends le_rfl)⟩

end Row

end Climb

end Constituency
