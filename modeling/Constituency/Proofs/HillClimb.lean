import Mathlib
import Constituency.Search.Climb
import Constituency.Proofs.ParseScore
import Constituency.Proofs.TreeMoves

/-!
Hill climbing. From a tree of known rules over all words every climb goes on to its end. A sweep
either finds that no move leads higher or takes moves that do, and the score that the climb keeps is
that of the tree it has reached; from a parse of the sentence it keeps to parses.
-/

namespace Constituency

open Score

section Total

variable {α : Type} [Score α]

theorem Problem.exists_scoreWith (problem : Problem α) (secondOrder : Bool) {spans : List Span}
    (known : ∀ span ∈ spans, problem.grammar.contains span.rule = true) (parents : Parents) :
    ∃ score, problem.scoreWith secondOrder spans parents = .ok score := by
  obtain ⟨score, ok, _⟩ := @Fold.exists_foldlM _ _ _ (fun _ : α => True)
    (fun total (entry : Span × Option Nat) => problem.addSpan total entry.1
      (if secondOrder then entry.2.bind fun p => spans[p]?.map Span.label else none))
    (spans.zip parents)
    (fun entry member total _ => by
      obtain ⟨next, ok⟩ := problem.exists_addSpan total (known _ (List.of_mem_zip member).1) _
      exact ⟨next, ok, trivial⟩)
    zero trivial
  exact ⟨score, ok⟩

end Total

section Trees

variable {α : Type} {problem : Problem α} {tree other : Tree}

/-- A tree over all words of the sentence with rules of the grammar. A label of it may still stand
over a word that does not take it, or at the root without being accepted there. -/
structure Problem.Derives (problem : Problem α) (tree : Tree) : Prop where
  contiguous : tree.parse.Contiguous
  starts : tree.start = 0
  stops : tree.stop = problem.length
  known : ∀ span ∈ tree.parse.spans, problem.grammar.contains span.rule = true

def Problem.Move (problem : Problem α) (tree other : Tree) : Prop :=
  ∃ path, other ∈ tree.moves problem.grammar problem.sentence path

theorem Problem.Parses.derives (coherent : problem.grammar.Coherent)
    (parses : problem.Parses tree.parse) : problem.Derives tree where
  contiguous := parses.admits.contiguous
  starts := tree.start_parse.symm.trans parses.start_eq
  stops := tree.stop_parse.symm.trans parses.stop_eq
  known := parses.admits.contains_rule coherent

namespace Problem.Derives

variable (derives : problem.Derives tree)

include derives

theorem leaves_eq : tree.leaves = List.range' 0 problem.length := by
  rw [Tree.leaves_of_contiguous derives.contiguous, derives.starts, derives.stops, Nat.sub_zero]

theorem nodeCount_eq : tree.nodeCount + 1 = 2 * problem.length := by
  rw [tree.nodeCount_eq, derives.leaves_eq, List.length_range']

theorem admitted (move : problem.Move tree other) :
    problem.Derives other ∧ other.admits problem.grammar problem.sentence = true := by
  obtain ⟨path, member⟩ := move
  obtain ⟨leaves, admitted, _⟩ :=
    Tree.of_mem_moves derives.contiguous derives.starts derives.stops member
  obtain ⟨contiguous, starts, stops⟩ := Tree.contiguous_of_leaves leaves
  refine ⟨⟨contiguous, starts, stops.trans (Nat.zero_add _), fun span inside => ?_⟩, admitted⟩
  exact (((Tree.admits_iff contiguous).mp admitted).1 span inside).1

theorem of_reaches (reaches : Relation.ReflTransGen problem.Move tree other) :
    problem.Derives other := by
  induction reaches with
  | refl => exact derives
  | tail _ move ih => exact (ih.admitted move).1

theorem distinct (tables : problem.grammar.UnaryTables) :
    (tree.parse.spans.map Span.item).Nodup :=
  derives.contiguous.nodup_items tree.flat_parse
    (tables.item_not_mem_slots derives.contiguous derives.known)

theorem reread (tables : problem.grammar.UnaryTables) :
    Tree.ofSpans tree.spans problem.length = .ok tree :=
  Tree.ofSpans_spans derives.contiguous (derives.distinct tables) derives.starts derives.stops

theorem accepted (tables : problem.grammar.UnaryTables) :
    Parents.ofTree tree.spans problem.length = .ok tree.parents :=
  Tree.ofTree_spans derives.contiguous (derives.distinct tables) derives.starts derives.stops

variable [Score α] (secondOrder : Bool)

theorem exists_treeScore : ∃ score, Climb.treeScore problem secondOrder tree = .ok score := by
  refine problem.exists_scoreWith secondOrder (fun span member => ?_) tree.parents
  rw [Tree.spans_eq derives.contiguous] at member
  exact derives.known span member

theorem score_spans (tables : problem.grammar.UnaryTables) :
    problem.score secondOrder tree.spans = Climb.treeScore problem secondOrder tree := by
  rw [score, derives.accepted tables]
  rfl

end Problem.Derives

theorem Problem.Parses.of_reaches (coherent : problem.grammar.Coherent)
    (parses : problem.Parses tree.parse)
    (reaches : Relation.ReflTransGen problem.Move tree other) : problem.Parses other.parse := by
  have derives := parses.derives coherent
  induction reaches with
  | refl => exact parses
  | tail reaches move _ =>
    obtain ⟨derives', admitted⟩ := (derives.of_reaches reaches).admitted move
    exact (Tree.admits_iff_parses coherent derives'.contiguous derives'.starts derives'.stops).mp
      admitted

end Trees

namespace Climb

open Relation

variable {problem : Problem EReal} {secondOrder : Bool} {climb next last : Climb EReal}

/-- The best of some trees, if one of them scores more than `score`. -/
def IsBest (problem : Problem EReal) (secondOrder : Bool) (score : EReal) (trees : List Tree) :
    Option (Tree × EReal) → Prop
  | none => ∀ tree ∈ trees, ∃ lower, treeScore problem secondOrder tree = .ok lower ∧ lower ≤ score
  | some (tree, top) =>
    tree ∈ trees ∧ treeScore problem secondOrder tree = .ok top ∧ score < top

theorem exists_bestAbove (score : EReal) {trees : List Tree}
    (scored : ∀ tree ∈ trees, ∃ score, treeScore problem secondOrder tree = .ok score) :
    ∃ best, bestAbove problem secondOrder score trees = .ok best ∧
      IsBest problem secondOrder score trees best := by
  have ends : Fold.Ends (IsBest problem secondOrder score trees) (fun _ => False)
      (bestAbove problem secondOrder score trees) := by
    refine Fold.foldlM_ends (IsBest problem secondOrder score) (by simp [IsBest]) ?_
    intro earlier tree later best whole isBest
    obtain ⟨candidate, ok⟩ := scored tree (by simp [whole])
    rw [ok]
    simp only [bind, Except.bind, pure, Except.pure]
    split
    · rename_i better
      refine ⟨by simp, ok, ?_⟩
      cases best with
      | none => exact better
      | some found => exact isBest.2.2.trans better
    · rename_i enough
      cases best with
      | none =>
        intro other member
        rcases List.mem_append.mp member with before | here
        · exact isBest other before
        · rw [List.mem_singleton.mp here]
          exact ⟨candidate, ok, not_lt.mp enough⟩
      | some found => exact ⟨List.mem_append_left _ isBest.1, isBest.2⟩
  exact ends.exists_ok

/-- The tree reached is one over all words with known rules, and the climb keeps its score and its
spans. -/
structure Stands (problem : Problem EReal) (secondOrder : Bool) (climb : Climb EReal) : Prop where
  derives : problem.Derives climb.tree
  scored : treeScore problem secondOrder climb.tree = .ok climb.score
  listed : climb.spans = climb.tree.spans

def PeakAt (problem : Problem EReal) (secondOrder : Bool) (climb : Climb EReal) (path : Path) :
    Prop :=
  ∀ other ∈ climb.tree.moves problem.grammar problem.sentence path,
    ∃ lower, treeScore problem secondOrder other = .ok lower ∧ lower ≤ climb.score

/-- What trying the nodes at some places comes to: no move at them leads higher, or moves have been
taken and did. -/
inductive Tries (problem : Problem EReal) (secondOrder : Bool) (places : List Nat)
    (climb next : Climb EReal) : Prop
  | rests (tree : next.tree = climb.tree) (score : next.score = climb.score)
    (count : next.counts.improvements = climb.counts.improvements)
    (peak : ∀ place ∈ places, ∀ path, climb.tree.paths[place]? = some path →
      climb.PeakAt problem secondOrder path)
  | rises (moves : TransGen problem.Move climb.tree next.tree) (higher : climb.score < next.score)
    (count : climb.counts.improvements < next.counts.improvements)

theorem Tries.trans {places more : List Nat} (first : Tries problem secondOrder places climb next)
    (second : Tries problem secondOrder more next last) :
    Tries problem secondOrder (places ++ more) climb last := by
  cases first with
  | rests tree score count peak =>
    cases second with
    | rests tree' score' count' peak' =>
      refine .rests (tree'.trans tree) (score'.trans score) (count'.trans count) ?_
      intro place member path here
      rcases List.mem_append.mp member with before | after
      · exact peak place before path here
      · have still := peak' place after path (tree.symm ▸ here)
        rwa [PeakAt, tree, score] at still
    | rises moves higher count' =>
      rw [tree] at moves
      rw [score] at higher
      exact .rises moves higher (count ▸ count')
  | rises moves higher count =>
    cases second with
    | rests tree' score' count' _ =>
      exact .rises (tree'.symm ▸ moves) (score'.symm ▸ higher) (count'.symm ▸ count)
    | rises moves' higher' count' =>
      exact .rises (moves.trans moves') (higher.trans higher') (count.trans count')

theorem improveFrom_of_none {place : Nat} (none : climb.tree.paths[place]? = none) :
    climb.improveFrom problem secondOrder place = .ok climb := by
  rw [Climb.improveFrom, repeatM_eq_of_monadTail, repeatM.body, improveNext, none]
  rfl

theorem improveFrom_of_some {place : Nat} {path : Path}
    (here : climb.tree.paths[place]? = some path) {next : Climb EReal}
    (ok : climb.improveAt problem secondOrder path = .ok next) :
    climb.improveFrom problem secondOrder place =
      next.improveFrom problem secondOrder (place + 1) := by
  rw [Climb.improveFrom, repeatM_eq_of_monadTail, repeatM.body, improveNext, here]
  simp only [ok]
  rfl

section Sweep

variable (tables : problem.grammar.UnaryTables)

include tables

/-- What a move leads to is read again as the same tree, so that no move fails. -/
theorem Stands.improveAt (stands : climb.Stands problem secondOrder) {place : Nat} {path : Path}
    (here : climb.tree.paths[place]? = some path) :
    ∃ next, climb.improveAt problem secondOrder path = .ok next ∧
      next.Stands problem secondOrder ∧ next.trace = climb.trace ∧
      Tries problem secondOrder [place] climb next := by
  have derives (tree : Tree)
      (member : tree ∈ climb.tree.moves problem.grammar problem.sentence path) :
      problem.Derives tree := (stands.derives.admitted ⟨path, member⟩).1
  obtain ⟨best, ok, isBest⟩ := exists_bestAbove climb.score fun tree member =>
    (derives tree member).exists_treeScore secondOrder
  rw [Climb.improveAt]
  simp only [ok, bind, Except.bind]
  cases best with
  | none =>
    refine ⟨_, rfl, ⟨stands.derives, stands.scored, stands.listed⟩, rfl, .rests rfl rfl rfl ?_⟩
    intro place' member path' there
    rw [List.mem_singleton.mp member, here] at there
    obtain rfl := Option.some.inj there
    exact isBest
  | some found =>
    obtain ⟨member, scored, above⟩ := isBest
    simp only [(derives found.1 member).reread tables, Except.mapError]
    exact ⟨_, rfl, ⟨derives found.1 member, scored, rfl⟩, rfl,
      .rises (.single ⟨path, member⟩) above (Nat.lt_succ_self _)⟩

/-- The tree has as many nodes after a move as before, so that its nodes are the places tried. -/
theorem Stands.improveFrom (stands : climb.Stands problem secondOrder) {place left : Nat}
    (ends : climb.tree.nodeCount = place + left) :
    ∃ next, climb.improveFrom problem secondOrder place = .ok next ∧
      next.Stands problem secondOrder ∧ next.trace = climb.trace ∧
      Tries problem secondOrder (List.range' place left) climb next := by
  induction left generalizing place climb with
  | zero =>
    have none : climb.tree.paths[place]? = none := by
      rw [List.getElem?_eq_none_iff, Tree.length_paths, ends]
      rfl
    exact ⟨climb, improveFrom_of_none none, stands, rfl, .rests rfl rfl rfl (by simp)⟩
  | succ left ih =>
    have inside : place < climb.tree.paths.length := by
      rw [Tree.length_paths]
      omega
    have here := List.getElem?_eq_getElem inside
    obtain ⟨next, ok, stands', trace, tries⟩ := stands.improveAt tables here
    have same : next.tree.nodeCount = place + 1 + left := by
      have before := stands.derives.nodeCount_eq
      have after := stands'.derives.nodeCount_eq
      omega
    obtain ⟨last, ok', stands'', trace', tries'⟩ := ih stands' same
    exact ⟨last, (improveFrom_of_some here ok).trans ok', stands'', trace'.trans trace,
      tries.trans tries'⟩

theorem Stands.sweep (stands : climb.Stands problem secondOrder) :
    ∃ next, climb.sweep problem secondOrder = .ok next ∧ next.Stands problem secondOrder ∧
      next.trace = climb.trace ++ [next.score] ∧
      Tries problem secondOrder (List.range climb.tree.nodeCount) climb next := by
  let begun := { climb with counts := { climb.counts with sweeps := climb.counts.sweeps + 1 } }
  have stands' : begun.Stands problem secondOrder :=
    ⟨stands.derives, stands.scored, stands.listed⟩
  obtain ⟨last, ok, stands'', trace, tries⟩ :=
    stands'.improveFrom tables (Nat.zero_add begun.tree.nodeCount).symm
  refine ⟨{ last with trace := last.trace ++ [last.score] }, ?_,
    ⟨stands''.derives, stands''.scored, stands''.listed⟩, by rw [trace], ?_⟩
  · rw [Climb.sweep, ok]
    rfl
  · rw [List.range_eq_range']
    cases tries with
    | rests tree score count peak => exact .rests tree score count peak
    | rises moves higher count => exact .rises moves higher count

end Sweep

/-- The course of a climb: it rises from sweep to sweep until no sweep is left or a sweep finds
nothing better. The scores after the sweeps are listed. -/
inductive Course (problem : Problem EReal) (secondOrder : Bool) :
    Nat → Climb EReal → List EReal → Climb EReal → Prop
  | out {climb : Climb EReal} (stands : climb.Stands problem secondOrder) :
    Course problem secondOrder 0 climb [] climb
  | rest {sweeps : Nat} {climb last : Climb EReal} (stands : last.Stands problem secondOrder)
    (tree : last.tree = climb.tree) (score : last.score = climb.score)
    (peak : ∀ path, last.PeakAt problem secondOrder path) :
    Course problem secondOrder (sweeps + 1) climb [last.score] last
  | rise {sweeps : Nat} {climb next last : Climb EReal} {later : List EReal}
    (stands : climb.Stands problem secondOrder)
    (moves : TransGen problem.Move climb.tree next.tree) (higher : climb.score < next.score)
    (course : Course problem secondOrder sweeps next later last) :
    Course problem secondOrder (sweeps + 1) climb (next.score :: later) last

theorem Stands.run (tables : problem.grammar.UnaryTables)
    (stands : climb.Stands problem secondOrder) (sweeps : Nat) :
    ∃ last later, climb.run problem secondOrder sweeps = .ok last ∧
      last.trace = climb.trace ++ later ∧ Course problem secondOrder sweeps climb later last := by
  induction sweeps generalizing climb with
  | zero => exact ⟨climb, [], rfl, (List.append_nil _).symm, .out stands⟩
  | succ sweeps ih =>
    obtain ⟨next, ok, stands', trace, tries⟩ := stands.sweep tables
    simp only [Climb.run, ok, bind, Except.bind]
    cases tries with
    | rests tree score count peak =>
      rw [if_neg count.not_gt]
      refine ⟨next, [next.score], rfl, trace, .rest stands' tree score fun path => ?_⟩
      rw [PeakAt, tree, score]
      intro other member
      obtain ⟨place, inside, here⟩ := Tree.exists_place_of_mem_moves member
      exact peak place (List.mem_range.mpr inside) path here other member
    | rises moves higher count =>
      rw [if_pos count]
      obtain ⟨last, later, ok', trace', course⟩ := ih stands'
      refine ⟨last, next.score :: later, ok', ?_, .rise stands moves higher course⟩
      rw [trace', trace, List.append_assoc]
      rfl

namespace Course

variable {sweeps : Nat} {later : List EReal}
  (course : Course problem secondOrder sweeps climb later last)

include course

theorem stands : last.Stands problem secondOrder := by
  induction course with
  | out stands => exact stands
  | rest stands => exact stands
  | rise _ _ _ _ ih => exact ih

theorem reaches : ReflTransGen problem.Move climb.tree last.tree := by
  induction course with
  | out => exact .refl
  | rest _ tree => exact tree ▸ .refl
  | rise _ moves _ _ ih => exact moves.to_reflTransGen.trans ih

theorem above : climb.score ≤ last.score := by
  induction course with
  | out => exact le_rfl
  | rest _ _ score => exact score.ge
  | rise _ _ higher _ ih => exact higher.le.trans ih

end Course

/-- A climb from spans of known rules that are made into a tree takes its course from there. -/
theorem exists_course (tables : problem.grammar.UnaryTables) {spans : List Span} {tree : Tree}
    (made : Tree.ofSpans spans problem.length = .ok tree)
    (known : ∀ span ∈ tree.parse.spans, problem.grammar.contains span.rule = true)
    (maxSweeps : Nat) : ∃ score climb, treeScore problem secondOrder tree = .ok score ∧
      Climb.ofSpans problem secondOrder maxSweeps spans = .ok climb ∧
      Course problem secondOrder maxSweeps { tree := tree, score := score } climb.trace climb := by
  obtain ⟨contiguous, starts, stops⟩ := Tree.of_ofSpans made
  have derives : problem.Derives tree := ⟨contiguous, starts, stops, known⟩
  obtain ⟨score, scored⟩ := derives.exists_treeScore secondOrder
  have stands : Stands problem secondOrder { tree := tree, score := score } :=
    ⟨derives, scored, rfl⟩
  obtain ⟨climb, later, ok, trace, course⟩ := stands.run tables maxSweeps
  rw [List.nil_append] at trace
  refine ⟨score, climb, scored, ?_, trace ▸ course⟩
  rw [Climb.ofSpans, made]
  simp only [Except.mapError, bind, Except.bind, scored]
  exact ok

/-- The tree reached is a parse of the sentence, and the climb keeps its score and its spans. -/
structure Sound (problem : Problem EReal) (secondOrder : Bool) (climb : Climb EReal) : Prop where
  parses : problem.Parses climb.tree.parse
  scored : treeScore problem secondOrder climb.tree = .ok climb.score
  listed : climb.spans = climb.tree.spans

theorem exists_ofSpans (coherent : problem.grammar.Coherent) {parse : Parse}
    (parses : problem.Parses parse) (flat : parse.Flat) (maxSweeps : Nat) :
    ∃ climb score, Climb.ofSpans problem secondOrder maxSweeps parse.spans = .ok climb ∧
      climb.Sound problem secondOrder ∧ problem.score secondOrder parse.spans = .ok score ∧
      score ≤ climb.score := by
  have contiguous := parses.admits.contiguous
  obtain ⟨tree, made, rfl⟩ := Tree.exists_ofSpans contiguous flat
    (parses.admits.nodup_of_flat coherent flat) (.refl _) parses.start_eq parses.stop_eq
  have derives := parses.derives coherent
  obtain ⟨score, climb, scored, ok, course⟩ :=
    exists_course coherent.unaryTables made derives.known maxSweeps
  refine ⟨climb, score, ok, ⟨parses.of_reaches coherent course.reaches, course.stands.scored,
    course.stands.listed⟩, ?_, course.above⟩
  rw [← Tree.spans_eq contiguous, derives.score_spans secondOrder coherent.unaryTables, scored]

end Climb

end Constituency
