import Mathlib
import Constituency.Proofs.MassCells

/-!
The balance of a filled chart of masses. The mass of an item is the sum of what the ways to make it
bring, each the product of the masses of its children and the score of its rule; a child that was
cut off brings nothing.
-/

namespace Constituency.MassChart

open Score LogScore ExtendedReal

variable {problem : Problem EReal} {chart next : MassChart EReal} {start stop : Nat}
  {label : Label} {threshold : EReal}

/-- The probability that an item has left, with its unary rules or without. -/
noncomputable def weight (chart : MassChart EReal) (start stop : Nat) (label : Label)
    (phase : Phase) : ENNReal :=
  EReal.exp (chart.mass start stop label phase)

theorem weight_before (chart : MassChart EReal) (start stop : Nat) (label : Label) :
    chart.weight start stop label .beforeUnary =
      if chart.live.isLive start stop label .beforeUnary then
        EReal.exp (chart.before.get start stop label)
      else 0 := by
  unfold weight mass
  split
  · rfl
  · exact EReal.exp_bot

theorem weight_after (chart : MassChart EReal) (start stop : Nat) (label : Label) :
    chart.weight start stop label .afterUnary =
      if chart.live.isLive start stop label .afterUnary then
        EReal.exp (chart.after.get start stop label)
      else 0 := by
  unfold weight mass
  split
  · rfl
  · exact EReal.exp_bot

noncomputable def wordWeight (problem : Problem EReal) (start : Nat) (label : Label) : ENNReal :=
  (((problem.terminalsAt start).filter (· = label)).map fun label =>
    EReal.exp (problem.terminalScore start label)).sum

noncomputable def unaryWeight (problem : Problem EReal) (chart : MassChart EReal)
    (start stop : Nat) (label : Label) : ENNReal :=
  ((problem.grammar.numberedUnary.filter (·.1.parent = label)).map fun rule =>
    chart.weight start stop rule.1.child .beforeUnary *
      EReal.exp (problem.unaryScore start stop rule.1 rule.2)).sum

noncomputable def binaryWeight (problem : Problem EReal) (chart : MassChart EReal)
    (start stop : Nat) (label : Label) : ENNReal :=
  ((splits start stop).map fun split =>
    ((problem.grammar.numberedBinary.filter (·.1.parent = label)).map fun rule =>
      chart.weight start split rule.1.left .afterUnary *
        chart.weight split stop rule.1.right .afterUnary *
          EReal.exp (binaryScore problem start split stop rule.1 rule.2)).sum).sum

structure Finished (problem : Problem EReal) (threshold : EReal) (start stop : Nat)
    (chart : MassChart EReal) : Prop where
  liveBefore : ∃ floor, (threshold = ⊤ → floor = ⊥) ∧ ∀ label,
    problem.grammar.Registered label → chart.live.isLive start stop label .beforeUnary =
      survives floor (chart.before.get start stop label)
  liveAfter : ∃ floor, (threshold = ⊤ → floor = ⊥) ∧ ∀ label,
    problem.grammar.Registered label → chart.live.isLive start stop label .afterUnary =
      survives floor (chart.after.get start stop label)
  after : ∀ label, problem.grammar.Registered label →
    EReal.exp (chart.after.get start stop label) =
      chart.weight start stop label .beforeUnary + unaryWeight problem chart start stop label
  unary : ∀ rule number, problem.grammar.unaryRule? number = some rule →
    chart.unaryScores[(start, stop, number)]? =
      if chart.live.isLive start stop rule.child .beforeUnary then
        some (problem.unaryScore start stop rule number)
      else none

/-- An interval of which nothing is known yet. -/
structure Blank (problem : Problem EReal) (chart : MassChart EReal) (start stop : Nat) : Prop where
  before : ∀ label, problem.grammar.Registered label → chart.before.get start stop label = ⊥
  after : ∀ label, problem.grammar.Registered label → chart.after.get start stop label = ⊥
  unary : ∀ number : Nat, chart.unaryScores[(start, stop, number)]? = none
  binary : ∀ split number : Nat, chart.binaryScores[(start, split, stop, number)]? = none

theorem sum_shares {ι : Type} (items : List ι) (keep : ι → Bool) (share : ι → Label × EReal)
    (label : Label) :
    (((((items.filter keep).map share).filter (·.1 = label)).map Prod.snd).map EReal.exp).sum =
      ((items.filter fun item => (share item).1 = label).map fun item =>
        if keep item then EReal.exp (share item).2 else 0).sum := by
  induction items with
  | nil => rfl
  | cons item items ih =>
    rw [List.map_map] at ih
    by_cases kept : keep item = true <;> by_cases same : (share item).1 = label <;>
      simp [kept, same, ih]

theorem mem_numberedUnary {grammar : Grammar} {rule : UnaryRule} {number : Nat} :
    (rule, number) ∈ grammar.numberedUnary ↔ grammar.unaryRule? number = some rule := by
  simp [Grammar.numberedUnary, List.mem_zipIdx_iff_getElem?, Grammar.unaryRule?,
    Numbering.get?_eq]

theorem mem_numberedBinary {grammar : Grammar} {rule : BinaryRule} {number : Nat} :
    (rule, number) ∈ grammar.numberedBinary ↔ grammar.binaryRule? number = some rule := by
  simp [Grammar.numberedBinary, List.mem_zipIdx_iff_getElem?, Grammar.binaryRule?,
    Numbering.get?_eq]

theorem exp_get_addUnaries (sized : chart.Sized problem)
    (within : start ≤ problem.length ∧ stop ≤ problem.length)
    (known : ∀ rule ∈ chart.carried start stop, problem.grammar.Registered rule.1.parent)
    (registered : problem.grammar.Registered label) :
    EReal.exp ((chart.addUnaries start stop).after.get start stop label) =
      EReal.exp (chart.after.get start stop label) +
        unaryWeight problem chart start stop label := by
  have poured := sized.after.get_pour within within (registered_of_share known) registered
  rw [if_pos rfl] at poured
  rw [addUnaries_eq, poured, exp_foldl_logAdd, carried, sum_shares, sized.problem_eq, unaryWeight]
  congr 2
  refine List.map_congr_left fun rule _ => ?_
  rw [weight_before, ← carries]
  by_cases live : chart.carries start stop rule = true
  · rw [if_pos live, if_pos live, unaryShare, EReal.exp_add, sized.problem_eq]
  · rw [if_neg live, if_neg live, zero_mul]

theorem unaryScores_addUnaries (sized : chart.Sized problem) {rule : UnaryRule} {number : Nat}
    (found : problem.grammar.unaryRule? number = some rule) :
    (chart.addUnaries start stop).unaryScores[(start, stop, number)]? =
      if chart.live.isLive start stop rule.child .beforeUnary then
        some (problem.unaryScore start stop rule number)
      else chart.unaryScores[(start, stop, number)]? := by
  have only : ∀ other ∈ chart.carried start stop, other.2 = number → other.1 = rule := by
    intro entry member same
    obtain ⟨other, number'⟩ := entry
    obtain rfl := same
    have found' := mem_numberedUnary.mp (List.mem_of_mem_filter member)
    rw [sized.problem_eq, found] at found'
    exact (Option.some.inj found').symm
  rw [addUnaries_eq]
  by_cases live : chart.live.isLive start stop rule.child .beforeUnary = true
  · have member : (rule, number) ∈ chart.carried start stop := by
      refine List.mem_filter.mpr ⟨mem_numberedUnary.mpr ?_, live⟩
      rw [sized.problem_eq]
      exact found
    have noted := getElem?_foldl_insert_of_mem
      (fun rule : UnaryRule × Nat => (start, stop, rule.2))
      (fun rule => chart.problem.unaryScore start stop rule.1 rule.2) member
      (by
        intro entry inside same
        obtain ⟨other, number'⟩ := entry
        obtain rfl : number' = number := by simpa using same
        rw [only _ inside rfl]) chart.unaryScores
    rw [if_pos live, ← sized.problem_eq]
    exact noted
  · rw [if_neg live]
    refine getElem?_foldl_insert_of_forall_ne _ _ (fun other member same => live ?_) _
    have number_eq : other.2 = number := by simpa using same
    rw [← only other member number_eq]
    exact (List.mem_filter.mp member).2

theorem addUnaries_before (chart : MassChart EReal) (start stop : Nat) :
    (chart.addUnaries start stop).before = chart.before := by
  rw [addUnaries_eq]

theorem addUnaries_live (chart : MassChart EReal) (start stop : Nat) :
    (chart.addUnaries start stop).live = chart.live := by
  rw [addUnaries_eq]

theorem addUnaries_binary (chart : MassChart EReal) (start stop : Nat) :
    (chart.addUnaries start stop).binaryScores = chart.binaryScores := by
  rw [addUnaries_eq]

theorem carried_registered (coherent : problem.grammar.Coherent) (sized : chart.Sized problem) :
    ∀ rule ∈ chart.carried start stop, problem.grammar.Registered rule.1.parent ∧
      problem.grammar.Registered rule.1.child := by
  intro rule member
  have found := mem_numberedUnary.mp (List.mem_of_mem_filter member)
  rw [sized.problem_eq] at found
  exact coherent.registered_of_unaryRule? found

theorem unaryWeight_congr (coherent : problem.grammar.Coherent)
    (same : ∀ label, problem.grammar.Registered label →
      next.weight start stop label .beforeUnary = chart.weight start stop label .beforeUnary)
    (label : Label) :
    unaryWeight problem next start stop label = unaryWeight problem chart start stop label := by
  rw [unaryWeight, unaryWeight]
  congr 1
  apply List.map_congr_left
  intro rule member
  have found := mem_numberedUnary.mp (List.mem_of_mem_filter member)
  rw [same _ (coherent.registered_of_unaryRule? found).2]

/-- The three steps that finish an interval: what lies below the floor is cut off, unary rules are
added, and what lies below the floor now is cut off. -/
structure Closed (problem : Problem EReal) (floor floor' : EReal) (start stop : Nat)
    (chart middle next : MassChart EReal) : Prop where
  kept : KeptBefore problem floor start stop problem.grammar.allLabels chart middle
  kept' : KeptAfter problem floor' start stop problem.grammar.allLabels
    (middle.addUnaries start stop) next

theorem closed_close (coherent : problem.grammar.Coherent)
    (fits : problem.grammar.labelCount < numberLimit) (sized : chart.Sized problem)
    (within : start ≤ problem.length ∧ stop ≤ problem.length) (threshold : EReal) :
    ∃ floor floor' middle, (threshold = ⊤ → floor = ⊥ ∧ floor' = ⊥) ∧
      Closed problem floor floor' start stop chart middle (close threshold chart start stop) := by
  have first := keptBefore_keepBefore fits sized within threshold
  have sized' := first.isLocal.sized
  have second := sized'.local_addUnaries within fun rule member =>
    (carried_registered coherent sized' rule member).1
  refine ⟨_, _, _, ?_, first, keptAfter_keepAfter fits second.sized within threshold⟩
  intro unlimited
  subst unlimited
  exact ⟨EReal.sub_top _, EReal.sub_top _⟩

namespace Closed

variable {middle : MassChart EReal} {floor floor' : EReal}

theorem isLocal (closed : Closed problem floor floor' start stop chart middle next)
    (coherent : problem.grammar.Coherent)
    (within : start ≤ problem.length ∧ stop ≤ problem.length) :
    Local problem start stop chart next := by
  have sized := closed.kept.isLocal.sized
  have rules := sized.local_addUnaries within fun rule member =>
    (carried_registered coherent sized rule member).1
  exact closed.kept.isLocal.trans (rules.trans closed.kept'.isLocal)

theorem before (closed : Closed problem floor floor' start stop chart middle next) :
    next.before = chart.before := by
  rw [closed.kept'.before, addUnaries_before, closed.kept.before]

theorem binary (closed : Closed problem floor floor' start stop chart middle next) :
    next.binaryScores = chart.binaryScores := by
  rw [closed.kept'.binary, addUnaries_binary, closed.kept.binary]

theorem live (closed : Closed problem floor floor' start stop chart middle next)
    (registered : problem.grammar.Registered label) :
    next.live.isLive start stop label .beforeUnary =
      middle.live.isLive start stop label .beforeUnary := by
  rw [closed.kept'.live label registered, if_neg (by simp), addUnaries_live]

theorem weight (closed : Closed problem floor floor' start stop chart middle next)
    (registered : problem.grammar.Registered label) :
    next.weight start stop label .beforeUnary = middle.weight start stop label .beforeUnary := by
  rw [weight_before, weight_before, closed.live registered, closed.before, closed.kept.before]

theorem after (closed : Closed problem floor floor' start stop chart middle next)
    (coherent : problem.grammar.Coherent)
    (within : start ≤ problem.length ∧ stop ≤ problem.length)
    (fresh : chart.after.get start stop label = ⊥)
    (registered : problem.grammar.Registered label) :
    EReal.exp (next.after.get start stop label) =
      next.weight start stop label .beforeUnary + unaryWeight problem next start stop label := by
  have sized := closed.kept.isLocal.sized
  have all : label ∈ problem.grammar.allLabels := Grammar.mem_allLabels.mpr registered
  have rules := unaryWeight_congr coherent (fun _ known => closed.weight known) label
  rw [closed.kept'.after, rules, closed.weight registered, exp_get_addUnaries sized within
    (fun rule member => (carried_registered coherent sized rule member).1) registered,
    closed.kept.after label registered, weight_before, closed.kept.live label all registered,
    closed.kept.before]
  by_cases stays : survives floor (chart.before.get start stop label) = true
  · rw [if_pos ⟨all, stays⟩, if_pos stays]
  · rw [if_neg fun both => stays both.2, if_neg stays, fresh, EReal.exp_bot]

end Closed

theorem finished_close (coherent : problem.grammar.Coherent)
    (fits : problem.grammar.labelCount < numberLimit) (sized : chart.Sized problem)
    (within : start ≤ problem.length ∧ stop ≤ problem.length)
    (fresh : ∀ label, problem.grammar.Registered label → chart.after.get start stop label = ⊥)
    (unnoted : ∀ number : Nat, chart.unaryScores[(start, stop, number)]? = none)
    (threshold : EReal) :
    Local problem start stop chart (close threshold chart start stop) ∧
      (close threshold chart start stop).before = chart.before ∧
      (close threshold chart start stop).binaryScores = chart.binaryScores ∧
      Finished problem threshold start stop (close threshold chart start stop) := by
  obtain ⟨floor, floor', middle, limits, closed⟩ :=
    closed_close coherent fits sized within threshold
  generalize close threshold chart start stop = next at closed
  have all {label : Label} (registered : problem.grammar.Registered label) :
      label ∈ problem.grammar.allLabels := Grammar.mem_allLabels.mpr registered
  refine ⟨closed.isLocal coherent within, closed.before, closed.binary, ?_, ?_, ?_, ?_⟩
  · refine ⟨floor, fun unlimited => (limits unlimited).1, ?_⟩
    intro label registered
    rw [closed.live registered, closed.kept.live label (all registered) registered, closed.before]
  · refine ⟨floor', fun unlimited => (limits unlimited).2, ?_⟩
    intro label registered
    rw [closed.kept'.live label registered, if_pos ⟨all registered, rfl⟩, closed.kept'.after]
  · intro label registered
    exact closed.after coherent within (fresh label registered) registered
  · intro rule number found
    have child := (coherent.registered_of_unaryRule? found).2
    rw [closed.kept'.unary, unaryScores_addUnaries closed.kept.isLocal.sized found,
      closed.live child, closed.kept.unary, unnoted number]

end Constituency.MassChart
