import Mathlib.Data.List.Basic
import Constituency.Search.Closure
import Constituency.Proofs.Fold
import Constituency.Proofs.ScoreOrder

/-!
Cells that settle. Where unary rules are applied in bottom-up order, no rule changes the child of an
earlier one, so that one sweep leaves nothing to improve and the next one finds that out. Only the
order of the scores matters for this, not what they are.
-/

namespace Constituency

open Score

variable {α : Type} [Score α]

def Entry.kept (entry : Entry α) : Entry α :=
  if Score.absent < entry.before then { entry with after := entry.before, link := .keep } else entry

namespace Cell

section Entries

theorem entry_modify (cell : Cell α) (label other : Label) (change : Entry α → Entry α) :
    entry (cell.modify label.toNat change) other =
      if label = other ∧ label.toNat < cell.size then change (cell.entry other)
      else cell.entry other := by
  simp only [entry, Array.getD_eq_getD_getElem?, Array.getElem?_modify]
  by_cases same : label = other
  · subst same
    by_cases inside : label.toNat < cell.size
    · simp [inside]
    · simp [inside]
  · have apart : label.toNat ≠ other.toNat := fun equal => same (UInt16.toNat_inj.mp equal)
    simp [same, apart]

theorem kept_kept (entry : Entry α) : entry.kept.kept = entry.kept := by
  unfold Entry.kept
  split <;> simp_all

theorem before_kept (entry : Entry α) : entry.kept.before = entry.before := by
  unfold Entry.kept
  split <;> rfl

theorem origin_kept (entry : Entry α) : entry.kept.origin = entry.origin := by
  unfold Entry.kept
  split <;> rfl

theorem entry_keep (cell : Cell α) (label other : Label) :
    (cell.keep label).entry other =
      if label = other ∧ label.toNat < cell.size then (cell.entry other).kept
      else cell.entry other :=
  entry_modify cell label other Entry.kept

theorem keepAll_holds (holds : Cell α → Prop) {cell : Cell α} (first : holds cell)
    (keeps : ∀ cell label, holds cell → holds (keep cell label)) (count : Nat) :
    holds (cell.keepAll count) :=
  List.foldlRecOn _ _ first fun cell held label _ => keeps cell label held

theorem size_keepAll (cell : Cell α) (count : Nat) : (cell.keepAll count).size = cell.size := by
  refine keepAll_holds (fun next : Cell α => next.size = cell.size) rfl ?_ count
  intro next label same
  rw [keep, Array.size_modify, same]

theorem entry_keepAll {cell : Cell α} {count : Nat} (fits : count < numberLimit)
    (size : cell.size = count) (label : Label) :
    (cell.keepAll count).entry label =
      if label.toNat < count then (cell.entry label).kept else cell.entry label := by
  have rounds (labels : List Label) (cell : Cell α) (inside : ∀ l ∈ labels, l.toNat < cell.size) :
      (labels.foldl keep cell).entry label =
        if label ∈ labels then (cell.entry label).kept else cell.entry label := by
    induction labels generalizing cell with
    | nil => simp
    | cons head labels ih =>
      have step : (cell.keep head).entry label =
          if head = label then (cell.entry label).kept else cell.entry label := by
        rw [entry_keep]
        simp [inside head]
      rw [List.foldl_cons, ih _ fun l member => by
        rw [keep, Array.size_modify]
        exact inside l (by simp [member]), step]
      by_cases same : head = label
      · simp [same, kept_kept]
      · simp [same, Ne.symm same]
  rw [keepAll, Label.below_toUInt16 fits, rounds _ _ fun l member => by
    rw [size]
    exact (Label.mem_first count l).mp member]
  simp

end Entries

/-- Rules over the labels of a cell, none of which builds a label that an earlier one has used. -/
structure BottomUp (rank : Label → Nat) (count : Nat) (edges : List (UnaryEdge α)) : Prop where
  bounded : ∀ edge ∈ edges, edge.rule.parent.toNat < count ∧ rank edge.rule.child ≤ count
  falls : ∀ edge ∈ edges, rank edge.rule.child < rank edge.rule.parent
  ordered : edges.Pairwise fun earlier later => later.rule.parent ≠ earlier.rule.child

namespace BottomUp

variable {rank : Label → Nat} {count : Nat} {edges earlier later : List (UnaryEdge α)}
  {edge : UnaryEdge α}

omit [Score α] in
theorem apart (bottomUp : BottomUp rank count edges) (member : edge ∈ edges) :
    edge.rule.parent ≠ edge.rule.child := by
  intro same
  have falls := bottomUp.falls edge member
  rw [same] at falls
  exact Nat.lt_irrefl _ falls

omit [Score α] in
theorem unused (bottomUp : BottomUp rank count edges) (whole : edges = earlier ++ edge :: later) :
    ∀ other ∈ earlier, edge.rule.parent ≠ other.rule.child := by
  intro other member
  have ordered := bottomUp.ordered
  rw [whole, List.pairwise_append] at ordered
  exact ordered.2.2 other member edge (by simp)

end BottomUp

def Falls (rank : Label → Nat) (cell : Cell α) : Prop :=
  ∀ label child, cell.link label = .unary child → rank child < rank label

theorem chainMeets_eq_false {cell : Cell α} {rank : Label → Nat} (falls : cell.Falls rank)
    {target : Label} (steps : Nat) {label : Label} (room : rank label < steps)
    (below : rank label < rank target) : cell.chainMeets target steps label = false := by
  induction steps generalizing label with
  | zero => cases room
  | succ steps ih =>
    have apart : (label == target) = false := by
      rw [beq_eq_false_iff_ne]
      intro same
      obtain rfl := same
      exact Nat.lt_irrefl _ below
    rw [chainMeets, apart, Bool.false_or]
    cases link : cell.link label with
    | none => rfl
    | keep => rfl
    | unary child =>
      have lower := falls label child link
      exact ih (by omega) (by omega)

def Idle (cell : Cell α) (floor : α) (edge : UnaryEdge α) : Prop :=
  (cell.after edge.rule.child == absent) = true ∨ cell.after edge.rule.child < floor ∨
    ¬ cell.after edge.rule.parent < cell.after edge.rule.child + edge.score

/-- The cell `next` is `cell` with the parent of a rule built by that rule. -/
structure Improved (cell : Cell α) (edge : UnaryEdge α) (next : Cell α) : Prop where
  size : next.size = cell.size
  new : entry next edge.rule.parent =
    { cell.entry edge.rule.parent with
      after := cell.after edge.rule.child + edge.score
      link := .unary edge.rule.child }
  kept : ∀ label, edge.rule.parent ≠ label → entry next label = cell.entry label

theorem improved_modify {cell : Cell α} {edge : UnaryEdge α}
    (inside : edge.rule.parent.toNat < cell.size) :
    Improved cell edge (cell.modify edge.rule.parent.toNat fun entry =>
      { entry with
        after := cell.after edge.rule.child + edge.score
        link := .unary edge.rule.child }) := by
  constructor
  · exact Array.size_modify
  · refine (entry_modify cell edge.rule.parent _ _).trans ?_
    simp [inside]
  · intro label differ
    refine (entry_modify cell edge.rule.parent label _).trans ?_
    simp [differ]

section Relax

variable {count : Nat} {floor : α} {pass : Pass α} {edge : UnaryEdge α}

theorem relax_of_idle (idle : pass.cell.Idle floor edge) : relax count floor pass edge = pass := by
  rcases idle with absent | low | high
  · simp [relax, absent]
  · simp [relax, low]
  · simp [relax, high]

/-- A rule that is not idle improves its parent, unless its child is built from that. -/
theorem improved_relax (inside : edge.rule.parent.toNat < pass.cell.size)
    (busy : ¬ pass.cell.Idle floor edge)
    (unmet : pass.cell.chainMeets edge.rule.parent (count + 1) edge.rule.child = false) :
    Improved pass.cell edge (relax count floor pass edge).cell := by
  simp only [Idle, not_or, not_not] at busy
  obtain ⟨present, floored, improves⟩ := busy
  have opened : (relax count floor pass edge).cell =
      pass.cell.modify edge.rule.parent.toNat fun entry =>
        { entry with
          after := pass.cell.after edge.rule.child + edge.score
          link := .unary edge.rule.child } := by
    simp [relax, present, floored, improves, unmet]
  exact opened ▸ improved_modify inside

end Relax

namespace Improved

variable {cell next : Cell α} {edge : UnaryEdge α}

theorem before (improved : Improved cell edge next) (label : Label) :
    (entry next label).before = (cell.entry label).before := by
  by_cases same : edge.rule.parent = label
  · rw [← same, improved.new]
  · rw [improved.kept label same]

theorem origin (improved : Improved cell edge next) (label : Label) :
    (entry next label).origin = (cell.entry label).origin := by
  by_cases same : edge.rule.parent = label
  · rw [← same, improved.new]
  · rw [improved.kept label same]

theorem after_kept (improved : Improved cell edge next) {label : Label}
    (differ : edge.rule.parent ≠ label) : after next label = cell.after label :=
  congrArg Entry.after (improved.kept label differ)

theorem after_new (improved : Improved cell edge next) :
    after next edge.rule.parent = cell.after edge.rule.child + edge.score :=
  congrArg Entry.after improved.new

theorem link_kept (improved : Improved cell edge next) {label : Label}
    (differ : edge.rule.parent ≠ label) : link next label = cell.link label :=
  congrArg Entry.link (improved.kept label differ)

theorem link_new (improved : Improved cell edge next) :
    link next edge.rule.parent = .unary edge.rule.child :=
  congrArg Entry.link improved.new

theorem falls {rank : Label → Nat} (improved : Improved cell edge next)
    (lower : rank edge.rule.child < rank edge.rule.parent) (old : cell.Falls rank) :
    Falls rank next := by
  intro label child linked
  by_cases same : edge.rule.parent = label
  · subst same
    rw [improved.link_new] at linked
    obtain rfl := Link.unary.inj linked
    exact lower
  · rw [improved.link_kept same] at linked
    exact old label child linked

variable [Score.Ordered α] {floor : α}

theorem idle_self (improved : Improved cell edge next)
    (apart : edge.rule.parent ≠ edge.rule.child) : Idle next floor edge := by
  rw [Idle, improved.after_kept apart, improved.after_new]
  exact .inr (.inr (Ordered.lt_irrefl _))

theorem idle (improved : Improved cell edge next)
    (improves : cell.after edge.rule.parent < cell.after edge.rule.child + edge.score)
    {other : UnaryEdge α} (unused : edge.rule.parent ≠ other.rule.child)
    (old : cell.Idle floor other) : Idle next floor other := by
  rw [Idle, improved.after_kept unused]
  refine old.imp_right fun more => more.imp_right fun enough better => enough ?_
  by_cases same : edge.rule.parent = other.rule.parent
  · rw [← same, improved.after_new] at better
    rw [← same]
    exact Ordered.lt_trans improves better
  · rwa [improved.after_kept same] at better

end Improved

section Sweep

variable [Score.Ordered α] {rank : Label → Nat} {count : Nat} {floor : α}
  {edges : List (UnaryEdge α)}

/-- A cell after some rules, none of which could improve its parent once more. -/
structure Swept (rank : Label → Nat) (count : Nat) (floor : α) (edges : List (UnaryEdge α))
    (cell : Cell α) : Prop where
  size : cell.size = count
  falls : cell.Falls rank
  idle : ∀ edge ∈ edges, cell.Idle floor edge

omit [Score.Ordered α] in
theorem unmet_of_falls (bottomUp : BottomUp rank count edges) {cell : Cell α}
    (falls : cell.Falls rank) {edge : UnaryEdge α} (member : edge ∈ edges) :
    cell.chainMeets edge.rule.parent (count + 1) edge.rule.child = false :=
  chainMeets_eq_false falls _ (Nat.lt_succ_of_le (bottomUp.bounded edge member).2)
    (bottomUp.falls edge member)

theorem Swept.relax (bottomUp : BottomUp rank count edges)
    {earlier later : List (UnaryEdge α)} {edge : UnaryEdge α}
    (whole : edges = earlier ++ edge :: later) {pass : Pass α}
    (swept : Swept rank count floor earlier pass.cell) :
    Swept rank count floor (earlier ++ [edge]) (Cell.relax count floor pass edge).cell := by
  have member : edge ∈ edges := by simp [whole]
  by_cases still : pass.cell.Idle floor edge
  · rw [relax_of_idle still]
    refine ⟨swept.size, swept.falls, fun other inside => ?_⟩
    rcases List.mem_append.mp inside with old | new
    · exact swept.idle other old
    · rw [List.mem_singleton.mp new]
      exact still
  · have improved := improved_relax (swept.size ▸ (bottomUp.bounded edge member).1) still
      (unmet_of_falls bottomUp swept.falls member)
    simp only [Idle, not_or, not_not] at still
    refine ⟨improved.size.trans swept.size, improved.falls (bottomUp.falls edge member) swept.falls,
      fun other inside => ?_⟩
    rcases List.mem_append.mp inside with old | new
    · exact improved.idle still.2.2 (bottomUp.unused whole other old) (swept.idle other old)
    · rw [List.mem_singleton.mp new]
      exact improved.idle_self (bottomUp.apart member)

omit [Score.Ordered α] in
theorem settle_of_swept (passes : Nat) {pass : Pass α}
    (swept : Swept rank count floor edges pass.cell) :
    settle count floor edges (passes + 1) pass = (pass.cell, .ok pass.updates) := by
  have idle : edges.foldl (relax count floor) { pass with changed := [] } =
      { pass with changed := [] } := by
    refine List.foldlRecOn (motive := (· = { pass with changed := [] })) edges _ rfl ?_
    intro state same edge member
    rw [same]
    exact relax_of_idle (swept.idle edge member)
  rw [settle, idle]
  rfl

omit [Score.Ordered α] in
theorem Falls.keepAll {cell : Cell α} (falls : cell.Falls rank) (count : Nat) :
    (cell.keepAll count).Falls rank := by
  refine keepAll_holds (Falls rank) falls ?_ count
  intro cell head falls label child linked
  rw [link, entry_keep] at linked
  split at linked
  · unfold Entry.kept at linked
    split at linked
    · cases linked
    · exact falls label child linked
  · exact falls label child linked

/-- A cell is settled by one sweep over rules in bottom-up order, and a second one finds that out.
-/
theorem settle_eq (bottomUp : BottomUp rank count edges) {cell : Cell α} (size : cell.size = count)
    (falls : cell.Falls rank) (passes : Nat) :
    settle count floor edges (passes + 2) { cell := cell.keepAll count } =
      ((edges.foldl (relax count floor) { cell := cell.keepAll count }).cell,
        .ok (edges.foldl (relax count floor) { cell := cell.keepAll count }).updates) := by
  have swept : Swept rank count floor edges
      (edges.foldl (relax count floor) { cell := cell.keepAll count }).cell :=
    Fold.foldl_holds (fun earlier (pass : Pass α) => Swept rank count floor earlier pass.cell)
      ⟨(size_keepAll cell count).trans size, falls.keepAll count, by simp⟩
      fun _ _ _ _ whole swept => swept.relax bottomUp whole
  rw [settle]
  simp only
  -- Either the first sweep has improved nothing, or the second one finds nothing to improve.
  split
  · rfl
  · exact settle_of_swept passes swept

theorem close_eq (bottomUp : BottomUp rank count edges) {cell : Cell α} (size : cell.size = count)
    (falls : cell.Falls rank) :
    cell.close count floor edges =
      ((edges.foldl (relax count floor) { cell := cell.keepAll count }).cell,
        .ok (edges.foldl (relax count floor) { cell := cell.keepAll count }).updates) :=
  settle_eq bottomUp size falls 8

end Sweep

end Cell

end Constituency
