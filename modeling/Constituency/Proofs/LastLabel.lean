import Mathlib
import Constituency.Proofs.Partition

/-!
Loops over all labels where the labels run out of numbers. The number of labels is kept as a label:
with one label fewer than there can be, no loop skips one; with as many as there can be the number
wraps round to zero, every loop is empty and every label is lost.
-/

namespace Constituency

open Score ExtendedReal

theorem Label.below_numberLimit : Label.below numberLimit.toUInt16 = [] := rfl

namespace Cell

section Raised

variable {α : Type} [Score α] {cell next last : Cell α} {count : Nat} {floor : α}

def KeepsScores (cell : Cell α) : Prop :=
  ∀ label, ¬ cell.after label < (cell.entry label).before

/-- A cell in which unary rules have raised some scores and changed nothing else. -/
structure Raised (cell next : Cell α) : Prop where
  size : next.size = cell.size
  before : ∀ label, (next.entry label).before = (cell.entry label).before
  after : ∀ label, next.after label = cell.after label ∨ cell.after label < next.after label

theorem Raised.refl (cell : Cell α) : Raised cell cell :=
  ⟨rfl, fun _ => rfl, fun _ => .inl rfl⟩

theorem raised_modify (cell : Cell α) {parent : Label} {score : α} (link : Link)
    (raises : cell.after parent < score) :
    Raised cell (cell.modify parent.toNat fun entry => { entry with after := score, link := link })
    where
  size := Array.size_modify
  before label := by
    rw [entry_modify]
    split
    · rfl
    · rfl
  after label := by
    rw [Cell.after, entry_modify]
    split
    · rename_i here
      obtain ⟨rfl, _⟩ := here
      exact .inr raises
    · exact .inl rfl

theorem raised_relax (count : Nat) (floor : α) (pass : Pass α) (edge : UnaryEdge α) :
    Raised pass.cell (relax count floor pass edge).cell := by
  simp only [relax]
  split
  · exact .refl _
  · split
    · rename_i improves
      apply raised_modify
      simp only [Bool.and_eq_true, decide_eq_true_eq] at improves
      exact improves.1
    · exact .refl _

variable [Score.Ordered α]

theorem Raised.trans (first : Raised cell next) (second : Raised next last) :
    Raised cell last where
  size := second.size.trans first.size
  before label := (second.before label).trans (first.before label)
  after label := by
    rcases second.after label with same | more
    · rw [same]
      exact first.after label
    · rcases first.after label with same | earlier
      · rw [same] at more
        exact .inr more
      · exact .inr (Ordered.lt_trans earlier more)

theorem Raised.keepsScores (raised : Raised cell next) (keeps : cell.KeepsScores) :
    next.KeepsScores := by
  intro label less
  rw [raised.before] at less
  rcases raised.after label with same | more
  · rw [same] at less
    exact keeps label less
  · exact keeps label (Ordered.lt_trans more less)

theorem raised_settle (floor : α) (edges : List (UnaryEdge α)) (passes : Nat) (pass : Pass α) :
    Raised pass.cell (settle count floor edges passes pass).1 := by
  induction passes generalizing pass with
  | zero => exact .refl _
  | succ passes ih =>
    have sweep : Raised pass.cell
        (edges.foldl (relax count floor) { pass with changed := [] }).cell := by
      refine List.foldlRecOn (motive := fun state : Pass α => Raised pass.cell state.cell) edges _
        (.refl _) ?_
      intro state raised edge _
      exact raised.trans (raised_relax count floor state edge)
    rw [settle]
    split
    · exact sweep
    · exact sweep.trans (ih _)

theorem keepsScores_keepAll (fits : count < numberLimit) (size : cell.size = count)
    (blank : ∀ label, cell.after label = absent) : (cell.keepAll count).KeepsScores := by
  intro label less
  rw [Cell.after, entry_keepAll fits size] at less
  have blank' : (cell.entry label).after = absent := blank label
  split at less
  · unfold Entry.kept at less
    split at less
    · exact Ordered.lt_irrefl _ less
    · rename_i missing
      rw [blank'] at less
      exact missing less
  · rename_i outside
    have missing : cell.entry label = .absent := by
      rw [entry, Array.getD_eq_getD_getElem?, Array.getElem?_eq_none (by omega)]
      rfl
    rw [missing] at less
    exact Ordered.lt_irrefl _ less

/-- Closing a cell over which nothing has been built keeps or raises the score of every label,
also where the rules lead round in circles. -/
theorem keepsScores_close (fits : count < numberLimit) (size : cell.size = count)
    (blank : ∀ label, cell.after label = absent) (floor : α) (edges : List (UnaryEdge α)) :
    (cell.close count floor edges).1.KeepsScores :=
  (raised_settle floor edges passLimit { cell := cell.keepAll count }).keepsScores
    (keepsScores_keepAll fits size blank)

omit [Score.Ordered α] in
theorem before_keepAll (cell : Cell α) (count : Nat) (label : Label) :
    ((cell.keepAll count).entry label).before = (cell.entry label).before := by
  refine keepAll_holds
    (fun next : Cell α => (next.entry label).before = (cell.entry label).before) rfl ?_ count
  intro next other same
  rw [entry_keep]
  split
  · rw [before_kept, same]
  · exact same

theorem before_close (cell : Cell α) (count : Nat) (floor : α) (edges : List (UnaryEdge α))
    (label : Label) :
    ((cell.close count floor edges).1.entry label).before = (cell.entry label).before :=
  ((raised_settle floor edges passLimit { cell := cell.keepAll count }).before label).trans
    (before_keepAll cell count label)

theorem size_close (cell : Cell α) (count : Nat) (floor : α) (edges : List (UnaryEdge α)) :
    (cell.close count floor edges).1.size = cell.size :=
  (raised_settle floor edges passLimit { cell := cell.keepAll count }).size.trans
    (size_keepAll cell count)

/-- With as many labels as there can be, closing a cell over which nothing has been built does
nothing. -/
theorem close_numberLimit (blank : ∀ label, cell.after label = absent) (floor : α)
    (edges : List (UnaryEdge α)) :
    cell.close numberLimit floor edges = (cell, .ok 0) := by
  have nothing : cell.keepAll numberLimit = cell := by
    rw [keepAll, Label.below_numberLimit, List.foldl_nil]
  have idle : edges.foldl (relax numberLimit floor) { cell := cell } = { cell := cell } := by
    refine List.foldlRecOn (motive := fun pass : Pass α => pass = { cell := cell }) edges _ rfl ?_
    intro pass same edge _
    rw [same]
    apply relax_of_idle
    exact .inl (by rw [blank, Ordered.absent_beq])
  rw [close, nothing, passLimit, settle]
  simp only [idle]
  rfl

end Raised

end Cell

namespace BestChart

variable {α : Type} [Score α] [Score.Ordered α] {chart : BestChart α}
  {words labels start stop : Nat}

theorem Sized.cell_close (problem : Problem α) (sized : chart.Sized words labels)
    (within : start ≤ words ∧ stop ≤ words) (floor : α) :
    (chart.close problem start stop floor).1.cell start stop =
      ((chart.cell start stop).close labels floor (unaryEdges problem start stop)).1 := by
  have count : chart.labels = labels := sized.labels_eq
  have length : ((chart.cell start stop).close labels floor
      (unaryEdges problem start stop)).1.toList.length = chart.entries.labels := by
    rw [Array.length_toList, Cell.size_close, sized.size_cell within, sized.labels_eq]
  rw [close, count, BestChart.cell,
    Table.cell_setCell_self sized.shaped (sized.covers within) length, Array.toArray_toList]

theorem Sized.get_close (problem : Problem α) (sized : chart.Sized words labels)
    (within : start ≤ words ∧ stop ≤ words) (floor : α) {label : Label}
    (inside : label.toNat < labels) :
    (chart.close problem start stop floor).1.entries.get start stop label =
      ((chart.cell start stop).close labels floor (unaryEdges problem start stop)).1.entry
        label := by
  have sized' : (chart.close problem start stop floor).1.Sized words labels :=
    ⟨sized.shaped.setCell _ _ _, sized.words_eq, sized.labels_eq, sized.blank_eq⟩
  rw [sized'.get_eq_entry within inside, sized.cell_close problem within floor]

end BestChart

section Kept

variable {problem : Problem EReal}

/-- Closing a fresh interval leaves the scores without unary rules as they are, and no label scores
less with unary rules. -/
def BestChart.KeepsLabels (problem : Problem EReal) : Prop :=
  ∀ (chart closed : BestChart EReal) (start stop updates : Nat) (floor : EReal),
    chart.Sized problem.length problem.grammar.labelCount →
    start ≤ problem.length ∧ stop ≤ problem.length → (chart.cell start stop).Fresh →
    chart.close problem start stop floor = (closed, .ok updates) →
    ∀ label, problem.grammar.Registered label →
      closed.before start stop label = chart.before start stop label ∧
        closed.before start stop label ≤ closed.after start stop label

/-- Closing a fresh interval succeeds, and no label has a score with unary rules. -/
def BestChart.LosesLabels (problem : Problem EReal) : Prop :=
  ∀ (chart : BestChart EReal) (start stop : Nat) (floor : EReal),
    chart.Sized problem.length problem.grammar.labelCount →
    start ≤ problem.length ∧ stop ≤ problem.length → (chart.cell start stop).Fresh →
    ∃ closed, chart.close problem start stop floor = (closed, .ok 0) ∧
      ∀ label, problem.grammar.Registered label →
        closed.before start stop label = chart.before start stop label ∧
          closed.after start stop label = ⊥

/-- Without a threshold every label that has a mass is live, with its unary rules and without. -/
def MassChart.KeepsLabels (problem : Problem EReal) : Prop :=
  ∀ (start stop : Nat) (label : Label), start < stop ∧ stop ≤ problem.length →
    problem.grammar.Registered label →
    ⊥ < (fill problem ⊤).before.get start stop label →
    ∀ phase, (fill problem ⊤).live.isLive start stop label phase = true

/-- No label is live, whatever the threshold. -/
def MassChart.LosesLabels (problem : Problem EReal) : Prop :=
  ∀ (threshold : EReal) (start stop : Nat) (label : Label) (phase : Phase),
    (fill problem threshold).live.isLive start stop label phase = false

theorem BestChart.keepsLabels (fits : problem.grammar.labelCount < numberLimit) :
    KeepsLabels problem := by
  intro chart closed start stop updates floor sized within fresh settled label registered
  have entry := sized.get_close problem within floor registered
  have keeps := Cell.keepsScores_close fits (sized.size_cell within)
    (fun label => (fresh label).1) floor (unaryEdges problem start stop) label
  rw [settled] at entry
  simp only [before, after, entry, sized.get_eq_entry within registered]
  exact ⟨Cell.before_close _ _ _ _ _, not_lt.mp keeps⟩

theorem BestChart.losesLabels (full : problem.grammar.labelCount = numberLimit) :
    LosesLabels problem := by
  intro chart start stop floor sized within fresh
  have same := Cell.close_numberLimit (fun label => (fresh label).1) floor
    (unaryEdges problem start stop)
  have count : chart.labels = numberLimit := sized.labels_eq.trans full
  refine ⟨(chart.close problem start stop floor).1, ?_, fun label registered => ?_⟩
  · rw [close, count, same]
    rfl
  · have entry := sized.get_close problem within floor registered
    rw [full, same] at entry
    simp only [before, after, entry, sized.get_eq_entry within registered]
    exact ⟨trivial, (fresh label).1⟩

theorem MassChart.keepsLabels (coherent : problem.grammar.Coherent)
    (fits : problem.grammar.labelCount < numberLimit) : KeepsLabels problem := by
  intro start stop label bounds registered some phase
  have balanced := balanced_fill coherent fits ⊤
  have mass : EReal.exp ((fill problem ⊤).before.get start stop label) ≠ 0 := by
    rw [ne_eq, EReal.exp_eq_zero_iff]
    exact some.ne'
  have alive := live_before_of_unlimited balanced bounds registered mass
  cases phase with
  | beforeUnary => exact alive
  | afterUnary =>
    apply live_after_of_unlimited balanced bounds registered
    intro none
    have own := weight_ne_zero balanced bounds registered alive
    exact own (add_eq_zero.mp none).1

namespace MassChart

variable {chart : MassChart EReal}

structure Dead (problem : Problem EReal) (chart : MassChart EReal) : Prop where
  problem_eq : chart.problem = problem
  live_eq : chart.live = .none problem.length problem.grammar.labelCount

namespace Dead

theorem isLive (dead : Dead problem chart) (start stop : Nat) (label : Label) (phase : Phase) :
    chart.live.isLive start stop label phase = false := by
  rw [dead.live_eq]
  cases phase with
  | beforeUnary => exact Table.get_create _ _ _ _ _ _
  | afterUnary => exact Table.get_create _ _ _ _ _ _

theorem addTerminals (dead : Dead problem chart) (position : Nat) :
    Dead problem (chart.addTerminals position) := by
  rw [addTerminals_eq]
  exact ⟨dead.problem_eq, dead.live_eq⟩

theorem addBinaries (dead : Dead problem chart) (start stop : Nat) :
    chart.addBinaries start stop = chart := by
  refine List.foldlRecOn (motive := fun next => next = chart) _ _ rfl ?_
  intro next same split _
  refine List.foldlRecOn (motive := fun next => next = chart) _ _ same ?_
  intro next same rule _
  rw [same, addBinary, dead.isLive, Bool.false_and]
  rfl

theorem addUnaries (dead : Dead problem chart) (start stop : Nat)
    (rules : List (UnaryRule × Nat)) : rules.foldl (addUnary start stop) chart = chart := by
  refine List.foldlRecOn (motive := fun next => next = chart) _ _ rfl ?_
  intro next same rule _
  rw [same, addUnary, dead.isLive]
  rfl

theorem close (full : problem.grammar.labelCount = numberLimit) (dead : Dead problem chart)
    (threshold : EReal) (start stop : Nat) :
    MassChart.close threshold chart start stop = chart := by
  have before : keepBefore threshold chart start stop = chart := by
    rw [keepBefore, dead.problem_eq, full, Label.below_numberLimit]
    rfl
  have after : keepAfter threshold chart start stop = chart := by
    rw [keepAfter, dead.problem_eq, full, Label.below_numberLimit]
    rfl
  rw [MassChart.close]
  simp only [before, dead.addUnaries, after]

end Dead

theorem dead_create (problem : Problem EReal) : Dead problem (create problem) := ⟨rfl, rfl⟩

theorem dead_fill (full : problem.grammar.labelCount = numberLimit) (threshold : EReal) :
    Dead problem (fill problem threshold) := by
  rw [fill_eq]
  refine List.foldlRecOn (motive := Dead problem) _ _ ?_ ?_
  · refine List.foldlRecOn (motive := Dead problem) _ _ (dead_create problem) ?_
    intro chart dead interval _
    have words := dead.addTerminals interval.1
    rwa [words.close full]
  · intro chart dead interval _
    rwa [dead.addBinaries, dead.close full]

theorem losesLabels (full : problem.grammar.labelCount = numberLimit) : LosesLabels problem :=
  fun threshold start stop label phase => (dead_fill full threshold).isLive start stop label phase

end MassChart

/-- A grammar with room for another label loses none of those that it has: loops over all labels
come to each of them. In a grammar without room they come to none, and all labels are lost. -/
theorem labels_kept_or_lost (built : problem.grammar.Built) :
    (problem.grammar.labelCount < numberLimit →
      (∀ label, problem.grammar.Registered label →
        label ∈ Label.below problem.grammar.labelCount.toUInt16) ∧
      BestChart.KeepsLabels problem ∧ MassChart.KeepsLabels problem) ∧
    (problem.grammar.labelCount = numberLimit →
      Label.below problem.grammar.labelCount.toUInt16 = [] ∧
      BestChart.LosesLabels problem ∧ MassChart.LosesLabels problem) := by
  constructor
  · intro fits
    refine ⟨?_, BestChart.keepsLabels fits, MassChart.keepsLabels built.coherent fits⟩
    intro label registered
    rw [Label.below_toUInt16 fits]
    exact (Label.mem_first _ label).mpr registered
  · intro full
    refine ⟨?_, BestChart.losesLabels full, MassChart.losesLabels full⟩
    rw [full, Label.below_numberLimit]

end Kept

section Crowded

open Grammar

variable {problem : Problem EReal}

namespace BestChart

/-- A chart in which one label has a score over the first word and nothing else has one. -/
noncomputable def lone (words labels : Nat) (held : Label) : BestChart EReal :=
  setBefore (create words labels) 0 1 held 0

section Lone

variable {words labels : Nat} {held : Label}

theorem sized_lone (words labels : Nat) (held : Label) :
    (lone words labels held).Sized words labels :=
  Table.Sized.modify (sized_create words labels) _ _ _ _

theorem entry_lone (within : 0 ≤ words ∧ 1 ≤ words) (some : held.toNat < labels) (label : Label) :
    ((lone words labels held).cell 0 1).entry label =
      if label = held then ⟨0, .none, ⊥, .none⟩ else .absent := by
  have sized := @sized_create EReal _ words labels
  refine (sized.entry_modify within within some _ label).trans ?_
  rw [entry_create within]
  by_cases same : label = held
  · rw [if_pos ⟨rfl, same.symm⟩, if_pos same]
    rfl
  · rw [if_neg fun both => same both.2.symm, if_neg same]

theorem fresh_lone (within : 0 ≤ words ∧ 1 ≤ words) (some : held.toNat < labels) :
    ((lone words labels held).cell 0 1).Fresh := by
  intro label
  rw [Cell.after, Cell.link, entry_lone within some]
  split
  · exact ⟨rfl, rfl⟩
  · exact ⟨rfl, rfl⟩

end Lone

theorem not_keepsLabels (full : problem.grammar.labelCount = numberLimit)
    (words : 0 < problem.length) : ¬ KeepsLabels problem := by
  intro keeps
  have within : 0 ≤ problem.length ∧ 1 ≤ problem.length := ⟨Nat.zero_le _, words⟩
  have some : (0 : Label).toNat < problem.grammar.labelCount := by
    rw [full]
    decide
  have sized := sized_lone problem.length problem.grammar.labelCount 0
  have entry := entry_lone within some
  have fresh := fresh_lone within some
  obtain ⟨closed, ok, lost⟩ := losesLabels full _ 0 1 ⊥ sized within fresh
  obtain ⟨before, after⟩ := lost 0 some
  have high := (keeps _ closed 0 1 0 ⊥ sized within fresh ok 0 some).2
  rw [before, after, BestChart.before, sized.get_eq_entry within some, entry] at high
  exact absurd high (by simp)

end BestChart

theorem MassChart.fill_word (full : problem.grammar.labelCount = numberLimit)
    (word : problem.length = 1) (threshold : EReal) :
    fill problem threshold = (create problem).addTerminals 0 := by
  have words := (dead_create problem).addTerminals 0
  have narrow : narrowIntervals problem.length = [(0, 1)] := by
    rw [word]
    rfl
  have wide : wideIntervals problem.length = [] := by
    rw [word]
    rfl
  rw [fill_eq, narrow, wide, List.foldl_nil, List.foldl_cons, List.foldl_nil, words.close full]

theorem MassChart.bot_lt_addTerminals (coherent : problem.grammar.Coherent)
    (finite : problem.Finite) {position : Nat} (inside : position < problem.length)
    {label : Label} (allowed : label ∈ problem.terminalsAt position) :
    ⊥ < ((create problem).addTerminals position).before.get position (position + 1) label := by
  have within : position ≤ problem.length ∧ position + 1 ≤ problem.length := ⟨inside.le, inside⟩
  have terminal := coherent.mem_terminalsFor allowed
  have registered := coherent.terminals_registered label terminal
  have shares : ∀ share ∈ terminalShares problem position,
      problem.grammar.Registered share.1 := by
    intro share member
    obtain ⟨other, found, rfl⟩ := List.mem_map.mp member
    exact coherent.terminals_registered other (coherent.mem_terminalsFor found)
  have poured := (sized_create problem).before.get_pour within within shares registered
  rw [addTerminals_eq, bot_lt_iff_ne_bot, ne_eq, ← EReal.exp_eq_zero_iff]
  refine ne_of_eq_of_ne (congrArg EReal.exp (poured.trans (if_pos rfl))) ?_
  rw [exp_foldl_logAdd]
  intro none
  have score := exp_spanScore_ne_zero finite (.terminal position label)
  rw [Problem.spanScore_terminal coherent terminal] at score
  have listed : (label, problem.terminalScore position label) ∈
      (terminalShares problem position).filter (·.1 = label) :=
    List.mem_filter.mpr ⟨List.mem_map_of_mem allowed, by simp⟩
  apply score
  exact (List.sum_eq_zero_iff.mp (add_eq_zero.mp none).2) _
    (List.mem_map_of_mem (List.mem_map_of_mem listed))

theorem MassChart.not_keepsLabels (full : problem.grammar.labelCount = numberLimit)
    (coherent : problem.grammar.Coherent) (finite : problem.Finite) (word : problem.length = 1)
    {label : Label} (allowed : label ∈ problem.terminalsAt 0) : ¬ KeepsLabels problem := by
  intro keeps
  have registered := coherent.terminals_registered label (coherent.mem_terminalsFor allowed)
  have some : ⊥ < (fill problem ⊤).before.get 0 1 label := by
    rw [fill_word full word]
    exact bot_lt_addTerminals coherent finite (by omega) allowed
  have alive := keeps 0 1 label (by omega) registered some .beforeUnary
  rw [losesLabels full ⊤ 0 1 label .beforeUnary] at alive
  cases alive

def tally (number : Nat) : String := String.ofList (List.replicate number '|')

theorem tally_injective : Function.Injective tally := by
  intro number number' same
  have lengths := congrArg String.length same
  simpa [tally] using lengths

/-- A grammar with some labels and nothing else. -/
def crowd : Nat → Grammar
  | 0 => empty
  | count + 1 => (addLabel (tally count)).grow (crowd count)

theorem crowd_built (count : Nat) : (crowd count).Built := by
  induction count with
  | zero => exact .empty
  | succ count ih => exact .addLabel _ ih

theorem exists_crowd_eq {count : Nat} (room : count ≤ numberLimit) : ∃ labels : Numbering String,
    crowd count = { labels := labels } ∧ labels.toList = (List.range count).map tally := by
  induction count with
  | zero => exact ⟨.empty, rfl, rfl⟩
  | succ count ih =>
    obtain ⟨labels, crowd_eq, names⟩ := ih (Nat.le_of_succ_le room)
    have sound : labels.Sound := by
      have coherent := (crowd_built count).coherent
      rw [crowd_eq] at coherent
      exact coherent.labels
    have new : labels.find? (tally count) = none := by
      rw [← Option.not_isSome_iff_eq_none, sound.find?_isSome_iff, names, List.mem_map]
      intro known
      obtain ⟨number, member, same⟩ := known
      obtain rfl := tally_injective same
      exact List.not_mem_range_self member
    have size : labels.size < numberLimit := by
      rw [← labels.length_toList, names, List.length_map, List.length_range]
      exact room
    refine ⟨labels.push (tally count), ?_, ?_⟩
    · rw [crowd, crowd_eq]
      exact grow_addLabel_of_new new size
    · rw [Numbering.toList_push, names, List.range_succ, List.map_append]
      rfl

/-- A crowd in which the first label stands over words. -/
def crowdedGrammar (count : Nat) : Grammar := (addTerminal 0).grow (crowd count)

noncomputable def crowded (count : Nat) : Problem EReal :=
  .uniform (crowdedGrammar count) ⟨#[⟨"word", none⟩]⟩

theorem crowdedGrammar_built {count : Nat} (some : 0 < count) (room : count ≤ numberLimit) :
    (crowdedGrammar count).Built ∧ (crowdedGrammar count).labelCount = count := by
  obtain ⟨labels, crowd_eq, names⟩ := exists_crowd_eq room
  have size : (crowd count).labelCount = count := by
    rw [crowd_eq, labelCount, ← Numbering.length_toList, names, List.length_map, List.length_range]
  refine ⟨.addTerminal 0 (crowd_built count) ?_, size⟩
  rw [Registered, size]
  exact some

theorem mem_terminalsAt_crowded {count : Nat} (room : count ≤ numberLimit) :
    0 ∈ (crowded count).terminalsAt 0 := by
  change 0 ∈ (crowdedGrammar count).terminals.toList
  obtain ⟨labels, crowd_eq, _⟩ := exists_crowd_eq room
  rw [crowdedGrammar, crowd_eq, grow_addTerminal]
  exact (Numbering.Sound.empty.mem_toList_insert 0 0).mpr (.inl rfl)

theorem length_crowded (count : Nat) : (crowded count).length = 1 := rfl

/-- With as many labels as there can be, the one label that a word may take is lost. -/
theorem full_crowd_loses_labels :
    (crowded numberLimit).grammar.Built ∧ (crowded numberLimit).Finite ∧
      ¬ BestChart.KeepsLabels (crowded numberLimit) ∧
      ¬ MassChart.KeepsLabels (crowded numberLimit) := by
  obtain ⟨built, full⟩ := crowdedGrammar_built (by decide) (le_refl numberLimit)
  have finite := Problem.uniform_finite (crowdedGrammar numberLimit) ⟨#[⟨"word", none⟩]⟩
  have word := length_crowded numberLimit
  exact ⟨built, finite, BestChart.not_keepsLabels full word.ge,
    MassChart.not_keepsLabels full built.coherent finite word
      (mem_terminalsAt_crowded (le_refl numberLimit))⟩

theorem labels_kept_or_lost_crowd :
    BestChart.KeepsLabels (.uniform row twoWords) ∧
      MassChart.KeepsLabels (.uniform row twoWords) ∧
      BestChart.LosesLabels (crowded numberLimit) ∧
      MassChart.LosesLabels (crowded numberLimit) := by
  obtain ⟨built, full⟩ := crowdedGrammar_built (by decide) (le_refl numberLimit)
  obtain ⟨_, best, mass⟩ := (@labels_kept_or_lost (.uniform row twoWords) row_built).1 row_fits
  exact ⟨best, mass, ((@labels_kept_or_lost (crowded numberLimit) built).2 full).2⟩

end Crowded

end Constituency
