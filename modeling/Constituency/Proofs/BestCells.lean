import Mathlib
import Constituency.Search.Beam
import Constituency.Proofs.Closure
import Constituency.Proofs.Fold
import Constituency.Proofs.Intervals
import Constituency.Proofs.ParseScore
import Constituency.Proofs.Table

/-!
Charts of best scores cell by cell: what each step of the search does to the cell of its interval,
and that it leaves the other cells alone.
-/

namespace Constituency.BestChart

open Score

section Cells

variable {α : Type} [Score α]

abbrev Sized (chart : BestChart α) (words labels : Nat) : Prop :=
  chart.entries.Sized words labels .absent

variable {chart : BestChart α} {words labels : Nat} {start stop start' stop' : Nat}

theorem sized_create (words labels : Nat) :
    (create words labels : BestChart α).Sized words labels :=
  Table.sized_create words labels Entry.absent

namespace Sized

theorem size_cell (sized : chart.Sized words labels) (within : start ≤ words ∧ stop ≤ words) :
    (chart.cell start stop).size = labels := by
  rw [cell, List.size_toArray, Table.length_cell sized.shaped (sized.covers within),
    sized.labels_eq]

theorem get_eq_entry (sized : chart.Sized words labels) (within : start ≤ words ∧ stop ≤ words)
    {label : Label} (inside : label.toNat < labels) :
    chart.entries.get start stop label = (chart.cell start stop).entry label := by
  rw [Table.get_eq_getD_cell sized.shaped (sized.covers within) (sized.labels_eq ▸ inside),
    sized.blank_eq, Cell.entry, cell, List.getD_eq_getElem?_getD, Array.getD_eq_getD_getElem?,
    List.getElem?_toArray]

theorem after_eq (sized : chart.Sized words labels) (within : start ≤ words ∧ stop ≤ words)
    {label : Label} (inside : label.toNat < labels) :
    chart.after start stop label = (chart.cell start stop).after label := by
  rw [after, sized.get_eq_entry within inside, Cell.after]

theorem cell_modify_self (sized : chart.Sized words labels)
    (within : start ≤ words ∧ stop ≤ words) (label : Label) (change : Entry α → Entry α) :
    (⟨chart.entries.modify start stop label change⟩ : BestChart α).cell start stop =
      (chart.cell start stop).modify label.toNat change := by
  rw [cell, Table.cell_modify_self sized.shaped (sized.covers within), cell]
  simp

theorem cell_modify_of_ne (sized : chart.Sized words labels)
    (within : start ≤ words ∧ stop ≤ words) (within' : start' ≤ words ∧ stop' ≤ words)
    (apart : (start, stop) ≠ (start', stop')) {label : Label} (inside : label.toNat < labels)
    (change : Entry α → Entry α) :
    (⟨chart.entries.modify start stop label change⟩ : BestChart α).cell start' stop' =
      chart.cell start' stop' := by
  rw [cell, Table.cell_modify_of_ne sized.shaped (sized.covers within) (sized.covers within') apart
    (sized.labels_eq ▸ inside), cell]

theorem entry_modify (sized : chart.Sized words labels) (within : start ≤ words ∧ stop ≤ words)
    (within' : start' ≤ words ∧ stop' ≤ words) {label : Label} (inside : label.toNat < labels)
    (change : Entry α → Entry α) (other : Label) :
    ((⟨chart.entries.modify start stop label change⟩ : BestChart α).cell start' stop').entry other =
      if (start, stop) = (start', stop') ∧ label = other then
        change ((chart.cell start' stop').entry other)
      else (chart.cell start' stop').entry other := by
  by_cases same : (start, stop) = (start', stop')
  · obtain ⟨rfl, rfl⟩ := Prod.mk.inj same
    rw [sized.cell_modify_self within, Cell.entry_modify, sized.size_cell within]
    simp [inside]
  · rw [sized.cell_modify_of_ne within within' same inside, if_neg fun both => same both.1]

end Sized

theorem entry_create {words labels : Nat} (within : start ≤ words ∧ stop ≤ words)
    (label : Label) :
    ((create words labels : BestChart α).cell start stop).entry label = .absent := by
  rw [cell, create, Table.cell_create _ _ _ within.1 within.2, Cell.entry,
    Array.getD_eq_getD_getElem?, List.getElem?_toArray, List.getElem?_replicate]
  split <;> rfl

theorem Sized.exists_closed {problem : Problem α} (sized : chart.Sized words labels)
    (within : start ≤ words ∧ stop ≤ words) {floor : α} {cell : Cell α} {updates : Nat}
    (settled : (chart.cell start stop).close labels floor (unaryEdges problem start stop) =
      (cell, .ok updates)) (size : cell.size = labels) :
    ∃ next, chart.closed problem start stop floor = .ok next ∧ next.Sized words labels ∧
      (∀ start' stop', start' ≤ words ∧ stop' ≤ words → (start, stop) ≠ (start', stop') →
        next.cell start' stop' = chart.cell start' stop') ∧
      next.cell start stop = cell := by
  have length : cell.toList.length = chart.entries.labels := by
    rw [Array.length_toList, size, sized.labels_eq]
  have count : chart.labels = labels := sized.labels_eq
  refine ⟨⟨chart.entries.setCell start stop cell.toList⟩, ?_, ?_, ?_, ?_⟩
  · simp only [closed, close, count, settled]
    rfl
  · exact ⟨sized.shaped.setCell _ _ _, sized.words_eq, sized.labels_eq, sized.blank_eq⟩
  · intro start' stop' within' apart
    rw [BestChart.cell, Table.cell_setCell_of_ne sized.shaped (sized.covers within)
      (sized.covers within') apart length, BestChart.cell]
  · rw [BestChart.cell, Table.cell_setCell_self sized.shaped (sized.covers within) length,
      Array.toArray_toList]

section Rules

variable {problem : Problem α}

theorem mem_unaryEdges (tables : problem.grammar.UnaryTables) {edge : UnaryEdge α} :
    edge ∈ unaryEdges problem start stop ↔
      edge.rule ∈ problem.grammar.unaryRules.toList ∧
        edge.score = problem.spanScore (.unary start stop edge.rule) := by
  simp only [unaryEdges, List.mem_filterMap, Option.map_eq_some_iff]
  constructor
  · intro found
    obtain ⟨number, _, rule, found, rfl⟩ := found
    exact ⟨(Numbering.mem_toList_iff _ _).mpr ⟨number, found⟩,
      (Problem.spanScore_unary tables found start stop).symm⟩
  · intro found
    obtain ⟨known, score⟩ := found
    obtain ⟨number, found⟩ := (Numbering.mem_toList_iff _ _).mp known
    have listed : number ∈ problem.grammar.unaryOrder :=
      tables.order.mem_iff.mpr (List.mem_range.mpr (Numbering.lt_size_of_get? found))
    refine ⟨number, listed, edge.rule, found, ?_⟩
    rw [← Problem.spanScore_unary tables found, ← score]

theorem bottomUp_unaryEdges {rank : Label → Nat} (coherent : problem.grammar.Coherent)
    (ranked : problem.grammar.Ranked rank) (start stop : Nat) :
    Cell.BottomUp rank problem.grammar.labelCount (unaryEdges problem start stop) := by
  constructor
  · intro edge member
    obtain ⟨parent, child⟩ :=
      coherent.unary.registered edge.rule ((mem_unaryEdges coherent.unaryTables).mp member).1
    exact ⟨parent, (ranked.bounded _ child).le⟩
  · intro edge member
    exact ranked.falls edge.rule ((mem_unaryEdges coherent.unaryTables).mp member).1
  · rw [unaryEdges, List.pairwise_filterMap]
    refine (coherent.ascends ranked.acyclic).imp ?_
    intro earlier later ascends edge found edge' found'
    obtain ⟨rule, known, rfl⟩ := Option.map_eq_some_iff.mp found
    obtain ⟨rule', known', rfl⟩ := Option.map_eq_some_iff.mp found'
    exact ascends rule rule' known known'

/-- The ways to divide an interval by a numbered binary rule. -/
def offers (problem : Problem α) (start stop : Nat) : List (Nat × BinaryRule × Nat) :=
  (splits start stop).flatMap fun split =>
    problem.grammar.numberedBinary.map fun rule => (split, rule)

omit [Score α] in
theorem mem_offers {split : Nat} {rule : BinaryRule} {number : Nat} :
    (split, rule, number) ∈ offers problem start stop ↔
      (start < split ∧ split < stop) ∧ problem.grammar.binaryRule? number = some rule := by
  simp [offers, mem_splits, Grammar.numberedBinary, List.mem_zipIdx_iff_getElem?,
    Grammar.binaryRule?, Numbering.get?_eq]

theorem offerAll_eq_foldl (problem : Problem α) (chart : BestChart α) (start stop : Nat) :
    Exact.offerAll problem chart start stop = (offers problem start stop).foldl
      (fun chart offer => Exact.offerRule problem start offer.1 stop chart offer.2) chart := by
  rw [Exact.offerAll, offers, List.foldl_flatMap]
  simp only [List.foldl_map]

theorem beamOffers_eq_foldl (problem : Problem α) (threshold : α) (beam : Beam α)
    (start stop : Nat) :
    Beam.offerAll problem threshold beam start stop = (offers problem start stop).foldl
      (fun filling offer => Beam.offerRule problem threshold start offer.1 stop
        (beam.top start offer.1 - threshold) (beam.top offer.1 stop - threshold) filling offer.2)
      ⟨beam.chart, absent, beam.counts⟩ := by
  rw [Beam.offerAll, offers, List.foldl_flatMap]
  simp only [List.foldl_map]
  rfl

end Rules

section Terminals

variable {problem : Problem α}

def terminalPlaces (problem : Problem α) : List (Nat × Label) :=
  (List.range problem.length).flatMap fun position =>
    (problem.terminalsAt position).map fun label => (position, label)

omit [Score α] in
theorem mem_terminalPlaces {position : Nat} {label : Label} :
    (position, label) ∈ terminalPlaces problem ↔
      position < problem.length ∧ label ∈ problem.terminalsAt position := by
  simp [terminalPlaces]

theorem setTerminals_eq_foldl (chart : BestChart α) (problem : Problem α) :
    chart.setTerminals problem = (terminalPlaces problem).foldl (fun chart place =>
      chart.setTerminal place.1 place.2 (problem.terminalScore place.1 place.2)) chart := by
  rw [setTerminals, terminalPlaces, List.foldl_flatMap]
  simp only [List.foldl_map]

theorem entry_setTerminals (sized : chart.Sized problem.length labels)
    (registered : ∀ position label, label ∈ problem.terminalsAt position → label.toNat < labels) :
    (chart.setTerminals problem).Sized problem.length labels ∧
      ∀ start stop, start ≤ problem.length ∧ stop ≤ problem.length → ∀ label,
        ((chart.setTerminals problem).cell start stop).entry label =
          if stop = start + 1 ∧ (start, label) ∈ terminalPlaces problem then
            { (chart.cell start stop).entry label with
              before := problem.terminalScore start label, origin := .terminal }
          else (chart.cell start stop).entry label := by
  rw [setTerminals_eq_foldl]
  refine Fold.foldl_holds (fun earlier (next : BestChart α) =>
    next.Sized problem.length labels ∧
      ∀ start stop, start ≤ problem.length ∧ stop ≤ problem.length → ∀ label,
        (next.cell start stop).entry label =
          if stop = start + 1 ∧ (start, label) ∈ earlier then
            { (chart.cell start stop).entry label with
              before := problem.terminalScore start label, origin := .terminal }
          else (chart.cell start stop).entry label) ⟨sized, by simp⟩ ?_
  intro earlier entry later next whole holds
  obtain ⟨position, label⟩ := entry
  obtain ⟨sized', entries⟩ := holds
  have place : (position, label) ∈ terminalPlaces problem := by simp [whole]
  obtain ⟨bound, terminal⟩ := mem_terminalPlaces.mp place
  have inside := registered position label terminal
  refine ⟨sized'.modify _ _ _ _, fun start stop within other => ?_⟩
  refine (sized'.entry_modify ⟨bound.le, bound⟩ within inside _ other).trans ?_
  rw [entries start stop within]
  by_cases here : (position, position + 1) = (start, stop) ∧ label = other
  · obtain ⟨interval, rfl⟩ := here
    obtain ⟨rfl, rfl⟩ := Prod.mk.inj interval
    by_cases earlier' : (position, label) ∈ earlier <;> simp [earlier']
  · have apart : ¬(stop = start + 1 ∧ start = position ∧ other = label) := by
      intro same
      obtain ⟨rfl, rfl, rfl⟩ := same
      exact here ⟨rfl, rfl⟩
    rw [if_neg here]
    congr 1
    rw [List.mem_append, List.mem_singleton, Prod.mk.injEq, eq_iff_iff]
    tauto

end Terminals

end Cells

section Offers

open ExtendedReal

variable {chart next : BestChart EReal} {problem : Problem EReal} {start stop : Nat}

def Possible (chart : BestChart EReal) (start split stop : Nat) (rule : BinaryRule) : Prop :=
  (chart.cell start split).after rule.left ≠ ⊥ ∧ (chart.cell split stop).after rule.right ≠ ⊥

noncomputable def offered (problem : Problem EReal) (chart : BestChart EReal)
    (start split stop : Nat) (rule : BinaryRule) (number : Nat) : EReal :=
  problem.joined start split stop rule number ((chart.cell start split).after rule.left)
    ((chart.cell split stop).after rule.right)

/-- The chart `next` after some rules have been offered for an interval of `chart`. -/
structure Offered (problem : Problem EReal) (chart : BestChart EReal) (start stop : Nat)
    (made : List (Nat × BinaryRule × Nat)) (next : BestChart EReal) : Prop where
  sized : next.Sized problem.length problem.grammar.labelCount
  others : ∀ start' stop', start' ≤ problem.length ∧ stop' ≤ problem.length →
    (start, stop) ≠ (start', stop') → next.cell start' stop' = chart.cell start' stop'
  idle : ∀ label, (next.cell start stop).after label = (chart.cell start stop).after label ∧
    (next.cell start stop).link label = (chart.cell start stop).link label
  upper : ∀ split rule number, (split, rule, number) ∈ made →
    chart.Possible start split stop rule →
      offered problem chart start split stop rule number ≤
        ((next.cell start stop).entry rule.parent).before
  attained : ∀ label, ((next.cell start stop).entry label).before ≠ ⊥ →
    ∃ split rule number, (split, rule, number) ∈ made ∧ rule.parent = label ∧
      chart.Possible start split stop rule ∧
      ((next.cell start stop).entry label).before =
        offered problem chart start split stop rule number ∧
      ((next.cell start stop).entry label).origin = .binary number split

namespace Offered

variable {made : List (Nat × BinaryRule × Nat)} {split : Nat} {rule : BinaryRule} {number : Nat}

theorem offer (offered' : Offered problem chart start stop made next)
    (within : start ≤ problem.length ∧ stop ≤ problem.length)
    (registered : problem.grammar.Registered rule.parent)
    (possible : chart.Possible start split stop rule) :
    Offered problem chart start stop (made ++ [(split, rule, number)])
      (next.offer start stop rule.parent (offered problem chart start split stop rule number)
        number split) := by
  generalize better : offered problem chart start split stop rule number = score
  have entries (label : Label) :
      ((next.offer start stop rule.parent score number split).cell start stop).entry label =
        if rule.parent = label ∧ ((next.cell start stop).entry label).before < score then
          { (next.cell start stop).entry label with
            before := score, origin := .binary number split }
        else (next.cell start stop).entry label := by
    refine (offered'.sized.entry_modify within within registered _ label).trans ?_
    by_cases same : rule.parent = label
    · simp [same]
    · simp [same]
  have rises (label : Label) : ((next.cell start stop).entry label).before ≤
      (((next.offer start stop rule.parent score number split).cell start stop).entry
        label).before := by
    rw [entries]
    split
    · rename_i improves
      exact improves.2.le
    · exact le_rfl
  constructor
  · exact offered'.sized.modify _ _ _ _
  · intro start' stop' within' apart
    exact (offered'.sized.cell_modify_of_ne within within' apart registered _).trans
      (offered'.others start' stop' within' apart)
  · intro label
    rw [Cell.after, Cell.link, entries]
    split <;> exact offered'.idle label
  · intro split' rule' number' member possible'
    rw [List.mem_append, List.mem_singleton, Prod.mk.injEq, Prod.mk.injEq] at member
    rcases member with old | ⟨rfl, rfl, rfl⟩
    · exact (offered'.upper split' rule' number' old possible').trans (rises _)
    · rw [better, entries]
      split
      · exact le_rfl
      · rename_i enough
        exact not_lt.mp fun less => enough ⟨rfl, less⟩
  · intro label present
    -- What scores now was made by this rule, or by an earlier one that is still the best.
    by_cases improves :
        rule.parent = label ∧ ((next.cell start stop).entry label).before < score
    · refine ⟨split, rule, number, by simp, improves.1, possible, ?_⟩
      rw [entries, if_pos improves, better]
      exact ⟨rfl, rfl⟩
    · rw [entries, if_neg improves] at present ⊢
      obtain ⟨split', rule', number', member, rest⟩ := offered'.attained label present
      exact ⟨split', rule', number', by simp [member], rest⟩

/-- The scores of the children are those from before the offers. -/
theorem children (offered' : Offered problem chart start stop made next)
    (within : start ≤ stop ∧ stop ≤ problem.length) (inside : start < split ∧ split < stop)
    (first : problem.grammar.Registered rule.left)
    (second : problem.grammar.Registered rule.right) :
    next.after start split rule.left = (chart.cell start split).after rule.left ∧
      next.after split stop rule.right = (chart.cell split stop).after rule.right := by
  constructor
  · rw [offered'.sized.after_eq (by omega) first,
      offered'.others start split (by omega) (by simp; omega)]
  · rw [offered'.sized.after_eq (by omega) second,
      offered'.others split stop (by omega) (by simp; omega)]

end Offered

theorem possible_iff {split : Nat} {rule : BinaryRule} :
    chart.Possible start split stop rule ↔ ((chart.cell start split).after rule.left == absent ||
      (chart.cell split stop).after rule.right == absent) = false := by
  simp [Possible]

end Offers

end Constituency.BestChart
