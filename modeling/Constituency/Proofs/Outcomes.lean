import Constituency.Proofs.Links
import Constituency.Proofs.UnlimitedBeam

/-!
What searches come to. Exact search and beam search fail if the unary rules of the grammar form a
cycle, and for no other reason: every cell settles, and what the links of the chart lead to is read
off as a tree.
-/

namespace Constituency

open Score Grammar

variable {α : Type} [Score α] {problem : Problem α}

omit [Score α] in
theorem Problem.isEmpty_iff (problem : Problem α) :
    problem.sentence.isEmpty = true ↔ problem.length = 0 :=
  Array.isEmpty_iff_size_eq_zero

omit [Score α] in
theorem Problem.Parses.length_ne_zero {parse : Parse} (parses : problem.Parses parse) :
    problem.length ≠ 0 := by
  have some := parses.admits.contiguous.start_lt_stop
  rw [parses.start_eq, parses.stop_eq] at some
  exact Nat.pos_iff_ne_zero.mp some

theorem Grammar.Coherent.unaryCycle?_ends {grammar : Grammar} (coherent : grammar.Coherent) :
    grammar.Acyclic ∧ grammar.unaryCycle? = none ∨ ¬ grammar.Acyclic ∧
      ∃ cycle, UnaryGraph.IsCycle grammar.unaryChildren cycle ∧
        grammar.unaryCycle? = some cycle :=
  coherent.unary.unaryCycle?_ends

theorem Grammar.Coherent.checkUnary_eq {grammar : Grammar} (coherent : grammar.Coherent)
    (acyclic : grammar.Acyclic) : BestChart.checkUnary grammar = .ok () := by
  rw [BestChart.checkUnary, coherent.unary.unaryCycle?_eq_none acyclic]

namespace BestChart

variable {chart : BestChart α} {rank : Label → Nat}

/-- A parse of an item that the links of a chart lead to. -/
structure Leads (problem : Problem α) (chart : BestChart α) (start stop : Nat) (label : Label)
    (phase : Phase) (parse : Parse) : Prop where
  admits : problem.Admits parse
  start_eq : parse.start = start
  stop_eq : parse.stop = stop
  label_eq : parse.label = label
  reads : chart.Reads problem.grammar phase parse

namespace Linked

theorem exists_grounded (linked : Linked problem chart) (coherent : problem.grammar.Coherent)
    {start stop : Nat} (bounds : start < stop ∧ stop ≤ problem.length)
    (narrower : ∀ start' stop', start' < stop' ∧ stop' ≤ problem.length →
      stop' - start' < stop - start → ∀ label, (chart.cell start' stop').link label ≠ .none →
        ∃ parse, Leads problem chart start' stop' label .afterUnary parse)
    {label : Label} (produced : ((chart.cell start stop).entry label).origin ≠ .none) :
    ∃ parse, Leads problem chart start stop label .beforeUnary parse := by
  have within : start ≤ problem.length ∧ stop ≤ problem.length := by omega
  have grounds := linked.grounds start stop within label
  generalize origin : ((chart.cell start stop).entry label).origin = made at grounds produced
  cases grounds with
  | none => exact absurd rfl produced
  | terminal single inside allowed =>
    subst single
    have entry := linked.sized.get_eq_entry within
      (coherent.terminals_registered label (coherent.mem_terminalsFor allowed))
    exact ⟨.word label start, ⟨inside, allowed⟩, rfl, rfl, rfl, .word (entry ▸ origin)⟩
  | binary split rule number inside found parent onLeft onRight =>
    subst parent
    have member := (Numbering.mem_toList_iff _ _).mpr ⟨number, found⟩
    have entry := linked.sized.get_eq_entry within
      (coherent.registered_of_mem_binaryRules member).1
    obtain ⟨left, admits, rfl, rfl, first, readsLeft⟩ :=
      narrower start split (by omega) (by omega) rule.left onLeft
    obtain ⟨right, admits', meet, rfl, second, readsRight⟩ :=
      narrower _ stop (by omega) (by omega) rule.right onRight
    have same : rule = ⟨rule.parent, left.label, right.label⟩ := by rw [first, second]
    refine ⟨.binary rule.parent left right, ⟨?_, meet.symm, admits, admits'⟩, rfl, rfl, rfl,
      .binary (entry ▸ origin) (same ▸ found) meet.symm readsLeft readsRight⟩
    rw [← same]
    exact (coherent.contains_binary_iff rule).mpr member

theorem exists_of_grounded (linked : Linked problem chart) (coherent : problem.grammar.Coherent)
    (ranked : problem.grammar.Ranked rank) {start stop : Nat}
    (within : start ≤ problem.length ∧ stop ≤ problem.length)
    (grounded : ∀ label, ((chart.cell start stop).entry label).origin ≠ .none →
      ∃ parse, Leads problem chart start stop label .beforeUnary parse)
    (label : Label) (present : (chart.cell start stop).link label ≠ .none) :
    ∃ parse, Leads problem chart start stop label .afterUnary parse := by
  have cell := linked.cells start stop within
  -- A chain of unary rules ends because the ranks of its labels fall.
  induction label using (measure rank).wf.induction with
  | h label ih =>
    cases link : (chart.cell start stop).link label with
    | none => exact absurd link present
    | keep =>
      obtain ⟨parse, admits, rfl, rfl, rfl, reads⟩ := grounded label (cell.keep label link)
      have entry := linked.sized.get_eq_entry within (admits.registered coherent)
      exact ⟨parse, admits, rfl, rfl, rfl, .keep (entry ▸ link) reads⟩
    | unary child =>
      obtain ⟨step, below⟩ := cell.unary label child link
      obtain ⟨parse, admits, rfl, rfl, rfl, reads⟩ := ih child (ranked.falls _ step) below
      have entry := linked.sized.get_eq_entry within (coherent.unary.registered _ step).1
      exact ⟨.unary label parse, ⟨(coherent.contains_unary_iff _).mpr step, admits⟩, rfl, rfl, rfl,
        .unary (entry ▸ link) reads⟩

theorem exists_parse (linked : Linked problem chart) (coherent : problem.grammar.Coherent)
    (ranked : problem.grammar.Ranked rank) (start stop : Nat)
    (bounds : start < stop ∧ stop ≤ problem.length) (label : Label)
    (present : (chart.cell start stop).link label ≠ .none) :
    ∃ parse, Leads problem chart start stop label .afterUnary parse := by
  induction width : stop - start using Nat.strong_induction_on generalizing start stop label with
  | h width ih =>
    subst width
    refine linked.exists_of_grounded coherent ranked (by omega) (fun label produced => ?_) label
      present
    exact linked.exists_grounded coherent bounds
      (fun start' stop' bounds' less label' present' =>
        ih _ less start' stop' bounds' label' present' rfl) produced

theorem room (linked : Linked problem chart) (coherent : problem.grammar.Coherent)
    (ranked : problem.grammar.Ranked rank) {parse : Parse} (parses : problem.Parses parse) :
    parse.spans.length ≤ chart.spanLimit + 1 := by
  have few := parses.admits.length_spans_le coherent ranked
  have low := ranked.bounded _ (parses.admits.registered coherent)
  have some := parses.admits.contiguous.start_lt_stop
  rw [parses.start_eq, parses.stop_eq] at few some
  rw [spanLimit, BestChart.words, BestChart.labels, linked.sized.words_eq, linked.sized.labels_eq]
  have chains : 2 * (problem.length - 0 - 1) * problem.grammar.labelCount +
      2 * problem.grammar.labelCount = 2 * problem.length * problem.grammar.labelCount := by
    obtain ⟨words, more⟩ := Nat.exists_eq_add_of_lt some
    rw [more]
    simp only [Nat.zero_add, Nat.sub_zero, Nat.add_sub_cancel]
    ring
  rw [Nat.mul_add]
  omega

end Linked

theorem after_words (sized : chart.Sized problem.length problem.grammar.labelCount) {label : Label}
    (registered : problem.grammar.Registered label) :
    chart.after 0 chart.words label = (chart.cell 0 problem.length).after label := by
  rw [BestChart.words, sized.words_eq]
  exact sized.after_eq (by omega) registered

theorem bestRoot?_some {grammar : Grammar} {root : Label} {score : α}
    (found : chart.bestRoot? grammar = some (root, score)) :
    root ∈ grammar.roots.toList ∧ chart.after 0 chart.words root = score ∧
      (score == absent) = false := by
  have rounds : ∀ best ∈ chart.bestRoot? grammar, best.1 ∈ grammar.roots.toList ∧
      chart.after 0 chart.words best.1 = best.2 ∧ (best.2 == absent) = false := by
    refine List.foldlRecOn (motive := fun best : Option (Label × α) => ∀ top ∈ best,
      top.1 ∈ grammar.roots.toList ∧ chart.after 0 chart.words top.1 = top.2 ∧
        (top.2 == absent) = false) _ _ (by simp) ?_
    intro best holds label member
    simp only
    split
    · exact holds
    · rename_i present
      rw [Bool.or_eq_true, not_or, Bool.not_eq_true, Bool.not_eq_true] at present
      have new : ∀ top ∈ some (label, chart.after 0 chart.words label),
          top.1 ∈ grammar.roots.toList ∧ chart.after 0 chart.words top.1 = top.2 ∧
            (top.2 == absent) = false := by
        intro top same
        obtain rfl := Option.some.inj same
        exact ⟨member, rfl, present.2⟩
      split
      · exact new
      · split
        · exact new
        · exact holds
  exact rounds _ found

namespace Linked

variable [Score.Ordered α]

theorem exists_best (linked : Linked problem chart) (coherent : problem.grammar.Coherent)
    (ranked : problem.grammar.Ranked rank) (words : problem.length ≠ 0) :
    chart.bestRoot? problem.grammar = none ∧ chart.best? problem.grammar = .ok none ∨
      ∃ parse, problem.Parses parse ∧ chart.Reads problem.grammar .afterUnary parse ∧
        chart.bestRoot? problem.grammar =
          some (parse.label, chart.after 0 chart.words parse.label) ∧
        chart.best? problem.grammar =
          .ok (some ⟨parse.spans, chart.after 0 chart.words parse.label⟩) := by
  cases best : chart.bestRoot? problem.grammar with
  | none =>
    left
    refine ⟨rfl, ?_⟩
    rw [best?, best]
  | some top =>
    right
    obtain ⟨root, score⟩ := top
    obtain ⟨accepted, rfl, present⟩ := bestRoot?_some best
    have scored := after_words linked.sized (coherent.roots_registered root accepted)
    have link : (chart.cell 0 problem.length).link root ≠ .none := by
      intro none
      rw [scored, (linked.cells 0 problem.length (by omega)).after root none,
        Ordered.absent_beq] at present
      cases present
    obtain ⟨parse, admits, starts, stops, rfl, reads⟩ :=
      linked.exists_parse coherent ranked 0 problem.length (by omega) root link
    have parses : problem.Parses parse :=
      ⟨admits, starts, stops, (coherent.isRoot_iff _).mpr accepted⟩
    have read := readTree_eq reads starts (stops.trans linked.sized.words_eq.symm)
      (linked.room coherent ranked parses)
    refine ⟨parse, parses, reads, rfl, ?_⟩
    simp only [best?, best, read]
    rfl

theorem exists_ok (linked : Linked problem chart) (coherent : problem.grammar.Coherent)
    (ranked : problem.grammar.Ranked rank) (words : problem.length ≠ 0) :
    ∃ best, chart.best? problem.grammar = .ok best := by
  rcases linked.exists_best coherent ranked words with ⟨_, best⟩ | ⟨parse, _, _, _, best⟩
  · exact ⟨_, best⟩
  · exact ⟨_, best⟩

end Linked

end BestChart

namespace Exact

open BestChart

variable {chart : BestChart α} {rank : Label → Nat} [Score.Ordered α]

theorem offerAll_linked (linked : Linked problem chart) (coherent : problem.grammar.Coherent)
    {start stop : Nat} (bound : stop ≤ problem.length) :
    Linked problem (offerAll problem chart start stop) := by
  rw [offerAll_eq_foldl]
  refine List.foldlRecOn (motive := Linked problem) _ _ linked ?_
  intro next linked offer member
  obtain ⟨split, rule, number⟩ := offer
  simp only [offerRule]
  split
  · exact linked
  · rename_i present
    rw [Bool.or_eq_true, not_or, Bool.not_eq_true, Bool.not_eq_true] at present
    exact linked.offer coherent member bound present.1 present.2 _

theorem exists_fill_linked (coherent : problem.grammar.Coherent)
    (ranked : problem.grammar.Ranked rank) :
    ∃ chart, fill problem = .ok chart ∧ Linked problem chart := by
  obtain ⟨first, narrow, linked⟩ := Fold.exists_foldlM (Linked problem)
    (fun chart interval => chart.closed problem interval.1 interval.2 absent)
    (narrowIntervals problem.length)
    (fun interval member chart linked => by
      have within := within_of_mem_narrowIntervals member
      exact linked.exists_closed coherent ranked within absent)
    ((Linked.create problem).setTerminals coherent)
  obtain ⟨chart, wide, linked⟩ := Fold.exists_foldlM (Linked problem)
    (fun chart interval =>
      (offerAll problem chart interval.1 interval.2).closed problem interval.1 interval.2 absent)
    (wideIntervals problem.length)
    (fun interval member chart linked => by
      have within := within_of_mem_wideIntervals member
      exact (offerAll_linked linked coherent within.2).exists_closed coherent ranked within absent)
    linked
  refine ⟨chart, ?_, linked⟩
  rw [Beam.exactFill_eq]
  simp only [Beam.start, narrow]
  exact wide

end Exact

namespace Beam

open BestChart

variable {rank : Label → Nat} [Score.Ordered α] {threshold : α}

theorem offerRule_linked {filling : Filling α} (linked : Linked problem filling.chart)
    (coherent : problem.grammar.Coherent) {start split stop : Nat} {rule : BinaryRule × Nat}
    (member : (split, rule) ∈ offers problem start stop) (bound : stop ≤ problem.length)
    (left right : α) :
    Linked problem (offerRule problem threshold start split stop left right filling rule).chart := by
  simp only [offerRule]
  split
  · exact linked
  · rename_i present
    rw [Bool.or_eq_true, not_or, Bool.not_eq_true, Bool.not_eq_true] at present
    split
    · exact linked
    · split
      · exact linked
      · exact linked.offer coherent member bound present.1 present.2 _

theorem offerAll_linked {beam : Beam α} (linked : Linked problem beam.chart)
    (coherent : problem.grammar.Coherent) {start stop : Nat} (bound : stop ≤ problem.length) :
    Linked problem (offerAll problem threshold beam start stop).chart := by
  refine List.foldlRecOn (motive := fun filling : Filling α => Linked problem filling.chart)
    _ _ linked ?_
  intro filling linked split inside
  refine List.foldlRecOn (motive := fun filling : Filling α => Linked problem filling.chart)
    _ _ linked ?_
  intro filling linked rule known
  have member : (split, rule) ∈ offers problem start stop := by
    rw [offers, List.mem_flatMap]
    exact ⟨split, inside, List.mem_map.mpr ⟨rule, known, rfl⟩⟩
  exact offerRule_linked linked coherent member bound _ _

theorem exists_closeInterval {beam : Beam α} (linked : Linked problem beam.chart)
    (coherent : problem.grammar.Coherent) (ranked : problem.grammar.Ranked rank)
    {start stop : Nat} (within : start ≤ problem.length ∧ stop ≤ problem.length) (floor : α) :
    ∃ next, closeInterval problem beam start stop floor = .ok next ∧
      Linked problem next.chart := by
  obtain ⟨chart, tops, counts⟩ := beam
  obtain ⟨next, ok, linked⟩ := linked.exists_closed coherent ranked within floor
  refine ⟨⟨next, .join .best tops start stop 0 (next.topAfter start stop), counts⟩, ?_, linked⟩
  simp only [closeInterval, ok]
  rfl

theorem exists_fillInterval {beam : Beam α} (linked : Linked problem beam.chart)
    (coherent : problem.grammar.Coherent) (ranked : problem.grammar.Ranked rank)
    {start stop : Nat} (within : start ≤ problem.length ∧ stop ≤ problem.length) (threshold : α) :
    ∃ next, fillInterval problem threshold beam start stop = .ok next ∧
      Linked problem next.chart := by
  have filled : Linked problem (offerAll problem threshold beam start stop).chart :=
    offerAll_linked linked coherent within.2
  rw [fillInterval]
  exact exists_closeInterval filled coherent ranked within _

theorem exists_fill_linked (coherent : problem.grammar.Coherent)
    (ranked : problem.grammar.Ranked rank) (threshold : α) :
    ∃ beam, fill problem threshold = .ok beam ∧ Linked problem beam.chart := by
  obtain ⟨first, narrow, linked⟩ := Fold.exists_foldlM
    (fun beam : Beam α => Linked problem beam.chart)
    (fun beam interval => closeInterval problem beam interval.1 interval.2
      (beam.chart.topBefore interval.1 interval.2 - threshold))
    (narrowIntervals problem.length)
    (fun interval member beam linked => by
      have within := within_of_mem_narrowIntervals member
      exact exists_closeInterval linked coherent ranked within _)
    (show Linked problem (Beam.start problem).chart from
      (Linked.create problem).setTerminals coherent)
  obtain ⟨beam, wide, linked⟩ := Fold.exists_foldlM
    (fun beam : Beam α => Linked problem beam.chart)
    (fun beam interval => fillInterval problem threshold beam interval.1 interval.2)
    (wideIntervals problem.length)
    (fun interval member beam linked => by
      have within := within_of_mem_wideIntervals member
      exact exists_fillInterval linked coherent ranked within threshold)
    linked
  refine ⟨beam, ?_, linked⟩
  rw [fill_eq, narrow]
  exact wide

end Beam

/-- A search fails just if the unary rules of a grammar form a cycle, and then with such a cycle. -/
def FailsOnCycles (grammar : Grammar) {β : Type} (outcome : Except DecodeError β) : Prop :=
  ((∃ labels, outcome = .error (.unaryCycle labels)) ↔ ¬ grammar.Acyclic) ∧
    ∀ error, outcome = .error error → ∃ cycle,
      UnaryGraph.IsCycle grammar.unaryChildren cycle ∧
        error = .unaryCycle (cycle.map grammar.labelName)

section Outcomes

theorem FailsOnCycles.exists_ok {grammar : Grammar} {β : Type} {outcome : Except DecodeError β}
    (fails : FailsOnCycles grammar outcome) (acyclic : grammar.Acyclic) :
    ∃ result, outcome = .ok result := by
  cases outcome with
  | ok result => exact ⟨result, rfl⟩
  | error error =>
    obtain ⟨cycle, _, rfl⟩ := fails.2 error rfl
    exact absurd acyclic (fails.1.mp ⟨_, rfl⟩)

theorem failsOnCycles_checkUnary {grammar : Grammar} (coherent : grammar.Coherent) {β : Type}
    {rest : Except DecodeError β} (found : grammar.Acyclic → ∃ result, rest = .ok result) :
    FailsOnCycles grammar (BestChart.checkUnary grammar >>= fun _ => rest) := by
  rw [BestChart.checkUnary]
  rcases coherent.unaryCycle?_ends with ⟨acyclic, none⟩ | ⟨cyclic, cycle, isCycle, some⟩
  · obtain ⟨result, ok⟩ := found acyclic
    rw [none, ok]
    refine ⟨⟨fun failed => ?_, fun cyclic => absurd acyclic cyclic⟩, fun error failed => ?_⟩
    · obtain ⟨_, failed⟩ := failed
      cases failed
    · cases failed
  · rw [some]
    refine ⟨⟨fun _ => cyclic, fun _ => ⟨_, rfl⟩⟩, fun error failed => ⟨cycle, isCycle, ?_⟩⟩
    cases failed
    rfl

variable [Score.Ordered α]

/-- Exact search and beam search fail with a cycle of unary rules just if there is one, and never
otherwise, whatever the scores and the threshold. -/
theorem decode_fails_on_cycles (built : problem.grammar.Built) (threshold : α) :
    FailsOnCycles problem.grammar (Exact.decode problem) ∧
      FailsOnCycles problem.grammar (Beam.decode problem threshold) := by
  have coherent := built.coherent
  constructor
  · refine failsOnCycles_checkUnary coherent fun acyclic => ?_
    obtain ⟨rank, ranked⟩ := coherent.unary.exists_ranked acyclic
    by_cases words : problem.sentence.isEmpty = true
    · exact ⟨none, by rw [if_pos words]; rfl⟩
    · obtain ⟨chart, filled, linked⟩ := Exact.exists_fill_linked coherent ranked
      obtain ⟨best, read⟩ := linked.exists_ok coherent ranked (problem.isEmpty_iff.not.mp words)
      rw [if_neg words, filled]
      exact ⟨best, read⟩
  · refine failsOnCycles_checkUnary coherent fun acyclic => ?_
    obtain ⟨rank, ranked⟩ := coherent.unary.exists_ranked acyclic
    by_cases words : problem.sentence.isEmpty = true
    · exact ⟨(none, {}), by rw [if_pos words]; rfl⟩
    · obtain ⟨beam, filled, linked⟩ := Beam.exists_fill_linked coherent ranked threshold
      obtain ⟨best, read⟩ := linked.exists_ok coherent ranked (problem.isEmpty_iff.not.mp words)
      rw [if_neg words, filled]
      refine ⟨(best, beam.counts), ?_⟩
      simp only [bind, Except.bind, read]
      rfl

theorem decode_fails_on_loop :
    (∃ labels, Beam.decode (α := Float) ⟨loop, twoWords, .constant zero, none⟩ zero =
        .error (.unaryCycle labels)) ∧
      ∃ best, Exact.decode (α := Float) ⟨row, twoWords, .constant zero, none⟩ = .ok best := by
  have cyclic := @decode_fails_on_cycles Float _ ⟨loop, twoWords, .constant zero, none⟩ _
    loop_built zero
  have acyclic := @decode_fails_on_cycles Float _ ⟨row, twoWords, .constant zero, none⟩ _
    row_built zero
  exact ⟨cyclic.2.1.mpr loop_cyclic, acyclic.1.exists_ok row_acyclic⟩

end Outcomes

end Constituency
