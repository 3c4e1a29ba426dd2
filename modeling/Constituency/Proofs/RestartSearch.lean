import Mathlib
import Constituency.Proofs.DrawnParses
import Constituency.Proofs.ExactSearch
import Constituency.Proofs.HillClimb
import Constituency.Proofs.LegalSamples
import Constituency.Proofs.RestartAccounts

/-!
Search by restarts, one worker after another. It fails only where a draw or a climb does, and
otherwise its accounts are those of all that was drawn. In exact arithmetic neither ever fails: what
is drawn are parses of the sentence, and a climb from one of them leads to another.
-/

namespace Constituency

namespace Climb.Sound

variable {problem : Problem EReal} {secondOrder : Bool} {final : Climb EReal}

theorem spans_eq (sound : final.Sound problem secondOrder) :
    final.derivation.spans = final.tree.parse.spans :=
  sound.listed.trans (Tree.spans_eq sound.parses.admits.contiguous)

theorem score_spans (coherent : problem.grammar.Coherent)
    (sound : final.Sound problem secondOrder) :
    problem.score secondOrder final.derivation.spans = .ok final.derivation.score := by
  have listed : final.derivation.spans = final.tree.spans := sound.listed
  have derives := sound.parses.derives coherent
  rw [listed]
  exact (derives.score_spans secondOrder coherent.unaryTables).trans sound.scored

theorem exists_exact (coherent : problem.grammar.Coherent)
    (fits : problem.grammar.labelCount < numberLimit) (finite : problem.Finite)
    (acyclic : problem.grammar.Acyclic) (sound : final.Sound problem false) :
    ∃ top, Exact.decode problem = .ok (some top) ∧ final.score ≤ top.score := by
  obtain ⟨rank, ranked⟩ := coherent.unary.exists_ranked acyclic
  obtain ⟨top, ok, _, _, _, _, most⟩ :=
    Exact.exists_best_of_parses ⟨coherent, fits, ranked⟩ finite sound.parses
  have sum := problem.score_eq_parseScore coherent sound.parses
    (sound.parses.admits.nodup_of_flat coherent final.tree.flat_parse) (.of_eq sound.spans_eq)
  rw [sound.score_spans coherent] at sum
  exact ⟨top, ok, (Except.ok.inj sum).trans_le (most _ sound.parses trivial)⟩

end Climb.Sound

namespace Restarts

open Score Fold

/-- A draw fails, or the climb from the tree it gives does. -/
def Fails (climb : List Span → Except DecodeError (Climb EReal))
    (sample : Except DecodeError (Option (List Span))) : Prop :=
  (∃ error, sample = .error error) ∨
    ∃ spans error, sample = .ok (some spans) ∧ climb spans = .error error

section Loops

variable {chart : MassChart EReal} {secondOrder : Bool} {maxSweeps : Nat}
  {drawn : List (Option (List Span))} {climbed : List (List Span)}

variable (chart secondOrder maxSweeps) in
/-- The accounts of a worker that runs after others have drawn and climbed. -/
structure Follows (drawn : List (Option (List Span))) (climbed : List (List Span))
    (own : List (Option (List Span))) (begun : List (List Span)) (worker : Worker EReal) : Prop where
  accounts : Accounts (Climb.ofSpans chart.problem secondOrder maxSweeps) own begun 0 worker.best
    worker.counts
  entered : Entered (drawn ++ own) (climbed ++ begun) worker.seen

theorem Follows.restart_ends {own : List (Option (List Span))} {begun : List (List Span)}
    {worker : Worker EReal}
    (follows : Follows chart secondOrder maxSweeps drawn climbed own begun worker)
    {sample : Except DecodeError (Option (List Span))} {stream : Keystream}
    (given : (chart.sample Draw.ofKeystream).run worker.stream = (sample, stream)) :
    Ends (fun next => ∃ tree more, sample = .ok tree ∧ next.stream = stream ∧
        Follows chart secondOrder maxSweeps drawn climbed (own ++ [tree]) (begun ++ more) next)
      (fun _ => Fails (Climb.ofSpans chart.problem secondOrder maxSweeps) sample)
      (restart chart secondOrder maxSweeps worker) := by
  obtain ⟨_, seen, best, counts⟩ := worker
  obtain ⟨accounts, entered⟩ := follows
  dsimp only at accounts entered given
  simp only [restart, given]
  -- A restart fails to draw, draws no tree, a tree that was seen before, or a new one.
  cases sample with
  | error error => exact .inl ⟨error, rfl⟩
  | ok tree =>
    simp only [bind, Except.bind]
    cases tree with
    | none =>
      refine ⟨none, [], rfl, rfl, ?_, ?_⟩
      · rw [List.append_nil]
        exact accounts.drawNone
      · rw [List.append_nil, ← List.append_assoc]
        exact entered.drawNone
    | some spans =>
      dsimp only
      cases old : seen.contains (Span.sorted spans) with
      | true =>
        refine ⟨some spans, [], rfl, rfl, ?_, ?_⟩
        · rw [List.append_nil]
          exact (accounts.drawSome spans).duplicate
        · rw [List.append_nil, ← List.append_assoc]
          exact entered.duplicate old
      | false =>
        simp only [Bool.false_eq_true, if_false]
        cases ok : Climb.ofSpans chart.problem secondOrder maxSweeps spans with
        | error error => exact .inr ⟨spans, error, rfl, ok⟩
        | ok final =>
          refine ⟨some spans, [spans], rfl, rfl, (accounts.drawSome spans).climbs ok, ?_⟩
          rw [← List.append_assoc, ← List.append_assoc]
          exact entered.fresh old

theorem Follows.restarts_end {own : List (Option (List Span))} {begun : List (List Span)}
    {worker : Worker EReal}
    (follows : Follows chart secondOrder maxSweeps drawn climbed own begun worker)
    (rounds : List Nat) :
    Ends (fun final => ∃ trees more, draws chart rounds.length worker.stream = trees.map .ok ∧
        Follows chart secondOrder maxSweeps drawn climbed (own ++ trees) (begun ++ more) final)
      (fun _ => ∃ sample ∈ draws chart rounds.length worker.stream,
        Fails (Climb.ofSpans chart.problem secondOrder maxSweeps) sample)
      (rounds.foldlM (fun worker _ => restart chart secondOrder maxSweeps worker) worker) := by
  induction rounds generalizing own begun worker with
  | nil => exact ⟨[], [], rfl, by simpa using follows⟩
  | cons round rounds ih =>
    rcases given : (chart.sample Draw.ofKeystream).run worker.stream with ⟨sample, stream⟩
    have all : draws chart (round :: rounds).length worker.stream =
        sample :: draws chart rounds.length stream := by
      simp only [List.length_cons, draws, given]
    have first := follows.restart_ends given
    rw [List.foldlM_cons, all]
    refine (first.mono (fun _ good => good)
      fun _ fails => ⟨sample, List.mem_cons_self, fails⟩).bind fun next good => ?_
    obtain ⟨tree, more, rfl, rfl, follows'⟩ := good
    refine (ih follows').mono (fun final rest => ?_) fun _ rest => ?_
    · obtain ⟨trees, more', same, follows''⟩ := rest
      refine ⟨tree :: trees, more ++ more', by rw [same, List.map_cons], ?_⟩
      rw [List.append_assoc, List.append_assoc] at follows''
      exact follows''
    · obtain ⟨sample, member, fails⟩ := rest
      exact ⟨sample, List.mem_cons_of_mem _ member, fails⟩

end Loops

section Workers

/-- All draws gave a tree or none, each tree was climbed from once, and the answer accounts for it. -/
def Settled (chart : MassChart EReal) (secondOrder : Bool) (maxSweeps : Nat)
    (given : List (Except DecodeError (Option (List Span)))) (climbed : List (List Span)) (seen : Seen)
    (best : Option (Derivation EReal)) (counts : ClimbCounts) : Prop :=
  ∃ drawn, given = drawn.map .ok ∧
    Accounts (Climb.ofSpans chart.problem secondOrder maxSweeps) drawn climbed 0 best counts ∧
    Entered drawn climbed seen

theorem workers_end (chart : MassChart EReal) (secondOrder : Bool) (plan : RestartPlan EReal) :
    Ends (fun state : Seen × Option (Derivation EReal) × ClimbCounts =>
        ∃ climbed, Settled chart secondOrder plan.maxSweeps (samples chart plan) climbed state.1
          state.2.1 state.2.2)
      (fun _ => ∃ sample ∈ samples chart plan,
        Fails (Climb.ofSpans chart.problem secondOrder plan.maxSweeps) sample)
      ((List.range (max plan.workers 1)).foldlM
        (fun (seen, best, counts) number => do
          let worker ← runWorker chart secondOrder plan seen number
          return (worker.seen, better best worker.best, counts + worker.counts))
        (({} : Seen), none, ({} : ClimbCounts))) := by
  refine foldlM_ends
    (fun earlier (state : Seen × Option (Derivation EReal) × ClimbCounts) =>
      ∃ climbed, Settled chart secondOrder plan.maxSweeps (earlier.flatMap (workerDraws chart plan))
        climbed state.1 state.2.1 state.2.2)
    ⟨[], [], rfl, .nil, .nil⟩ ?_
  intro earlier number later state whole held
  obtain ⟨seen, best, counts⟩ := state
  obtain ⟨climbed, drawn, same, accounts, entered⟩ := held
  have begins : Follows chart secondOrder plan.maxSweeps drawn climbed [] []
      { stream := plan.workerStream number, seen := seen } :=
    ⟨.nil, by simpa using entered⟩
  have ends := begins.restarts_end (List.range plan.restarts)
  rw [List.length_range] at ends
  have there : number ∈ List.range (max plan.workers 1) := by simp [whole]
  refine (ends.mono (fun _ good => good) fun _ bad => ?_).bind fun worker good => ?_
  · obtain ⟨sample, member, fails⟩ := bad
    exact ⟨sample, List.mem_flatMap.mpr ⟨number, there, member⟩, fails⟩
  · obtain ⟨trees, more, same', accounts', entered'⟩ := good
    refine ⟨climbed ++ more, drawn ++ trees, ?_, accounts.append accounts', entered'⟩
    rw [List.flatMap_append, same, List.flatMap_singleton, List.map_append]
    exact congrArg _ same'

/-- A search fails only for a cause among its draws, and otherwise accounts for all of them. -/
def Answers (chart : MassChart EReal) (secondOrder : Bool) (plan : RestartPlan EReal) :
    Except DecodeError (Option (Derivation EReal) × ClimbCounts) → Prop :=
  Ends
    (fun result => ∃ climbed seen, Settled chart secondOrder plan.maxSweeps (samples chart plan)
      climbed seen result.1 result.2)
    fun _ => ∃ sample ∈ samples chart plan,
      Fails (Climb.ofSpans chart.problem secondOrder plan.maxSweeps) sample

theorem decode_answers {problem : Problem EReal} (words : problem.sentence.isEmpty = false)
    (secondOrder : Bool) {plan : RestartPlan EReal} {chart : MassChart EReal}
    (filled : MassChart.fill problem plan.threshold = chart) (some : chart.isEmpty = false) :
    Answers chart secondOrder plan (decode problem secondOrder plan) := by
  have ends := workers_end chart secondOrder plan
  simp only [decode, words, filled, some, Bool.false_eq_true, if_false]
  refine ends.bind fun state settled => ?_
  obtain ⟨climbed, settled⟩ := settled
  exact ⟨climbed, state.1, settled⟩

end Workers

section Samples

variable {chart : MassChart EReal} {plan : RestartPlan EReal}
  {sample : Except DecodeError (Option (List Span))}

theorem exists_of_mem_draws {restarts : Nat} {stream : Keystream}
    (member : sample ∈ draws chart restarts stream) :
    ∃ state, sample = ((chart.sample Draw.ofKeystream).run state).1 := by
  induction restarts generalizing stream with
  | zero => cases member
  | succ restarts ih =>
    rcases given : (chart.sample Draw.ofKeystream).run stream with ⟨first, next⟩
    rw [draws, given] at member
    rcases List.mem_cons.mp member with rfl | later
    · exact ⟨stream, by rw [given]⟩
    · exact ih later

theorem exists_of_mem_samples (member : sample ∈ samples chart plan) :
    ∃ state, sample = ((chart.sample Draw.ofKeystream).run state).1 := by
  obtain ⟨number, _, inside⟩ := List.mem_flatMap.mp member
  exact exists_of_mem_draws inside

theorem exists_mem_samples (chart : MassChart EReal) (some : 1 ≤ plan.restarts) :
    ∃ sample, sample ∈ samples chart plan := by
  obtain ⟨restarts, more⟩ := Nat.exists_eq_add_of_le' some
  rcases given : (chart.sample Draw.ofKeystream).run (plan.workerStream 0) with
    ⟨sample, stream⟩
  refine ⟨sample, List.mem_flatMap.mpr ⟨0, List.mem_range.mpr (by omega), ?_⟩⟩
  rw [workerDraws, more, draws, given]
  exact List.mem_cons_self

theorem eq_of_sorted_eq {drawn : List (Option (List Span))}
    (given : samples chart plan = drawn.map .ok) {spans spans' : List Span}
    (here : some spans ∈ drawn) (there : some spans' ∈ drawn)
    (same : Span.sorted spans = Span.sorted spans') : spans = spans' := by
  have parsed {spans : List Span} (here : some spans ∈ drawn) :
      ∃ parse : Parse, parse.Contiguous ∧ parse.Flat ∧ spans = parse.spans := by
    have member : .ok (some spans) ∈ samples chart plan := given ▸ List.mem_map_of_mem here
    obtain ⟨state, drew⟩ := exists_of_mem_samples member
    have gives := MassChart.gives_sample chart (Draw.ofKeystream (α := EReal)) state
    rw [← drew] at gives
    exact gives spans rfl
  obtain ⟨parse, contiguous, flat, rfl⟩ := parsed here
  obtain ⟨parse', contiguous', flat', rfl⟩ := parsed there
  rw [contiguous.eq_of_sorted_eq flat contiguous' flat' same]

variable {secondOrder : Bool} {maxSweeps : Nat} {climbed climbed' : List (List Span)}
  {seen seen' : Seen} {best best' : Option (Derivation EReal)} {counts counts' : ClimbCounts}
  (settled : Settled chart secondOrder maxSweeps (samples chart plan) climbed seen best counts)

include settled

theorem Settled.mem_iff (spans : List Span) :
    spans ∈ climbed ↔ .ok (some spans) ∈ samples chart plan := by
  obtain ⟨drawn, given, _, entered⟩ := settled
  rw [entered.mem_iff (fun _ _ => eq_of_sorted_eq given), given, List.mem_map]
  exact ⟨fun member => ⟨_, member, rfl⟩, fun ⟨_, member, same⟩ => Except.ok.inj same ▸ member⟩

theorem Settled.not_fails (member : sample ∈ samples chart plan) :
    ¬ Fails (Climb.ofSpans chart.problem secondOrder maxSweeps) sample := by
  have begun := settled.mem_iff
  obtain ⟨drawn, given, accounts, _⟩ := settled
  rintro (⟨error, rfl⟩ | ⟨spans, error, rfl, failed⟩)
  · rw [given] at member
    obtain ⟨_, _, same⟩ := List.mem_map.mp member
    cases same
  · obtain ⟨_, _, _, ok, _⟩ := accounts.tops.above spans ((begun spans).mpr member)
    cases ok.symm.trans failed

/-- Whoever climbs from which tree, the counts and the best score are the same. -/
theorem Settled.alike (settled' :
      Settled chart secondOrder maxSweeps (samples chart plan) climbed' seen' best' counts') :
    counts = counts' ∧ best.map Derivation.score = best'.map Derivation.score := by
  have begun (spans : List Span) : spans ∈ climbed ↔ spans ∈ climbed' :=
    (settled.mem_iff spans).trans (settled'.mem_iff spans).symm
  obtain ⟨drawn, given, accounts, entered⟩ := settled
  obtain ⟨drawn', given', accounts', entered'⟩ := settled'
  have same : drawn = drawn' :=
    List.map_injective_iff.mpr (fun _ _ => Except.ok.inj) (given.symm.trans given')
  exact accounts.eq_of_perm accounts' (.of_eq same)
    ((List.perm_ext_iff_of_nodup entered.nodup entered'.nodup).mpr begun)

end Samples

section Legal

open MassChart

variable {problem : Problem EReal} {secondOrder : Bool} {plan : RestartPlan EReal}

/-- Draws do not fail, and the trees they give are parses by rules of the grammar. -/
structure Drawable (chart : MassChart EReal) (plan : RestartPlan EReal) : Prop where
  coherent : chart.problem.grammar.Coherent
  parsed : ∀ sample ∈ samples chart plan, ∃ tree, sample = .ok tree ∧
    ∀ spans ∈ tree, ∃ parse, spans = parse.spans ∧ chart.problem.Parses parse ∧ parse.Flat

section Answer

variable {chart : MassChart EReal} {climbed : List (List Span)} {seen : Seen}
  {best : Option (Derivation EReal)} {counts : ClimbCounts} (drawable : Drawable chart plan)

include drawable

theorem Drawable.exists_climb (secondOrder : Bool) {spans : List Span}
    (drew : .ok (some spans) ∈ samples chart plan) :
    ∃ (final : Climb EReal) (score : EReal),
      Climb.ofSpans chart.problem secondOrder plan.maxSweeps spans = .ok final ∧
        final.Sound chart.problem secondOrder ∧
        chart.problem.score secondOrder spans = .ok score ∧ score ≤ final.score := by
  obtain ⟨tree, same, parsed⟩ := drawable.parsed _ drew
  obtain ⟨parse, rfl, parses, flat⟩ := parsed spans (Except.ok.inj same).symm
  exact Climb.exists_ofSpans drawable.coherent parses flat plan.maxSweeps

theorem Drawable.not_fails {sample : Except DecodeError (Option (List Span))}
    (member : sample ∈ samples chart plan) :
    ¬ Fails (Climb.ofSpans chart.problem secondOrder plan.maxSweeps) sample := by
  rintro (⟨error, rfl⟩ | ⟨spans, error, rfl, failed⟩)
  · obtain ⟨_, same, _⟩ := drawable.parsed _ member
    cases same
  · obtain ⟨_, _, ok, _⟩ := drawable.exists_climb secondOrder member
    cases ok.symm.trans failed

theorem Settled.exists_sound
    (settled : Settled chart secondOrder plan.maxSweeps (samples chart plan) climbed seen best counts)
    {found : Derivation EReal} (here : found ∈ best) :
    ∃ final : Climb EReal, found = final.derivation ∧ final.Sound chart.problem secondOrder := by
  have begun := settled.mem_iff
  obtain ⟨_, _, accounts, _⟩ := settled
  obtain ⟨spans, member, final, ok, rfl⟩ := accounts.tops.reached found here
  obtain ⟨final', _, ok', sound, _⟩ := drawable.exists_climb secondOrder
    ((begun spans).mp member)
  obtain rfl := Except.ok.inj (ok.symm.trans ok')
  exact ⟨final, rfl, sound⟩

theorem Settled.exists_above
    (settled : Settled chart secondOrder plan.maxSweeps (samples chart plan) climbed seen best counts)
    {spans : List Span} (drew : .ok (some spans) ∈ samples chart plan) :
    ∃ found ∈ best, ∃ score, chart.problem.score secondOrder spans = .ok score ∧
      score ≤ found.score := by
  have begun := (settled.mem_iff spans).mpr drew
  obtain ⟨_, _, accounts, _⟩ := settled
  obtain ⟨found, here, final, ok, low⟩ := accounts.tops.above spans begun
  obtain ⟨final', score, ok', _, scored, above⟩ :=
    drawable.exists_climb secondOrder drew
  obtain rfl := Except.ok.inj (ok.symm.trans ok')
  exact ⟨found, here, score, scored, above.trans low⟩

end Answer

section Filled

variable (plan) (coherent : problem.grammar.Coherent)
  (fits : problem.grammar.labelCount < numberLimit) (finite : problem.Finite)

include coherent fits finite

theorem drawable_fill : Drawable (fill problem plan.threshold) plan := by
  have same := (balanced_fill coherent fits plan.threshold).sized.problem_eq
  refine ⟨by rw [same]; exact coherent, fun sample member => ?_⟩
  obtain ⟨state, rfl⟩ := exists_of_mem_samples member
  rw [same]
  rcases @sample_result problem plan.threshold _ coherent fits finite Draw.ofKeystream state with
    ⟨_, same⟩ | ⟨_, spans, same, legal⟩
  · exact ⟨none, same, by simp⟩
  · obtain ⟨parse, rfl, parses, flat, _⟩ := legal.parse
    refine ⟨some parse.spans, same, fun spans here => ?_⟩
    obtain rfl := Option.some.inj here
    exact ⟨parse, rfl, parses, flat⟩

theorem exists_drawn (filled : (fill problem plan.threshold).isEmpty = false)
    (restarts : 1 ≤ plan.restarts) :
    ∃ spans, .ok (some spans) ∈ samples (fill problem plan.threshold) plan := by
  obtain ⟨sample, member⟩ := exists_mem_samples (fill problem plan.threshold) restarts
  obtain ⟨state, rfl⟩ := exists_of_mem_samples member
  rcases @sample_result problem plan.threshold _ coherent fits finite Draw.ofKeystream state with
    ⟨empty, _⟩ | ⟨_, spans, same, _⟩
  · cases filled.symm.trans empty
  · exact ⟨spans, same ▸ member⟩

end Filled

end Legal

section Row

open Grammar MassChart

/-- Two workers with three restarts each and no seed. -/
noncomputable def twoWorkers : RestartPlan EReal :=
  ⟨2, 3, 50, none, ⊤, fun worker => .ofSeed worker.toUInt64⟩

theorem isEmpty_row : (fill (.uniform row twoWords) ⊤).isEmpty = false := by
  have coherent := row_built.coherent
  have finite := Problem.uniform_finite row twoWords
  have balanced := @balanced_fill (.uniform row twoWords) coherent row_fits ⊤
  have parses := Problem.row_parses (.constant (zero : EReal)) none
  have flat : (Parse.binary 0 (.word 1 0) (.unary 0 (.word 1 1))).Flat := ⟨trivial, rfl, trivial⟩
  have alive := allLive_of_unlimited coherent finite balanced parses.admits flat
  exact isEmpty_of_parse coherent finite balanced
    ((Problem.mem_parses coherent).mpr ⟨parses, flat, alive⟩)

end Row

end Restarts

end Constituency
