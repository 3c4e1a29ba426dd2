import Mathlib
import Constituency.Search.Restarts
import Constituency.Proofs.ExtendedReal

/-!
The accounts of a search by restarts: what the counts and the best answer come to once it is known
which trees were drawn and which of them were climbed from. They do not depend on the order of
either, so that accounts of several workers are put together in any way.
-/

namespace Constituency

namespace ClimbCounts

@[ext]
theorem ext {a b : ClimbCounts} (restarts : a.restarts = b.restarts)
    (duplicates : a.duplicates = b.duplicates) (withoutTree : a.withoutTree = b.withoutTree)
    (sweeps : a.sweeps = b.sweeps) (scored : a.scored = b.scored)
    (improvements : a.improvements = b.improvements) : a = b := by
  cases a
  cases b
  simp_all

instance : Zero ClimbCounts := ⟨{}⟩

section Fields

variable (a b : ClimbCounts)

@[simp] theorem restarts_add : (a + b).restarts = a.restarts + b.restarts := rfl
@[simp] theorem duplicates_add : (a + b).duplicates = a.duplicates + b.duplicates := rfl
@[simp] theorem withoutTree_add : (a + b).withoutTree = a.withoutTree + b.withoutTree := rfl
@[simp] theorem sweeps_add : (a + b).sweeps = a.sweeps + b.sweeps := rfl
@[simp] theorem scored_add : (a + b).scored = a.scored + b.scored := rfl
@[simp] theorem improvements_add : (a + b).improvements = a.improvements + b.improvements := rfl

@[simp] theorem restarts_zero : (0 : ClimbCounts).restarts = 0 := rfl
@[simp] theorem duplicates_zero : (0 : ClimbCounts).duplicates = 0 := rfl
@[simp] theorem withoutTree_zero : (0 : ClimbCounts).withoutTree = 0 := rfl
@[simp] theorem sweeps_zero : (0 : ClimbCounts).sweeps = 0 := rfl
@[simp] theorem scored_zero : (0 : ClimbCounts).scored = 0 := rfl
@[simp] theorem improvements_zero : (0 : ClimbCounts).improvements = 0 := rfl

end Fields

instance : AddCommMonoid ClimbCounts where
  add_assoc a b c := by ext <;> simp [Nat.add_assoc]
  zero_add a := by ext <;> simp
  add_zero a := by ext <;> simp
  add_comm a b := by ext <;> simp [Nat.add_comm]
  nsmul := nsmulRec

end ClimbCounts

namespace Restarts

open Score

section Draws

variable {α : Type} [LogScore α]

/-- What a worker draws, restart by restart. -/
def draws (chart : MassChart α) : Nat → Keystream → List (Except DecodeError (Option (List Span)))
  | 0, _ => []
  | restarts + 1, stream =>
    let (sample, stream) := (chart.sample Draw.ofKeystream).run stream
    sample :: draws chart restarts stream

def workerDraws (chart : MassChart α) (plan : RestartPlan α) (number : Nat) :
    List (Except DecodeError (Option (List Span))) :=
  draws chart plan.restarts (plan.workerStream number)

def samples (chart : MassChart α) (plan : RestartPlan α) :
    List (Except DecodeError (Option (List Span))) :=
  (List.range (max plan.workers 1)).flatMap (workerDraws chart plan)

end Draws

variable (climb : List Span → Except DecodeError (Climb EReal))

/-- The best answer reached from some trees; of equal ones it may be any. -/
structure Tops (climbed : List (List Span)) (best : Option (Derivation EReal)) : Prop where
  reached : ∀ found ∈ best, ∃ spans ∈ climbed, ∃ final, climb spans = .ok final ∧
    found = final.derivation
  above : ∀ spans ∈ climbed, ∃ found ∈ best, ∃ final, climb spans = .ok final ∧
    final.score ≤ found.score

def gains (spans : List Span) : ClimbCounts :=
  match climb spans with
  | .ok final => final.counts
  | .error _ => 0

/-- What was drawn and climbed from, the best answer and the counts go together. `pending` trees
were drawn that are neither climbed from yet nor found to be duplicates. -/
structure Accounts (drawn : List (Option (List Span))) (climbed : List (List Span)) (pending : Nat)
    (best : Option (Derivation EReal)) (counts : ClimbCounts) : Prop where
  tops : Tops climb climbed best
  counts : ∃ duplicates, duplicates + climbed.length + pending = drawn.reduceOption.length ∧
    counts = { restarts := drawn.length, duplicates := duplicates, withoutTree := drawn.count none } +
      (climbed.map (gains climb)).sum

variable {climb}

namespace Tops

variable {climbed climbed' : List (List Span)} {best best' : Option (Derivation EReal)}

theorem nil : Tops climb [] none := ⟨by simp, by simp⟩

theorem single {spans : List Span} {final : Climb EReal} (ok : climb spans = .ok final) :
    Tops climb [spans] (some final.derivation) := by
  constructor
  · intro found same
    obtain rfl := Option.some.inj same
    exact ⟨spans, List.mem_singleton_self _, final, ok, rfl⟩
  · intro spans' member
    rw [List.mem_singleton.mp member]
    exact ⟨_, rfl, final, ok, le_rfl⟩

theorem le_better_left {found : Derivation EReal} (here : found ∈ best) :
    ∃ top ∈ better best best', found.score ≤ top.score := by
  obtain rfl := Option.mem_def.mp here
  cases best' with
  | none => exact ⟨found, rfl, le_rfl⟩
  | some other =>
    by_cases less : found.score < other.score
    · exact ⟨other, by simp [better, less], less.le⟩
    · exact ⟨found, by simp [better, less], le_rfl⟩

theorem le_better_right {found : Derivation EReal} (here : found ∈ best') :
    ∃ top ∈ better best best', found.score ≤ top.score := by
  obtain rfl := Option.mem_def.mp here
  cases best with
  | none => exact ⟨found, rfl, le_rfl⟩
  | some other =>
    by_cases less : other.score < found.score
    · exact ⟨found, by simp [better, less], le_rfl⟩
    · exact ⟨other, by simp [better, less], not_lt.mp less⟩

theorem mem_better {found : Derivation EReal} (here : found ∈ better best best') :
    found ∈ best ∨ found ∈ best' := by
  cases best with
  | none => exact .inr here
  | some a =>
    cases best' with
    | none => exact .inl here
    | some b =>
      simp only [better] at here
      split at here
      · exact .inr here
      · exact .inl here

theorem append (here : Tops climb climbed best) (there : Tops climb climbed' best') :
    Tops climb (climbed ++ climbed') (better best best') := by
  constructor
  · intro found member
    rcases mem_better member with left | right
    · obtain ⟨spans, inside, rest⟩ := here.reached found left
      exact ⟨spans, List.mem_append_left _ inside, rest⟩
    · obtain ⟨spans, inside, rest⟩ := there.reached found right
      exact ⟨spans, List.mem_append_right _ inside, rest⟩
  · intro spans member
    rcases List.mem_append.mp member with left | right
    · obtain ⟨found, member, final, ok, low⟩ := here.above spans left
      obtain ⟨top, inside, more⟩ : ∃ top ∈ better best best', found.score ≤ top.score :=
        le_better_left member
      exact ⟨top, inside, final, ok, low.trans more⟩
    · obtain ⟨found, member, final, ok, low⟩ := there.above spans right
      obtain ⟨top, inside, more⟩ : ∃ top ∈ better best best', found.score ≤ top.score :=
        le_better_right member
      exact ⟨top, inside, final, ok, low.trans more⟩

theorem eq_none_iff (tops : Tops climb climbed best) : best = none ↔ climbed = [] := by
  constructor
  · rintro rfl
    cases climbed with
    | nil => rfl
    | cons spans rest =>
      obtain ⟨found, member, _⟩ := tops.above spans List.mem_cons_self
      cases member
  · rintro rfl
    cases best with
    | none => rfl
    | some found =>
      obtain ⟨spans, member, _⟩ := tops.reached found rfl
      cases member

theorem le_of_subset (here : Tops climb climbed best) (there : Tops climb climbed' best')
    (subset : climbed ⊆ climbed') {found found' : Derivation EReal} (member : found ∈ best)
    (member' : found' ∈ best') : found.score ≤ found'.score := by
  obtain ⟨spans, inside, final, ok, rfl⟩ := here.reached found member
  obtain ⟨top, member'', final', ok', low⟩ := there.above spans (subset inside)
  obtain rfl := Option.mem_unique member'' member'
  obtain rfl := Except.ok.inj (ok.symm.trans ok')
  exact low

theorem score_eq (here : Tops climb climbed best) (there : Tops climb climbed' best')
    (same : ∀ spans, spans ∈ climbed ↔ spans ∈ climbed') :
    best.map Derivation.score = best'.map Derivation.score := by
  have forth : climbed ⊆ climbed' := fun spans => (same spans).mp
  have back : climbed' ⊆ climbed := fun spans => (same spans).mpr
  cases best with
  | none =>
    have empty : climbed' = [] := by
      rw [here.eq_none_iff.mp rfl] at back
      exact List.subset_nil.mp back
    rw [there.eq_none_iff.mpr empty]
  | some found =>
    cases best' with
    | none =>
      have empty : climbed = [] := by
        rw [there.eq_none_iff.mp rfl] at forth
        exact List.subset_nil.mp forth
      cases here.eq_none_iff.mpr empty
    | some found' =>
      exact congrArg some
        (le_antisymm (here.le_of_subset there forth rfl rfl) (there.le_of_subset here back rfl rfl))

end Tops

namespace Accounts

variable {drawn drawn' : List (Option (List Span))} {climbed climbed' : List (List Span)}
  {pending pending' : Nat} {best best' : Option (Derivation EReal)} {counts counts' : ClimbCounts}

theorem nil : Accounts climb [] [] 0 none {} := ⟨.nil, 0, rfl, rfl⟩

theorem drawNone (accounts : Accounts climb drawn climbed pending best counts) :
    Accounts climb (drawn ++ [none]) climbed pending best
      { counts with restarts := counts.restarts + 1, withoutTree := counts.withoutTree + 1 } := by
  obtain ⟨tops, duplicates, all, rfl⟩ := accounts
  refine ⟨tops, duplicates, ?_, ?_⟩
  · simp [List.reduceOption_append, all]
  · ext <;> simp <;> omega

theorem drawSome (accounts : Accounts climb drawn climbed pending best counts) (spans : List Span) :
    Accounts climb (drawn ++ [some spans]) climbed (pending + 1) best
      { counts with restarts := counts.restarts + 1 } := by
  obtain ⟨tops, duplicates, all, rfl⟩ := accounts
  refine ⟨tops, duplicates, ?_, ?_⟩
  · simp [List.reduceOption_append, ← all, Nat.add_assoc]
  · ext <;> simp
    omega

theorem duplicate (accounts : Accounts climb drawn climbed (pending + 1) best counts) :
    Accounts climb drawn climbed pending best
      { counts with duplicates := counts.duplicates + 1 } := by
  obtain ⟨tops, duplicates, all, rfl⟩ := accounts
  refine ⟨tops, duplicates + 1, by omega, ?_⟩
  ext <;> simp
  omega

theorem climbs (accounts : Accounts climb drawn climbed (pending + 1) best counts)
    {spans : List Span} {final : Climb EReal} (ok : climb spans = .ok final) :
    Accounts climb drawn (climbed ++ [spans]) pending (better best (some final.derivation))
      (counts + final.counts) := by
  obtain ⟨tops, duplicates, all, rfl⟩ := accounts
  refine ⟨tops.append (.single ok), duplicates, ?_, ?_⟩
  · rw [List.length_append, List.length_singleton, ← all]
    omega
  · have gained : gains climb spans = final.counts := by rw [gains, ok]
    rw [List.map_append, List.sum_append, List.map_singleton, List.sum_singleton, gained, add_assoc]

theorem append (here : Accounts climb drawn climbed pending best counts)
    (there : Accounts climb drawn' climbed' pending' best' counts') :
    Accounts climb (drawn ++ drawn') (climbed ++ climbed') (pending + pending') (better best best')
      (counts + counts') := by
  obtain ⟨tops, duplicates, all, rfl⟩ := here
  obtain ⟨tops', duplicates', all', rfl⟩ := there
  refine ⟨tops.append tops', duplicates + duplicates', ?_, ?_⟩
  · rw [List.reduceOption_append, List.length_append, List.length_append, ← all, ← all']
    omega
  · rw [List.map_append, List.sum_append]
    ext <;> simp <;> omega

/-- The counts and the best score are known from what was drawn and what was climbed from, in any
order. -/
theorem eq_of_perm (here : Accounts climb drawn climbed 0 best counts)
    (there : Accounts climb drawn' climbed' 0 best' counts') (same : drawn.Perm drawn')
    (same' : climbed.Perm climbed') :
    counts = counts' ∧ best.map Derivation.score = best'.map Derivation.score := by
  refine ⟨?_, here.tops.score_eq there.tops fun spans => same'.mem_iff⟩
  obtain ⟨_, duplicates, all, rfl⟩ := here
  obtain ⟨_, duplicates', all', rfl⟩ := there
  have trees : drawn.reduceOption.length = drawn'.reduceOption.length :=
    (same.filterMap id).length_eq
  have length := same'.length_eq
  rw [same.length_eq, same.count_eq, (same'.map (gains climb)).sum_eq,
    show duplicates = duplicates' by omega]

end Accounts

/-- The keys that are taken are those of the trees climbed from, each climbed from once, and every
tree that has been compared with them is among these. -/
structure Entered (drawn : List (Option (List Span))) (climbed : List (List Span)) (seen : Seen) :
    Prop where
  known : ∀ key, seen.contains key = true ↔ key ∈ climbed.map Span.sorted
  distinct : (climbed.map Span.sorted).Nodup
  covered : ∀ spans, some spans ∈ drawn → Span.sorted spans ∈ climbed.map Span.sorted
  drawn : ∀ spans ∈ climbed, some spans ∈ drawn

namespace Entered

variable {drawn drawn' : List (Option (List Span))} {climbed climbed' : List (List Span)} {seen : Seen}

theorem nil : Entered [] [] {} := ⟨by simp, by simp, by simp, by simp⟩

theorem perm (entered : Entered drawn climbed seen) (same : ∀ tree, tree ∈ drawn' ↔ tree ∈ drawn)
    (same' : climbed'.Perm climbed) : Entered drawn' climbed' seen where
  known key := (entered.known key).trans (same'.map _).mem_iff.symm
  distinct := (same'.map _).nodup_iff.mpr entered.distinct
  covered spans member := (same'.map _).mem_iff.mpr (entered.covered spans ((same _).mp member))
  drawn spans member := (same _).mpr (entered.drawn spans (same'.mem_iff.mp member))

theorem drawNone (entered : Entered drawn climbed seen) : Entered (drawn ++ [none]) climbed seen where
  known := entered.known
  distinct := entered.distinct
  covered spans member := entered.covered spans (by simpa using member)
  drawn spans member := List.mem_append_left _ (entered.drawn spans member)

theorem duplicate (entered : Entered drawn climbed seen) {spans : List Span}
    (old : seen.contains (Span.sorted spans) = true) :
    Entered (drawn ++ [some spans]) climbed seen where
  known := entered.known
  distinct := entered.distinct
  covered spans' member := by
    rcases List.mem_append.mp member with before | here
    · exact entered.covered spans' before
    · obtain rfl := Option.some.inj (List.mem_singleton.mp here)
      exact (entered.known _).mp old
  drawn spans' member := List.mem_append_left _ (entered.drawn spans' member)

theorem fresh (entered : Entered drawn climbed seen) {spans : List Span}
    (new : seen.contains (Span.sorted spans) = false) :
    Entered (drawn ++ [some spans]) (climbed ++ [spans]) (seen.insert (Span.sorted spans)) where
  known key := by
    rw [Std.HashSet.contains_insert, Bool.or_eq_true, beq_iff_eq, entered.known, List.map_append,
      List.mem_append, List.map_singleton, List.mem_singleton, or_comm, eq_comm]
  distinct := by
    rw [List.map_append, List.map_singleton]
    refine List.Nodup.append entered.distinct (List.nodup_singleton _) ?_
    rw [List.disjoint_singleton]
    intro member
    rw [(entered.known _).mpr member] at new
    cases new
  covered spans' member := by
    rw [List.map_append, List.mem_append]
    rcases List.mem_append.mp member with before | here
    · exact .inl (entered.covered spans' before)
    · obtain rfl := Option.some.inj (List.mem_singleton.mp here)
      exact .inr (List.mem_singleton_self _)
  drawn spans' member := by
    rw [List.mem_append]
    rcases List.mem_append.mp member with before | here
    · exact .inl (entered.drawn spans' before)
    · rw [List.mem_singleton.mp here]
      exact .inr (List.mem_singleton_self _)

theorem nodup (entered : Entered drawn climbed seen) : climbed.Nodup := .of_map _ entered.distinct

theorem mem_iff (entered : Entered drawn climbed seen)
    (apart : ∀ spans spans', some spans ∈ drawn → some spans' ∈ drawn →
      Span.sorted spans = Span.sorted spans' → spans = spans') (spans : List Span) :
    spans ∈ climbed ↔ some spans ∈ drawn := by
  refine ⟨entered.drawn spans, fun member => ?_⟩
  obtain ⟨spans', inside, same⟩ := List.mem_map.mp (entered.covered spans member)
  rwa [apart spans spans' member (entered.drawn spans' inside) same.symm]

end Entered

end Restarts

end Constituency
