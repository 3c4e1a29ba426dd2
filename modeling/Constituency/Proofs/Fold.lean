/-!
Loops that may fail: what a view of the state does along a loop, what every round of it keeps, and
what holds after the rounds so far.
-/

namespace Constituency.Fold

variable {α β γ ε : Type}

theorem map_bind {δ : Type} (view : α → γ) (view' : β → δ) (rest : α → Except ε β)
    (rest' : γ → Except ε δ) (seen : ∀ value, (rest value).map view' = rest' (view value))
    (first : Except ε α) : (first >>= rest).map view' = first.map view >>= rest' := by
  cases first with
  | error error => rfl
  | ok value => exact seen value

theorem exists_of_bind_ok {first : Except ε α} {rest : α → Except ε β} {result : β}
    (ok : (first >>= rest) = .ok result) :
    ∃ value, first = .ok value ∧ rest value = .ok result := by
  cases first with
  | error error => cases ok
  | ok value => exact ⟨value, rfl, ok⟩

/-- A loop seen through a view of its state is the loop of the steps seen through it. -/
theorem map_foldlM (view : α → γ) (step : α → β → Except ε α) (step' : γ → β → Except ε γ)
    (seen : ∀ state item, (step state item).map view = step' (view state) item)
    (items : List β) (start : α) :
    (items.foldlM step start).map view = items.foldlM step' (view start) := by
  induction items generalizing start with
  | nil => rfl
  | cons item items ih =>
    rw [List.foldlM_cons, List.foldlM_cons, ← seen]
    cases result : step start item with
    | error error => rfl
    | ok next => exact ih next

theorem foldlM_keeps (kept : α → Prop) (step : α → β → Except ε α)
    (keeps : ∀ state item next, kept state → step state item = .ok next → kept next)
    (items : List β) {start result : α} (first : kept start)
    (ok : items.foldlM step start = .ok result) : kept result := by
  induction items generalizing start with
  | nil =>
    cases ok
    exact first
  | cons item items ih =>
    rw [List.foldlM_cons] at ok
    cases round : step start item with
    | error error =>
      rw [round] at ok
      cases ok
    | ok next =>
      rw [round] at ok
      exact ih (keeps start item next first round) ok

/-- A loop succeeds if every round does where the rounds so far have kept what they need. -/
theorem exists_foldlM (kept : α → Prop) (step : α → β → Except ε α) (items : List β)
    (round : ∀ item ∈ items, ∀ state, kept state → ∃ next, step state item = .ok next ∧ kept next)
    {start : α} (first : kept start) :
    ∃ final, items.foldlM step start = .ok final ∧ kept final := by
  induction items generalizing start with
  | nil => exact ⟨start, rfl, first⟩
  | cons item items ih =>
    obtain ⟨next, ok, held⟩ := round item (by simp) start first
    rw [List.foldlM_cons, ok]
    exact ih (fun other member => round other (by simp [member])) held

/-- What holds of a result and, should there be none, of the error. -/
def Ends (good : α → Prop) (bad : ε → Prop) : Except ε α → Prop
  | .ok result => good result
  | .error error => bad error

theorem Ends.bind {good : α → Prop} {good' : β → Prop} {bad : ε → Prop} {first : Except ε α}
    {rest : α → Except ε β} (ends : Ends good bad first)
    (next : ∀ value, good value → Ends good' bad (rest value)) :
    Ends good' bad (first >>= rest) := by
  cases first with
  | error error => exact ends
  | ok value => exact next value ends

theorem Ends.mono {good good' : α → Prop} {bad bad' : ε → Prop} {result : Except ε α}
    (ends : Ends good bad result) (onGood : ∀ value, good value → good' value)
    (onBad : ∀ error, bad error → bad' error) : Ends good' bad' result := by
  cases result with
  | error error => exact onBad error ends
  | ok value => exact onGood value ends

theorem Ends.exists_ok {good : α → Prop} {result : Except ε α}
    (ends : Ends good (fun _ => False) result) : ∃ value, result = .ok value ∧ good value := by
  cases result with
  | error error => exact ends.elim
  | ok value => exact ⟨value, rfl, ends⟩

theorem foldlM_ends {step : α → β → Except ε α} (holds : List β → α → Prop) {bad : ε → Prop}
    {items : List β} {start : α} (first : holds [] start)
    (round : ∀ earlier item later state, items = earlier ++ item :: later → holds earlier state →
      Ends (holds (earlier ++ [item])) bad (step state item)) :
    Ends (holds items) bad (items.foldlM step start) := by
  suffices general : ∀ later earlier state, items = earlier ++ later → holds earlier state →
      Ends (holds items) bad (later.foldlM step state) from general items [] start rfl first
  intro later
  induction later with
  | nil =>
    intro earlier state whole held
    rw [List.append_nil] at whole
    rw [whole]
    exact held
  | cons item later ih =>
    intro earlier state whole held
    have next := round earlier item later state whole held
    rw [List.foldlM_cons]
    cases result : step state item with
    | error error =>
      rw [result] at next
      exact next
    | ok state' =>
      rw [result] at next
      exact ih (earlier ++ [item]) state' (by simp [whole]) next

theorem foldl_holds {step : α → β → α} (holds : List β → α → Prop) {items : List β} {start : α}
    (first : holds [] start)
    (round : ∀ earlier item later state, items = earlier ++ item :: later → holds earlier state →
      holds (earlier ++ [item]) (step state item)) : holds items (items.foldl step start) := by
  have ends : Ends (holds items) (fun _ : Empty => False)
      (items.foldlM (fun state item => pure (step state item)) start) :=
    foldlM_ends holds first round
  rw [List.foldlM_pure] at ends
  exact ends

/-- One round of a loop that visits places: it starts from a fresh place, what it leaves there
stays, and the places that are not to be visited from here on are as they will be in the end. -/
structure Visit {σ ι : Type} (good : σ → Prop) (inside : ι → Prop) (view : σ → ι → γ)
    (step : σ → ι → Except ε σ) (start final : σ) (place : ι) (later : List ι)
    (state next : σ) : Prop where
  good : good state
  step_eq : step state place = .ok next
  fresh : view state place = view start place
  done : view next place = view final place
  settled : ∀ other, inside other → other ∉ place :: later → view state other = view final other

/-- A loop that changes only the place it visits, and can do so while the place is fresh, visits
every place of a list without repetitions. -/
theorem foldlM_visits {σ ι : Type} (good : σ → Prop) (inside : ι → Prop) (view : σ → ι → γ)
    (fresh : ι → γ → Prop) (step : σ → ι → Except ε σ) {places : List ι}
    (round : ∀ place ∈ places, ∀ state, good state → fresh place (view state place) →
      ∃ next, step state place = .ok next ∧ good next ∧
        ∀ other, inside other → other ≠ place → view next other = view state other)
    (distinct : places.Nodup) (within : ∀ place ∈ places, inside place) {start : σ}
    (first : good start) (new : ∀ place ∈ places, fresh place (view start place)) :
    ∃ final, places.foldlM step start = .ok final ∧ good final ∧
      (∀ other, inside other → other ∉ places → view final other = view start other) ∧
      ∀ earlier place later, places = earlier ++ place :: later →
        ∃ state next, Visit good inside view step start final place later state next := by
  induction places generalizing start with
  | nil => exact ⟨start, rfl, first, fun _ _ _ => rfl, by simp⟩
  | cons head places ih =>
    obtain ⟨next, ok, kept, frame⟩ := round head (by simp) start first (new head (by simp))
    have apart : head ∉ places := (List.nodup_cons.mp distinct).1
    -- The round at the head leaves the later places fresh.
    have unchanged : ∀ place ∈ places, view next place = view start place := by
      intro place member
      refine frame place (within place (by simp [member])) ?_
      intro same
      obtain rfl := same
      exact apart member
    obtain ⟨final, finished, good', others, visits⟩ := ih
      (fun place member => round place (by simp [member])) (List.nodup_cons.mp distinct).2
      (fun place member => within place (by simp [member])) kept
      (fun place member => by
        rw [unchanged place member]
        exact new place (by simp [member]))
    refine ⟨final, by rw [List.foldlM_cons, ok]; exact finished, good', ?_, ?_⟩
    · intro other inside' outside
      rw [List.mem_cons, not_or] at outside
      rw [others other inside' outside.2, frame other inside' outside.1]
    · intro earlier place later whole
      cases earlier with
      | nil =>
        obtain ⟨rfl, rfl⟩ := List.cons.inj whole
        refine ⟨start, next, first, ok, rfl, ?_, ?_⟩
        · exact (others head (within head (by simp)) apart).symm
        · intro other inside' outside
          rw [List.mem_cons, not_or] at outside
          rw [others other inside' outside.2, frame other inside' outside.1]
      | cons earlier' earlier =>
        obtain ⟨rfl, rest⟩ := List.cons.inj whole
        obtain ⟨state, next', visit⟩ := visits earlier place later rest
        exact ⟨state, next', visit.good, visit.step_eq,
          visit.fresh.trans (unchanged place (by simp [rest])), visit.done, visit.settled⟩

theorem foldl_visits {σ ι : Type} (good : σ → Prop) (inside : ι → Prop) (view : σ → ι → γ)
    (fresh : ι → γ → Prop) (step : σ → ι → σ) {places : List ι}
    (round : ∀ place ∈ places, ∀ state, good state → fresh place (view state place) →
      good (step state place) ∧
        ∀ other, inside other → other ≠ place → view (step state place) other = view state other)
    (distinct : places.Nodup) (within : ∀ place ∈ places, inside place) {start : σ}
    (first : good start) (new : ∀ place ∈ places, fresh place (view start place)) :
    good (places.foldl step start) ∧
      (∀ other, inside other → other ∉ places →
        view (places.foldl step start) other = view start other) ∧
      ∀ earlier place later, places = earlier ++ place :: later → ∃ state,
        Visit good inside view
          (fun state place => Except.ok (step state place) : _ → _ → Except Empty σ)
          start (places.foldl step start) place later state (step state place) := by
  obtain ⟨final, ok, kept, others, visits⟩ :=
    foldlM_visits good inside view fresh
      (fun state place => Except.ok (step state place) : _ → _ → Except Empty σ)
      (fun place member state kept blank => ⟨_, rfl, round place member state kept blank⟩)
      distinct within first new
  have pure : places.foldlM (fun state place => Except.ok (step state place)) start =
      (Except.ok (places.foldl step start) : Except Empty σ) :=
    List.foldlM_pure
  have same : places.foldl step start = final := Except.ok.inj (pure.symm.trans ok)
  subst same
  refine ⟨kept, others, fun earlier place later whole => ?_⟩
  obtain ⟨state, next, visit⟩ := visits earlier place later whole
  have stepped : step state place = next := Except.ok.inj visit.step_eq
  subst stepped
  exact ⟨state, visit⟩

end Constituency.Fold
