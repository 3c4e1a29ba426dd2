import Constituency.Search.Exact

/-!
The intervals of a sentence in the order in which charts are filled: each interval once, and none
before an interval that is narrower.
-/

namespace Constituency

/-- The order of filling: by width and then by start. -/
def Fills (earlier later : Nat × Nat) : Prop :=
  earlier.2 - earlier.1 < later.2 - later.1 ∨
    earlier.2 - earlier.1 = later.2 - later.1 ∧ earlier.1 < later.1

theorem mem_narrowIntervals (length start stop : Nat) :
    (start, stop) ∈ narrowIntervals length ↔ stop = start + 1 ∧ start < length := by
  simp only [narrowIntervals, List.mem_map, List.mem_range, Prod.mk.injEq]
  constructor
  · intro found
    obtain ⟨first, bound, rfl, rfl⟩ := found
    exact ⟨rfl, bound⟩
  · intro found
    obtain ⟨rfl, bound⟩ := found
    exact ⟨start, bound, rfl, rfl⟩

theorem mem_wideIntervals (length start stop : Nat) :
    (start, stop) ∈ wideIntervals length ↔ start + 1 < stop ∧ stop ≤ length := by
  simp only [wideIntervals, List.mem_flatMap, List.mem_map, List.mem_range, List.mem_range'_1,
    Prod.mk.injEq]
  constructor
  · intro found
    obtain ⟨width, bounds, first, bound, rfl, rfl⟩ := found
    omega
  · intro found
    obtain ⟨wide, bound⟩ := found
    exact ⟨stop - start, by omega, start, by omega, rfl, by omega⟩

theorem within_of_mem_narrowIntervals {length : Nat} {interval : Nat × Nat}
    (member : interval ∈ narrowIntervals length) :
    interval.1 ≤ length ∧ interval.2 ≤ length := by
  have narrow := (mem_narrowIntervals length interval.1 interval.2).mp member
  omega

theorem le_of_mem_wideIntervals {length : Nat} {interval : Nat × Nat}
    (member : interval ∈ wideIntervals length) :
    interval.1 ≤ interval.2 ∧ interval.2 ≤ length := by
  have wide := (mem_wideIntervals length interval.1 interval.2).mp member
  omega

theorem within_of_mem_wideIntervals {length : Nat} {interval : Nat × Nat}
    (member : interval ∈ wideIntervals length) :
    interval.1 ≤ length ∧ interval.2 ≤ length := by
  have ordered := le_of_mem_wideIntervals member
  omega

theorem not_mem_narrowIntervals {length : Nat} {interval : Nat × Nat}
    (member : interval ∈ wideIntervals length) : interval ∉ narrowIntervals length := by
  have wide := (mem_wideIntervals length interval.1 interval.2).mp member
  intro member'
  have narrow := (mem_narrowIntervals length interval.1 interval.2).mp member'
  omega

theorem narrowIntervals_pairwise (length : Nat) : (narrowIntervals length).Pairwise Fills := by
  rw [narrowIntervals, List.pairwise_map]
  refine List.pairwise_lt_range.imp ?_
  intro earlier later before
  right
  omega

theorem wideIntervals_pairwise (length : Nat) : (wideIntervals length).Pairwise Fills := by
  rw [wideIntervals, List.pairwise_flatMap]
  constructor
  · intro width _
    rw [List.pairwise_map]
    refine List.pairwise_lt_range.imp ?_
    intro earlier later before
    right
    omega
  · refine (List.pairwise_lt_range' 1).imp ?_
    intro narrow wide before first inFirst second inSecond
    obtain ⟨start, _, rfl⟩ := List.mem_map.mp inFirst
    obtain ⟨start', _, rfl⟩ := List.mem_map.mp inSecond
    left
    omega

theorem nodup_of_fills {intervals : List (Nat × Nat)} (ordered : intervals.Pairwise Fills) :
    intervals.Nodup := by
  refine ordered.imp ?_
  intro earlier later before same
  obtain rfl := same
  unfold Fills at before
  omega

theorem not_mem_of_narrower {earlier later : List (Nat × Nat)} {interval other : Nat × Nat}
    (ordered : (earlier ++ interval :: later).Pairwise Fills)
    (narrower : other.2 - other.1 < interval.2 - interval.1) : other ∉ interval :: later := by
  intro member
  rcases List.mem_cons.mp member with rfl | behind
  · omega
  · have before := (List.pairwise_cons.mp (List.pairwise_append.mp ordered).2.1).1 other behind
    unfold Fills at before
    omega

theorem mem_splits (start stop split : Nat) :
    split ∈ splits start stop ↔ start < split ∧ split < stop := by
  rw [splits, List.mem_range'_1]
  omega

theorem splits_nodup (start stop : Nat) : (splits start stop).Nodup :=
  List.nodup_range'

end Constituency
