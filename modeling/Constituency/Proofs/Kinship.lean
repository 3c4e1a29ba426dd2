import Mathlib
import Constituency.Proofs.Parents

/-!
The parents of any spans that are accepted, also where items repeat and several spans wait for the
same child. Every span has just the children that its rule needs, and none is its own parent.
-/

namespace Constituency.Parents

open scoped List

theorem mem_childrenOf {parents : Parents} {place child : Nat} :
    child ∈ parents.childrenOf place ↔ parents[child]? = some (some place) := by
  simp [childrenOf, List.mem_zipIdx_iff_getElem?]

theorem childrenOf_nodup (parents : Parents) (place : Nat) : (parents.childrenOf place).Nodup := by
  have places : (parents.zipIdx.map Prod.snd).Nodup := by
    rw [List.zipIdx_map_snd]
    exact List.nodup_range'
  refine List.Nodup.sublist ?_ places
  have kept : parents.childrenOf place =
      (parents.zipIdx.filter fun entry => entry.1 = some place).map Prod.snd := by
    rw [← List.filterMap_eq_map, ← List.filterMap_eq_filter, List.filterMap_filterMap, childrenOf]
    refine List.filterMap_congr fun entry _ => ?_
    by_cases same : entry.1 = some place <;> simp [same, Option.guard]
  rw [kept]
  exact (List.filter_sublist).map Prod.snd

def childItems (spans : List Span) (parents : Parents) (place : Nat) : List Item :=
  (parents.childrenOf place).filterMap fun child => spans[child]?.map Span.item

theorem mem_childItems {spans : List Span} {parents : Parents} {place child : Nat} {span : Span}
    (link : parents[child]? = some (some place)) (here : spans[child]? = some span) :
    span.item ∈ childItems spans parents place :=
  List.mem_filterMap.mpr ⟨child, mem_childrenOf.mpr link, by rw [here]; rfl⟩

/-- Every span has the children that its rule needs. -/
structure Fits (spans : List Span) (parents : Parents) : Prop where
  length_eq : parents.length = spans.length
  proper : ∀ span ∈ spans, span.isProper = true
  apart : ∀ place : Nat, parents[place]? ≠ some (some place)
  inside : ∀ child place : Nat, parents[child]? = some (some place) → place < spans.length
  children : ∀ (place : Nat) span, spans[place]? = some span →
    (childItems spans parents place).Perm span.slots

section Claim

theorem lastFirst_perm (places : List Nat) : (lastFirst places).Perm places := by
  induction places using List.reverseRecOn with
  | nil => exact .refl _
  | append_singleton places last _ =>
    simpa [lastFirst] using (List.perm_append_singleton last places).symm

theorem takeOther_perm {own place : Nat} {places others : List Nat}
    (taken : takeOther own places = some (place, others)) :
    places.Perm (place :: others) ∧ place ≠ own := by
  unfold takeOther at taken
  split at taken
  · cases taken
  · rename_i first rest dropped
    cases taken
    have whole := List.takeWhile_append_dropWhile (p := (· == own)) (l := places)
    rw [dropped] at whole
    constructor
    · calc places
          = places.takeWhile (· == own) ++ place :: rest := whole.symm
        _ ~ place :: (places.takeWhile (· == own) ++ rest) := List.perm_middle
        _ ~ place :: (places.takeWhile (· == own) ++ lastFirst rest) :=
          ((lastFirst_perm rest).symm.append_left _).cons _
    · have other := List.head?_dropWhile_not (· == own) places
      rw [dropped] at other
      simpa using other

def given (entries : List (Span × Nat)) (parents : Parents) (item : Item) : List Nat :=
  (entries.zip parents).filterMap fun (entry, parent) =>
    if entry.1.item = item then parent else none

theorem get_perm_given (entries : List (Span × Nat)) (waiting : Waiting) (item : Item) :
    (waiting.get item).Perm
      (given entries (claim entries waiting).1 item ++ (claim entries waiting).2.get item) := by
  induction entries generalizing waiting with
  | nil => exact .refl _
  | cons entry rest ih =>
    obtain ⟨span, place⟩ := entry
    rw [claim]
    cases taken : takeOther place (waiting.get span.item) with
    | none =>
      have skipped : given ((span, place) :: rest) (none :: (claim rest waiting).1) item =
          given rest (claim rest waiting).1 item := by
        simp [given]
      exact skipped ▸ ih waiting
    | some choice =>
      obtain ⟨parent, others⟩ := choice
      have left := ih (waiting.put span.item others)
      rw [Waiting.get_put] at left
      by_cases same : span.item = item
      · subst same
        rw [if_pos rfl] at left
        have here : given ((span, place) :: rest)
            (some parent :: (claim rest (waiting.put span.item others)).1) span.item =
              parent :: given rest (claim rest (waiting.put span.item others)).1 span.item := by
          simp [given]
        exact here ▸ (takeOther_perm taken).1.trans (left.cons parent)
      · rw [if_neg (Ne.symm same)] at left
        have skipped : given ((span, place) :: rest)
            (some parent :: (claim rest (waiting.put span.item others)).1) item =
              given rest (claim rest (waiting.put span.item others)).1 item := by
          simp [given, same]
        exact skipped ▸ left

theorem length_claim (entries : List (Span × Nat)) (waiting : Waiting) :
    (claim entries waiting).1.length = entries.length := by
  induction entries generalizing waiting with
  | nil => rfl
  | cons entry rest ih =>
    obtain ⟨span, place⟩ := entry
    rw [claim]
    cases takeOther place (waiting.get span.item) with
    | none => exact congrArg (· + 1) (ih waiting)
    | some choice => exact congrArg (· + 1) (ih _)

theorem claim_apart (entries : List (Span × Nat)) (waiting : Waiting) :
    ∀ entry parent, (entry, parent) ∈ entries.zip (claim entries waiting).1 →
      parent ≠ some entry.2 := by
  induction entries generalizing waiting with
  | nil => simp
  | cons head rest ih =>
    obtain ⟨span, place⟩ := head
    intro entry parent member
    rw [claim] at member
    cases taken : takeOther place (waiting.get span.item) with
    | none =>
      rw [taken] at member
      rcases List.mem_cons.mp member with here | later
      · cases here
        simp
      · exact ih waiting entry parent later
    | some choice =>
      rw [taken] at member
      rcases List.mem_cons.mp member with here | later
      · cases here
        exact fun same => (takeOther_perm taken).2 (Option.some.inj same)
      · exact ih _ entry parent later

end Claim

theorem proper_of_ofSpans {spans : List Span} {waiting : Waiting}
    (ok : Waiting.ofSpans spans = .ok waiting) : ∀ span ∈ spans, span.isProper = true := by
  have rounds : Fold.Ends (fun _ : Waiting => ∀ entry ∈ spans.zipIdx, entry.1.isProper = true)
      (fun _ => True) (Waiting.ofSpans spans) := by
    refine Fold.foldlM_ends
      (fun earlier _ => ∀ entry ∈ earlier, (entry : Span × Nat).1.isProper = true) (by simp) ?_
    intro earlier entry later waiting whole held
    obtain ⟨span, place⟩ := entry
    by_cases proper : span.isProper = true
    · simp only [proper, if_true]
      intro other member
      rcases List.mem_append.mp member with old | new
      · exact held other old
      · rw [List.mem_singleton.mp new]
        exact proper
    · simp only [proper]
      trivial
  rw [ok] at rounds
  intro span member
  obtain ⟨place, inside, rfl⟩ := List.getElem_of_mem member
  exact rounds (spans[place], place) (by simp [List.mem_zipIdx_iff_getElem?])

section Count

theorem le_of_mem_needing {spans : List Span} {first place : Nat} {item : Item}
    (member : place ∈ needing (spans.zipIdx first) item) : first ≤ place := by
  obtain ⟨⟨span, here⟩, inside, waits⟩ := List.mem_flatMap.mp member
  obtain ⟨_, _, rfl⟩ := List.mem_map.mp waits
  exact List.le_snd_of_mem_zipIdx inside

theorem needing_eq_nil {spans : List Span} {first : Nat} {item : Item}
    (unneeded : item ∉ spans.flatMap Span.slots) : needing (spans.zipIdx first) item = [] := by
  rw [needing, List.flatMap_eq_nil_iff]
  intro entry member
  have inside : entry.1 ∈ spans := List.fst_mem_of_mem_zipIdx member
  rw [List.map_eq_nil_iff, List.filter_eq_nil_iff]
  intro slot needed same
  rw [decide_eq_true_eq] at same
  exact unneeded (List.mem_flatMap.mpr ⟨entry.1, inside, same ▸ needed⟩)

theorem count_needing (spans : List Span) (first place : Nat) (item : Item) :
    (needing (spans.zipIdx first) item).count (first + place) =
      (spans[place]?.elim [] Span.slots).count item := by
  induction spans generalizing first place with
  | nil => simp [needing]
  | cons span spans ih =>
    rw [List.zipIdx_cons, needing_cons, List.count_append, List.map_const', List.count_replicate]
    cases place with
    | zero =>
      have later : (needing (spans.zipIdx (first + 1)) item).count first = 0 := by
        rw [List.count_eq_zero]
        exact fun member => absurd (le_of_mem_needing member) (by omega)
      simp [later, List.count_eq_length_filter, BEq.beq]
    | succ place =>
      have next := ih (first + 1) place
      rw [show first + 1 + place = first + (place + 1) by omega] at next
      simp [next]

theorem filterMap_children {rest : List Span} {parents : Parents}
    (length : parents.length = rest.length) (front : List Span) (place : Nat) :
    ((parents.zipIdx front.length).filterMap fun (parent, child) =>
        if parent = some place then some child else none).filterMap
          (fun child => (front ++ rest)[child]?.map Span.item) =
      (rest.zip parents).filterMap fun (span, parent) =>
        if parent = some place then some span.item else none := by
  induction rest generalizing front parents with
  | nil =>
    rw [List.length_eq_zero_iff.mp length]
    rfl
  | cons span rest ih =>
    cases parents with
    | nil => simp at length
    | cons parent parents =>
      have later := @ih parents (by simpa using length) (front ++ [span])
      rw [List.length_append, List.length_singleton, List.append_assoc, List.singleton_append]
        at later
      rw [List.zip_cons_cons, List.zipIdx_cons, List.filterMap_cons, List.filterMap_cons]
      by_cases same : parent = some place <;> simp [same, later]

theorem childItems_eq {spans : List Span} {parents : Parents}
    (length : parents.length = spans.length) (place : Nat) :
    childItems spans parents place = (spans.zip parents).filterMap fun (span, parent) =>
      if parent = some place then some span.item else none :=
  filterMap_children length [] place

theorem count_childItems {spans : List Span} {parents : Parents}
    (length : parents.length = spans.length) (place : Nat) (item : Item) :
    (childItems spans parents place).count item = (given spans.zipIdx parents item).count place := by
  have firsts : (spans.zip parents).filterMap (fun (span, parent) =>
      if span.item = item then parent else none) = given spans.zipIdx parents item := by
    have same : spans.zip parents = (spans.zipIdx.zip parents).map fun entry =>
        (entry.1.1, entry.2) := by
      have places : spans.zipIdx.map Prod.fst = spans := by simp
      conv_lhs => rw [← places]
      rw [List.zip_map_left]
      rfl
    rw [same, List.filterMap_map]
    rfl
  rw [childItems_eq length, ← firsts, List.count_filterMap, List.count_filterMap]
  refine List.countP_congr fun entry _ => ?_
  obtain ⟨span, parent⟩ := entry
  by_cases ours : parent = some place <;> by_cases same : span.item = item <;> simp [ours, same]

end Count

section Accepted

variable {spans : List Span} {parents : Parents}

theorem exists_claim (ok : ofSpans spans = .ok parents) :
    ∃ waiting, Waiting.ofSpans spans = .ok waiting ∧ (claim spans.zipIdx waiting).1 = parents ∧
      ∀ slot ∈ spans.flatMap Span.slots, (claim spans.zipIdx waiting).2.get slot = [] := by
  obtain ⟨waiting, awaited, ok⟩ := Fold.exists_of_bind_ok ok
  refine ⟨waiting, awaited, ?_⟩
  rcases claimed : claim spans.zipIdx waiting with ⟨parents', left⟩
  simp only [claimed] at ok
  split at ok
  · cases ok
  · rename_i none
    refine ⟨Except.ok.inj ok, fun slot member => ?_⟩
    simpa using List.find?_eq_none.mp none slot member

theorem needing_perm_given (ok : ofSpans spans = .ok parents) (item : Item) :
    (needing spans.zipIdx item).Perm (given spans.zipIdx parents item) := by
  obtain ⟨waiting, awaited, rfl, complete⟩ := exists_claim ok
  obtain ⟨waiting', awaited', needs⟩ := Waiting.ofSpans_ok (proper_of_ofSpans awaited)
  obtain rfl := Except.ok.inj (awaited.symm.trans awaited')
  have share := get_perm_given spans.zipIdx waiting item
  rw [needs] at share
  by_cases member : item ∈ spans.flatMap Span.slots
  · rwa [complete item member, List.append_nil] at share
  · rw [needing_eq_nil member] at share ⊢
    exact (List.append_eq_nil_iff.mp share.nil_eq.symm).1 ▸ .refl _

theorem count_childItems_eq (ok : ofSpans spans = .ok parents)
    (length : parents.length = spans.length) (place : Nat) (item : Item) :
    (childItems spans parents place).count item =
      (spans[place]?.elim [] Span.slots).count item := by
  have needed := count_needing spans 0 place item
  rw [Nat.zero_add] at needed
  rw [count_childItems length, ← (needing_perm_given ok item).count_eq, needed]

theorem fits_of_ofSpans (ok : ofSpans spans = .ok parents) : Fits spans parents := by
  have counts := count_childItems_eq ok
  obtain ⟨waiting, awaited, rfl, _⟩ := exists_claim ok
  have length : (claim spans.zipIdx waiting).1.length = spans.length := by
    simpa using length_claim spans.zipIdx waiting
  refine ⟨length, proper_of_ofSpans awaited, fun place own => ?_, fun child place link => ?_,
    fun place span here => ?_⟩
  · obtain ⟨inside, here⟩ := List.getElem?_eq_some_iff.mp own
    refine claim_apart spans.zipIdx waiting (spans[place], place) (some place) ?_ rfl
    rw [List.mem_iff_getElem?]
    exact ⟨place, by simp [List.getElem?_zip_eq_some, own]⟩
  · have here : child < spans.length := length ▸ (List.getElem?_eq_some_iff.mp link).1
    have item := mem_childItems link (List.getElem?_eq_getElem here)
    rw [← List.count_pos_iff, counts length] at item
    by_contra behind
    rw [List.getElem?_eq_none (Nat.not_lt.mp behind)] at item
    simp at item
  · rw [List.perm_iff_count]
    intro item
    rw [counts length, here]
    rfl

end Accepted

end Constituency.Parents
