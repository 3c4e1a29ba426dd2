import Mathlib.Data.List.Nodup
import Mathlib.Data.List.TakeWhile
import Constituency.Tree.Parents
import Constituency.Proofs.Fold

/-!
Recovering parents. Where no two spans are of the same item and every child is there, each span
finds the one span that waits for it, in whatever order the spans are listed.
-/

namespace Constituency

/-- The spans hang together like the nodes of trees of which no two are of the same item. -/
structure Treelike (spans : List Span) : Prop where
  proper : ∀ span ∈ spans, span.isProper = true
  distinct : (spans.map Span.item).Nodup
  slots_distinct : (spans.flatMap Span.slots).Nodup
  filled : ∀ slot ∈ spans.flatMap Span.slots, slot ∈ spans.map Span.item
  apart : ∀ span ∈ spans, span.item ∉ span.slots

theorem Treelike.perm {spans others : List Span} (treelike : Treelike spans)
    (same : others.Perm spans) : Treelike others := by
  have slots : (others.flatMap Span.slots).Perm (spans.flatMap Span.slots) :=
    same.flatMap_right Span.slots
  have items : (others.map Span.item).Perm (spans.map Span.item) := same.map Span.item
  exact
    { proper := fun span member => treelike.proper span (same.mem_iff.mp member)
      distinct := items.nodup_iff.mpr treelike.distinct
      slots_distinct := slots.nodup_iff.mpr treelike.slots_distinct
      filled := fun slot member =>
        items.mem_iff.mpr (treelike.filled slot (slots.mem_iff.mp member))
      apart := fun span member => treelike.apart span (same.mem_iff.mp member) }

theorem Treelike.findIdx?_eq {spans : List Span} (treelike : Treelike spans) {place : Nat}
    {span : Span} (here : spans[place]? = some span) {item : Item} (slot : item ∈ span.slots) :
    spans.findIdx? (fun other => decide (item ∈ other.slots)) = some place := by
  obtain ⟨inside, rfl⟩ := List.getElem?_eq_some_iff.mp here
  have single := (List.nodup_flatMap.mp treelike.slots_distinct).2
  refine List.findIdx?_eq_some_iff_getElem.mpr ⟨inside, decide_eq_true slot, fun other before => ?_⟩
  have apart := List.pairwise_iff_getElem.mp single other place (Nat.lt_trans before inside) inside before
  simpa using fun there => apart there slot

namespace Parents

def needing (spans : List (Span × Nat)) (item : Item) : List Nat :=
  spans.flatMap fun (span, place) => (span.slots.filter (· = item)).map fun _ => place

theorem needing_cons (span : Span) (place : Nat) (entries : List (Span × Nat)) (item : Item) :
    needing ((span, place) :: entries) item =
      ((span.slots.filter (· = item)).map fun _ => place) ++ needing entries item := by
  simp [needing]

theorem needing_append (entries more : List (Span × Nat)) (item : Item) :
    needing (entries ++ more) item = needing entries item ++ needing more item := by
  simp [needing]

theorem Waiting.get_await (waiting : Waiting) (span : Span) (place : Nat) (item : Item) :
    (waiting.await span place).get item =
      waiting.get item ++ (span.slots.filter (· = item)).map fun _ => place := by
  rw [await]
  induction span.slots generalizing waiting with
  | nil => simp
  | cons slot slots ih =>
    rw [List.foldl_cons, ih, get_put]
    by_cases same : item = slot
    · simp [same]
    · simp [same, Ne.symm same]

theorem Waiting.ofSpans_ok {spans : List Span} (proper : ∀ span ∈ spans, span.isProper = true) :
    ∃ waiting, ofSpans spans = .ok waiting ∧
      ∀ item, waiting.get item = needing spans.zipIdx item := by
  have loop : Fold.Ends (fun waiting : Waiting => ∀ item, waiting.get item =
      needing spans.zipIdx item) (fun _ => False) (ofSpans spans) := by
    refine Fold.foldlM_ends
      (fun earlier (waiting : Waiting) => ∀ item, waiting.get item = needing earlier item) ?_ ?_
    · intro item
      rfl
    · intro earlier entry later waiting whole held
      obtain ⟨span, place⟩ := entry
      have member : span ∈ spans := by
        have indexed : (span, place) ∈ spans.zipIdx := by simp [whole]
        exact List.mem_of_getElem? (List.mem_zipIdx_iff_getElem?.mp indexed)
      simp only [proper span member, if_true]
      intro item
      rw [get_await, held, needing_append, needing_cons]
      simp [needing]
  exact loop.exists_ok

theorem takeOther_own {own : Nat} {places : List Nat} (only : ∀ place ∈ places, place = own) :
    takeOther own places = none := by
  have dropped : places.dropWhile (· == own) = [] := by
    simpa [List.dropWhile_eq_nil_iff] using only
  rw [takeOther, dropped]

theorem takeOther_cons {own place : Nat} {others : List Nat} (differ : place ≠ own)
    (few : others.length ≤ 1) : takeOther own (place :: others) = some (place, others) := by
  have other : (place == own) = false := by simpa using differ
  match others, few with
  | [], _ => simp [takeOther, other, lastFirst]
  | [last], _ => simp [takeOther, other, lastFirst]

theorem claim_cons {span : Span} {place : Nat} {waiting : Waiting} {parent : Option Nat}
    (waits : waiting.get span.item = parent.toList) (differ : parent ≠ some place)
    (rest : List (Span × Nat)) : ∃ next : Waiting,
      (∀ item, next.get item = if item = span.item then [] else waiting.get item) ∧
        claim ((span, place) :: rest) waiting = (parent :: (claim rest next).1, (claim rest next).2) := by
  -- A span at the top takes no place; that its item has none waiting is the same as clearing it.
  cases parent with
  | none =>
    rw [Option.toList_none] at waits
    refine ⟨waiting, fun item => ?_, by rw [claim, waits, takeOther_own (by simp)]⟩
    by_cases same : item = span.item
    · rw [if_pos same, same, waits]
    · rw [if_neg same]
  | some parent =>
    have one : waiting.get span.item = [parent] := waits
    have other : takeOther place [parent] = some (parent, []) :=
      takeOther_cons (fun same => differ (congrArg some same)) (Nat.zero_le 1)
    exact ⟨waiting.put span.item [], fun item => Waiting.get_put _ _ _ _,
      by rw [claim, one, other]⟩

/-- Where each item is needed by at most one span, and not by its own, every span takes the place
that waits for it and leaves none. -/
theorem claim_eq {spans : List (Span × Nat)} (waiting : Waiting)
    (distinct : (spans.map fun entry => entry.1.item).Nodup)
    (single : ∀ span place, (span, place) ∈ spans →
      ∃ parent : Option Nat, waiting.get span.item = parent.toList ∧ parent ≠ some place) :
    (claim spans waiting).1 = spans.map (fun entry => (waiting.get entry.1.item).head?) ∧
      (∀ item, item ∈ spans.map (fun entry => entry.1.item) →
        (claim spans waiting).2.get item = []) ∧
      ∀ item, item ∉ spans.map (fun entry => entry.1.item) →
        (claim spans waiting).2.get item = waiting.get item := by
  induction spans generalizing waiting with
  | nil => simp [claim]
  | cons head rest ih =>
    obtain ⟨span, place⟩ := head
    obtain ⟨new, distinct'⟩ := List.nodup_cons.mp distinct
    obtain ⟨parent, waits, differ⟩ := single span place (by simp)
    obtain ⟨next, gets, claims⟩ := claim_cons waits differ rest
    have kept : ∀ other place', (other, place') ∈ rest →
        next.get other.item = waiting.get other.item := by
      intro other place' member
      refine (gets _).trans (if_neg fun same => new ?_)
      exact List.mem_map.mpr ⟨(other, place'), member, same⟩
    obtain ⟨parents, taken, left⟩ := ih next distinct' fun other place' member => by
      rw [kept other place' member]
      exact single other place' (by simp [member])
    rw [claims]
    refine ⟨?_, fun item member => ?_, fun item outside => ?_⟩
    · rw [parents, List.map_cons, waits, Option.head?_toList]
      refine congrArg (parent :: ·) (List.map_congr_left ?_)
      rintro ⟨other, place'⟩ member
      rw [kept other place' member]
    · rcases List.mem_cons.mp member with rfl | later
      · rw [left span.item new, gets, if_pos rfl]
      · exact taken item later
    · obtain ⟨apart, outside⟩ := not_or.mp (List.mem_cons.not.mp outside)
      rw [left item outside, gets, if_neg apart]

/-- For each span the place of the one that has it as a child. -/
def bySlot (spans : List Span) : Parents :=
  spans.map fun span => spans.findIdx? fun other => decide (span.item ∈ other.slots)

theorem needing_eq {spans : List Span} (distinct : (spans.flatMap Span.slots).Nodup)
    (first : Nat) (item : Item) :
    needing (spans.zipIdx first) item =
      ((spans.findIdx? fun other => decide (item ∈ other.slots)).map (· + first)).toList := by
  induction spans generalizing first with
  | nil => rfl
  | cons span spans ih =>
    rw [List.flatMap_cons, List.nodup_append] at distinct
    obtain ⟨own, others, apart⟩ := distinct
    rw [List.zipIdx_cons, needing_cons, ih others, List.findIdx?_cons]
    by_cases here : item ∈ span.slots
    · have single : span.slots.filter (· = item) = [item] := by
        rw [List.filter_eq, List.count_eq_one_of_mem own here, List.replicate_one]
      have none : spans.findIdx? (fun other => decide (item ∈ other.slots)) = none := by
        rw [List.findIdx?_eq_none_iff]
        intro other member
        have absent : item ∉ other.slots := fun there =>
          apart item here item (List.mem_flatMap.mpr ⟨other, member, there⟩) rfl
        simpa using absent
      simp [here, single, none]
    · have none : span.slots.filter (· = item) = [] := by
        rw [List.filter_eq_nil_iff]
        intro slot member same
        rw [decide_eq_true_eq] at same
        exact here (same ▸ member)
      simp [here, none, Function.comp_def, Nat.add_comm, Nat.add_left_comm]

theorem ofSpans_eq {spans : List Span} (treelike : Treelike spans) :
    ofSpans spans = .ok (bySlot spans) := by
  obtain ⟨waiting, ok, awaits⟩ := Waiting.ofSpans_ok treelike.proper
  have waits (item : Item) : waiting.get item =
      (spans.findIdx? fun other => decide (item ∈ other.slots)).toList := by
    rw [awaits, needing_eq treelike.slots_distinct 0]
    simp
  have items : spans.zipIdx.map (fun entry => entry.1.item) = spans.map Span.item := by
    have first : spans.zipIdx.map Prod.fst = spans := by simp
    calc spans.zipIdx.map (fun entry => entry.1.item)
        = (spans.zipIdx.map Prod.fst).map Span.item := by rw [List.map_map]; rfl
      _ = spans.map Span.item := by rw [first]
  obtain ⟨parents, taken, _⟩ := claim_eq waiting
    (by rw [items]; exact treelike.distinct) (by
      intro span place member
      refine ⟨_, waits span.item, fun own => ?_⟩
      obtain ⟨inside, slot, _⟩ := List.findIdx?_eq_some_iff_getElem.mp own
      have here : spans[place]? = some span := List.mem_zipIdx_iff_getElem?.mp member
      rw [List.getElem?_eq_getElem inside, Option.some_inj] at here
      rw [here] at slot
      exact treelike.apart span (here ▸ List.getElem_mem inside) (by simpa using slot))
  have complete : (spans.flatMap Span.slots).find?
      (fun slot => !((claim spans.zipIdx waiting).2.get slot).isEmpty) = none := by
    rw [List.find?_eq_none]
    intro slot member
    rw [taken slot (items ▸ treelike.filled slot member)]
    simp
  have found : (claim spans.zipIdx waiting).1 = bySlot spans := by
    have firsts : spans.zipIdx.map Prod.fst = spans := by simp
    rw [parents, bySlot, ← firsts, List.map_map, firsts]
    refine List.map_congr_left fun entry _ => ?_
    rw [waits, Function.comp_apply]
    cases spans.findIdx? fun other => decide (entry.1.item ∈ other.slots) <;> rfl
  rw [ofSpans, ok]
  rcases claimed : claim spans.zipIdx waiting with ⟨parents', waiting'⟩
  rw [claimed] at complete found
  rw [← found]
  simp only [bind, Except.bind, claimed, complete]
  rfl

theorem roots_bySlot (spans : List Span) :
    (bySlot spans).roots.filterMap (spans[·]?) =
      spans.filter fun span => decide (span.item ∉ spans.flatMap Span.slots) := by
  have rootless (span : Span) :
      (spans.findIdx? fun other => decide (span.item ∈ other.slots)).isNone =
        decide (span.item ∉ spans.flatMap Span.slots) := by
    rw [Bool.eq_iff_iff, Option.isNone_iff_eq_none, List.findIdx?_eq_none_iff, decide_eq_true_eq,
      List.mem_flatMap]
    simp
  have firsts : spans.zipIdx.map Prod.fst = spans := by simp
  calc (bySlot spans).roots.filterMap (spans[·]?)
      = spans.zipIdx.filterMap fun entry =>
          if decide (entry.1.item ∉ spans.flatMap Span.slots) then spans[entry.2]? else none := by
        rw [roots, bySlot, List.zipIdx_map, List.filterMap_map, List.filterMap_filterMap]
        refine List.filterMap_congr fun entry _ => ?_
        rw [← rootless]
        dsimp only [Function.comp_apply, Prod.map]
        split <;> rfl
    _ = spans.zipIdx.filterMap fun entry =>
          if decide (entry.1.item ∉ spans.flatMap Span.slots) then some entry.1 else none := by
        refine List.filterMap_congr fun entry member => ?_
        rw [List.mem_zipIdx_iff_getElem?.mp member]
    _ = (spans.zipIdx.map Prod.fst).filterMap fun span =>
          if decide (span.item ∉ spans.flatMap Span.slots) then some span else none := by
        rw [List.filterMap_map]
        rfl
    _ = spans.filter fun span => decide (span.item ∉ spans.flatMap Span.slots) := by
        rw [firsts, ← List.filterMap_eq_filter]
        rfl

theorem ofTree_eq {spans : List Span} (treelike : Treelike spans) {root : Span}
    (single : spans.filter (fun span => decide (span.item ∉ spans.flatMap Span.slots)) = [root])
    {length : Nat} (starts : root.start = 0) (stops : root.stop = length) :
    ofTree spans length = .ok (bySlot spans) := by
  have filled : spans.isEmpty = false := by
    cases spans with
    | nil => simp at single
    | cons => rfl
  have roots := roots_bySlot spans
  rw [single] at roots
  simp [ofTree, filled, ofSpans_eq treelike, bind, Except.bind, roots, starts, stops]
  rfl

end Parents

end Constituency
