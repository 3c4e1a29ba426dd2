import Mathlib
import Constituency.Proofs.FlatParse
import Constituency.Proofs.Kinship

/-!
Parses listed parents first. In this order the spans of a flat parse find the parents that they have
in the parse, also where a unary rule leads from a label to itself, so that two spans are of one
item.
-/

namespace Constituency

namespace Parents

/-- The parents of the spans of an item, when spans are listed with their places and those of their
parents. -/
def handed (links : List ((Span × Nat) × Nat)) (item : Item) : List Nat :=
  (links.filter fun link => link.1.1.item = item).map Prod.snd

theorem handed_cons (link : (Span × Nat) × Nat) (links : List ((Span × Nat) × Nat)) (item : Item) :
    handed (link :: links) item =
      (if link.1.1.item = item then [link.2] else []) ++ handed links item := by
  by_cases same : link.1.1.item = item <;> simp [handed, same]

theorem handed_append (links more : List ((Span × Nat) × Nat)) (item : Item) :
    handed (links ++ more) item = handed links item ++ handed more item := by
  simp [handed]

theorem length_needing (spans : List Span) (first : Nat) (item : Item) :
    (needing (spans.zipIdx first) item).length = (spans.flatMap Span.slots).count item := by
  induction spans generalizing first with
  | nil => rfl
  | cons span spans ih =>
    rw [List.zipIdx_cons, needing_cons, List.length_append, ih, List.flatMap_cons,
      List.count_append, List.length_map, List.filter_eq, List.length_replicate]

/-- Spans take the places that wait for them in their turn, where at most two wait for an item and
no span for itself, and leave none. -/
theorem claim_handed {links : List ((Span × Nat) × Nat)} {waiting : Waiting}
    (waits : ∀ item, waiting.get item = handed links item)
    (few : ∀ item, (handed links item).length ≤ 2) (apart : ∀ link ∈ links, link.2 ≠ link.1.2) :
    (claim (links.map Prod.fst) waiting).1 = links.map (fun link => some link.2) ∧
      ∀ item, (claim (links.map Prod.fst) waiting).2.get item = [] := by
  induction links generalizing waiting with
  | nil => exact ⟨rfl, waits⟩
  | cons link links ih =>
    obtain ⟨⟨span, own⟩, parent⟩ := link
    obtain ⟨differ, apart⟩ := List.forall_mem_cons.mp apart
    have here : waiting.get span.item = parent :: handed links span.item := by
      rw [waits, handed_cons, if_pos rfl]
      rfl
    have taken : takeOther own (waiting.get span.item) =
        some (parent, handed links span.item) := by
      have all := few span.item
      rw [← waits, here, List.length_cons] at all
      rw [here]
      exact takeOther_cons differ (Nat.le_of_succ_le_succ all)
    have waits' (item : Item) :
        (waiting.put span.item (handed links span.item)).get item = handed links item := by
      rw [Waiting.get_put]
      split
      · rename_i same
        rw [same]
      · rename_i other
        rw [waits, handed_cons, if_neg (Ne.symm other), List.nil_append]
    have few' (item : Item) : (handed links item).length ≤ 2 := by
      have all := few item
      rw [handed_cons, List.length_append] at all
      exact (Nat.le_add_left _ _).trans all
    obtain ⟨parents, left⟩ := ih waits' few' apart
    rw [List.map_cons, claim, taken]
    exact ⟨congrArg (some parent :: ·) parents, left⟩

end Parents

namespace Parse

/-- The spans of a parse below its top, when this is at a place of a list, each with its own place
and that of its parent. -/
def lowerLinks (place : Nat) : Parse → List ((Span × Nat) × Nat)
  | word _ _ => []
  | unary _ child => ((child.top, place + 1), place) :: child.lowerLinks (place + 1)
  | binary _ left right =>
    let second := place + 1 + left.spans.length
    ((left.top, place + 1), place) ::
      (left.lowerLinks (place + 1) ++ ((right.top, second), place) :: right.lowerLinks second)

/-- The parents of the spans of a parse, listed parents first and left before right. -/
def parents (parse : Parse) : Parents := none :: (parse.lowerLinks 0).map fun link => some link.2

theorem zipIdx_spans (parse : Parse) (place : Nat) :
    parse.spans.zipIdx place = (parse.top, place) :: (parse.lowerLinks place).map Prod.fst := by
  induction parse generalizing place with
  | word label position => rfl
  | unary label child ih => rw [spans, List.zipIdx_cons, ih, lowerLinks, List.map_cons]
  | binary label left right ihLeft ihRight =>
    rw [spans, List.zipIdx_cons, List.zipIdx_append, ihLeft, ihRight]
    simp [lowerLinks]

theorem spans_eq_cons (parse : Parse) :
    parse.spans = parse.top :: (parse.lowerLinks 0).map fun link => link.1.1 := by
  have firsts : parse.spans.zipIdx.map Prod.fst = parse.spans := by simp
  rw [← firsts, zipIdx_spans, List.map_cons, List.map_map]
  rfl

theorem lowerLinks_lt {parse : Parse} {place : Nat} :
    ∀ link ∈ parse.lowerLinks place, place ≤ link.2 ∧ link.2 < link.1.2 := by
  induction parse generalizing place with
  | word label position => simp [lowerLinks]
  | unary label child ih =>
    intro link member
    rcases List.mem_cons.mp member with rfl | lower
    · exact ⟨Nat.le_refl _, Nat.lt_succ_self _⟩
    · have later := ih link lower
      omega
  | binary label left right ihLeft ihRight =>
    intro link member
    rcases List.mem_cons.mp member with rfl | lower
    · exact ⟨Nat.le_refl _, Nat.lt_succ_self _⟩
    rcases List.mem_append.mp lower with inLeft | inRight
    · have later := ihLeft link inLeft
      omega
    rcases List.mem_cons.mp inRight with rfl | lower
    · exact ⟨Nat.le_refl _, by simp only; omega⟩
    · have later := ihRight link lower
      omega

namespace Contiguous

variable {parse : Parse}

theorem mem_slots (contiguous : parse.Contiguous) {slot : Item}
    (member : slot ∈ parse.spans.flatMap Span.slots) :
    parse.start ≤ slot.start ∧ slot.start < slot.stop ∧ slot.stop ≤ parse.stop := by
  have filled := contiguous.items_perm.mem_iff.mpr (List.mem_cons_of_mem _ member)
  obtain ⟨span, inside, rfl⟩ := List.mem_map.mp filled
  exact contiguous.mem_spans inside

theorem slot_narrower (contiguous : parse.Contiguous) (bare : parse.isUnary = false) {slot : Item}
    (member : slot ∈ parse.spans.flatMap Span.slots) :
    ¬ (slot.start = parse.start ∧ slot.stop = parse.stop) := by
  rintro ⟨starts, stops⟩
  cases parse with
  | word label position => simp [spans, top, Span.slots, Span.terminal] at member
  | unary label child => cases bare
  | binary label left right =>
    obtain ⟨meet, onLeft, onRight⟩ := contiguous
    have first := onLeft.start_lt_stop
    have second := onRight.start_lt_stop
    simp only [start, stop] at starts stops
    rw [spans, List.flatMap_cons, List.flatMap_append, List.mem_append, List.mem_append] at member
    rcases member with own | inLeft | inRight
    · have either : slot = ⟨left.start, left.stop, left.label⟩ ∨
          slot = ⟨left.stop, right.stop, right.label⟩ := by
        simpa [top, Span.slots, Span.binary] using own
      rcases either with rfl | rfl
      · simp only at stops
        omega
      · simp only at starts
        omega
    · have within := onLeft.mem_slots inLeft
      omega
    · have within := onRight.mem_slots inRight
      omega

theorem count_item_le (contiguous : parse.Contiguous) (flat : parse.Flat) (item : Item) :
    (parse.spans.map Span.item).count item ≤ 2 := by
  have once (kind : Span → Bool) (alike : ∀ span other, kind span = true → kind other = true →
      span.isUnary = other.isUnary) :
      ((parse.spans.filter kind).map Span.item).count item ≤ 1 := by
    refine List.nodup_iff_count_le_one.mp
      (List.Nodup.of_map (fun item => (item.start, item.stop)) ?_) item
    rw [List.map_map]
    exact contiguous.nodup_filter flat alike
  have unary := once Span.isUnary fun _ _ one two => one.trans two.symm
  have others := once (fun span => !span.isUnary) fun _ _ one two =>
    Bool.not_inj (one.trans two.symm)
  have parts := (List.filter_append_perm Span.isUnary parse.spans).map Span.item
  rw [← parts.count_eq, List.map_append, List.count_append]
  exact Nat.add_le_add unary (by simpa using others)

theorem needing_eq_handed (contiguous : parse.Contiguous) (place : Nat) (item : Item) :
    Parents.needing (parse.spans.zipIdx place) item =
      Parents.handed (parse.lowerLinks place) item := by
  induction parse generalizing place with
  | word label position => simp [spans, top, lowerLinks, Parents.needing, Parents.handed,
      Span.slots, Span.terminal]
  | unary label child ih =>
    have slots : (unary label child).top.slots = [child.item] := rfl
    rw [spans, List.zipIdx_cons, Parents.needing_cons, slots, ih contiguous, lowerLinks,
      Parents.handed_cons, top_item]
    by_cases same : child.item = item <;> simp [same]
  | binary label left right ihLeft ihRight =>
    obtain ⟨meet, onLeft, onRight⟩ := contiguous
    rw [spans, List.zipIdx_cons, List.zipIdx_append, Parents.needing_cons, Parents.needing_append,
      slots_top_binary meet, ihLeft onLeft, ihRight onRight, lowerLinks, Parents.handed_cons,
      Parents.handed_append, Parents.handed_cons, top_item, top_item]
    by_cases same : right.item = item
    · -- What waits for the right child is ahead of all that waits on the left.
      have unneeded : item ∉ left.spans.flatMap Span.slots := fun slot => by
        have within := onLeft.mem_slots slot
        have starts : item.start = right.start := same ▸ rfl
        omega
      rw [← ihLeft onLeft, Parents.needing_eq_nil unneeded]
      by_cases both : left.item = item <;> simp [same, both]
    · by_cases own : left.item = item <;> simp [same, own]

theorem eq_of_mem_needing (contiguous : parse.Contiguous) (flat : parse.Flat) {first place : Nat}
    (member : place ∈ Parents.needing (parse.spans.zipIdx first) parse.item) : place = first := by
  have narrower {parse : Parse} (contiguous : parse.Contiguous) (bare : parse.isUnary = false)
      {item : Item} (starts : item.start = parse.start) (stops : item.stop = parse.stop)
      (first : Nat) : Parents.needing (parse.spans.zipIdx first) item = [] :=
    Parents.needing_eq_nil fun slot => contiguous.slot_narrower bare slot ⟨starts, stops⟩
  cases parse with
  | unary label child =>
    rw [spans, List.zipIdx_cons, Parents.needing_cons, List.mem_append,
      narrower (show child.Contiguous from contiguous) flat.1 rfl rfl] at member
    obtain ⟨_, _, rfl⟩ := List.mem_map.mp (member.resolve_right List.not_mem_nil)
    rfl
  | word label position =>
    rw [narrower contiguous rfl rfl rfl] at member
    cases member
  | binary label left right =>
    rw [narrower contiguous rfl rfl rfl] at member
    cases member

/-- The spans of a flat parse, parents first, find the parents that they have in it. -/
theorem ofSpans_spans (contiguous : parse.Contiguous) (flat : parse.Flat) :
    Parents.ofSpans parse.spans = .ok parse.parents := by
  obtain ⟨waiting, ok, awaits⟩ := Parents.Waiting.ofSpans_ok contiguous.proper
  have waits (item : Item) : waiting.get item = Parents.handed (parse.lowerLinks 0) item := by
    rw [awaits, contiguous.needing_eq_handed]
  have few (item : Item) : (Parents.handed (parse.lowerLinks 0) item).length ≤ 2 := by
    have all := contiguous.count_item_le flat item
    rw [contiguous.items_perm.count_eq] at all
    rw [← contiguous.needing_eq_handed, Parents.length_needing]
    exact List.count_le_count_cons.trans all
  have root : Parents.takeOther 0 (waiting.get parse.top.item) = none := by
    rw [awaits, top_item]
    exact Parents.takeOther_own fun place => contiguous.eq_of_mem_needing flat
  obtain ⟨parents, left⟩ := Parents.claim_handed waits few fun link member =>
    (lowerLinks_lt link member).2.ne
  have claimed : Parents.claim parse.spans.zipIdx waiting =
      (parse.parents, (Parents.claim ((parse.lowerLinks 0).map Prod.fst) waiting).2) := by
    rw [zipIdx_spans, Parents.claim, root, Parse.parents, ← parents]
  have complete : (parse.spans.flatMap Span.slots).find? (fun slot =>
      !((Parents.claim ((parse.lowerLinks 0).map Prod.fst) waiting).2.get slot).isEmpty) =
        none := by
    rw [List.find?_eq_none]
    intro slot _
    simp [left slot]
  rw [Parents.ofSpans, ok]
  simp only [bind, Except.bind, claimed, complete]
  rfl

theorem roots_parents (parse : Parse) : parse.parents.roots = [0] := by
  have below : (((parse.lowerLinks 0).map fun link => some link.2).zipIdx 1).filterMap
      (fun entry => if entry.1.isNone then some entry.2 else none) = [] := by
    rw [List.filterMap_eq_nil_iff]
    rintro ⟨parent, place⟩ member
    obtain ⟨link, _, rfl⟩ := List.mem_map.mp (List.fst_mem_of_mem_zipIdx member)
    rfl
  rw [Parents.roots, Parse.parents, List.zipIdx_cons, List.filterMap_cons]
  exact congrArg (0 :: ·) below

theorem ofTree_spans (contiguous : parse.Contiguous) (flat : parse.Flat) {length : Nat}
    (starts : parse.start = 0) (stops : parse.stop = length) :
    Parents.ofTree parse.spans length = .ok parse.parents := by
  obtain ⟨first, last, _⟩ := Item.mk.inj parse.top_item
  have filled : parse.spans.isEmpty = false := by rw [parse.spans_eq_cons]; rfl
  have top : parse.spans[0]? = some parse.top := by rw [parse.spans_eq_cons]; rfl
  simp [Parents.ofTree, filled, contiguous.ofSpans_spans flat, roots_parents, top, bind,
    Except.bind, first, last, starts, stops]
  rfl

end Contiguous

end Parse

end Constituency
