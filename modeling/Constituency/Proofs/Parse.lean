import Mathlib.Data.List.Perm.Basic
import Constituency.Derivation.Parse
import Constituency.Proofs.Parents

/-!
Parses as lists of spans. Every span of a parse but the one at the top fills a slot of another one,
so that a parse without a repeated item is recovered from its spans in any order.
-/

namespace Constituency.Parse

@[simp] theorem top_item (parse : Parse) : parse.top.item = parse.item := by
  cases parse <;> rfl

theorem top_mem_spans (parse : Parse) : parse.top ∈ parse.spans := by
  cases parse <;> simp [spans]

theorem item_mem (parse : Parse) : parse.item ∈ parse.spans.map Span.item :=
  List.mem_map.mpr ⟨parse.top, parse.top_mem_spans, parse.top_item⟩

theorem slots_top_binary {label : Label} {left right : Parse} (meet : left.stop = right.start) :
    (binary label left right).top.slots = [left.item, right.item] := by
  simp only [top, Span.slots, Span.binary, item, meet]

theorem spans_append_inj {parse parse' : Parse} {rest rest' : List Span}
    (same : parse.spans ++ rest = parse'.spans ++ rest') : parse = parse' ∧ rest = rest' := by
  induction parse generalizing parse' rest rest' with
  | word label position =>
    cases parse' with
    | word label' position' => simpa [spans, top, Span.terminal, and_assoc, and_comm] using same
    | unary | binary => simp [spans, top, Span.terminal, Span.unary, Span.binary] at same
  | unary label child ih =>
    cases parse' with
    | unary label' child' =>
      obtain ⟨top, below⟩ := List.cons.inj same
      obtain ⟨rfl, rfl⟩ := ih below
      have rules : Rule.unary ⟨label, child.label⟩ = .unary ⟨label', child.label⟩ :=
        congrArg Span.rule top
      cases rules
      exact ⟨rfl, rfl⟩
    | word | binary => simp [spans, top, Span.terminal, Span.unary, Span.binary] at same
  | binary label left right ihLeft ihRight =>
    cases parse' with
    | binary label' left' right' =>
      rw [spans, spans, List.cons_append, List.cons_append, List.append_assoc,
        List.append_assoc] at same
      obtain ⟨top, below⟩ := List.cons.inj same
      obtain ⟨rfl, onRight⟩ := ihLeft below
      obtain ⟨rfl, rfl⟩ := ihRight onRight
      have rules : Rule.binary ⟨label, left.label, right.label⟩ =
        .binary ⟨label', left.label, right.label⟩ := congrArg Span.rule top
      cases rules
      exact ⟨rfl, rfl⟩
    | word | unary => simp [spans, top, Span.terminal, Span.unary, Span.binary] at same

theorem spans_injective : Function.Injective spans := by
  intro parse parse' same
  have none : parse.spans ++ [] = parse'.spans ++ [] := by rw [same]
  exact (spans_append_inj none).1

namespace Contiguous

theorem start_lt_stop {parse : Parse} (contiguous : parse.Contiguous) :
    parse.start < parse.stop := by
  induction parse with
  | word label position => exact Nat.lt_succ_self position
  | unary label child ih => exact ih contiguous
  | binary label left right ihLeft ihRight =>
    obtain ⟨meet, onLeft, onRight⟩ := contiguous
    have first := ihLeft onLeft
    have second := ihRight onRight
    change left.start < right.stop
    omega

theorem mem_spans {parse : Parse} (contiguous : parse.Contiguous) {span : Span}
    (member : span ∈ parse.spans) :
    parse.start ≤ span.start ∧ span.start < span.stop ∧ span.stop ≤ parse.stop := by
  induction parse with
  | word label position =>
    rw [spans, List.mem_singleton] at member
    subst member
    exact ⟨Nat.le_refl _, Nat.lt_succ_self _, Nat.le_refl _⟩
  | unary label child ih =>
    rcases List.mem_cons.mp member with rfl | below
    · exact ⟨Nat.le_refl _, start_lt_stop contiguous, Nat.le_refl _⟩
    · exact ih contiguous below
  | binary label left right ihLeft ihRight =>
    obtain ⟨meet, onLeft, onRight⟩ := contiguous
    have first := start_lt_stop onLeft
    have second := start_lt_stop onRight
    simp only [start, stop]
    rcases List.mem_cons.mp member with rfl | below
    · change left.start ≤ left.start ∧ left.start < right.stop ∧ right.stop ≤ right.stop
      omega
    · rcases List.mem_append.mp below with inLeft | inRight
      · have within := ihLeft onLeft inLeft
        omega
      · have within := ihRight onRight inRight
        omega

theorem items_perm {parse : Parse} (contiguous : parse.Contiguous) :
    (parse.spans.map Span.item).Perm (parse.item :: parse.spans.flatMap Span.slots) := by
  induction parse with
  | word label position => exact .refl _
  | unary label child ih =>
    rw [spans, List.map_cons, List.flatMap_cons, top_item]
    exact (ih contiguous).cons _
  | binary label left right ihLeft ihRight =>
    obtain ⟨meet, onLeft, onRight⟩ := contiguous
    rw [spans, List.map_cons, List.flatMap_cons, top_item, slots_top_binary meet, List.map_append,
      List.flatMap_append]
    refine List.Perm.cons _ (((ihLeft onLeft).append (ihRight onRight)).trans ?_)
    rw [List.cons_append, List.cons_append, List.cons_append, List.nil_append]
    exact List.perm_middle.cons _

theorem proper {parse : Parse} (contiguous : parse.Contiguous) :
    ∀ span ∈ parse.spans, span.isProper = true := by
  induction parse with
  | word label position =>
    intro span member
    rw [spans, List.mem_singleton] at member
    subst member
    simp [top, Span.isProper, Span.terminal]
  | unary label child ih =>
    intro span member
    rcases List.mem_cons.mp member with rfl | below
    · have inside : child.start < child.stop := start_lt_stop contiguous
      exact decide_eq_true inside
    · exact ih contiguous span below
  | binary label left right ihLeft ihRight =>
    obtain ⟨meet, onLeft, onRight⟩ := contiguous
    intro span member
    rcases List.mem_cons.mp member with rfl | below
    · have inside : left.stop < right.stop := meet ▸ start_lt_stop onRight
      simp [top, Span.isProper, Span.binary, start_lt_stop onLeft, inside]
    · rcases List.mem_append.mp below with inLeft | inRight
      · exact ihLeft onLeft span inLeft
      · exact ihRight onRight span inRight

theorem pairwise_binary {apart : Span → Span → Prop} {label : Label} {left right : Parse}
    (contiguous : (binary label left right).Contiguous)
    (far : ∀ span other : Span, (span.start, span.stop) ≠ (other.start, other.stop) →
      apart span other)
    (inLeft : left.spans.Pairwise apart) (inRight : right.spans.Pairwise apart) :
    (binary label left right).spans.Pairwise apart := by
  obtain ⟨meet, onLeft, onRight⟩ := contiguous
  have first := start_lt_stop onLeft
  have second := start_lt_stop onRight
  refine List.pairwise_cons.mpr ⟨fun span below => far _ _ fun same => ?_,
    List.pairwise_append.mpr ⟨inLeft, inRight, fun span one other two => far _ _ fun same => ?_⟩⟩
  · obtain ⟨starts, stops⟩ := Prod.mk.inj same
    simp only [top, Span.binary] at starts stops
    rcases List.mem_append.mp below with inLeft | inRight
    · have within := mem_spans onLeft inLeft
      omega
    · have within := mem_spans onRight inRight
      omega
  · obtain ⟨starts, _⟩ := Prod.mk.inj same
    have within := mem_spans onLeft one
    have within' := mem_spans onRight two
    omega

theorem nodup_binary {label : Label} {left right : Parse}
    (contiguous : (binary label left right).Contiguous)
    (inLeft : (left.spans.map Span.item).Nodup) (inRight : (right.spans.map Span.item).Nodup) :
    ((binary label left right).spans.map Span.item).Nodup := by
  refine List.pairwise_map.mpr (pairwise_binary contiguous (fun span other differ same => ?_)
    (List.pairwise_map.mp inLeft) (List.pairwise_map.mp inRight))
  exact differ (congrArg (fun item => (item.start, item.stop)) same)

end Contiguous

section Treelike

variable {parse : Parse}

theorem apart_of_nodup (contiguous : parse.Contiguous)
    (distinct : (parse.spans.map Span.item).Nodup) :
    ∀ span ∈ parse.spans, span.item ∉ span.slots := by
  induction parse with
  | word label position =>
    intro span member
    rw [spans, List.mem_singleton] at member
    subst member
    simp [top, Span.slots, Span.terminal]
  | unary label child ih =>
    obtain ⟨new, distinct'⟩ := List.nodup_cons.mp distinct
    intro span member
    rcases List.mem_cons.mp member with rfl | below
    · intro same
      have self : (unary label child).top.item = child.item := List.mem_singleton.mp same
      exact new (self ▸ child.item_mem)
    · exact ih contiguous distinct' span below
  | binary label left right ihLeft ihRight =>
    obtain ⟨meet, onLeft, onRight⟩ := contiguous
    obtain ⟨_, distinct'⟩ := List.nodup_cons.mp distinct
    rw [List.map_append, List.nodup_append] at distinct'
    intro span member
    rcases List.mem_cons.mp member with rfl | below
    · have first := onLeft.start_lt_stop
      have second := onRight.start_lt_stop
      rw [top_item]
      simp only [top, Span.slots, Span.binary, item, List.mem_cons, Item.mk.injEq, start, stop]
      intro found
      rcases found with ⟨_, same, _⟩ | ⟨same, _, _⟩ | member
      · omega
      · omega
      · cases member
    · rcases List.mem_append.mp below with inLeft | inRight
      · exact ihLeft onLeft distinct'.1 span inLeft
      · exact ihRight onRight distinct'.2.1 span inRight

theorem parents_first (contiguous : parse.Contiguous)
    (distinct : (parse.spans.map Span.item).Nodup) :
    parse.spans.Pairwise fun earlier later => earlier.item ∉ later.slots := by
  have apart {parse : Parse} (contiguous : parse.Contiguous) {item : Item}
      (new : item ∉ parse.spans.map Span.item) : ∀ later ∈ parse.spans, item ∉ later.slots := by
    intro later member slot
    have filled := List.mem_cons_of_mem parse.item (List.mem_flatMap.mpr ⟨later, member, slot⟩)
    exact new (contiguous.items_perm.mem_iff.mpr filled)
  induction parse with
  | word label position => exact List.pairwise_singleton _ _
  | unary label child ih =>
    obtain ⟨new, distinct'⟩ := List.nodup_cons.mp distinct
    have onChild : child.Contiguous := contiguous
    exact List.pairwise_cons.mpr ⟨apart onChild new, ih onChild distinct'⟩
  | binary label left right ihLeft ihRight =>
    obtain ⟨_, onLeft, onRight⟩ := contiguous
    obtain ⟨new, distinct'⟩ := List.nodup_cons.mp distinct
    rw [List.map_append] at new distinct'
    obtain ⟨first, second, between⟩ := List.nodup_append.mp distinct'
    rw [List.mem_append, not_or] at new
    refine List.pairwise_cons.mpr ⟨fun later member => ?_,
      List.pairwise_append.mpr ⟨ihLeft onLeft first, ihRight onRight second, ?_⟩⟩
    · rcases List.mem_append.mp member with inLeft | inRight
      · exact apart onLeft new.1 later inLeft
      · exact apart onRight new.2 later inRight
    · intro earlier inLeft
      refine apart onRight fun inRight => ?_
      exact between _ (List.mem_map_of_mem inLeft) _ inRight rfl

theorem treelike (contiguous : parse.Contiguous)
    (distinct : (parse.spans.map Span.item).Nodup) : Treelike parse.spans := by
  have perm := contiguous.items_perm
  have distinct' := perm.nodup_iff.mp distinct
  exact
    { proper := contiguous.proper
      distinct := distinct
      slots_distinct := (List.nodup_cons.mp distinct').2
      filled := fun slot member => perm.mem_iff.mpr (List.mem_cons_of_mem _ member)
      apart := apart_of_nodup contiguous distinct }

theorem filter_root (contiguous : parse.Contiguous)
    (distinct : (parse.spans.map Span.item).Nodup) :
    parse.spans.filter (fun span => decide (span.item ∉ parse.spans.flatMap Span.slots)) =
      [parse.top] := by
  have perm := contiguous.items_perm
  have root : parse.item ∉ parse.spans.flatMap Span.slots :=
    (List.nodup_cons.mp (perm.nodup_iff.mp distinct)).1
  obtain ⟨rest, whole⟩ : ∃ rest, parse.spans = parse.top :: rest := by
    cases parse <;> exact ⟨_, rfl⟩
  have filled : (rest.map Span.item).Perm (parse.spans.flatMap Span.slots) := by
    have items : parse.spans.map Span.item = parse.item :: rest.map Span.item := by
      rw [whole, List.map_cons, top_item]
    rw [items] at perm
    exact perm.cons_inv
  have others : rest.filter (fun span => decide (span.item ∉ parse.spans.flatMap Span.slots)) =
      [] := by
    rw [List.filter_eq_nil_iff]
    intro span member
    have slot := filled.mem_iff.mp (List.mem_map.mpr ⟨span, member, rfl⟩)
    simpa using slot
  generalize parse.spans.flatMap Span.slots = slots at root others
  rw [whole, List.filter_cons, others, top_item, if_pos (by simpa using root)]

theorem filter_root_of_perm (contiguous : parse.Contiguous)
    (distinct : (parse.spans.map Span.item).Nodup) {spans : List Span}
    (perm : spans.Perm parse.spans) :
    spans.filter (fun span => decide (span.item ∉ spans.flatMap Span.slots)) = [parse.top] := by
  rw [← List.perm_singleton, ← filter_root contiguous distinct]
  simp only [(perm.flatMap_right Span.slots).mem_iff]
  exact perm.filter _

theorem ofTree_eq (contiguous : parse.Contiguous)
    (distinct : (parse.spans.map Span.item).Nodup) {spans : List Span}
    (perm : spans.Perm parse.spans) {length : Nat} (starts : parse.start = 0)
    (stops : parse.stop = length) : Parents.ofTree spans length = .ok (Parents.bySlot spans) := by
  have item := parse.top_item
  exact Parents.ofTree_eq ((treelike contiguous distinct).perm perm)
    (filter_root_of_perm contiguous distinct perm)
    ((congrArg Item.start item).trans starts) ((congrArg Item.stop item).trans stops)

end Treelike

end Constituency.Parse
