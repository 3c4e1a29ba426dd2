import Mathlib.Data.List.Nodup
import Mathlib.Data.List.Pairwise
import Constituency.Proofs.Parse

/-!
Flat parses. Without stacked unary rules at most two spans have the same interval, so that items do
not repeat where no unary rule leads from a label to itself, and a parse is known from the set of
its spans.
-/

namespace Constituency.Parse

namespace Contiguous

theorem eq_top {parse : Parse} (contiguous : parse.Contiguous) (bare : parse.isUnary = false)
    {span : Span} (member : span ∈ parse.spans) (starts : span.start = parse.start)
    (stops : span.stop = parse.stop) : span = parse.top := by
  cases parse with
  | word label position => exact List.mem_singleton.mp member
  | unary label child => cases bare
  | binary label left right =>
    obtain ⟨meet, onLeft, onRight⟩ := contiguous
    have first := onLeft.start_lt_stop
    have second := onRight.start_lt_stop
    simp only [start, stop] at starts stops
    rcases List.mem_cons.mp member with rfl | below
    · rfl
    · rcases List.mem_append.mp below with inLeft | inRight
      · have within := onLeft.mem_spans inLeft
        omega
      · have within := onRight.mem_spans inRight
        omega

theorem isUnary_top (parse : Parse) : parse.top.isUnary = parse.isUnary := by
  cases parse <;> rfl

/-- Two spans over the same interval one of which is unary and the other is not, or over others. -/
def Unlike (span other : Span) : Prop :=
  span.isUnary = other.isUnary → (span.start, span.stop) ≠ (other.start, other.stop)

instance : Std.Symm Unlike := ⟨fun _ _ unlike alike => (unlike alike.symm).symm⟩

theorem pairwise_unlike {parse : Parse} (contiguous : parse.Contiguous) (flat : parse.Flat) :
    parse.spans.Pairwise Unlike := by
  induction parse with
  | word label position => exact List.pairwise_singleton _ _
  | unary label child ih =>
    have onChild : child.Contiguous := contiguous
    refine List.pairwise_cons.mpr ⟨fun span below alike same => ?_, ih onChild flat.2⟩
    obtain ⟨starts, stops⟩ := Prod.mk.inj same
    rw [eq_top onChild flat.1 below starts.symm stops.symm, isUnary_top, isUnary_top,
      flat.1] at alike
    cases alike
  | binary label left right ihLeft ihRight =>
    exact pairwise_binary contiguous (fun span other differ _ => differ)
      (ihLeft contiguous.2.1 flat.1) (ihRight contiguous.2.2 flat.2)

theorem unary_unique {parse : Parse} (contiguous : parse.Contiguous) (flat : parse.Flat)
    {span other : Span} (here : span ∈ parse.spans) (there : other ∈ parse.spans)
    (unary : span.isUnary = true) (unary' : other.isUnary = true)
    (starts : span.start = other.start) (stops : span.stop = other.stop) : span = other := by
  by_contra differ
  have unlike := (contiguous.pairwise_unlike flat).forall here there differ
  exact unlike (unary.trans unary'.symm) (Prod.ext starts stops)

theorem nodup_filter {parse : Parse} (contiguous : parse.Contiguous) (flat : parse.Flat)
    {kind : Span → Bool} (alike : ∀ span other, kind span = true → kind other = true →
      span.isUnary = other.isUnary) :
    ((parse.spans.filter kind).map fun span => (span.start, span.stop)).Nodup :=
  List.pairwise_map.mpr (List.pairwise_filter.mpr
    ((contiguous.pairwise_unlike flat).imp fun unlike one two => unlike (alike _ _ one two)))

theorem nodup_spans {parse : Parse} (contiguous : parse.Contiguous) (flat : parse.Flat) :
    parse.spans.Nodup :=
  (contiguous.pairwise_unlike flat).imp fun unlike same =>
    unlike (congrArg Span.isUnary same) (congrArg (fun span => (span.start, span.stop)) same)

theorem nodup_items {parse : Parse} (contiguous : parse.Contiguous) (flat : parse.Flat)
    (apart : ∀ span ∈ parse.spans, span.item ∉ span.slots) :
    (parse.spans.map Span.item).Nodup := by
  induction parse with
  | word label position => simp [spans]
  | unary label child ih =>
    refine List.nodup_cons.mpr ⟨fun member => ?_, ih contiguous flat.2 fun span below =>
      apart span (List.mem_cons_of_mem _ below)⟩
    obtain ⟨span, below, same⟩ := List.mem_map.mp member
    have onChild : child.Contiguous := contiguous
    have top := eq_top onChild flat.1 below (congrArg Item.start same) (congrArg Item.stop same)
    rw [top, top_item] at same
    exact apart _ (top_mem_spans _) (List.mem_singleton.mpr same.symm)
  | binary label left right ihLeft ihRight =>
    exact nodup_binary contiguous
      (ihLeft contiguous.2.1 flat.1 fun span below => apart span (by simp [spans, below]))
      (ihRight contiguous.2.2 flat.2 fun span below => apart span (by simp [spans, below]))

section Tops

variable {label : Label} {other : Parse}

theorem eq_word_of_top_eq {position : Nat} (same : (word label position).top = other.top) :
    other = word label position := by
  cases other with
  | word label' position' =>
    simp only [Parse.top, Span.terminal, Span.mk.injEq, Rule.terminal.injEq] at same
    rw [same.1, same.2.2.2]
  | unary | binary => simp [Parse.top, Span.terminal, Span.unary, Span.binary] at same

theorem exists_unary_of_top_eq {child : Parse} (same : (unary label child).top = other.top) :
    ∃ child', other = unary label child' ∧ child.item = child'.item := by
  cases other with
  | unary label' child' =>
    simp only [Parse.top, Span.unary, Span.mk.injEq, Rule.unary.injEq, UnaryRule.mk.injEq] at same
    obtain ⟨starts, stops, _, rfl, labels⟩ := same
    exact ⟨child', rfl, by rw [item, item, starts, stops, labels]⟩
  | word | binary => simp [Parse.top, Span.terminal, Span.unary, Span.binary] at same

theorem exists_binary_of_top_eq {left right : Parse}
    (contiguous : (binary label left right).Contiguous) (contiguous' : other.Contiguous)
    (same : (binary label left right).top = other.top) :
    ∃ left' right', other = binary label left' right' ∧ left.item = left'.item ∧
      right.item = right'.item := by
  cases other with
  | binary label' left' right' =>
    simp only [Parse.top, Span.binary, Span.mk.injEq, Rule.binary.injEq, BinaryRule.mk.injEq]
      at same
    obtain ⟨starts, stops, splits, rfl, first, second⟩ := same
    exact ⟨left', right', rfl, by rw [item, item, starts, splits, first],
      by rw [item, item, ← contiguous.1, ← contiguous'.1, splits, stops, second]⟩
  | word | unary => simp [Parse.top, Span.terminal, Span.unary, Span.binary] at same

end Tops

theorem eq_of_item_eq {known : List Span} (distinct : (known.map Span.item).Nodup)
    {parse other : Parse} (contiguous : parse.Contiguous) (contiguous' : other.Contiguous)
    (inside : parse.spans ⊆ known) (inside' : other.spans ⊆ known)
    (same : parse.item = other.item) : parse = other := by
  have tops {parse other : Parse} (inside : parse.spans ⊆ known) (inside' : other.spans ⊆ known)
      (same : parse.item = other.item) : parse.top = other.top := by
    refine List.inj_on_of_nodup_map distinct (inside parse.top_mem_spans)
      (inside' other.top_mem_spans) ?_
    rw [top_item, top_item, same]
  have top := tops inside inside' same
  induction parse generalizing other with
  | word label position => exact (eq_word_of_top_eq top).symm
  | unary label child ih =>
    obtain ⟨child', rfl, below⟩ := exists_unary_of_top_eq top
    have onChild : child.Contiguous := contiguous
    have onChild' : child'.Contiguous := contiguous'
    have within : child.spans ⊆ known := fun _ member => inside (List.mem_cons_of_mem _ member)
    have within' : child'.spans ⊆ known := fun _ member => inside' (List.mem_cons_of_mem _ member)
    rw [ih onChild onChild' within within' below (tops within within' below)]
  | binary label left right ihLeft ihRight =>
    obtain ⟨left', right', rfl, first, second⟩ := exists_binary_of_top_eq contiguous contiguous' top
    obtain ⟨meet, onLeft, onRight⟩ := contiguous
    obtain ⟨meet', onLeft', onRight'⟩ := contiguous'
    have within : left.spans ⊆ known := fun _ member => inside (by simp [spans, member])
    have within' : left'.spans ⊆ known := fun _ member => inside' (by simp [spans, member])
    have beyond : right.spans ⊆ known := fun _ member => inside (by simp [spans, member])
    have beyond' : right'.spans ⊆ known := fun _ member => inside' (by simp [spans, member])
    rw [ihLeft onLeft onLeft' within within' first (tops within within' first),
      ihRight onRight onRight' beyond beyond' second (tops beyond beyond' second)]

theorem top_eq_of_mem_spans_iff {parse other : Parse} (contiguous : parse.Contiguous)
    (contiguous' : other.Contiguous) (flat : other.Flat)
    (same : ∀ span, span ∈ parse.spans ↔ span ∈ other.spans) : parse.top = other.top := by
  have member := (same _).mp parse.top_mem_spans
  have member' := (same _).mpr other.top_mem_spans
  obtain ⟨first, last, _⟩ := Item.mk.inj parse.top_item
  obtain ⟨first', last', _⟩ := Item.mk.inj other.top_item
  have within := contiguous'.mem_spans member
  have within' := contiguous.mem_spans member'
  have starts : parse.top.start = other.top.start := by omega
  have stops : parse.top.stop = other.top.stop := by omega
  cases bare' : other.isUnary with
  | false => exact eq_top contiguous' bare' member (starts.trans first') (stops.trans last')
  | true =>
    cases bare : parse.isUnary with
    | false =>
      exact (eq_top contiguous bare member' (starts.symm.trans first) (stops.symm.trans last)).symm
    | true =>
      exact unary_unique contiguous' flat member other.top_mem_spans
        ((isUnary_top parse).trans bare) ((isUnary_top other).trans bare') starts stops

theorem top_notMem_child (label : Label) {child : Parse} (contiguous : child.Contiguous)
    (bare : child.isUnary = false) : (unary label child).top ∉ child.spans := by
  intro below
  have bare' := isUnary_top child
  rw [← eq_top contiguous bare below rfl rfl, bare] at bare'
  cases bare'

section Parts

variable (label : Label) {left right : Parse} (meet : left.stop = right.start)
  (onLeft : left.Contiguous) (onRight : right.Contiguous) (span : Span)

include meet onLeft onRight

theorem mem_left_iff :
    span ∈ left.spans ↔ span ∈ (binary label left right).spans ∧ span.stop ≤ left.stop := by
  have second := onRight.start_lt_stop
  have whole : (binary label left right).top.stop = right.stop := rfl
  rw [spans, List.mem_cons, List.mem_append]
  constructor
  · exact fun inLeft => ⟨.inr (.inl inLeft), (onLeft.mem_spans inLeft).2.2⟩
  · rintro ⟨rfl | inLeft | inRight, early⟩
    · omega
    · exact inLeft
    · have within := onRight.mem_spans inRight
      omega

theorem mem_right_iff :
    span ∈ right.spans ↔ span ∈ (binary label left right).spans ∧ left.stop ≤ span.start := by
  have first := onLeft.start_lt_stop
  have whole : (binary label left right).top.start = left.start := rfl
  rw [spans, List.mem_cons, List.mem_append]
  constructor
  · intro inRight
    have within := onRight.mem_spans inRight
    exact ⟨.inr (.inr inRight), by omega⟩
  · rintro ⟨rfl | inLeft | inRight, late⟩
    · omega
    · have within := onLeft.mem_spans inLeft
      omega
    · exact inRight

end Parts

/-- A flat parse is known from the set of its spans. -/
theorem eq_of_mem_spans_iff {parse other : Parse} (contiguous : parse.Contiguous)
    (flat : parse.Flat) (contiguous' : other.Contiguous) (flat' : other.Flat)
    (same : ∀ span, span ∈ parse.spans ↔ span ∈ other.spans) : parse = other := by
  have top := top_eq_of_mem_spans_iff contiguous contiguous' flat' same
  induction parse generalizing other with
  | word label position => exact (eq_word_of_top_eq top).symm
  | unary label child ih =>
    obtain ⟨child', rfl, _⟩ := exists_unary_of_top_eq top
    have onChild : child.Contiguous := contiguous
    have onChild' : child'.Contiguous := contiguous'
    have rest : ∀ span, span ∈ child.spans ↔ span ∈ child'.spans := by
      intro span
      have either := same span
      rw [spans, spans, List.mem_cons, List.mem_cons, top] at either
      by_cases here : span = (unary label child').top
      · subst here
        have apart := top_notMem_child label onChild flat.1
        rw [top] at apart
        exact iff_of_false apart (top_notMem_child label onChild' flat'.1)
      · simpa [here] using either
    rw [ih onChild flat.2 onChild' flat'.2 rest
      (top_eq_of_mem_spans_iff onChild onChild' flat'.2 rest)]
  | binary label left right ihLeft ihRight =>
    obtain ⟨left', right', rfl, first, _⟩ := exists_binary_of_top_eq contiguous contiguous' top
    obtain ⟨meet, onLeft, onRight⟩ := contiguous
    obtain ⟨meet', onLeft', onRight'⟩ := contiguous'
    have split : left.stop = left'.stop := congrArg Item.stop first
    have inLeft : ∀ span, span ∈ left.spans ↔ span ∈ left'.spans := fun span => by
      rw [mem_left_iff label meet onLeft onRight, mem_left_iff label meet' onLeft' onRight', same,
        split]
    have inRight : ∀ span, span ∈ right.spans ↔ span ∈ right'.spans := fun span => by
      rw [mem_right_iff label meet onLeft onRight, mem_right_iff label meet' onLeft' onRight', same,
        split]
    rw [ihLeft onLeft flat.1 onLeft' flat'.1 inLeft
        (top_eq_of_mem_spans_iff onLeft onLeft' flat'.1 inLeft),
      ihRight onRight flat.2 onRight' flat'.2 inRight
        (top_eq_of_mem_spans_iff onRight onRight' flat'.2 inRight)]

theorem eq_of_sorted_eq {parse other : Parse} (contiguous : parse.Contiguous)
    (flat : parse.Flat) (contiguous' : other.Contiguous) (flat' : other.Flat)
    (same : Span.sorted parse.spans = Span.sorted other.spans) : parse = other := by
  have perm : parse.spans.Perm other.spans :=
    (List.mergeSort_perm _ _).symm.trans (.trans (.of_eq same) (List.mergeSort_perm _ _))
  exact contiguous.eq_of_mem_spans_iff flat contiguous' flat' fun span => perm.mem_iff

theorem starts_of_words {parse : Parse} (contiguous : parse.Contiguous) :
    (parse.spans.filter Span.isTerminal).map Span.start =
      List.range' parse.start (parse.stop - parse.start) := by
  induction parse with
  | word label position => simp [spans, top, Span.isTerminal, Span.terminal, Rule.shape, start, stop]
  | unary label child ih =>
    rw [spans, List.filter_cons_of_neg (by simp [top, Span.isTerminal, Span.unary, Rule.shape])]
    exact ih contiguous
  | binary label left right ihLeft ihRight =>
    obtain ⟨meet, onLeft, onRight⟩ := contiguous
    have first := onLeft.start_lt_stop
    have second := onRight.start_lt_stop
    rw [spans, List.filter_cons_of_neg (by simp [top, Span.isTerminal, Span.binary, Rule.shape]),
      List.filter_append, List.map_append, ihLeft onLeft, ihRight onRight]
    have joined := List.range'_append_1 (s := left.start) (m := left.stop - left.start)
      (n := right.stop - right.start)
    rw [show left.start + (left.stop - left.start) = right.start by omega] at joined
    rw [joined]
    congr 1
    change _ = right.stop - left.start
    omega

end Contiguous

end Constituency.Parse
