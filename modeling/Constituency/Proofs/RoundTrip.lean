import Mathlib
import Constituency.Tree.Listing
import Constituency.Proofs.GrownTree

/-!
From spans to a tree and back. Spans are made into a tree where they are accepted and no unary one
stands over another, and the tree has them all again, parents first, with their parents; made into a
tree once more they give the same one.
-/

namespace Constituency

open Parents

namespace Parse

/-- The intervals of the spans of a parse, unary ones aside. -/
def intervals (parse : Parse) : List (Nat × Nat) :=
  (parse.spans.filter fun span => !span.isUnary).map fun span => (span.start, span.stop)

theorem intervals_unary (label : Label) (child : Parse) :
    (unary label child).intervals = child.intervals := by
  rw [intervals, spans, List.filter_cons_of_neg (by simp [Contiguous.isUnary_top, isUnary])]
  rfl

theorem intervals_binary (label : Label) (left right : Parse) :
    (binary label left right).intervals =
      (left.start, right.stop) :: (left.intervals ++ right.intervals) := by
  rw [intervals, spans, List.filter_cons_of_pos (by simp [Contiguous.isUnary_top, isUnary]),
    List.map_cons, List.filter_append, List.map_append]
  rfl

theorem Contiguous.nodup_intervals {parse : Parse} (contiguous : parse.Contiguous)
    (flat : parse.Flat) : parse.intervals.Nodup :=
  contiguous.nodup_filter flat fun _ _ one two => Bool.not_inj (one.trans two.symm)

end Parse

namespace Tree

variable {spans : List Span} {tree : Tree} {length : Nat}

section Rows

theorem map_idxOf_self {intervals : List (Nat × Nat)} (distinct : intervals.Nodup) :
    intervals.map intervals.idxOf = List.range intervals.length := by
  refine List.ext_getElem (by simp) fun place inside _ => ?_
  rw [List.getElem_map, List.getElem_range]
  exact distinct.idxOf_getElem place _

theorem map_number (tree : Tree) (intervals : List (Nat × Nat)) (parent : Option Nat) :
    (NodeRow.ofTree intervals parent tree).map NodeRow.number =
      tree.parse.intervals.map intervals.idxOf := by
  induction tree generalizing parent with
  | leaf head position =>
    obtain ⟨label, top⟩ := head
    cases top <;> rfl
  | branch head left right ihLeft ihRight =>
    have capped : (branch head left right).parse.intervals =
        (left.start, right.stop) :: (left.parse.intervals ++ right.parse.intervals) := by
      obtain ⟨label, top⟩ := head
      cases top <;> simp [parse, Parse.capped, Parse.intervals_unary, Parse.intervals_binary]
    rw [NodeRow.ofTree, capped, List.map_cons, List.map_append, ihLeft, ihRight, List.map_cons,
      List.map_append]
    rfl

theorem perm_rows (contiguous : tree.parse.Contiguous) (perm : spans.Perm tree.parse.spans) :
    ((ListedTree.mk tree spans).rows.map NodeRow.number).Perm
      (List.range (spans.countP fun span => !span.isUnary)) := by
  have same : (ListedTree.mk tree spans).intervals.Perm tree.parse.intervals :=
    (perm.filter _).map _
  have distinct := same.nodup_iff.mpr (contiguous.nodup_intervals tree.flat_parse)
  have size : (ListedTree.mk tree spans).intervals.length =
      spans.countP fun span => !span.isUnary := by
    rw [ListedTree.intervals, List.length_map, List.countP_eq_length_filter]
  rw [ListedTree.rows, map_number, ← size, ← map_idxOf_self distinct]
  exact (same.map _).symm

end Rows

section Stacked

variable {parents : Parents}

/-- At a place there is a unary span that has a unary span for its child. -/
def Stacked (spans : List Span) (parents : Parents) (place : Nat) : Prop :=
  ∃ above child span, spans[place]? = some above ∧ above.isUnary = true ∧
    parents.Link child place ∧ spans[child]? = some span ∧ span.isUnary = true

theorem stacked_iff {place : Nat} {above : Span} (there : spans[place]? = some above) :
    Stacked spans parents place ↔
      (above.isUnary && (parents.childrenOf place).any fun child =>
        (spans[child]?.map Span.isUnary).getD false) = true := by
  simp only [Stacked, there, Bool.and_eq_true, List.any_eq_true, mem_childrenOf]
  constructor
  · rintro ⟨_, child, span, same, unary, link, here, unary'⟩
    obtain rfl := Option.some.inj same
    exact ⟨unary, child, link, by rw [here]; exact unary'⟩
  · rintro ⟨unary, child, link, found⟩
    cases here : spans[child]? with
    | none => simp [here] at found
    | some span =>
      rw [here] at found
      exact ⟨above, child, span, rfl, unary, link, here, found⟩

theorem stacked?_eq_none : stacked? spans parents = none ↔ ∀ place, ¬ Stacked spans parents place := by
  rw [stacked?_eq_none_iff]
  constructor
  · rintro single place ⟨above, child, span, there, unary, link, here, unary'⟩
    have bare := single place above there unary child span link here
    rw [unary'] at bare
    cases bare
  · intro single place above there unary child span link here
    by_contra unary'
    exact single place ⟨above, child, span, there, unary, link, here, by simpa using unary'⟩

theorem exists_of_stacked? {span : Span} (found : stacked? spans parents = some span) :
    ∃ place, spans[place]? = some span ∧ Stacked spans parents place ∧
      ∀ earlier < place, ¬ Stacked spans parents earlier := by
  obtain ⟨⟨above, place⟩, first, rfl⟩ := Option.map_eq_some_iff.mp found
  obtain ⟨holds, number, inside, here, earlier⟩ := List.find?_eq_some_iff_getElem.mp first
  rw [List.getElem_zipIdx, Nat.zero_add, Prod.mk.injEq] at here
  obtain ⟨here, rfl⟩ := here
  rw [List.length_zipIdx] at inside
  have there : spans[number]? = some above := by rw [List.getElem?_eq_getElem inside, here]
  refine ⟨number, there, (stacked_iff there).mpr holds, fun before less stacked => ?_⟩
  have holds' := (stacked_iff (List.getElem?_eq_getElem (less.trans inside))).mp stacked
  have bare := earlier before less
  simp only [List.getElem_zipIdx, Nat.zero_add, holds'] at bare
  cases bare

end Stacked

/-- Spans are made into a tree, or they are not accepted, or the first stacked one is reported. -/
theorem ofSpans_cases (spans : List Span) (length : Nat) :
    (∃ error, Parents.ofTree spans length = .error error ∧
      Tree.ofSpans spans length = .error error) ∨
    ∃ parents, Parents.ofTree spans length = .ok parents ∧
      ((∃ place span, Stacked spans parents place ∧
          (∀ earlier < place, ¬ Stacked spans parents earlier) ∧ spans[place]? = some span ∧
          Tree.ofSpans spans length = .error (.stackedUnary span.start span.stop)) ∨
        (∀ place, ¬ Stacked spans parents place) ∧
          ∃ tree, Tree.ofSpans spans length = .ok tree) := by
  cases accepted : Parents.ofTree spans length with
  | error error =>
    refine .inl ⟨error, rfl, ?_⟩
    rw [Tree.ofSpans, accepted]
    rfl
  | ok parents =>
    refine .inr ⟨parents, rfl, ?_⟩
    cases single : stacked? spans parents with
    | some span =>
      obtain ⟨place, here, stacked, first⟩ := exists_of_stacked? single
      refine .inl ⟨place, span, stacked, first, here, ?_⟩
      simp only [Tree.ofSpans, accepted, single, bind, Except.bind]
      rfl
    | none =>
      obtain ⟨tree, _, _, made, _⟩ := exists_of_accepted accepted single
      exact .inr ⟨stacked?_eq_none.mp single, tree, made⟩

/-- A tree that has lost nothing of the spans that it was made from: it has them all, parents first,
as they hang together; they find the parents that it keeps, and every node is one of its own; and
its spans are made into the same tree. -/
structure Lossless (tree : Tree) (spans : List Span) (length : Nat) : Prop where
  perm : tree.spans.Perm spans
  hangs : ∃ parents root places, Parents.ofTree spans length = .ok parents ∧
    parents.roots = [root] ∧ Hangs spans parents root tree.parse places ∧
    tree.spans = places.filterMap (spans[·]?)
  parents : Parents.ofSpans tree.spans = .ok tree.parents
  rows : ((ListedTree.mk tree spans).rows.map NodeRow.number).Perm
    (List.range (spans.countP fun span => !span.isUnary))
  again : Tree.ofSpans tree.spans length = .ok tree

theorem stacked?_spans (contiguous : tree.parse.Contiguous) :
    stacked? tree.parse.spans tree.parse.parents = none := by
  have fits := fits_of_ofSpans (contiguous.ofSpans_spans tree.flat_parse)
  refine stacked?_eq_none_iff.mpr fun place above there unary child span link here => ?_
  by_contra unary'
  obtain ⟨rule, rule_eq⟩ := Span.exists_unary unary
  have waits : span.item = ⟨above.start, above.stop, rule.child⟩ := by
    simpa [Span.slots, rule_eq] using fits.item_mem_slots link here there
  have same := contiguous.unary_unique tree.flat_parse (List.mem_of_getElem? here)
    (List.mem_of_getElem? there) (by simpa using unary') unary (congrArg Item.start waits)
    (congrArg Item.stop waits)
  -- No span is listed twice, so a unary span under itself would be its own parent.
  have distinct := contiguous.nodup_spans tree.flat_parse
  obtain ⟨inside, _⟩ := List.getElem?_eq_some_iff.mp here
  obtain rfl := (List.getElem?_inj inside distinct).mp (here.trans (same ▸ there.symm))
  exact fits.apart child link

theorem ofSpans_again (contiguous : tree.parse.Contiguous) (starts : tree.start = 0)
    (stops : tree.stop = length) : Tree.ofSpans tree.spans length = .ok tree := by
  rw [spans_eq contiguous]
  obtain ⟨tree', _, _, made, _⟩ := exists_of_accepted
    (contiguous.ofTree_spans tree.flat_parse (tree.start_parse.trans starts)
      (tree.stop_parse.trans stops)) (stacked?_spans contiguous)
  have perm := perm_of_ofSpans made Parse.plain
  have same := (of_ofSpans made).1.eq_of_mem_spans_iff tree'.flat_parse contiguous
    tree.flat_parse fun span => perm.symm.mem_iff
  rw [made, parse_injective same]

theorem lossless_of_ofSpans (plain : ∀ span ∈ spans, span.Plain)
    (made : Tree.ofSpans spans length = .ok tree) : tree.Lossless spans length := by
  obtain ⟨contiguous, starts, stops⟩ := of_ofSpans made
  have perm := perm_of_ofSpans made plain
  have listed := spans_eq contiguous
  obtain ⟨parents, root, places, accepted, _, only, hangs, _⟩ := exists_hangs_of_ofSpans made
  exact
    { perm := listed ▸ perm.symm
      hangs := ⟨parents, root, places, accepted, only, hangs, listed.trans (hangs.spans_eq plain)⟩
      parents := by
        rw [listed, parents_eq contiguous]
        exact contiguous.ofSpans_spans tree.flat_parse
      rows := perm_rows contiguous perm
      again := ofSpans_again contiguous starts stops }

/-- Spans are made into a tree just if they are accepted and no unary one stands over another; if
not, what is wrong with them or the first of those over another is reported. The tree has lost
nothing of the spans. -/
theorem ofSpans_round_trip (spans : List Span) (length : Nat)
    (plain : ∀ span ∈ spans, span.Plain) :
    ((∃ tree, Tree.ofSpans spans length = .ok tree) ↔
      ∃ parents, Parents.ofTree spans length = .ok parents ∧
        ∀ place, ¬ Stacked spans parents place) ∧
    (∀ error, Tree.ofSpans spans length = .error error →
      Parents.ofTree spans length = .error error ∨
      ∃ parents place span, Parents.ofTree spans length = .ok parents ∧
        Stacked spans parents place ∧ (∀ earlier < place, ¬ Stacked spans parents earlier) ∧
        spans[place]? = some span ∧ error = .stackedUnary span.start span.stop) ∧
    ∀ tree, Tree.ofSpans spans length = .ok tree → tree.Lossless spans length := by
  refine ⟨?_, ?_, fun tree => lossless_of_ofSpans plain⟩
  · rcases ofSpans_cases spans length with ⟨error, refused, failed⟩ |
      ⟨parents, accepted, ⟨place, span, stacked, _, _, failed⟩ | ⟨single, made⟩⟩
    · exact iff_of_false (by simp [failed]) (by simp [refused])
    · refine iff_of_false (by simp [failed]) ?_
      rintro ⟨parents', accepted', single⟩
      obtain rfl := Except.ok.inj (accepted.symm.trans accepted')
      exact single place stacked
    · exact iff_of_true made ⟨parents, accepted, single⟩
  · intro error failed
    rcases ofSpans_cases spans length with ⟨error', refused, failed'⟩ |
      ⟨parents, accepted, ⟨place, span, stacked, first, here, failed'⟩ | ⟨_, tree, made⟩⟩
    · obtain rfl := Except.error.inj (failed.symm.trans failed')
      exact .inl refused
    · obtain rfl := Except.error.inj (failed.symm.trans failed')
      exact .inr ⟨parents, place, span, accepted, stacked, first, here, rfl⟩
    · cases failed.symm.trans made

theorem ofSpans_round_trip_row :
    ∃ tree, Tree.ofSpans [.terminal 0 1, .unary 0 1 ⟨1, 1⟩] 1 = .ok tree ∧
      tree.spans.Perm [.terminal 0 1, .unary 0 1 ⟨1, 1⟩] ∧ Tree.ofSpans tree.spans 1 = .ok tree := by
  have plain : ∀ span ∈ [Span.terminal 0 1, .unary 0 1 ⟨1, 1⟩], span.Plain := by
    intro span member
    rcases List.mem_pair.mp member with rfl | rfl
    · exact .terminal 0 1
    · exact .unary 0 1 ⟨1, 1⟩
  obtain ⟨made, _, lossless⟩ := ofSpans_round_trip _ 1 plain
  have accepted : Parents.ofTree [.terminal 0 1, .unary 0 1 ⟨1, 1⟩] 1 = .ok [some 1, none] := by
    decide
  obtain ⟨tree, ok⟩ := made.mpr ⟨_, accepted, stacked?_eq_none.mp (by decide)⟩
  exact ⟨tree, ok, (lossless tree ok).perm, (lossless tree ok).again⟩

end Tree

end Constituency
