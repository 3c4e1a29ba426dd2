import Mathlib
import Constituency.Proofs.Accepted
import Constituency.Proofs.TreeParse

/-!
Trees made from accepted spans. The tree that is made has the parse that hangs at the root, and
every flat parse is made into its tree, in whatever order its spans are listed.
-/

namespace Constituency

/-- A span of some rule over an interval, with a split of its own only if the rule is binary. -/
inductive Span.Plain : Span → Prop
  | terminal (position : Nat) (label : Label) : Plain (.terminal position label)
  | unary (start stop : Nat) (rule : UnaryRule) : Plain (.unary start stop rule)
  | binary (start split stop : Nat) (rule : BinaryRule) : Plain (.binary start split stop rule)

theorem Span.Plain.split_eq {span : Span} (plain : span.Plain) (narrow : span.isBinary = false) :
    span.split = span.start := by
  cases plain with
  | terminal => rfl
  | unary => rfl
  | binary => cases narrow

theorem Parse.plain {parse : Parse} : ∀ span ∈ parse.spans, span.Plain := by
  induction parse with
  | word label position =>
    intro span member
    rw [List.mem_singleton.mp member]
    exact .terminal position label
  | unary label child ih =>
    intro span member
    rcases List.mem_cons.mp member with rfl | below
    · exact .unary _ _ _
    · exact ih span below
  | binary label left right ihLeft ihRight =>
    intro span member
    rcases List.mem_cons.mp member with rfl | below
    · exact .binary _ _ _ _
    · exact (List.mem_append.mp below).elim (ihLeft span) (ihRight span)

namespace Parents.Hangs

variable {spans : List Span} {parents : Parents} {place : Nat} {parse : Parse} {places : List Nat}

theorem isUnary_eq (hangs : Hangs spans parents place parse places) {span : Span}
    (here : spans[place]? = some span) : parse.isUnary = span.isUnary := by
  cases hangs with
  | word there rule | unary there rule | binary there rule =>
    obtain rfl := Option.some.inj (here.symm.trans there)
    simp [Parse.isUnary, Span.isUnary, rule, Rule.shape]

theorem top_eq (hangs : Hangs spans parents place parse places) {span : Span}
    (here : spans[place]? = some span) (plain : span.Plain) : parse.top = span := by
  obtain ⟨start, stop, split, rule⟩ := span
  cases hangs with
  | word there rule_eq stops below =>
    obtain rfl := Option.some.inj (here.symm.trans there)
    dsimp only at rule_eq stops
    subst rule_eq stops
    have narrow := plain.split_eq rfl
    dsimp only at narrow
    rw [narrow]
    rfl
  | unary there rule_eq below slot hangs =>
    obtain rfl := Option.some.inj (here.symm.trans there)
    obtain ⟨starts, stops, labels⟩ := Item.mk.inj slot
    dsimp only at rule_eq starts stops
    subst rule_eq starts stops
    have narrow := plain.split_eq rfl
    dsimp only at narrow
    rw [Parse.top, labels, narrow]
    rfl
  | binary there rule_eq below slot slot' onLeft onRight =>
    obtain rfl := Option.some.inj (here.symm.trans there)
    obtain ⟨starts, splits, labels⟩ := Item.mk.inj slot
    obtain ⟨_, stops, labels'⟩ := Item.mk.inj slot'
    dsimp only at rule_eq starts splits stops
    subst rule_eq starts splits stops
    rw [Parse.top, labels, labels']
    rfl

theorem spans_eq (hangs : Hangs spans parents place parse places)
    (plain : ∀ span ∈ spans, span.Plain) : parse.spans = places.filterMap (spans[·]?) := by
  have top {place : Nat} {parse : Parse} {places : List Nat}
      (hangs : Hangs spans parents place parse places) : spans[place]? = some parse.top := by
    obtain ⟨span, here⟩ := hangs.exists_span
    rw [hangs.top_eq here (plain span (List.mem_of_getElem? here))]
    exact here
  induction hangs with
  | word here rule stops below =>
    rw [List.filterMap_cons_some (top (.word here rule stops below))]
    rfl
  | unary here rule_eq below slot hangs ih =>
    rw [List.filterMap_cons_some (top (.unary here rule_eq below slot hangs)), ← ih]
    rfl
  | binary here rule_eq below slot slot' onLeft onRight ihLeft ihRight =>
    rw [List.filterMap_cons_some (top (.binary here rule_eq below slot slot' onLeft onRight)),
      List.filterMap_append, ← ihLeft, ← ihRight]
    rfl

theorem spans_subset (hangs : Hangs spans parents place parse places)
    (plain : ∀ span ∈ spans, span.Plain) : parse.spans ⊆ spans := by
  intro span member
  rw [hangs.spans_eq plain] at member
  obtain ⟨place, _, here⟩ := List.mem_filterMap.mp member
  exact List.mem_of_getElem? here

theorem length_le (hangs : Hangs spans parents place parse places)
    (straight : ¬ parents.Loops place) : places.length ≤ spans.length := by
  have inside : places ⊆ List.range spans.length :=
    fun place member => List.mem_range.mpr (hangs.lt_length member)
  simpa using (List.subperm_of_subset (hangs.nodup straight) inside).length_le

theorem eq_of_perm {other : Parse} {root : Nat} (only : (bySlot spans).roots = [root])
    (hangs : Hangs spans (bySlot spans) root other places) (contiguous : parse.Contiguous)
    (distinct : (parse.spans.map Span.item).Nodup) (perm : spans.Perm parse.spans) :
    other = parse := by
  have items : (spans.map Span.item).Nodup := (perm.map Span.item).nodup_iff.mpr distinct
  have inside := hangs.spans_subset fun span member => Parse.plain span (perm.mem_iff.mp member)
  refine Parse.Contiguous.eq_of_item_eq items hangs.contiguous contiguous inside
    (fun _ member => perm.mem_iff.mpr member) ?_
  have tops := roots_bySlot spans
  rw [only, Parse.filter_root_of_perm contiguous distinct perm] at tops
  obtain ⟨span, there⟩ := hangs.exists_span
  simp only [List.filterMap_cons, there, List.filterMap_nil, List.cons.injEq, and_true] at tops
  rw [hangs.item_eq there, tops, Parse.top_item]

theorem perm_range (fits : Fits spans parents) (straight : ∀ place, ¬ parents.Loops place)
    (only : parents.roots = [place]) (hangs : Hangs spans parents place parse places) :
    places.Perm (List.range spans.length) := by
  refine (List.perm_ext_iff_of_nodup (hangs.nodup (straight place)) List.nodup_range).mpr
    fun other => ?_
  rw [List.mem_range]
  refine ⟨hangs.lt_length, fun inside => hangs.mem_iff_reaches.mpr ?_⟩
  obtain ⟨last, free, reaches⟩ := fits.reaches_root inside (straight other)
  have root := mem_roots.mpr free
  rw [only, List.mem_singleton] at root
  exact root ▸ reaches

end Parents.Hangs

namespace Tree

open Parents

variable {spans : List Span} {parents : Parents}

theorem stacked?_eq_none_iff : stacked? spans parents = none ↔
    ∀ place above, spans[place]? = some above → above.isUnary = true →
      ∀ child span, parents.Link child place → spans[child]? = some span →
        span.isUnary = false := by
  simp only [stacked?, Option.map_eq_none_iff, List.find?_eq_none, Prod.forall,
    List.mem_zipIdx_iff_getElem?, Bool.and_eq_true, List.any_eq_true, mem_childrenOf, not_and,
    not_exists, Bool.not_eq_true]
  constructor
  · intro none place above there unary child span link here
    have single := none above place there unary child link
    rwa [here] at single
  · intro single above place there unary child link
    cases here : spans[child]? with
    | none => rfl
    | some span => exact single place above there unary child span link here

theorem flat_of_hangs (single : stacked? spans parents = none) {place : Nat} {parse : Parse}
    {places : List Nat} (hangs : Hangs spans parents place parse places) : parse.Flat := by
  induction hangs with
  | word => trivial
  | unary here rule below slot hangs ih =>
    obtain ⟨span, there⟩ := hangs.exists_span
    refine ⟨?_, ih⟩
    rw [hangs.isUnary_eq there]
    exact stacked?_eq_none_iff.mp single _ _ here (by simp [Span.isUnary, rule, Rule.shape]) _ span
      (Hangs.link_of_child (.of_eq below) List.mem_cons_self) there
  | binary _ _ _ _ _ _ _ ihLeft ihRight => exact ⟨ihLeft, ihRight⟩

theorem mergeSort_pair (starts : Nat → Nat) {children : List Nat} {first second : Nat}
    (perm : children.Perm [first, second]) (less : starts first < starts second) :
    children.mergeSort (fun a b => starts a ≤ starts b) = [first, second] := by
  have ordered : (children.mergeSort fun a b => starts a ≤ starts b).Pairwise
      fun a b => starts a ≤ starts b := by
    simpa using @List.pairwise_mergeSort _ (fun a b => decide (starts a ≤ starts b))
      (by simp; omega) (by simp; omega) children
  rcases List.perm_pair.mp ((List.mergeSort_perm _ _).trans perm) with same | swapped
  · exact same
  · rw [swapped] at ordered
    have back : starts second ≤ starts first := by simpa using ordered
    omega

theorem mergeSort_children {place first second : Nat} {left right : Parse} {places others : List Nat}
    (below : (parents.childrenOf place).Perm [first, second])
    (onLeft : Hangs spans parents first left places)
    (onRight : Hangs spans parents second right others) (meet : left.stop = right.start) :
    (parents.childrenOf place).mergeSort (fun a b =>
      (spans[a]?.map Span.start).getD 0 ≤ (spans[b]?.map Span.start).getD 0) = [first, second] := by
  obtain ⟨under, there⟩ := onLeft.exists_span
  obtain ⟨under', there'⟩ := onRight.exists_span
  have starts : left.start = under.start := congrArg Item.start (onLeft.item_eq there)
  have starts' : right.start = under'.start := congrArg Item.start (onRight.item_eq there')
  have ordered := onLeft.contiguous.start_lt_stop
  refine mergeSort_pair (fun child => (spans[child]?.map Span.start).getD 0) below ?_
  rw [there, there', Option.map_some, Option.map_some, Option.getD_some, Option.getD_some]
  omega

/-- The tree that grows at a place has the parse that hangs there. -/
theorem exists_grow {place : Nat} {parse : Parse} {places : List Nat}
    (hangs : Hangs spans parents place parse places) (flat : parse.Flat) {depth : Nat}
    (enough : places.length ≤ depth) {top : Option Label}
    (bare : top = none ∨ parse.isUnary = false) :
    ∃ tree, grow spans parents depth top place = .ok tree ∧ tree.parse = parse.capped top := by
  induction hangs generalizing depth top with
  | @word place span label here rule stop below =>
    cases depth with
    | zero => simp at enough
    | succ depth =>
      refine ⟨leaf ⟨label, top⟩ span.start, ?_, rfl⟩
      simp only [grow, here, rule]
      rfl
  | @unary place child span rule parse places here rule_eq below slot hangs ih =>
    -- The label goes down to the node below, which has no unary rule of its own.
    obtain rfl := bare.resolve_right (by simp [Parse.isUnary])
    cases depth with
    | zero => simp at enough
    | succ depth =>
      obtain ⟨tree, grown, same⟩ : ∃ tree, grow spans parents depth (some rule.parent) child =
          .ok tree ∧ tree.parse = parse.capped (some rule.parent) :=
        ih flat.2 (Nat.le_of_succ_le_succ enough) (.inr flat.1)
      refine ⟨tree, ?_, same⟩
      simp only [grow, here, rule_eq, below, List.mergeSort_singleton]
      exact grown
  | @binary place first second span rule left right places others here rule_eq below slot slot'
      onLeft onRight ihLeft ihRight =>
    cases depth with
    | zero => simp at enough
    | succ depth =>
      simp only [List.length_cons, List.length_append] at enough
      have room : places.length ≤ depth := by omega
      have room' : others.length ≤ depth := by omega
      obtain ⟨tree, grown, same⟩ := ihLeft flat.1 room (.inl rfl)
      obtain ⟨tree', grown', same'⟩ := ihRight flat.2 room' (.inl rfl)
      have meet := (congrArg Item.stop slot).trans (congrArg Item.start slot').symm
      have children := mergeSort_children below onLeft onRight meet
      refine ⟨branch ⟨rule.parent, top⟩ tree tree', ?_, by rw [Tree.parse, same, same']; rfl⟩
      simp only [grow, here, rule_eq, children, grown, grown']
      rfl

theorem exists_of_accepted {length : Nat} (accepted : Parents.ofTree spans length = .ok parents)
    (single : stacked? spans parents = none) :
    ∃ tree root places, Tree.ofSpans spans length = .ok tree ∧ parents.roots = [root] ∧
      Hangs spans parents root tree.parse places ∧ tree.start = 0 ∧ tree.stop = length := by
  obtain ⟨root, parse, places, only, straight, hangs, starts, stops⟩ :=
    exists_hangs_of_ofTree accepted
  obtain ⟨tree, grown, rfl⟩ := exists_grow hangs (flat_of_hangs single hangs)
    (hangs.length_le straight) (.inl rfl)
  refine ⟨tree, root, places, ?_, only, hangs, tree.start_parse.symm.trans starts,
    tree.stop_parse.symm.trans stops⟩
  simp only [Tree.ofSpans, accepted, single, root?, only, bind, Except.bind]
  exact grown

theorem not_loops_of_single (fits : Fits spans parents) (single : stacked? spans parents = none)
    (place : Nat) : ¬ parents.Loops place := by
  intro loops
  obtain ⟨above, link, _⟩ := Relation.TransGen.head'_iff.mp loops
  obtain ⟨span, upper, here, there⟩ := fits.exists_span link
  have unary := fits.isUnary_of_loops loops here
  have bare := stacked?_eq_none_iff.mp single above upper there
    (fits.isUnary_of_loops (loops.parent link) there) place span link here
  rw [unary] at bare
  cases bare

theorem exists_hangs_of_ofSpans {length : Nat} {tree : Tree}
    (made : Tree.ofSpans spans length = .ok tree) :
    ∃ parents root places, Parents.ofTree spans length = .ok parents ∧
      stacked? spans parents = none ∧ parents.roots = [root] ∧
      Hangs spans parents root tree.parse places ∧ tree.start = 0 ∧ tree.stop = length := by
  obtain ⟨parents, accepted, rest⟩ := Fold.exists_of_bind_ok made
  cases single : stacked? spans parents with
  | some span =>
    rw [single] at rest
    cases rest
  | none =>
    obtain ⟨tree', root, places, made', only, hangs, starts, stops⟩ :=
      exists_of_accepted accepted single
    obtain rfl := Except.ok.inj (made.symm.trans made')
    exact ⟨parents, root, places, accepted, single, only, hangs, starts, stops⟩

theorem of_ofSpans {length : Nat} {tree : Tree} (made : Tree.ofSpans spans length = .ok tree) :
    tree.parse.Contiguous ∧ tree.start = 0 ∧ tree.stop = length := by
  obtain ⟨_, _, _, _, _, _, hangs, starts, stops⟩ := exists_hangs_of_ofSpans made
  exact ⟨hangs.contiguous, starts, stops⟩

theorem filterMap_range (spans : List Span) :
    (List.range spans.length).filterMap (spans[·]?) = spans := by
  have each : (List.range spans.length).map (spans[·]?) = spans.map some := by
    apply List.ext_getElem <;> simp
  have kept := congrArg (List.filterMap id) each
  simpa [List.filterMap_map, Function.comp_def] using kept

theorem perm_of_ofSpans {length : Nat} {tree : Tree} (made : Tree.ofSpans spans length = .ok tree)
    (plain : ∀ span ∈ spans, span.Plain) : spans.Perm tree.parse.spans := by
  obtain ⟨parents, root, places, accepted, single, only, hangs, _⟩ := exists_hangs_of_ofSpans made
  have fits := (of_ofTree accepted).1
  have all := hangs.perm_range fits (not_loops_of_single fits single) only
  rw [hangs.spans_eq plain]
  exact (filterMap_range spans ▸ all.filterMap (spans[·]?)).symm

/-- The spans of a flat parse, in any order, are made into the tree with that parse. -/
theorem exists_ofSpans {parse : Parse} (contiguous : parse.Contiguous) (flat : parse.Flat)
    (distinct : (parse.spans.map Span.item).Nodup) {spans : List Span}
    (perm : spans.Perm parse.spans) {length : Nat} (starts : parse.start = 0)
    (stops : parse.stop = length) :
    ∃ tree, Tree.ofSpans spans length = .ok tree ∧ tree.parse = parse := by
  have accepted := Parse.ofTree_eq contiguous distinct perm starts stops
  have fits := (of_ofTree accepted).1
  have apart := Parse.apart_of_nodup contiguous distinct
  have single : stacked? spans (bySlot spans) = none := by
    refine stacked?_eq_none_iff.mpr fun place above there unary child span link here => ?_
    have slot := fits.item_mem_slots link here there
    have member := perm.mem_iff.mp (List.mem_of_getElem? there)
    by_contra unary'
    obtain ⟨rule, rule_eq⟩ := Span.exists_unary unary
    have waits : span.item = ⟨above.start, above.stop, rule.child⟩ := by
      simpa [Span.slots, rule_eq] using slot
    have same := contiguous.unary_unique flat (perm.mem_iff.mp (List.mem_of_getElem? here)) member
      (by simpa using unary') unary (congrArg Item.start waits) (congrArg Item.stop waits)
    exact apart above member (same ▸ slot)
  obtain ⟨tree, root, places, made, only, hangs, _, _⟩ := exists_of_accepted accepted single
  exact ⟨tree, made, hangs.eq_of_perm only contiguous distinct perm⟩

theorem parents_eq_bySlot {tree : Tree} (contiguous : tree.parse.Contiguous)
    (distinct : (tree.parse.spans.map Span.item).Nodup) :
    tree.parents = bySlot tree.spans := by
  have found := contiguous.ofSpans_spans tree.flat_parse
  rw [Parents.ofSpans_eq (Parse.treelike contiguous distinct)] at found
  rw [parents_eq contiguous, spans_eq contiguous, Except.ok.inj found]

theorem ofTree_spans {tree : Tree} (contiguous : tree.parse.Contiguous)
    (distinct : (tree.parse.spans.map Span.item).Nodup) {length : Nat} (starts : tree.start = 0)
    (stops : tree.stop = length) : Parents.ofTree tree.spans length = .ok tree.parents := by
  rw [parents_eq_bySlot contiguous distinct]
  exact Parse.ofTree_eq contiguous distinct (.of_eq (spans_eq contiguous))
    (tree.start_parse.trans starts) (tree.stop_parse.trans stops)

theorem ofSpans_spans {tree : Tree} (contiguous : tree.parse.Contiguous)
    (distinct : (tree.parse.spans.map Span.item).Nodup) {length : Nat} (starts : tree.start = 0)
    (stops : tree.stop = length) : Tree.ofSpans tree.spans length = .ok tree := by
  obtain ⟨tree', made, same⟩ := exists_ofSpans contiguous tree.flat_parse distinct
    (.of_eq (spans_eq contiguous)) (tree.start_parse.trans starts) (tree.stop_parse.trans stops)
  rw [made, parse_injective same]

end Tree

end Constituency
