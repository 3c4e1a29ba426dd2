import Mathlib
import Constituency.Derivation.Parse
import Constituency.Proofs.Ancestry
import Constituency.Proofs.Parse

/-!
What an accepted list of spans is: one tree over all words and, apart from it, unary spans that are
each other's parents in a circle. The spans are the nodes of the tree where there is no circle.
-/

namespace Constituency.Parents

open Relation

/-- A parse hangs at a place: the span there is its top, and its nodes are at some places, listed
with parents first and left before right. -/
inductive Hangs (spans : List Span) (parents : Parents) : Nat → Parse → List Nat → Prop
  | word {place : Nat} {span : Span} {label : Label} (here : spans[place]? = some span)
    (rule : span.rule = .terminal label) (stops : span.stop = span.start + 1)
    (below : parents.childrenOf place = []) :
    Hangs spans parents place (.word label span.start) [place]
  | unary {place child : Nat} {span : Span} {rule : UnaryRule} {parse : Parse} {places : List Nat}
    (here : spans[place]? = some span) (rule_eq : span.rule = .unary rule)
    (below : parents.childrenOf place = [child])
    (slot : parse.item = ⟨span.start, span.stop, rule.child⟩)
    (hangs : Hangs spans parents child parse places) :
    Hangs spans parents place (.unary rule.parent parse) (place :: places)
  | binary {place first second : Nat} {span : Span} {rule : BinaryRule} {left right : Parse}
    {places others : List Nat} (here : spans[place]? = some span) (rule_eq : span.rule = .binary rule)
    (below : (parents.childrenOf place).Perm [first, second])
    (slot : left.item = ⟨span.start, span.split, rule.left⟩)
    (slot' : right.item = ⟨span.split, span.stop, rule.right⟩)
    (onLeft : Hangs spans parents first left places)
    (onRight : Hangs spans parents second right others) :
    Hangs spans parents place (.binary rule.parent left right) (place :: (places ++ others))

variable {spans : List Span} {parents : Parents}

namespace Hangs

theorem item_eq {place : Nat} {parse : Parse} {places : List Nat}
    (hangs : Hangs spans parents place parse places) {span : Span}
    (there : spans[place]? = some span) : parse.item = span.item := by
  cases hangs with
  | word here rule stops below =>
    obtain rfl := Option.some.inj (here.symm.trans there)
    simp [Parse.item, Parse.start, Parse.stop, Parse.label, Span.item, Span.label, rule, stops,
      Rule.parent]
  | unary here rule below slot hangs =>
    obtain rfl := Option.some.inj (here.symm.trans there)
    obtain ⟨starts, stops, _⟩ := Item.mk.inj slot
    simp [Parse.item, Parse.start, Parse.stop, Parse.label, Span.item, Span.label, rule, starts,
      stops, Rule.parent]
  | binary here rule below slot slot' onLeft onRight =>
    obtain rfl := Option.some.inj (here.symm.trans there)
    obtain ⟨starts, _, _⟩ := Item.mk.inj slot
    obtain ⟨_, stops, _⟩ := Item.mk.inj slot'
    simp [Parse.item, Parse.start, Parse.stop, Parse.label, Span.item, Span.label, rule, starts,
      stops, Rule.parent]

theorem contiguous {place : Nat} {parse : Parse} {places : List Nat}
    (hangs : Hangs spans parents place parse places) : parse.Contiguous := by
  induction hangs with
  | word => trivial
  | unary _ _ _ _ _ ih => exact ih
  | binary _ _ _ slot slot' _ _ ihLeft ihRight =>
    exact ⟨(congrArg Item.stop slot).trans (congrArg Item.start slot').symm, ihLeft, ihRight⟩

theorem place_mem {place : Nat} {parse : Parse} {places : List Nat}
    (hangs : Hangs spans parents place parse places) : place ∈ places := by
  cases hangs <;> exact List.mem_cons_self

theorem exists_span {top : Nat} {parse : Parse} {places : List Nat}
    (hangs : Hangs spans parents top parse places) : ∃ span, spans[top]? = some span := by
  cases hangs <;> exact ⟨_, ‹_›⟩

theorem lt_length {top : Nat} {parse : Parse} {places : List Nat}
    (hangs : Hangs spans parents top parse places) {place : Nat} (member : place ∈ places) :
    place < spans.length := by
  induction hangs with
  | word here =>
    exact List.mem_singleton.mp member ▸ (List.getElem?_eq_some_iff.mp here).1
  | unary here _ _ _ _ ih =>
    rcases List.mem_cons.mp member with rfl | inside
    · exact (List.getElem?_eq_some_iff.mp here).1
    · exact ih inside
  | binary here _ _ _ _ _ _ ihLeft ihRight =>
    rcases List.mem_cons.mp member with rfl | inside
    · exact (List.getElem?_eq_some_iff.mp here).1
    · exact (List.mem_append.mp inside).elim ihLeft ihRight

theorem mem_of_link {top : Nat} {parse : Parse} {places : List Nat}
    (hangs : Hangs spans parents top parse places) {child place : Nat} (member : place ∈ places)
    (link : parents.Link child place) : child ∈ places := by
  have listed := mem_childrenOf.mpr link
  induction hangs with
  | word _ _ _ below =>
    rw [List.mem_singleton.mp member, below] at listed
    cases listed
  | unary _ _ below _ hangs ih =>
    refine List.mem_cons_of_mem _ ?_
    rcases List.mem_cons.mp member with rfl | inside
    · rw [below, List.mem_singleton] at listed
      exact listed ▸ hangs.place_mem
    · exact ih inside
  | binary _ _ below _ _ onLeft onRight ihLeft ihRight =>
    refine List.mem_cons_of_mem _ (List.mem_append.mpr ?_)
    rcases List.mem_cons.mp member with rfl | inside
    · have either := below.mem_iff.mp listed
      rw [List.mem_cons, List.mem_singleton] at either
      rcases either with rfl | rfl
      · exact .inl onLeft.place_mem
      · exact .inr onRight.place_mem
    · exact (List.mem_append.mp inside).imp ihLeft ihRight

theorem link_of_child {place : Nat} {children : List Nat} {child : Nat}
    (below : (parents.childrenOf place).Perm children) (member : child ∈ children) :
    parents.Link child place :=
  mem_childrenOf.mp (below.mem_iff.mpr member)

theorem reaches {top : Nat} {parse : Parse} {places : List Nat}
    (hangs : Hangs spans parents top parse places) {place : Nat} (member : place ∈ places) :
    ReflTransGen parents.Link place top := by
  induction hangs with
  | word =>
    obtain rfl := List.mem_singleton.mp member
    exact .refl
  | unary _ _ below _ _ ih =>
    rcases List.mem_cons.mp member with rfl | inside
    · exact .refl
    · exact (ih inside).tail (link_of_child (.of_eq below) List.mem_cons_self)
  | binary _ _ below _ _ _ _ ihLeft ihRight =>
    rcases List.mem_cons.mp member with rfl | inside
    · exact .refl
    · rcases List.mem_append.mp inside with inLeft | inRight
      · exact (ihLeft inLeft).tail (link_of_child below (by simp))
      · exact (ihRight inRight).tail (link_of_child below (by simp))

theorem mem_iff_reaches {top : Nat} {parse : Parse} {places : List Nat}
    (hangs : Hangs spans parents top parse places) {place : Nat} :
    place ∈ places ↔ ReflTransGen parents.Link place top := by
  refine ⟨hangs.reaches, fun reaches => ?_⟩
  induction reaches using ReflTransGen.head_induction_on with
  | refl => exact hangs.place_mem
  | head link _ ih => exact hangs.mem_of_link ih link

theorem not_reaches_child {place child : Nat} (straight : ¬ parents.Loops place)
    (link : parents.Link child place) : ¬ ReflTransGen parents.Link place child :=
  fun back => straight (.tail' back link)

theorem nodup {top : Nat} {parse : Parse} {places : List Nat}
    (hangs : Hangs spans parents top parse places) (straight : ¬ parents.Loops top) :
    places.Nodup := by
  induction hangs with
  | word => exact List.nodup_singleton _
  | unary _ _ below _ hangs ih =>
    have link := link_of_child (.of_eq below) List.mem_cons_self
    exact List.nodup_cons.mpr
      ⟨fun member => not_reaches_child straight link (hangs.reaches member),
        ih fun loops => straight (loops.parent link)⟩
  | @binary place first second _ _ _ _ _ _ _ _ below _ _ onLeft onRight ihLeft ihRight =>
    have link : parents.Link first place := link_of_child below (by simp)
    have link' : parents.Link second place := link_of_child below (by simp)
    have differ : first ≠ second := by
      have distinct := below.nodup_iff.mp (childrenOf_nodup parents place)
      simpa using distinct
    -- A place below both children would put one of them below the other, hence below their parent.
    have apart {lower upper : Nat} (differ : lower ≠ upper) (lowerLink : parents.Link lower place)
        (upperLink : parents.Link upper place) (reaches : ReflTransGen parents.Link lower upper) :
        False := by
      rcases ReflTransGen.cases_head reaches with same | ⟨next, step, rest⟩
      · exact differ same
      · obtain rfl := link_unique parents step lowerLink
        exact not_reaches_child straight upperLink rest
    refine List.nodup_cons.mpr ⟨fun member => ?_, List.nodup_append.mpr
      ⟨ihLeft fun loops => straight (loops.parent link),
        ihRight fun loops => straight (loops.parent link'), ?_⟩⟩
    · rcases List.mem_append.mp member with inLeft | inRight
      · exact not_reaches_child straight link (onLeft.reaches inLeft)
      · exact not_reaches_child straight link' (onRight.reaches inRight)
    · intro one inLeft other inRight same
      subst same
      rcases ReflTransGen.total_of_right_unique (link_unique parents) (onLeft.reaches inLeft)
        (onRight.reaches inRight) with forth | back
      · exact apart differ link link' forth
      · exact apart (Ne.symm differ) link' link back

end Hangs

theorem Fits.exists_hangs (fits : Fits spans parents) {place : Nat} (inside : place < spans.length)
    (straight : ¬ parents.Loops place) : ∃ parse places, Hangs spans parents place parse places := by
  have descend := (wellFounded_straight parents spans.length).1
  suffices general : ∀ place : { place // place < spans.length ∧ ¬ parents.Loops place },
      ∃ parse places, Hangs spans parents place.1 parse places from
    general ⟨place, inside, straight⟩
  -- A place that does not lead back to itself is reached from below.
  intro place
  induction place using descend.induction with
  | h place ih =>
    obtain ⟨place, inside, straight⟩ := place
    have below {child : Nat} (link : parents.Link child place) :
        ∃ parse places, Hangs spans parents child parse places :=
      ih ⟨child, fits.lt_length link, fun loops => straight (loops.parent link)⟩ (.single link)
    have here := List.getElem?_eq_getElem inside
    generalize spans[place] = span at here
    cases rule : span.rule with
    | terminal label =>
      have proper := fits.proper span (List.mem_of_getElem? here)
      exact ⟨_, _, .word here rule (by simpa [Span.isProper, rule] using proper)
        (fits.childrenOf_eq_nil here (by rw [Span.slots, rule]))⟩
    | unary rule' =>
      have one : span.slots = [⟨span.start, span.stop, rule'.child⟩] := by rw [Span.slots, rule]
      obtain ⟨child, under, children, there, item⟩ := fits.childrenOf_eq_singleton here one
      obtain ⟨parse, places, hangs⟩ :=
        below (Hangs.link_of_child (.of_eq children) List.mem_cons_self)
      exact ⟨_, _, .unary here rule children ((hangs.item_eq there).trans item) hangs⟩
    | binary rule' =>
      have two : span.slots = [⟨span.start, span.split, rule'.left⟩,
          ⟨span.split, span.stop, rule'.right⟩] := by
        rw [Span.slots, rule]
      obtain ⟨first, second, under, under', children, there, item, there', item'⟩ :=
        fits.childrenOf_perm_pair here two
      have link : parents.Link first place := Hangs.link_of_child children (by simp)
      have link' : parents.Link second place := Hangs.link_of_child children (by simp)
      obtain ⟨left, places, onLeft⟩ := below link
      obtain ⟨right, others, onRight⟩ := below link'
      exact ⟨_, _, .binary here rule children ((onLeft.item_eq there).trans item)
        ((onRight.item_eq there').trans item') onLeft onRight⟩

/-- The span at a place puts a label over a word. -/
def Covers (spans : List Span) (place position : Nat) : Prop :=
  ∃ span, spans[place]? = some span ∧ span.isTerminal = true ∧ span.start ≤ position ∧
    position < span.stop

theorem Covers.within (fits : Fits spans parents) {top : Nat} {parse : Parse} {places : List Nat}
    (hangs : Hangs spans parents top parse places) {place position : Nat} (member : place ∈ places)
    (covers : Covers spans place position) : parse.start ≤ position ∧ position < parse.stop := by
  obtain ⟨span, here, _, first, last⟩ := covers
  obtain ⟨above, there⟩ := hangs.exists_span
  have bounds := fits.within_of_reaches (hangs.reaches member) here there
  obtain ⟨starts, stops, _⟩ := Item.mk.inj (hangs.item_eq there)
  change parse.start = above.start at starts
  change parse.stop = above.stop at stops
  omega

theorem Hangs.existsUnique_covers (fits : Fits spans parents) {top : Nat} {parse : Parse}
    {places : List Nat} (hangs : Hangs spans parents top parse places) (position : Nat)
    (starts : parse.start ≤ position) (stops : position < parse.stop) :
    ∃! place, place ∈ places ∧ Covers spans place position := by
  induction hangs with
  | @word place span label here rule stop below =>
    refine ⟨place, ⟨List.mem_singleton_self _, span, here, ?_, starts, stop ▸ stops⟩,
      fun other found => List.mem_singleton.mp found.1⟩
    simp [Span.isTerminal, rule, Rule.shape]
  | @unary place child span rule parse places here rule_eq below slot hangs ih =>
    obtain ⟨leaf, ⟨member, covers⟩, unique⟩ := ih starts stops
    refine ⟨leaf, ⟨List.mem_cons_of_mem _ member, covers⟩, fun other found => ?_⟩
    rcases List.mem_cons.mp found.1 with rfl | inside
    · obtain ⟨_, there, terminal, _⟩ := found.2
      obtain rfl := Option.some.inj (here.symm.trans there)
      simp [Span.isTerminal, rule_eq, Rule.shape] at terminal
    · exact unique other ⟨inside, found.2⟩
  | @binary place first second span rule left right places others here rule_eq below slot slot'
      onLeft onRight ihLeft ihRight =>
    have meet : left.stop = right.start :=
      (congrArg Item.stop slot).trans (congrArg Item.start slot').symm
    have only {other : Nat} (member : other ∈ place :: (places ++ others))
        (covers : Covers spans other position) : other ∈ places ∧ position < left.stop ∨
          other ∈ others ∧ right.start ≤ position := by
      rcases List.mem_cons.mp member with rfl | inside
      · obtain ⟨_, there, terminal, _⟩ := covers
        obtain rfl := Option.some.inj (here.symm.trans there)
        simp [Span.isTerminal, rule_eq, Rule.shape] at terminal
      · exact (List.mem_append.mp inside).imp
          (fun inLeft => ⟨inLeft, (covers.within fits onLeft inLeft).2⟩)
          (fun inRight => ⟨inRight, (covers.within fits onRight inRight).1⟩)
    by_cases early : position < left.stop
    · obtain ⟨leaf, ⟨member, covers⟩, unique⟩ := ihLeft starts early
      refine ⟨leaf, ⟨by simp [member], covers⟩, fun other found => ?_⟩
      rcases only found.1 found.2 with ⟨inLeft, _⟩ | ⟨_, late⟩
      · exact unique other ⟨inLeft, found.2⟩
      · omega
    · obtain ⟨leaf, ⟨member, covers⟩, unique⟩ := ihRight (by omega) stops
      refine ⟨leaf, ⟨by simp [member], covers⟩, fun other found => ?_⟩
      rcases only found.1 found.2 with ⟨_, early⟩ | ⟨inRight, _⟩
      · omega
      · exact unique other ⟨inRight, found.2⟩

theorem mem_roots {place : Nat} : place ∈ parents.roots ↔ parents[place]? = some none := by
  simp [roots, List.mem_zipIdx_iff_getElem?]

theorem of_ofTree {length : Nat} (ok : ofTree spans length = .ok parents) :
    Fits spans parents ∧ ∃ root span, parents.roots = [root] ∧ spans[root]? = some span ∧
      span.start = 0 ∧ span.stop = length := by
  unfold ofTree at ok
  split at ok
  · cases ok
  obtain ⟨parents', accepted, ok⟩ := Fold.exists_of_bind_ok ok
  have fits := fits_of_ofSpans accepted
  have known : ∀ root ∈ parents'.roots, (spans[root]?).isSome = true := by
    intro root member
    have inside := (List.getElem?_eq_some_iff.mp (mem_roots.mp member)).1
    rw [List.getElem?_eq_getElem (fits.length_eq ▸ inside)]
    rfl
  split at ok
  · cases ok
  · rename_i span single
    obtain ⟨ordered, perm, values⟩ := exists_perm_map known (.of_eq single)
    obtain ⟨root, rfl, there⟩ := List.map_eq_singleton_iff.mp values
    split at ok
    · rename_i whole
      obtain rfl := Except.ok.inj ok
      exact ⟨fits, root, span, List.perm_singleton.mp perm.symm, there, whole.1, whole.2⟩
    · cases ok
  · cases ok

theorem exists_hangs_of_ofTree {length : Nat} (ok : ofTree spans length = .ok parents) :
    ∃ root parse places, parents.roots = [root] ∧ ¬ parents.Loops root ∧
      Hangs spans parents root parse places ∧ parse.start = 0 ∧ parse.stop = length := by
  obtain ⟨fits, root, span, only, there, starts, stops⟩ := of_ofTree ok
  have straight := not_loops_of_root (mem_roots.mp (only ▸ List.mem_singleton_self root))
  obtain ⟨parse, places, hangs⟩ :=
    fits.exists_hangs (List.getElem?_eq_some_iff.mp there).1 straight
  obtain ⟨starts', stops', _⟩ := Item.mk.inj (hangs.item_eq there)
  exact ⟨root, parse, places, only, straight, hangs, starts'.trans starts, stops'.trans stops⟩

/-- Accepted spans are one tree over all words, with each word under one of its leaves, and beside
it unary spans that lead back to themselves; without such spans the tree has them all. -/
theorem tree_or_loops {length : Nat} (ok : ofTree spans length = .ok parents) :
    ∃ root parse places,
      parents.roots = [root] ∧ Hangs spans parents root parse places ∧ places.Nodup ∧
      parse.Contiguous ∧ parse.start = 0 ∧ parse.stop = length ∧
      (∀ place < spans.length,
        place ∈ places ∧ ReflTransGen parents.Link place root ∨
        place ∉ places ∧ parents.Loops place ∧
          ∃ span, spans[place]? = some span ∧ span.isUnary = true) ∧
      ((∀ place, ¬ parents.Loops place) → places.Perm (List.range spans.length)) ∧
      ∀ position < length, ∃! place, Covers spans place position := by
  obtain ⟨fits, root, top, single, there, starts, stops⟩ := of_ofTree ok
  have only {place : Nat} (free : parents[place]? = some none) : place = root := by
    have member := mem_roots.mpr free
    rwa [single, List.mem_singleton] at member
  have free : parents[root]? = some none := mem_roots.mp (single ▸ List.mem_singleton_self root)
  have straight := not_loops_of_root free
  have inside : root < spans.length := (List.getElem?_eq_some_iff.mp there).1
  obtain ⟨parse, places, hangs⟩ := fits.exists_hangs inside straight
  obtain ⟨starts', stops', _⟩ := Item.mk.inj (hangs.item_eq there)
  have either {place : Nat} (inside : place < spans.length) :
      place ∈ places ∨ parents.Loops place := by
    by_cases loops : parents.Loops place
    · exact .inr loops
    · obtain ⟨last, ends, reaches⟩ := fits.reaches_root inside loops
      exact .inl (hangs.mem_iff_reaches.mpr (only ends ▸ reaches))
  have apart {place : Nat} (member : place ∈ places) : ¬ parents.Loops place := by
    intro loops
    have reaches := hangs.reaches member
    induction reaches using ReflTransGen.head_induction_on with
    | refl => exact straight loops
    | head link reaches ih =>
      exact ih (hangs.mem_iff_reaches.mpr reaches) (loops.parent link)
  refine ⟨root, parse, places, single, hangs, hangs.nodup straight, hangs.contiguous,
    starts'.trans starts, stops'.trans stops, fun place inside => ?_, fun none => ?_,
    fun position bound => ?_⟩
  · by_cases member : place ∈ places
    · exact .inl ⟨member, hangs.reaches member⟩
    · have loops := (either inside).resolve_left member
      have here := List.getElem?_eq_getElem inside
      exact .inr ⟨member, loops, _, here, fits.isUnary_of_loops loops here⟩
  · refine (List.perm_ext_iff_of_nodup (hangs.nodup straight) List.nodup_range).mpr
      fun place => ?_
    rw [List.mem_range]
    exact ⟨hangs.lt_length, fun inside => (either inside).resolve_right (none place)⟩
  · obtain ⟨leaf, ⟨_, covers⟩, unique⟩ := hangs.existsUnique_covers fits
      position (by omega) (by omega)
    refine ⟨leaf, covers, fun other found => unique other ⟨?_, found⟩⟩
    obtain ⟨span, here, terminal, _⟩ := found
    refine (either (List.getElem?_eq_some_iff.mp here).1).resolve_right fun loops => ?_
    have unary := fits.isUnary_of_loops loops here
    simp only [Span.isTerminal, Span.isUnary, decide_eq_true_eq] at terminal unary
    cases terminal.symm.trans unary

section Circle

/-- A word, and beside it two unary spans that are each other's parents. -/
def circleBesideWord : List Span :=
  [.unary 0 1 ⟨0, 1⟩, .unary 0 1 ⟨1, 0⟩, .terminal 0 2]

theorem circleBesideWord_accepted :
    ofTree circleBesideWord 1 = .ok [some 1, some 0, none] := by decide

/-- Not every place of accepted spans leads to the root. -/
theorem circle_accepted : ¬ ∀ (spans : List Span) (length : Nat) (parents : Parents),
    ofTree spans length = .ok parents → ∀ place < spans.length,
      ∃ root, parents.roots = [root] ∧ ReflTransGen parents.Link place root := by
  intro trees
  obtain ⟨root, single, reaches⟩ := trees _ _ _ circleBesideWord_accepted 0 (by decide)
  have last : root = 2 := by simpa using (single.symm.trans (rfl : _ = [2]))
  subst last
  have circle : ∀ place, ReflTransGen (Link [some 1, some 0, none]) 0 place → place < 2 := by
    intro place reaches
    induction reaches with
    | refl => decide
    | @tail middle next _ link ih =>
      have either : middle = 0 ∨ middle = 1 := by omega
      rcases either with rfl | rfl
      · obtain rfl : 1 = next := by simpa [Link] using link
        decide
      · obtain rfl : 0 = next := by simpa [Link] using link
        decide
  exact absurd (circle 2 reaches) (by decide)

theorem tree_or_loops_circle : ∃ root parse places,
    Parents.roots [some 1, some 0, none] = [root] ∧
      Hangs circleBesideWord [some 1, some 0, none] root parse places ∧ parse.stop = 1 := by
  obtain ⟨root, parse, places, single, hangs, _, _, _, stop, _⟩ :=
    tree_or_loops circleBesideWord_accepted
  exact ⟨root, parse, places, single, hangs, stop⟩

end Circle

end Constituency.Parents
