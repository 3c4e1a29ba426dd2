import Mathlib
import Constituency.Proofs.Kinship

/-!
Following parents. From every place of accepted spans one comes to a root, or the place leads back
to itself. Only unary spans do the latter, and nothing else hangs from them.
-/

namespace Constituency

theorem Span.exists_unary {span : Span} (unary : span.isUnary = true) :
    ∃ rule, span.rule = .unary rule := by
  obtain ⟨start, stop, split, rule⟩ := span
  cases rule with
  | unary rule => exact ⟨rule, rfl⟩
  | terminal | binary => simp [isUnary, Rule.shape] at unary

namespace Parents

open Relation

/-- The span at a place is a child of the one at another place. -/
def Link (parents : Parents) (child place : Nat) : Prop := parents[child]? = some (some place)

theorem link_unique (parents : Parents) : Relator.RightUnique parents.Link := by
  intro child place other here there
  exact Option.some.inj (Option.some.inj (here.symm.trans there))

/-- A place that leads back to itself along parents. -/
def Loops (parents : Parents) (place : Nat) : Prop := TransGen parents.Link place place

theorem exists_perm_map {β γ : Type} {f : β → Option γ} {xs : List β} {ys : List γ}
    (all : ∀ x ∈ xs, (f x).isSome = true) (perm : (xs.filterMap f).Perm ys) :
    ∃ ordered : List β, ordered.Perm xs ∧ ordered.map f = ys.map some := by
  induction ys generalizing xs with
  | nil =>
    have none : ∀ x ∈ xs, f x = none := List.filterMap_eq_nil_iff.mp (List.perm_nil.mp perm)
    cases xs with
    | nil => exact ⟨[], .refl _, rfl⟩
    | cons x xs => simp [none x (by simp)] at all
  | cons y ys ih =>
    obtain ⟨x, member, value⟩ := List.mem_filterMap.mp (perm.mem_iff.mpr List.mem_cons_self)
    obtain ⟨front, back, rfl⟩ := List.append_of_mem member
    have rest : ((front ++ back).filterMap f).Perm ys := by
      refine List.Perm.cons_inv (a := y) (List.Perm.trans ?_ perm)
      rw [List.filterMap_append, List.filterMap_append, List.filterMap_cons_some value]
      exact List.perm_middle.symm
    obtain ⟨ordered, perm', values⟩ := ih
      (fun other inside => all other (by simp at inside ⊢; tauto)) rest
    exact ⟨x :: ordered, (perm'.cons x).trans List.perm_middle.symm, by simp [value, values]⟩

variable {spans : List Span} {parents : Parents}

theorem Loops.reaches {place parent : Nat} (loops : parents.Loops place)
    (link : parents.Link place parent) : ReflTransGen parents.Link parent place := by
  obtain ⟨next, first, rest⟩ := TransGen.head'_iff.mp loops
  exact link_unique parents link first ▸ rest

theorem Loops.parent {place parent : Nat} (loops : parents.Loops place)
    (link : parents.Link place parent) : parents.Loops parent :=
  .tail' (loops.reaches link) link

theorem not_loops_of_root {root : Nat} (free : parents[root]? = some none) :
    ¬ parents.Loops root := by
  intro loops
  obtain ⟨_, link, _⟩ := TransGen.head'_iff.mp loops
  cases free.symm.trans link

/-- The places that do not lead back to themselves can be taken from below or from above. -/
theorem wellFounded_straight (parents : Parents) (size : Nat) :
    let below (lower upper : { place // place < size ∧ ¬ parents.Loops place }) :=
      TransGen parents.Link lower.1 upper.1
    WellFounded below ∧ WellFounded (Function.swap below) := by
  intro below
  have finite : Finite { place // place < size ∧ ¬ parents.Loops place } :=
    ((Set.finite_lt_nat size).subset fun _ inside => inside.1).to_subtype
  have trans : IsTrans _ below := ⟨fun _ _ _ => .trans⟩
  have irrefl : Std.Irrefl below := ⟨fun place => place.2.2⟩
  exact ⟨Finite.wellFounded_of_trans_of_irrefl _, Finite.wellFounded_of_trans_of_irrefl _⟩

namespace Fits

variable (fits : Fits spans parents)
include fits

theorem lt_length {child place : Nat} (link : parents.Link child place) : child < spans.length :=
  fits.length_eq ▸ (List.getElem?_eq_some_iff.mp link).1

theorem item_mem_slots {child place : Nat} {span above : Span} (link : parents.Link child place)
    (here : spans[child]? = some span) (there : spans[place]? = some above) :
    span.item ∈ above.slots :=
  (fits.children place above there).mem_iff.mp (mem_childItems link here)

theorem exists_ordered {place : Nat} {span : Span} (here : spans[place]? = some span) :
    ∃ ordered : List Nat, ordered.Perm (parents.childrenOf place) ∧
      ordered.map (fun child => spans[child]?.map Span.item) = span.slots.map some := by
  refine exists_perm_map (fun child member => ?_) (fits.children place span here)
  have inside := fits.lt_length (mem_childrenOf.mp member)
  simp [List.getElem?_eq_getElem inside]

theorem childrenOf_eq_nil {place : Nat} {span : Span} (here : spans[place]? = some span)
    (none : span.slots = []) : parents.childrenOf place = [] := by
  obtain ⟨ordered, perm, items⟩ := fits.exists_ordered here
  rw [none, List.map_nil, List.map_eq_nil_iff] at items
  exact (items ▸ perm).nil_eq.symm

theorem childrenOf_eq_singleton {place : Nat} {span : Span} {slot : Item}
    (here : spans[place]? = some span) (one : span.slots = [slot]) :
    ∃ child below, parents.childrenOf place = [child] ∧ spans[child]? = some below ∧
      below.item = slot := by
  obtain ⟨ordered, perm, items⟩ := fits.exists_ordered here
  rw [one, List.map_singleton, List.map_eq_singleton_iff] at items
  obtain ⟨child, rfl, item⟩ := items
  obtain ⟨below, there, same⟩ := Option.map_eq_some_iff.mp item
  exact ⟨child, below, List.perm_singleton.mp perm.symm, there, same⟩

theorem childrenOf_perm_pair {place : Nat} {span : Span} {slot slot' : Item}
    (here : spans[place]? = some span) (two : span.slots = [slot, slot']) :
    ∃ first second left right, (parents.childrenOf place).Perm [first, second] ∧
      spans[first]? = some left ∧ left.item = slot ∧
      spans[second]? = some right ∧ right.item = slot' := by
  obtain ⟨ordered, perm, items⟩ := fits.exists_ordered here
  rw [two, List.map_cons, List.map_cons, List.map_nil] at items
  obtain ⟨first, rest, rfl, item, items⟩ := List.map_eq_cons_iff.mp items
  obtain ⟨second, none, rfl, item', items⟩ := List.map_eq_cons_iff.mp items
  obtain rfl := List.map_eq_nil_iff.mp items
  obtain ⟨left, there, same⟩ := Option.map_eq_some_iff.mp item
  obtain ⟨right, there', same'⟩ := Option.map_eq_some_iff.mp item'
  exact ⟨first, second, left, right, perm.symm, there, same, there', same'⟩

theorem exists_span {child place : Nat} (link : parents.Link child place) :
    ∃ span above, spans[child]? = some span ∧ spans[place]? = some above :=
  ⟨_, _, List.getElem?_eq_getElem (fits.lt_length link),
    List.getElem?_eq_getElem (fits.inside child place link)⟩

theorem within {child place : Nat} {span above : Span} (link : parents.Link child place)
    (here : spans[child]? = some span) (there : spans[place]? = some above) :
    (above.start ≤ span.start ∧ span.stop ≤ above.stop) ∧
      (above.isUnary = false → above.start < span.start ∨ span.stop < above.stop) := by
  have slot := fits.item_mem_slots link here there
  have proper := fits.proper above (List.mem_of_getElem? there)
  obtain ⟨start, stop, split, rule⟩ := above
  cases rule with
  | terminal label => simp [Span.slots] at slot
  | unary rule =>
    have same : span.item = ⟨start, stop, rule.child⟩ := List.mem_singleton.mp slot
    obtain ⟨rfl, rfl, _⟩ := Item.mk.inj same
    simp [Span.isUnary, Rule.shape]
  | binary rule =>
    have bounds : start < split ∧ split < stop := by simpa [Span.isProper] using proper
    have either : span.item = ⟨start, split, rule.left⟩ ∨ span.item = ⟨split, stop, rule.right⟩ :=
      by simpa [Span.slots] using slot
    rcases either with same | same
    · obtain ⟨rfl, rfl, _⟩ := Item.mk.inj same
      dsimp only
      omega
    · obtain ⟨rfl, rfl, _⟩ := Item.mk.inj same
      dsimp only
      omega

theorem within_of_reaches {child place : Nat} (reaches : ReflTransGen parents.Link child place)
    {span above : Span} (here : spans[child]? = some span) (there : spans[place]? = some above) :
    above.start ≤ span.start ∧ span.stop ≤ above.stop := by
  induction reaches using ReflTransGen.head_induction_on generalizing span with
  | refl =>
    obtain rfl := Option.some.inj (here.symm.trans there)
    exact ⟨le_rfl, le_rfl⟩
  | head link _ ih =>
    obtain ⟨_, between, _, middle⟩ := fits.exists_span link
    have first := (fits.within link here middle).1
    have rest := ih middle
    exact ⟨rest.1.trans first.1, first.2.trans rest.2⟩

theorem isUnary_of_loops {place : Nat} {span : Span} (loops : parents.Loops place)
    (here : spans[place]? = some span) : span.isUnary = true := by
  obtain ⟨child, reaches, link⟩ := TransGen.tail'_iff.mp loops
  obtain ⟨below, _, there, _⟩ := fits.exists_span link
  obtain ⟨_, strict⟩ := fits.within link there here
  have back := fits.within_of_reaches reaches here there
  by_contra other
  have less := strict (Bool.eq_false_of_not_eq_true other)
  omega

/-- Nothing hangs from a circle. -/
theorem loops_of_link {child place : Nat} (link : parents.Link child place)
    (loops : parents.Loops place) : parents.Loops child := by
  obtain ⟨_, above, _, there⟩ := fits.exists_span link
  obtain ⟨rule, unary⟩ := Span.exists_unary (fits.isUnary_of_loops loops there)
  have one : above.slots = [⟨above.start, above.stop, rule.child⟩] := by rw [Span.slots, unary]
  obtain ⟨only, _, children, _⟩ := fits.childrenOf_eq_singleton there one
  have single {other : Nat} (link : parents.Link other place) : other = only := by
    have member := mem_childrenOf.mpr link
    rwa [children, List.mem_singleton] at member
  obtain ⟨last, reaches, closing⟩ := TransGen.tail'_iff.mp loops
  rw [single closing, ← single link] at reaches
  exact .head' link reaches

theorem reaches_root {place : Nat} (inside : place < spans.length)
    (straight : ¬ parents.Loops place) :
    ∃ root, parents[root]? = some none ∧ ReflTransGen parents.Link place root := by
  have climb := (wellFounded_straight parents spans.length).2
  suffices general : ∀ place : { place // place < spans.length ∧ ¬ parents.Loops place },
      ∃ root, parents[root]? = some none ∧ ReflTransGen parents.Link place.1 root from
    general ⟨place, inside, straight⟩
  intro place
  induction place using climb.induction with
  | h place ih =>
    obtain ⟨place, inside, straight⟩ := place
    have bound : place < parents.length := fits.length_eq ▸ inside
    have some := List.getElem?_eq_getElem bound
    cases parent : parents[place] with
    | none => exact ⟨place, some.trans (congrArg _ parent), .refl⟩
    | some above =>
      have link : parents.Link place above := some.trans (congrArg _ parent)
      obtain ⟨root, top, reaches⟩ := ih
        ⟨above, fits.inside place above link, fun loops => straight (fits.loops_of_link link loops)⟩
        (.single link)
      exact ⟨root, top, .head link reaches⟩

end Fits

end Parents

end Constituency
