import Mathlib
import Constituency.Sampling.TreeSample
import Constituency.Proofs.Fold
import Constituency.Proofs.FlatParse

/-!
What a sampler can give at all. Whatever is chosen and whatever the chart holds, a tree that comes
out has the spans of a flat contiguous parse, so that it is known from its spans in order.
-/

namespace Constituency

open Fold

/-- What a program gives from any state, should it not fail. -/
def Gives {σ β : Type} (good : β → Prop) (program : ExceptT DecodeError (StateM σ) β) : Prop :=
  ∀ state, Ends good (fun _ => True) (program.run state).1

namespace Gives

variable {σ β γ : Type} {good : β → Prop} {good' : γ → Prop}

theorem pure {value : β} (holds : good value) :
    Gives good (Pure.pure value : ExceptT DecodeError (StateM σ) β) := fun _ => holds

theorem throw (error : DecodeError) :
    Gives good (MonadExcept.throw error : ExceptT DecodeError (StateM σ) β) := fun _ => trivial

theorem any (program : ExceptT DecodeError (StateM σ) β) : Gives (fun _ => True) program := by
  intro state
  cases (program.run state).1 <;> trivial

theorem bind {first : ExceptT DecodeError (StateM σ) β}
    {rest : β → ExceptT DecodeError (StateM σ) γ} (here : Gives good first)
    (next : ∀ value, good value → Gives good' (rest value)) : Gives good' (first >>= rest) := by
  intro state
  have opened : (first >>= rest).run state =
      ExceptT.bindCont rest (first.run state).1 (first.run state).2 := rfl
  have given := here state
  rw [opened]
  cases result : (first.run state).1 with
  | error error => trivial
  | ok value =>
    rw [result] at given
    exact next value given _

theorem mono {good' : β → Prop} {program : ExceptT DecodeError (StateM σ) β}
    (here : Gives good program) (weaker : ∀ value, good value → good' value) :
    Gives good' program := by
  intro state
  have given := here state
  cases result : (program.run state).1 with
  | error error => trivial
  | ok value =>
    rw [result] at given
    exact weaker value given

end Gives

namespace MassChart

variable {α σ : Type} [LogScore α]

/-- The spans are those of a flat parse of an item. -/
def SpansOf (start stop : Nat) (label : Label) (spans : List Span) : Prop :=
  ∃ parse : Parse, parse.Contiguous ∧ parse.Flat ∧ parse.item = ⟨start, stop, label⟩ ∧
    spans = parse.spans

/-- The spans are those of a flat parse of an item that has no unary rule at its top. -/
def BareSpansOf (start stop : Nat) (label : Label) (spans : List Span) : Prop :=
  ∃ parse : Parse, parse.Contiguous ∧ parse.Flat ∧ parse.isUnary = false ∧
    parse.item = ⟨start, stop, label⟩ ∧ spans = parse.spans

theorem gives_treeBefore (chart : MassChart α) (choice : Choice (StateM σ) α) {start stop : Nat}
    (label : Label)
    (below : ∀ start' stop' label', stop' - start' < stop - start →
      Gives (SpansOf start' stop' label') (chart.treeAfter choice start' stop' label')) :
    Gives (BareSpansOf start stop label) (chart.treeBefore choice start stop label) := by
  rw [treeBefore]
  split
  · rename_i single
    have word : BareSpansOf start stop label [.terminal start label] :=
      ⟨.word label start, trivial, trivial, rfl, by rw [single]; rfl, rfl⟩
    split
    · exact .bind (.any _) fun _ _ => .pure word
    · exact .pure word
  · refine .bind (.any _) fun option _ => ?_
    obtain ⟨split, rule⟩ := option
    dsimp only
    split
    · rename_i inside
      refine .bind (below start split rule.left (by omega)) fun left onLeft => ?_
      refine .bind (below split stop rule.right (by omega)) fun right onRight => ?_
      obtain ⟨first, contiguous, flat, item, rfl⟩ := onLeft
      obtain ⟨second, contiguous', flat', item', rfl⟩ := onRight
      obtain ⟨starts, meets, labels⟩ := Item.mk.inj item
      obtain ⟨meets', stops, labels'⟩ := Item.mk.inj item'
      refine .pure ⟨.binary label first second, ⟨meets.trans meets'.symm, contiguous, contiguous'⟩,
        ⟨flat, flat'⟩, rfl, ?_, ?_⟩
      · simp only [Parse.item, Parse.start, Parse.stop, Parse.label, starts, stops]
      · simp only [Parse.spans, Parse.top, starts, meets, stops, labels, labels']
    · exact .throw _

theorem gives_treeAfter (chart : MassChart α) (choice : Choice (StateM σ) α) (start stop : Nat)
    (label : Label) : Gives (SpansOf start stop label) (chart.treeAfter choice start stop label) := by
  induction width : stop - start using Nat.strong_induction_on generalizing start stop label with
  | h width ih =>
    subst width
    have before (label : Label) := chart.gives_treeBefore choice label
      fun start' stop' label' less => ih _ less start' stop' label' rfl
    rw [treeAfter]
    refine .bind (.any _) fun option _ => ?_
    cases option with
    | none =>
      refine (before label).mono fun spans given => ?_
      obtain ⟨parse, contiguous, flat, _, item, same⟩ := given
      exact ⟨parse, contiguous, flat, item, same⟩
    | some child =>
      refine .bind (before child) fun spans given => ?_
      obtain ⟨parse, contiguous, flat, bare, item, rfl⟩ := given
      obtain ⟨starts, stops, labels⟩ := Item.mk.inj item
      refine .pure ⟨.unary label parse, contiguous, ⟨bare, flat⟩, ?_, ?_⟩
      · simp only [Parse.item, Parse.start, Parse.stop, Parse.label, starts, stops]
      · simp only [Parse.spans, Parse.top, starts, stops, labels]

theorem gives_sample (chart : MassChart α) (draw : Draw σ α) :
    Gives (fun tree => ∀ spans ∈ tree, ∃ parse : Parse, parse.Contiguous ∧ parse.Flat ∧
      spans = parse.spans) (chart.sample draw) := by
  refine .bind (.any _) fun root _ => ?_
  cases root with
  | none => exact .pure (by simp)
  | some root =>
    refine .bind (gives_treeAfter chart draw.option _ _ _) fun spans given => .pure ?_
    obtain ⟨parse, contiguous, flat, _, same⟩ := given
    intro spans' here
    obtain rfl := Option.some.inj here
    exact ⟨parse, contiguous, flat, same⟩

end MassChart

end Constituency
