import Constituency.Proofs.Calls

/-!
Texts added again. An edit that has been made gives the same result where it is made once more, and
then changes nothing, however the grammar has grown in between; and one that has been refused is
refused again as long as the grammar is what it has left.
-/

namespace Constituency

namespace Numbering.Extends

variable {α : Type} [BEq α] [Hashable α] [LawfulBEq α] [LawfulHashable α]
  {values more : Numbering α} {value : α}

theorem find?_pushed (longer : (values.push value).Extends more) :
    more.find? value = some values.size :=
  longer.numbers value values.size (by rw [find?_push, beq_self_eq_true, if_pos rfl])

theorem insert_eq (longer : (values.insert value).Extends more) : more.insert value = more := by
  have known : (more.find? value).isSome := by
    rw [Numbering.insert] at longer
    split at longer
    · rename_i known
      rw [contains_eq_isSome_find?] at known
      obtain ⟨number, found⟩ := Option.isSome_iff_exists.mp known
      rw [longer.numbers value number found]
      rfl
    · rw [longer.find?_pushed]
      rfl
  rw [Numbering.insert, contains_eq_isSome_find?, if_pos known]

end Numbering.Extends

namespace Grammar

variable {ε ε' β γ : Type} {grammar next later last : Grammar}

/-- Grammars with the same tables, and with the same entries in their dictionaries. -/
structure Alike (grammar next : Grammar) : Prop where
  tables : next = { grammar with dictionary := next.dictionary }
  dictionary : ∀ word : Nat, next.dictionary[word]? = grammar.dictionary[word]?

namespace Alike

theorem refl (grammar : Grammar) : grammar.Alike grammar := ⟨rfl, fun _ => rfl⟩

theorem trans (first : grammar.Alike next) (second : next.Alike last) : grammar.Alike last := by
  refine ⟨?_, fun word => (second.dictionary word).trans (first.dictionary word)⟩
  rw [second.tables, first.tables]

theorem extended (alike : grammar.Alike next) : grammar.Extends next := by
  rw [alike.tables]
  exact { Extends.refl grammar with
    dictionary := fun word named found =>
      ⟨named, (alike.dictionary word).trans found, List.prefix_refl _⟩ }

end Alike

/-- A grammar later than the one that an edit has left with some result. It may have grown, but not
where the edit has been refused. -/
def Follows (result : Except ε β) (next later : Grammar) : Prop :=
  match result with
  | .ok _ => next.Extends later
  | .error _ => next.Alike later

namespace Follows

variable {result : Except ε β}

theorem refl (result : Except ε β) (next : Grammar) : Follows result next next := by
  cases result with
  | ok _ => exact Extends.refl next
  | error _ => exact Alike.refl next

theorem extended (follows : Follows result next later) : next.Extends later := by
  cases result with
  | ok _ => exact follows
  | error _ => exact Alike.extended follows

theorem alike (follows : Follows result next later) (alike : later.Alike last) :
    Follows result next last := by
  cases result with
  | ok _ => exact Extends.trans follows alike.extended
  | error _ => exact Alike.trans follows alike

end Follows

/-- An edit that only extends tables, and that changes nothing where it is made once more. -/
structure Steady (edit : ExceptT ε (StateM Grammar) β) : Prop where
  extended : ∀ grammar : Grammar, grammar.Extends (edit.run grammar).2
  again : ∀ {grammar result next later}, edit.run grammar = (result, next) →
    Follows result next later → ∃ again, edit.run later = (result, again) ∧ later.Alike again

namespace Steady

section Sequences

theorem pure (value : β) : Steady (pure value : ExceptT ε (StateM Grammar) β) where
  extended grammar := .refl grammar
  again run _ := by
    obtain ⟨rfl, rfl⟩ := Prod.mk.inj run
    exact ⟨_, rfl, .refl _⟩

theorem throw (error : ε) : Steady (throw error : ExceptT ε (StateM Grammar) β) where
  extended grammar := .refl grammar
  again run _ := by
    obtain ⟨rfl, rfl⟩ := Prod.mk.inj run
    exact ⟨_, rfl, .refl _⟩

theorem bind {first : ExceptT ε (StateM Grammar) β} {rest : β → ExceptT ε (StateM Grammar) γ}
    (steady : Steady first) (others : ∀ value, Steady (rest value)) :
    Steady (first >>= rest) := by
  constructor
  · intro grammar
    have grown := steady.extended grammar
    rw [Edit.run_bind]
    rcases result : first.run grammar with ⟨error | value, mid⟩
    · rw [result] at grown
      exact grown
    · rw [result] at grown
      exact grown.trans ((others value).extended mid)
  · intro grammar result next later run follows
    rw [Edit.run_bind] at run ⊢
    rcases made : first.run grammar with ⟨error | value, mid⟩
    · rw [made] at run
      obtain ⟨rfl, rfl⟩ := Prod.mk.inj run
      obtain ⟨again, rerun, alike⟩ := steady.again made follows
      exact ⟨again, by rw [rerun], alike⟩
    · rw [made] at run
      -- the first step finds what it has added, as the others have only added to it
      have grown : mid.Extends next := by
        have grown := (others value).extended mid
        simp only at run
        rw [run] at grown
        exact grown
      obtain ⟨between, rerun, alike⟩ := steady.again made (grown.trans follows.extended)
      obtain ⟨again, rerun', alike'⟩ := (others value).again run (follows.alike alike)
      exact ⟨again, by rw [rerun]; exact rerun', alike.trans alike'⟩

theorem adapt {edit : ExceptT ε (StateM Grammar) β} (steady : Steady edit) (change : ε → ε') :
    Steady (edit.adapt change) := by
  refine ⟨steady.extended, ?_⟩
  intro grammar result next later run follows
  rw [Edit.run_adapt] at run
  obtain ⟨rfl, rfl⟩ := Prod.mk.inj run
  have follows' : Follows (edit.run grammar).1 (edit.run grammar).2 later := by
    cases result : (edit.run grammar).1 with
    | ok _ =>
      rw [result] at follows
      exact follows
    | error _ =>
      rw [result] at follows
      exact follows
  obtain ⟨again, rerun, alike⟩ := steady.again rfl follows'
  exact ⟨again, by rw [Edit.run_adapt, rerun]; rfl, alike⟩

theorem discard {edit : Edit β} (steady : Steady edit) : Steady (discard edit : Edit Unit) :=
  steady.bind fun _ => .pure ()

theorem forM {ι : Type} {items : List ι} {edit : ι → ExceptT ε (StateM Grammar) Unit}
    (steady : ∀ item, Steady (edit item)) : Steady (items.forM edit) := by
  induction items with
  | nil => exact .pure ()
  | cons item items ih => exact (steady item).bind fun _ => ih

theorem twice {edit : ExceptT ε (StateM Grammar) β} (steady : Steady edit) (grammar : Grammar) :
    ∃ again, edit.run (edit.run grammar).2 = ((edit.run grammar).1, again) ∧
      (edit.run grammar).2.Alike again :=
  steady.again rfl (.refl _ _)

end Sequences

section Additions

theorem of_run {edit : Edit β}
    (run : ∀ grammar,
      (∃ error, ∀ later, grammar.Alike later → edit.run later = (.error error, later)) ∨
        ∃ value next, edit.run grammar = (.ok value, next) ∧ grammar.Extends next ∧
          ∀ later, next.Extends later →
            ∃ again, edit.run later = (.ok value, again) ∧ later.Alike again) :
    Steady edit := by
  constructor
  · intro grammar
    rcases run grammar with ⟨error, refused⟩ | ⟨value, next, made, grown, _⟩
    · rw [refused grammar (.refl grammar)]
      exact .refl grammar
    · rw [made]
      exact grown
  · intro grammar result next later made follows
    rcases run grammar with ⟨error, refused⟩ | ⟨value, last, first, _, stays⟩
    · obtain ⟨rfl, rfl⟩ := Prod.mk.inj ((refused grammar (.refl grammar)).symm.trans made)
      exact ⟨later, refused later follows, .refl later⟩
    · obtain ⟨rfl, rfl⟩ := Prod.mk.inj (first.symm.trans made)
      exact stays later follows

theorem addLabel (name : String) : Steady (addLabel name) := by
  apply of_run
  intro grammar
  cases found : grammar.labels.find? name with
  | some number =>
    refine .inr ⟨_, grammar, run_addLabel_of_known found, .refl grammar, fun later longer => ?_⟩
    exact ⟨later, run_addLabel_of_known (longer.labels.numbers name number found), .refl later⟩
  | none =>
    by_cases room : grammar.labels.size < numberLimit
    · refine .inr ⟨_, _, run_addLabel_of_new found room, (Change.label name found).extended,
        fun later longer => ?_⟩
      exact ⟨later, run_addLabel_of_known longer.labels.find?_pushed, .refl later⟩
    · refine .inl ⟨.tooManyLabels, fun later alike => ?_⟩
      rw [alike.tables]
      simp only [Grammar.addLabel, ExceptT.run, ExceptT.mk, found, if_pos (Nat.not_lt.mp room)]

theorem addWord (word : String) : Steady (addWord word) := by
  apply of_run
  intro grammar
  cases found : grammar.words.find? word with
  | some number =>
    refine .inr ⟨number, grammar, run_addWord_of_known found, .refl grammar,
      fun later longer => ?_⟩
    exact ⟨later, run_addWord_of_known (longer.words.numbers word number found), .refl later⟩
  | none =>
    refine .inr ⟨_, _, run_addWord_of_new found, (Change.word word found).extended,
      fun later longer => ?_⟩
    exact ⟨later, run_addWord_of_known longer.words.find?_pushed, .refl later⟩

theorem addBinary (rule : BinaryRule) : Steady (addBinary rule) := by
  have known {grammar : Grammar} {number : Nat}
      (found : grammar.binaryRules.find? rule = some number) :
      (Grammar.addBinary rule).run grammar = (.ok number, grammar) := by
    simp only [Grammar.addBinary, ExceptT.run, ExceptT.mk, found]
  apply of_run
  intro grammar
  cases found : grammar.binaryRules.find? rule with
  | some number =>
    refine .inr ⟨number, grammar, known found, .refl grammar, fun later longer => ?_⟩
    exact ⟨later, known (longer.binaryRules.numbers rule number found), .refl later⟩
  | none =>
    by_cases full : numberLimit ≤ grammar.binaryRules.size
    · refine .inl ⟨.tooManyRules .binary, fun later alike => ?_⟩
      rw [alike.tables]
      simp only [Grammar.addBinary, ExceptT.run, ExceptT.mk, found, if_pos full]
    · refine .inr ⟨grammar.binaryRules.size, _, ?_, (Change.binary rule found).extended,
        fun later longer => ⟨later, known longer.binaryRules.find?_pushed, .refl later⟩⟩
      simp only [Grammar.addBinary, ExceptT.run, ExceptT.mk, found, if_neg full]

theorem addUnary (rule : UnaryRule) : Steady (addUnary rule) := by
  apply of_run
  intro grammar
  by_cases own : rule.parent = rule.child
  · refine .inl ⟨.selfUnary (grammar.labelName rule.parent), fun later alike => ?_⟩
    rw [alike.tables]
    simp only [Grammar.addUnary, ExceptT.run, ExceptT.mk, if_pos own]
    rfl
  have known {grammar : Grammar} {number : Nat}
      (found : grammar.unaryRules.find? rule = some number) :
      (Grammar.addUnary rule).run grammar = (.ok number, grammar) := by
    simp only [Grammar.addUnary, ExceptT.run, ExceptT.mk, if_neg own, found]
  cases found : grammar.unaryRules.find? rule with
  | some number =>
    refine .inr ⟨number, grammar, known found, .refl grammar, fun later longer => ?_⟩
    exact ⟨later, known (longer.unaryRules.numbers rule number found), .refl later⟩
  | none =>
    by_cases full : numberLimit ≤ grammar.unaryRules.size
    · refine .inl ⟨.tooManyRules .unary, fun later alike => ?_⟩
      rw [alike.tables]
      simp only [Grammar.addUnary, ExceptT.run, ExceptT.mk, if_neg own, found, if_pos full]
    · refine .inr ⟨grammar.unaryRules.size, _, ?_, (Change.unary rule found).extended,
        fun later longer => ⟨later, known longer.unaryRules.find?_pushed, .refl later⟩⟩
      simp only [Grammar.addUnary, ExceptT.run, ExceptT.mk, if_neg own, found, if_neg full]

theorem addTerminal (label : Label) : Steady (addTerminal label) := by
  apply of_run
  intro grammar
  refine .inr ⟨(), _, rfl, (changes_addTerminal label grammar).extended, fun later longer => ?_⟩
  have held : later.terminals.insert label = later.terminals := longer.terminals.insert_eq
  refine ⟨later, ?_, .refl later⟩
  simp only [Grammar.addTerminal, ExceptT.run, ExceptT.mk, held]

theorem addRoot (label : Label) : Steady (addRoot label) := by
  apply of_run
  intro grammar
  refine .inr ⟨(), _, rfl, (changes_addRoot label grammar).extended, fun later longer => ?_⟩
  have held : later.roots.insert label = later.roots := longer.roots.insert_eq
  refine ⟨later, ?_, .refl later⟩
  simp only [Grammar.addRoot, ExceptT.run, ExceptT.mk, held]

theorem addEntry (word : Nat) (label : Label) : Steady (addEntry word label) := by
  apply of_run
  intro grammar
  refine .inr ⟨(), _, rfl, (change_addEntry word label grammar).extended, fun later longer => ?_⟩
  refine ⟨(Grammar.addEntry word label).grow later, rfl, rfl, fun other => ?_⟩
  rw [getElem?_addEntry]
  by_cases same : word = other
  · subst same
    obtain ⟨more, found, named⟩ := longer.dictionary word _
      ((getElem?_addEntry word word label grammar).trans (if_pos rfl))
    have member : label ∈ more := by
      apply named.subset
      split
      · assumption
      · exact List.mem_append_right _ (List.mem_singleton_self label)
    rw [if_pos rfl, found, Option.getD_some]
    simp only [if_pos member]
  · rw [if_neg same]

theorem addLexical (label : Label) (word : String) : Steady (addLexical label word) :=
  (addTerminal label).bind fun _ =>
    (addWord word).bind fun number => (addEntry number label).bind fun _ => .pure number

theorem apply (addition : Text.Addition) : Steady addition.apply := by
  cases addition with
  | root label =>
    exact discard ((addLabel label).bind fun label => (addRoot label).bind fun _ => .pure label)
  | binary parent left right =>
    exact discard ((addLabel parent).bind fun parent => (addLabel left).bind fun left =>
      (addLabel right).bind fun right => addBinary ⟨parent, left, right⟩)
  | unary parent child =>
    exact discard ((addLabel parent).bind fun parent => (addLabel child).bind fun child =>
      addUnary ⟨parent, child⟩)
  | terminal label =>
    exact discard ((addLabel label).bind fun label => (addTerminal label).bind fun _ => .pure label)
  | lexical label word =>
    exact discard ((addLabel label).bind fun label => addLexical label word)

theorem addText (text : String) : Steady (addText text) := by
  refine bind (forM fun item => ?_) fun _ => ?_
  · exact (apply item.2).adapt _
  · split
    · exact .throw _
    · exact .pure ()

end Additions

end Steady

/-- A text that is added once more gives the same result, a failure or not, and changes nothing. -/
theorem addText_again (text : String) (grammar : Grammar) :
    let (result, next) := (addText text).run grammar
    ∃ again, (addText text).run next = (result, again) ∧ next.Alike again :=
  (Steady.addText text).twice grammar

end Grammar

end Constituency
