import Constituency.Proofs.FaultPlaces

/-!
What a statement leaves behind that fails. The statements ahead of it have been done, and of its own
additions those that stand ahead of the fault: roots or words of a list, never a rule. An addition
that is refused may have registered labels by then.
-/

namespace Constituency

namespace Grammar

variable {β : Type} {names : List String} {grammar next : Grammar}

section Registers

theorem run_addLabel_insert (name : String) (grammar : Grammar) :
    (∃ label, (addLabel name).run grammar =
        (.ok label, { grammar with labels := grammar.labels.insert name })) ∨
      (addLabel name).run grammar = (.error .tooManyLabels, grammar) := by
  rcases run_addLabel name grammar with ⟨number, known, result⟩ | ⟨new, _, result⟩ | ⟨_, result⟩
  · have unchanged : grammar.labels.insert name = grammar.labels := by
      rw [Numbering.insert, Numbering.contains_eq_isSome_find?, known]
      rfl
    rw [unchanged]
    exact .inl ⟨_, result⟩
  · have pushed : grammar.labels.insert name = grammar.labels.push name := by
      rw [Numbering.insert, Numbering.contains_eq_isSome_find?, new]
      rfl
    rw [pushed]
    exact .inl ⟨_, result⟩
  · exact .inr result

/-- An edit that, where it is refused, has registered some names and done nothing else: the first of
those that it looks up as labels. -/
def Edit.Registers (names : List String) (edit : Edit β) : Prop :=
  ∀ grammar error next, edit.run grammar = (.error error, next) →
    ∃ named, named <+: names ∧
      next = { grammar with labels := named.foldl .insert grammar.labels }

namespace Edit.Registers

theorem addLabel_bind {rest : Label → Edit β} (registers : ∀ label, (rest label).Registers names)
    (name : String) : Registers (name :: names) (addLabel name >>= rest) := by
  intro grammar error next refused
  rw [run_bind] at refused
  rcases run_addLabel_insert name grammar with ⟨label, result⟩ | result
  · rw [result] at refused
    obtain ⟨named, first, rfl⟩ := registers label _ error next refused
    exact ⟨name :: named, (List.prefix_cons_inj name).mpr first, rfl⟩
  · rw [result] at refused
    obtain ⟨_, rfl⟩ := Prod.mk.inj refused
    exact ⟨[], List.nil_prefix, rfl⟩

theorem of_unchanged {edit : Edit β}
    (unchanged : ∀ grammar error next, edit.run grammar = (.error error, next) → next = grammar) :
    edit.Registers [] := by
  intro grammar error next refused
  obtain rfl := unchanged grammar error next refused
  exact ⟨[], List.nil_prefix, rfl⟩

theorem discard {edit : Edit β} (registers : edit.Registers names) :
    Registers names (discard edit) := by
  intro grammar error next refused
  obtain stopped | ⟨_, _, _, impossible⟩ := run_bind_eq_error refused
  · exact registers grammar error next stopped
  · cases impossible

theorem addBinary (rule : BinaryRule) : (addBinary rule).Registers [] := by
  apply of_unchanged
  intro grammar error next refused
  simp only [Grammar.addBinary, ExceptT.run, ExceptT.mk] at refused
  split at refused
  · cases (Prod.mk.inj refused).1
  · split at refused
    · exact (Prod.mk.inj refused).2.symm
    · cases (Prod.mk.inj refused).1

theorem addUnary (rule : UnaryRule) : (addUnary rule).Registers [] := by
  apply of_unchanged
  intro grammar error next refused
  simp only [Grammar.addUnary, ExceptT.run, ExceptT.mk] at refused
  split at refused
  · exact (Prod.mk.inj refused).2.symm
  · split at refused
    · cases (Prod.mk.inj refused).1
    · split at refused
      · exact (Prod.mk.inj refused).2.symm
      · cases (Prod.mk.inj refused).1

theorem addLexical (label : Label) (word : String) : (addLexical label word).Registers [] := by
  intro grammar error next refused
  obtain ⟨number, result⟩ := run_addLexical label word grammar
  rw [result] at refused
  cases (Prod.mk.inj refused).1

theorem apply (addition : Text.Addition) : addition.apply.Registers addition.names := by
  cases addition with
  | root label =>
    apply discard
    refine addLabel_bind (fun label => ?_) label
    intro grammar error next refused
    cases refused
  | binary parent left right =>
    apply discard
    refine addLabel_bind (fun parent => ?_) parent
    refine addLabel_bind (fun left => ?_) left
    exact addLabel_bind (fun right => addBinary ⟨parent, left, right⟩) right
  | unary parent child =>
    apply discard
    refine addLabel_bind (fun parent => ?_) parent
    exact addLabel_bind (fun child => addUnary ⟨parent, child⟩) child
  | terminal label =>
    apply discard
    refine addLabel_bind (fun label => ?_) label
    intro grammar error next refused
    cases refused
  | lexical label word =>
    apply discard
    exact addLabel_bind (fun label => addLexical label word) label

end Edit.Registers

end Registers

section Rules

/-- Grammars with the same rules under the same numbers, listed under the same parents and put in the
same order. -/
structure SameRules (grammar next : Grammar) : Prop where
  binaryRules : next.binaryRules = grammar.binaryRules
  binaryByParent : next.binaryByParent = grammar.binaryByParent
  unaryRules : next.unaryRules = grammar.unaryRules
  unaryByParent : next.unaryByParent = grammar.unaryByParent
  unaryOrder : next.unaryOrder = grammar.unaryOrder

namespace SameRules

theorem refl (grammar : Grammar) : grammar.SameRules grammar := ⟨rfl, rfl, rfl, rfl, rfl⟩

theorem trans {mid : Grammar} (first : grammar.SameRules mid) (second : mid.SameRules next) :
    grammar.SameRules next where
  binaryRules := second.binaryRules.trans first.binaryRules
  binaryByParent := second.binaryByParent.trans first.binaryByParent
  unaryRules := second.unaryRules.trans first.unaryRules
  unaryByParent := second.unaryByParent.trans first.unaryByParent
  unaryOrder := second.unaryOrder.trans first.unaryOrder

theorem addLabel (name : String) (grammar : Grammar) :
    grammar.SameRules ((addLabel name).grow grammar) := by
  rw [Edit.grow]
  rcases run_addLabel_insert name grammar with ⟨_, result⟩ | result
  · rw [result]
    exact ⟨rfl, rfl, rfl, rfl, rfl⟩
  · rw [result]
    exact .refl grammar

theorem addWord (word : String) (grammar : Grammar) :
    grammar.SameRules ((addWord word).grow grammar) := by
  rw [Edit.grow]
  rcases run_addWord word grammar with ⟨_, _, result⟩ | ⟨_, result⟩
  · rw [result]
    exact .refl grammar
  · rw [result]
    exact ⟨rfl, rfl, rfl, rfl, rfl⟩

theorem addLexical (label : Label) (word : String) (grammar : Grammar) :
    grammar.SameRules ((addLexical label word).grow grammar) := by
  obtain ⟨number, result⟩ := run_addLexical label word grammar
  have terminal : grammar.SameRules ((addTerminal label).grow grammar) :=
    ⟨rfl, rfl, rfl, rfl, rfl⟩
  rw [Edit.grow, result]
  exact (terminal.trans (addWord word _)).trans ⟨rfl, rfl, rfl, rfl, rfl⟩

end SameRules

end Rules

end Grammar

namespace Text

open Grammar

variable {tokens : List Token} {text : String} {grammar mid next : Grammar} {fault : Fault}

/-- An addition of which a line may make several. -/
def Addition.Listed : Addition → Prop
  | root _ => True
  | lexical _ _ => True
  | _ => False

theorem Addition.Listed.sameRules {addition : Addition} (listed : addition.Listed)
    (grammar : Grammar) : grammar.SameRules (addition.apply.grow grammar) := by
  cases addition with
  | root label =>
    rw [apply, Edit.grow_discard]
    refine Edit.bind_grow (.addLabel label grammar) fun number _ => ?_
    exact (SameRules.addLabel label grammar).trans ⟨rfl, rfl, rfl, rfl, rfl⟩
  | lexical label word =>
    rw [apply, Edit.grow_discard]
    refine Edit.bind_grow (.addLabel label grammar) fun number _ => ?_
    exact (SameRules.addLabel label grammar).trans (.addLexical number word _)
  | _ => cases listed

theorem sameRules_of_listed {additions : List Addition} (listed : ∀ a ∈ additions, a.Listed)
    (grammar : Grammar) :
    grammar.SameRules (Edit.grow (additions.forM Addition.apply) grammar) := by
  induction additions generalizing grammar with
  | nil => exact .refl grammar
  | cons addition additions ih =>
    obtain ⟨first, others⟩ := List.forall_mem_cons.mp listed
    refine Edit.bind_grow (first.sameRules grammar) fun _ _ => ?_
    exact (first.sameRules grammar).trans (ih others _)

section Statements

/-- A fault that is found before anything of its statement has been done. -/
def Fault.Early : Fault → Prop
  | expected wanted _ => wanted ≠ .rootLabel ∧ wanted ≠ .quotedWord
  | unterminated => True
  | unknownDirective _ => True
  | refused _ => False

/-- What statements come to: one addition, a fault at once, or a list that may end in a fault. -/
inductive Statement.Orderly : Statement → Prop
  | one (addition : Addition) : Orderly ⟨[addition], none⟩
  | early (fault : Fault) : fault.Early → Orderly ⟨[], some fault⟩
  | listed {statement : Statement} : (∀ a ∈ statement.additions, a.Listed) →
    (∀ fault ∈ statement.fault, ¬ fault.Early) → Orderly statement

namespace Statement.Orderly

theorem ofRoots (tokens : List Token) : (Statement.ofRoots tokens).Orderly := by
  suffices (∀ a ∈ (Statement.ofRoots tokens).additions, a.Listed) ∧
      ∀ fault ∈ (Statement.ofRoots tokens).fault, ¬ fault.Early from .listed this.1 this.2
  fun_induction Statement.ofRoots tokens with
  | case1 => simp
  | case2 label rest ih => exact ⟨List.forall_mem_cons.mpr ⟨trivial, ih.1⟩, ih.2⟩
  | case3 => simp [Statement.failed, Fault.Early]

theorem ofWords (label : String) (tokens : List Token) :
    (Statement.ofWords label tokens).Orderly := by
  suffices (∀ a ∈ (Statement.ofWords label tokens).additions, a.Listed) ∧
      ∀ fault ∈ (Statement.ofWords label tokens).fault, ¬ fault.Early from .listed this.1 this.2
  fun_induction Statement.ofWords label tokens with
  | case1 => simp
  | case2 word rest ih => exact ⟨List.forall_mem_cons.mpr ⟨trivial, ih.1⟩, ih.2⟩
  | case3 => simp [Statement.failed, Fault.Early]

theorem failed {wanted : Wanted} (early : wanted ≠ .rootLabel ∧ wanted ≠ .quotedWord)
    (found : Option Token) : (Statement.failed wanted found).Orderly :=
  .early _ early

theorem ofBody (parent : String) (tokens : List Token) :
    (Statement.ofBody parent tokens).Orderly := by
  fun_cases Statement.ofBody parent tokens with
  | case1 => exact failed (by decide) _
  | case2 child => exact one _
  | case3 left right => exact one _
  | case4 => exact one _
  | case5 word rest => exact ofWords _ _
  | case6 => exact failed (by decide) _
  | case7 => exact failed (by decide) _

theorem ofTokens (tokens : List Token) : (Statement.ofTokens tokens).Orderly := by
  fun_cases Statement.ofTokens tokens with
  | case1 => exact ofRoots []
  | case2 => exact listed (by simp [Statement.failed]) (by simp [Statement.failed, Fault.Early])
  | case3 labels => exact ofRoots _
  | case4 => exact early _ trivial
  | case5 parent body => exact ofBody _ _
  | case6 => exact failed (by decide) _
  | case7 => exact failed (by decide) _
  | case8 => exact failed (by decide) _

end Statement.Orderly

/-- What a statement that fails leaves: it has made its additions up to its fault, or those ahead of
the first that is refused, and that one may have registered labels. Only roots and words come ahead of
the place. -/
inductive Statement.Leaves (statement : Statement) (grammar : Grammar) : Fault → Grammar → Prop
  | fault {fault : Fault} {next : Grammar} :
    statement.fault = some fault → (∀ a ∈ statement.additions, a.Listed) →
    (statement.additions.forM Addition.apply).run grammar = (.ok (), next) →
    Leaves statement grammar fault next
  | refused {made later : List Addition} {addition : Addition} {named : List String}
    {cause : GrammarError} {last : Grammar} :
    statement.additions = made ++ addition :: later → (∀ a ∈ made, a.Listed) →
    (made.forM Addition.apply).run grammar = (.ok (), last) →
    (addition.apply.run last).1 = .error cause → named <+: addition.names →
    Leaves statement grammar (.refused cause)
      { last with labels := named.foldl .insert last.labels }

theorem forM_refused {ι : Type} {items : List ι} {edit : ι → Edit Unit} {cause : GrammarError}
    (refused : (items.forM edit).run grammar = (.error cause, next)) :
    ∃ made item later last, items = made ++ item :: later ∧
      (made.forM edit).run grammar = (.ok (), last) ∧
      (edit item).run last = (.error cause, next) := by
  induction items generalizing grammar with
  | nil => cases (Prod.mk.inj refused).1
  | cons item items ih =>
    rcases Edit.run_bind_eq_error refused with stopped | ⟨_, mid, first, others⟩
    · exact ⟨[], item, items, grammar, rfl, rfl, stopped⟩
    · obtain ⟨made, failing, later, last, rfl, done, fails⟩ := ih others
      refine ⟨item :: made, failing, later, last, rfl, ?_, fails⟩
      rw [List.forM, Edit.run_bind, first]
      exact done

namespace Statement.Orderly

variable {statement : Statement}

theorem listed_of_fault (orderly : statement.Orderly) (fails : statement.fault = some fault) :
    ∀ a ∈ statement.additions, a.Listed := by
  cases orderly with
  | one addition => cases fails
  | early fault _ => simp
  | listed listed _ => exact listed

theorem listed_ahead (orderly : statement.Orderly) {made later : List Addition}
    {addition : Addition} (split : statement.additions = made ++ addition :: later) :
    ∀ a ∈ made, a.Listed := by
  cases orderly with
  | one only =>
    obtain ⟨rfl, _⟩ | ⟨_, _, impossible⟩ := List.cons_eq_append_iff.mp split
    · simp
    · simp at impossible
  | early fault _ => simp at split
  | listed listed _ =>
    rw [split] at listed
    exact fun a member => listed a (List.mem_append_left _ member)

theorem leaves (orderly : statement.Orderly)
    (failed : statement.apply.run grammar = (.error fault, next)) :
    statement.Leaves grammar fault next := by
  rw [Statement.apply, ← forM_adapt] at failed
  rcases Edit.run_bind_eq_error failed with stopped | ⟨_, last, made, failed⟩
  · obtain ⟨cause, additions, rfl⟩ := Edit.run_adapt_eq_error stopped
    obtain ⟨made, addition, later, mid, split, done, refused⟩ := forM_refused additions
    obtain ⟨named, first, rfl⟩ := Edit.Registers.apply addition mid cause next refused
    exact .refused split (orderly.listed_ahead split) done (by rw [refused]) first
  · have done := Edit.run_adapt_eq_ok made
    cases fails : statement.fault with
    | none =>
      rw [fails] at failed
      cases failed
    | some found =>
      rw [fails] at failed
      obtain ⟨said, rfl⟩ := Prod.mk.inj failed
      obtain rfl := Except.error.inj said
      exact .fault fails (orderly.listed_of_fault fails) done

end Statement.Orderly

namespace Statement.Leaves

variable {statement : Statement}

theorem sameRules (leaves : statement.Leaves grammar fault next) : grammar.SameRules next := by
  cases leaves with
  | fault _ listed done =>
    have kept := sameRules_of_listed listed grammar
    rw [Edit.grow, done] at kept
    exact kept
  | refused _ listed done _ _ =>
    have kept := sameRules_of_listed listed grammar
    rw [Edit.grow, done] at kept
    exact kept.trans ⟨rfl, rfl, rfl, rfl, rfl⟩

theorem eq_of_early (leaves : statement.Leaves grammar fault next) (orderly : statement.Orderly)
    (early : fault.Early) : next = grammar := by
  cases leaves with
  | fault fails _ done =>
    cases orderly with
    | one addition => cases fails
    | early fault _ => exact (Prod.mk.inj done).2.symm
    | listed _ late => exact absurd early (late _ fails)
  | refused => cases early

end Statement.Leaves

/-- A text that fails leaves what the lines ahead of the one at fault leave, with what that line had
done by then. It has added no rule; and it had done nothing where the fault is found early. -/
theorem addText_failed {line : Nat}
    (failed : (addText text).run grammar = (.error ⟨line, fault⟩, next)) :
    ∃ lines before rest mid, text.toList = before ++ rest ∧
      Through grammar lines before rest mid ∧ line = 1 + lines.length ∧
      mid.SameRules next ∧ (fault.Early → next = mid) ∧
      ((fault = .unterminated ∧ ∃ tokens inside, OpenLine tokens rest inside) ∨
        ∃ tokens behind, FirstLine tokens rest behind ∧
          (Statement.ofTokens tokens).Leaves mid fault next) := by
  rw [addText_eq] at failed
  obtain ⟨lines, before, rest, mid, split, through, counted, fails⟩ := exists_through failed
  refine ⟨lines, before, rest, mid, split, through, counted, ?_⟩
  cases fails with
  | @statement tokens behind _ _ whole stated =>
    have orderly := Statement.Orderly.ofTokens tokens
    have leaves := orderly.leaves stated
    exact ⟨leaves.sameRules, leaves.eq_of_early orderly, .inr ⟨tokens, behind, whole, leaves⟩⟩
  | @unclosed tokens inside broken =>
    exact ⟨.refl _, fun _ => rfl, .inl ⟨rfl, tokens, inside, broken⟩⟩

/-- A word among root labels. -/
def wordAsRoot : String := "@top row \"x\""

theorem run_wordAsRoot : ((addText wordAsRoot).run empty).1 =
    .error ⟨1, .expected .rootLabel (some (.quoted "x"))⟩ := by cbv

theorem addText_failed_root : ∃ lines before rest mid, wordAsRoot.toList = before ++ rest ∧
    Through empty lines before rest mid ∧ 1 = 1 + lines.length ∧
    mid.SameRules ((addText wordAsRoot).run empty).2 := by
  obtain ⟨lines, before, rest, mid, split, through, counted, kept, _⟩ :=
    addText_failed (Prod.ext run_wordAsRoot rfl)
  exact ⟨lines, before, rest, mid, split, through, counted, kept⟩

/-- A statement that fails may leave roots that stand ahead of its fault. -/
theorem root_ahead_of_fault_kept :
    ¬ ∀ (text : String) (grammar next : Grammar) (line : Nat) (fault : Fault),
      (addText text).run grammar = (.error ⟨line, fault⟩, next) →
      ∀ lines before rest mid, text.toList = before ++ rest →
        Through grammar lines before rest mid → LineFails mid rest fault next → next = mid := by
  intro unchanged
  have directive : Lexeme.next wordAsRoot.toList =
      .token (.directive "top") " row \"x\"".toList := by cbv
  have label : Lexeme.next " row \"x\"".toList = .token (.symbol "row") " \"x\"".toList := by cbv
  have word : Lexeme.next " \"x\"".toList = .token (.quoted "x") [] := by cbv
  have line : FirstLine [.directive "top", .symbol "row", .quoted "x"] wordAsRoot.toList [] :=
    ⟨[], .cons directive (.cons label (.cons word .nil)), .blanks (by simp [IsGap]), .inl rfl⟩
  have said : ((Statement.ofTokens [.directive "top", .symbol "row", .quoted "x"]).apply.run
      empty).1 = .error (.expected .rootLabel (some (.quoted "x"))) := by cbv
  obtain ⟨next, stated, registered⟩ :
      ∃ next, (Statement.ofTokens [.directive "top", .symbol "row", .quoted "x"]).apply.run empty =
        (.error (.expected .rootLabel (some (.quoted "x"))), next) ∧ next.labels.size = 1 :=
    ⟨_, Prod.ext said rfl, by cbv⟩
  have fails : LineFails empty wordAsRoot.toList _ next := .statement line stated
  have through : Through empty [] [] wordAsRoot.toList empty := ⟨.nil, by cbv⟩
  obtain rfl := unchanged wordAsRoot empty next 1 _ (fails.run 1) [] [] _ empty rfl through fails
  cases registered

end Statements

end Text

end Constituency
