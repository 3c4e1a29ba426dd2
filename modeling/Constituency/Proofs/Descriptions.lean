import Constituency.Proofs.RuleCodes
import Constituency.Proofs.Calls
import Constituency.Proofs.FailedStatements

/-!
Rules read back from their descriptions. Every label that a text can bring into a grammar is one that
a text can spell, so the description of a rule of two or three labels is itself a text: the grammar
that has the rule stays as it is, and the empty grammar gets this rule and no other.
-/

namespace Constituency

namespace Numbering.Extends

variable {α : Type} [BEq α] [Hashable α] {values more : Numbering α} {value : α} {number : Nat}

theorem get? (longer : values.Extends more) (known : values.get? number = some value) :
    more.get? number = some value := by
  rw [get?_eq] at known ⊢
  obtain ⟨inside, same⟩ := List.getElem?_eq_some_iff.mp known
  rw [List.getElem?_eq_some_iff]
  exact ⟨inside.trans_le longer.items.length_le, (longer.items.getElem inside).symm.trans same⟩

end Numbering.Extends

namespace Text

open Grammar

section Labels

variable {tokens : List Token} {text rest : List Char} {label : String}

theorem isLabel_of_ofSymbol {c : Char} {run : List Char} (symbols : (c :: run).all isSymbol = true)
    (plain : c ≠ '@') (read : Token.ofSymbol (c :: run) = .symbol label) : IsLabel label := by
  rw [Token.ofSymbol] at read
  split at read
  · cases read
  rename_i not_arrow
  split at read
  · cases read
  rename_i not_star
  obtain rfl := Token.symbol.inj read
  refine ⟨by simp, fun d member => ?_, by simpa using plain, ?_, ?_⟩
  · rw [String.toList_ofList] at member
    exact (isSymbol_iff d).mp (List.all_eq_true.mp symbols d member)
  · exact fun same => not_arrow (by rw [← String.toList_ofList (l := c :: run), same]; rfl)
  · exact fun same => not_star (by rw [← String.toList_ofList (l := c :: run), same]; rfl)

theorem isLabel_of_next (read : Lexeme.next text = .token (.symbol label) rest) :
    IsLabel label := by
  obtain ⟨gap, c, more, rfl, isGap, visible, uncommented, read⟩ := exists_gap_of_next read
  rw [Lexeme.atCharacter] at read
  split at read
  · cases read
  split at read
  · split at read
    · cases read
    · cases read
  rename_i unquoted
  split at read
  · cases read
  rename_i plain
  have symbols : (c :: more.takeWhile isSymbol).all isSymbol = true := by
    rw [List.all_cons, (isSymbol_iff c).mpr ⟨visible, uncommented, unquoted⟩, Bool.true_and]
    exact List.all_takeWhile
  exact isLabel_of_ofSymbol symbols plain (Lexeme.token.inj read).1

theorem Reads.isLabel (reads : Reads tokens text rest) (member : .symbol label ∈ tokens) :
    IsLabel label := by
  induction reads with
  | nil => cases member
  | cons read _ ih =>
    rcases List.mem_cons.mp member with rfl | later
    · exact isLabel_of_next read
    · exact ih later

theorem isLabel_of_extend (text : List Char) {number : Nat} {line : Line}
    (inside : line ∈ (Lines.extend number [] text).lines) (member : .symbol label ∈ line.tokens) :
    IsLabel label := by
  induction text using line_induction generalizing number with
  | line tokens text more first ih =>
    rw [first.extend] at inside
    rcases List.mem_cons.mp inside with rfl | later
    · obtain ⟨_, reads, _⟩ := first
      exact reads.isLabel member
    · exact ih later
  | last tokens text last =>
    rw [last.extend_last] at inside
    obtain rfl := List.mem_singleton.mp inside
    obtain ⟨_, reads, _⟩ := last
    exact reads.isLabel member
  | unclosed tokens text rest line =>
    rw [line.extend] at inside
    cases inside

end Labels

section Names

variable {tokens : List Token} {addition : Addition} {name : String}

theorem symbol_mem_of_ofRoots (member : addition ∈ (Statement.ofRoots tokens).additions)
    (named : name ∈ addition.names) : .symbol name ∈ tokens := by
  fun_induction Statement.ofRoots tokens with
  | case1 => cases member
  | case2 label rest ih =>
    rcases List.mem_cons.mp member with rfl | later
    · obtain rfl := List.mem_singleton.mp named
      exact List.mem_cons_self
    · exact List.mem_cons_of_mem _ (ih later)
  | case3 => cases member

theorem eq_of_ofWords {label : String} (member : addition ∈ (Statement.ofWords label tokens).additions)
    (named : name ∈ addition.names) : name = label := by
  fun_induction Statement.ofWords label tokens with
  | case1 => cases member
  | case2 word rest ih =>
    rcases List.mem_cons.mp member with rfl | later
    · exact List.mem_singleton.mp named
    · exact ih later
  | case3 => cases member

theorem symbol_mem_of_ofBody {parent : String}
    (member : addition ∈ (Statement.ofBody parent tokens).additions)
    (named : name ∈ addition.names) : name = parent ∨ .symbol name ∈ tokens := by
  unfold Statement.ofBody at member
  split at member
  · cases member
  · obtain rfl := List.mem_singleton.mp member
    simpa [Addition.names] using named
  · obtain rfl := List.mem_singleton.mp member
    simpa [Addition.names] using named
  · obtain rfl := List.mem_singleton.mp member
    exact .inl (List.mem_singleton.mp named)
  · exact .inl (eq_of_ofWords member named)
  · cases member
  · cases member

theorem symbol_mem_of_ofTokens (member : addition ∈ (Statement.ofTokens tokens).additions)
    (named : name ∈ addition.names) : .symbol name ∈ tokens := by
  unfold Statement.ofTokens at member
  split at member
  · cases member
  · split at member
    · split at member
      · cases member
      · exact List.mem_cons_of_mem _ (symbol_mem_of_ofRoots member named)
    · cases member
  · rcases symbol_mem_of_ofBody member named with rfl | body
    · exact List.mem_cons_self
    · exact List.mem_cons_of_mem _ (List.mem_cons_of_mem _ body)
  · cases member
  · cases member
  · cases member

theorem exists_line_of_ofLines {last : Option LineFault} {lines : List Line}
    {item : Nat × Addition} (member : item ∈ (Reading.ofLines last lines).additions) :
    ∃ line ∈ lines, item.2 ∈ (Statement.ofTokens line.tokens).additions := by
  induction lines with
  | nil => cases member
  | cons line lines ih =>
    have own (inside : item ∈ (Statement.ofTokens line.tokens).additions.map (line.number, ·)) :
        item.2 ∈ (Statement.ofTokens line.tokens).additions := by
      obtain ⟨addition, found, rfl⟩ := List.mem_map.mp inside
      exact found
    simp only [Reading.ofLines] at member
    split at member
    · exact ⟨line, List.mem_cons_self, own member⟩
    · rcases List.mem_append.mp member with first | later
      · exact ⟨line, List.mem_cons_self, own first⟩
      · obtain ⟨other, inside, found⟩ := ih later
        exact ⟨other, List.mem_cons_of_mem _ inside, found⟩

theorem isLabel_of_reading {text : String}
    (member : addition ∈ (Reading.ofText text).additions.map Prod.snd)
    (named : name ∈ addition.names) : IsLabel name := by
  obtain ⟨item, inside, rfl⟩ := List.mem_map.mp member
  obtain ⟨line, among, found⟩ := exists_line_of_ofLines inside
  exact isLabel_of_extend text.toList among (symbol_mem_of_ofTokens found named)

end Names

theorem run_declared {declaration : Declaration} {text : String} {grammar next : Grammar}
    (proper : declaration.Proper) (spells : Spells declaration.tokens text.toList)
    (done : declaration.add.run grammar = (.ok (), next)) :
    (addText text).run grammar = (.ok (), next) := by
  obtain ⟨lines, additions, extended, read, same⟩ :=
    exists_reading (.last spells) (by simpa using proper) 1
  have reading : Reading.ofText text = ⟨additions, none⟩ := by
    rw [Reading.ofText, Lines.ofText, extended]
    exact read
  have ends := run_reading ⟨additions, none⟩ grammar
  rw [same, List.flatMap_singleton, forM_additions, done] at ends
  rw [addText, reading]
  exact ends

end Text

namespace Grammar

open Text

variable {grammar next : Grammar} {label : Label} {rule : Rule}

section Legible

/-- A grammar all of whose labels can be spelled in a text. -/
def Legible (grammar : Grammar) : Prop := ∀ name ∈ grammar.labels.toList, IsLabel name

theorem mem_of_tried {additions : List Addition} {addition : Addition} (grammar : Grammar)
    (member : addition ∈ tried additions grammar) : addition ∈ additions := by
  induction additions generalizing grammar with
  | nil => cases member
  | cons first rest ih =>
    rw [tried] at member
    rcases List.mem_cons.mp member with rfl | later
    · exact List.mem_cons_self
    · split at later
      · exact List.mem_cons_of_mem _ (ih _ later)
      · cases later

theorem legible_addText (text : String) : Legible ((addText text).run empty).2 := by
  have seen := seen_perform .empty (Request.calls empty (.text text))
  rw [perform_calls, List.nil_append] at seen
  intro name member
  change name ∈ (Request.grow empty (.text text)).labels.toList at member
  rw [seen.labels_eq] at member
  obtain ⟨call, inside, named⟩ :=
    List.mem_flatMap.mp (List.mem_eraseDups.mp (List.mem_of_mem_take member))
  obtain ⟨addition, made, rfl⟩ := List.mem_map.mp inside
  exact isLabel_of_reading (mem_of_tried empty made) named

theorem built_addText (built : grammar.Built) (text : String) :
    Built ((addText text).run grammar).2 := by
  rw [run_addText]
  exact guarded_built.additions _ built

theorem Registered.get?_labelName (registered : grammar.Registered label) :
    grammar.labels.get? label.toNat = some (grammar.labelName label) := by
  obtain ⟨name, found⟩ :=
    Option.isSome_iff_exists.mp ((isSome_get?_iff grammar.labels label.toNat).mpr registered)
  rw [labelName, found, Option.getD_some]

theorem Registered.labelName_inj (registered : grammar.Registered label)
    (sound : grammar.labels.Sound) {other : Label} (registered' : grammar.Registered other)
    (same : grammar.labelName label = grammar.labelName other) : label = other := by
  have known := (sound _ _).mpr registered.get?_labelName
  have known' := (sound _ _).mpr registered'.get?_labelName
  rw [same, known'] at known
  exact UInt16.toNat_inj.mp (Option.some.inj known).symm

theorem Legible.isLabel (legible : grammar.Legible) (registered : grammar.Registered label) :
    IsLabel (grammar.labelName label) :=
  legible _ ((Numbering.mem_toList_iff _ _).mpr ⟨_, registered.get?_labelName⟩)

end Legible

section Described

def declared (grammar : Grammar) : Rule → Declaration
  | .terminal label => .terminal (grammar.labelName label)
  | .unary rule => .unary (grammar.labelName rule.parent) (grammar.labelName rule.child)
  | .binary rule =>
    .binary (grammar.labelName rule.parent) (grammar.labelName rule.left)
      (grammar.labelName rule.right)

theorem labels_declared (grammar : Grammar) (rule : Rule) :
    (grammar.declared rule).labels = rule.labels.map grammar.labelName := by
  cases rule <;> rfl

theorem spells_describe (grammar : Grammar) (inner : rule.shape ≠ .terminal) :
    Spells (grammar.declared rule).tokens (grammar.describe rule).toList := by
  have blank : IsGap [' '] := by decide
  have stops (text : List Char) : Stops (' ' :: text) := by
    intro c first
    obtain rfl := Option.some.inj first
    exact .inl (by decide)
  have last (name : String) : Spells [.symbol name] ([' '] ++ name.toList ++ []) :=
    .cons blank (.inr (by decide)) (.nil (.blanks (by decide)))
  have rule_of (parent : String) {tokens : List Token} {body : List Char}
      (spells : Spells tokens (' ' :: body)) :
      Spells (.symbol parent :: .arrow :: tokens)
        ([] ++ parent.toList ++ ([' '] ++ ['-', '>'] ++ ' ' :: body)) :=
    .cons (by decide) (.inr (stops _)) (.cons blank (.inr (stops _)) spells)
  cases rule with
  | terminal label => exact absurd rfl inner
  | unary rule =>
    have spelled := rule_of (grammar.labelName rule.parent) (last (grammar.labelName rule.child))
    simpa [describe, declared, Declaration.tokens] using spelled
  | binary rule =>
    have body : Spells [.symbol (grammar.labelName rule.left), .symbol (grammar.labelName rule.right)]
        ([' '] ++ (grammar.labelName rule.left).toList ++
          ([' '] ++ (grammar.labelName rule.right).toList ++ [])) :=
      .cons blank (.inr (stops _)) (last _)
    have spelled := rule_of (grammar.labelName rule.parent) body
    simpa [describe, declared, Declaration.tokens] using spelled

end Described

section Again

namespace Coherent

variable (coherent : grammar.Coherent)

include coherent

theorem run_labelName_bind {β : Type} (registered : grammar.Registered label)
    (rest : Label → Edit β) :
    (Grammar.addLabel (grammar.labelName label) >>= rest).run grammar =
      (rest label).run grammar := by
  have known := (coherent.labels _ _).mpr registered.get?_labelName
  rw [Edit.run_bind, run_addLabel_of_known known]
  simp

theorem registered_of_mem (member : rule ∈ grammar.rules) :
    ∀ label ∈ rule.labels, grammar.Registered label := by
  intro label inside
  rw [rules, List.mem_append, List.mem_append] at member
  rcases member with terminal | unary | binary
  · obtain ⟨parent, found, rfl⟩ := List.mem_map.mp terminal
    obtain rfl := List.mem_singleton.mp inside
    exact coherent.terminals_registered _ found
  · obtain ⟨rule, found, rfl⟩ := List.mem_map.mp unary
    obtain ⟨parent, child⟩ := coherent.unary.registered rule found
    rcases List.mem_pair.mp inside with rfl | rfl
    · exact parent
    · exact child
  · obtain ⟨rule, found, rfl⟩ := List.mem_map.mp binary
    exact coherent.binary_registered rule found label inside

theorem run_declared_again (member : rule ∈ grammar.rules) (inner : rule.shape ≠ .terminal) :
    (grammar.declared rule).add.run grammar = (.ok (), grammar) := by
  have registered := coherent.registered_of_mem member
  have known := (coherent.contains_iff rule).mpr member
  obtain ⟨number, found⟩ := Option.isSome_iff_exists.mp known
  cases rule with
  | terminal label => exact absurd rfl inner
  | unary rule =>
    have apart : rule.parent ≠ rule.child :=
      coherent.unary_apart rule ((coherent.contains_unary_iff rule).mp known)
    have held : (Grammar.addUnary rule).run grammar = (.ok number, grammar) := by
      rw [ruleNumber?] at found
      simp only [Grammar.addUnary, ExceptT.run, ExceptT.mk, if_neg apart, found]
    rw [declared, Declaration.add, Edit.run_discard, addUnaryNamed,
      coherent.run_labelName_bind (registered _ (by simp [Rule.labels, Rule.parent])),
      coherent.run_labelName_bind (registered _ (by simp [Rule.labels, Rule.children])), held]
    rfl
  | binary rule =>
    have held : (Grammar.addBinary rule).run grammar = (.ok number, grammar) := by
      rw [ruleNumber?] at found
      simp only [Grammar.addBinary, ExceptT.run, ExceptT.mk, found]
    rw [declared, Declaration.add, Edit.run_discard, addBinaryNamed,
      coherent.run_labelName_bind (registered _ (by simp [Rule.labels, Rule.parent])),
      coherent.run_labelName_bind (registered _ (by simp [Rule.labels, Rule.children])),
      coherent.run_labelName_bind (registered _ (by simp [Rule.labels, Rule.children])), held]
    rfl

end Coherent

end Again

section Alone

variable {labels : Numbering String}

theorem exists_run_addLabel (sound : labels.Sound) (room : labels.size < numberLimit)
    (name : String) :
    ∃ label more, (addLabel name).run { labels := labels } = (.ok label, { labels := more }) ∧
      more.Sound ∧ more.size ≤ labels.size + 1 ∧ labels.Extends more ∧
      more.get? label.toNat = some name := by
  have fits {number : Nat} (small : number < numberLimit) : number.toUInt16.toNat = number :=
    Nat.mod_eq_of_lt small
  rcases run_addLabel name { labels := labels } with
    ⟨number, known, result⟩ | ⟨new, _, result⟩ | ⟨full, _⟩
  · refine ⟨_, _, result, sound, Nat.le_succ _, .refl _, ?_⟩
    rw [fits ((sound.lt_size known).trans room)]
    exact (sound _ _).mp known
  · refine ⟨_, _, result, sound.push new, by simp, .push new, ?_⟩
    rw [fits room, Numbering.get?_push, if_pos rfl]
  · exact absurd room (Nat.not_lt.mpr full)

theorem labelName_of_get? {name : String} (found : grammar.labels.get? label.toNat = some name) :
    grammar.labelName label = name := by
  rw [labelName, found, Option.getD_some]

theorem exists_run_addBinaryNamed (parent left right : String) :
    ∃ number next rule, (addBinaryNamed parent left right).run empty = (.ok number, next) ∧
      next.rules = [.binary rule] ∧ next.labelName rule.parent = parent ∧
      next.labelName rule.left = left ∧ next.labelName rule.right = right := by
  -- Some of the names may be one, so that the table has up to three labels.
  obtain ⟨p, first, run, sound, size, _, named⟩ := exists_run_addLabel .empty (by decide) parent
  rw [Numbering.size_empty] at size
  obtain ⟨l, second, run', sound', size', longer', named'⟩ :=
    exists_run_addLabel sound (size.trans_lt (by decide)) left
  have few : second.size ≤ 2 := by omega
  obtain ⟨r, third, run'', _, _, longer'', named''⟩ :=
    exists_run_addLabel sound' (few.trans_lt (by decide)) right
  let next : Grammar :=
    { labels := third
      binaryRules := .push .empty ⟨p, l, r⟩
      binaryByParent := fileUnder {} p 0 }
  have new : (addBinary ⟨p, l, r⟩).run { labels := third } = (.ok 0, next) := by
    have none : (Grammar.binaryRules { labels := third }).find? ⟨p, l, r⟩ = none :=
      Numbering.find?_empty _
    simp only [addBinary, ExceptT.run, ExceptT.mk, none]
    rfl
  have made : (addBinaryNamed parent left right).run { labels := .empty } = (.ok 0, next) := by
    rw [addBinaryNamed, Edit.run_bind, run]
    simp only
    rw [Edit.run_bind, run']
    simp only
    rw [Edit.run_bind, run'']
    exact new
  exact ⟨0, next, ⟨p, l, r⟩, made, rfl, labelName_of_get? (longer''.get? (longer'.get? named)),
    labelName_of_get? (longer''.get? named'), labelName_of_get? named''⟩

theorem exists_run_addUnaryNamed {parent child : String} (apart : parent ≠ child) :
    ∃ number next rule, (addUnaryNamed parent child).run empty = (.ok number, next) ∧
      next.rules = [.unary rule] ∧ next.labelName rule.parent = parent ∧
      next.labelName rule.child = child := by
  obtain ⟨p, first, run, sound, size, _, named⟩ := exists_run_addLabel .empty (by decide) parent
  rw [Numbering.size_empty] at size
  obtain ⟨c, second, run', _, _, longer', named'⟩ :=
    exists_run_addLabel sound (size.trans_lt (by decide)) child
  have distinct : p ≠ c := by
    rintro rfl
    exact apart (Option.some.inj ((longer'.get? named).symm.trans named'))
  let next : Grammar := reorder
    { labels := second
      unaryRules := .push .empty ⟨p, c⟩
      unaryByParent := fileUnder {} p 0 }
  have new : (addUnary ⟨p, c⟩).run { labels := second } = (.ok 0, next) := by
    have none : (Grammar.unaryRules { labels := second }).find? ⟨p, c⟩ = none :=
      Numbering.find?_empty _
    simp only [addUnary, ExceptT.run, ExceptT.mk, if_neg distinct, none]
    rfl
  have made : (addUnaryNamed parent child).run { labels := .empty } = (.ok 0, next) := by
    rw [addUnaryNamed, Edit.run_bind, run]
    simp only
    rw [Edit.run_bind, run']
    exact new
  exact ⟨0, next, ⟨p, c⟩, made, rfl, labelName_of_get? (longer'.get? named),
    labelName_of_get? named'⟩

/-- What a rule declares makes one rule where there was nothing, described as that rule is. -/
theorem Coherent.exists_run_declared (coherent : grammar.Coherent) (member : rule ∈ grammar.rules)
    (inner : rule.shape ≠ .terminal) :
    ∃ next only, (grammar.declared rule).add.run Grammar.empty = (.ok (), next) ∧ next.rules = [only] ∧
      only.shape = rule.shape ∧ next.describe only = grammar.describe rule := by
  cases rule with
  | terminal label => exact absurd rfl inner
  | unary rule =>
    have registered := coherent.registered_of_mem member
    have known := (coherent.contains_iff _).mpr member
    have apart : grammar.labelName rule.parent ≠ grammar.labelName rule.child := fun same =>
      coherent.unary_apart rule ((coherent.contains_unary_iff rule).mp known)
        ((registered _ (by simp [Rule.labels, Rule.parent])).labelName_inj coherent.labels
          (registered _ (by simp [Rule.labels, Rule.children])) same)
    obtain ⟨number, next, only, run, alone, parent, child⟩ := exists_run_addUnaryNamed apart
    refine ⟨next, .unary only, ?_, alone, rfl, by rw [describe, parent, child, describe]⟩
    rw [declared, Declaration.add, Edit.run_discard, run]
    rfl
  | binary rule =>
    obtain ⟨number, next, only, run, alone, parent, left, right⟩ := exists_run_addBinaryNamed
      (grammar.labelName rule.parent) (grammar.labelName rule.left) (grammar.labelName rule.right)
    refine ⟨next, .binary only, ?_, alone, rfl, by rw [describe, parent, left, right, describe]⟩
    rw [declared, Declaration.add, Edit.run_discard, run]
    rfl

end Alone

/-- The description of a rule with two or three labels reads back, whatever text the rule comes from:
the grammar of that text stays as it is, and the empty grammar gets a rule that is described alike,
and no other. -/
theorem addText_describe {text : String} (accepted : (addText text).run empty = (.ok (), grammar))
    (member : rule ∈ grammar.rules) (inner : rule.shape ≠ .terminal) :
    (addText (grammar.describe rule)).run grammar = (.ok (), grammar) ∧
      ∃ alone only, (addText (grammar.describe rule)).run empty = (.ok (), alone) ∧
        alone.rules = [only] ∧ only.shape = rule.shape ∧
        alone.describe only = grammar.describe rule := by
  have left : ((addText text).run empty).2 = grammar := congrArg Prod.snd accepted
  have coherent : grammar.Coherent := by
    rw [← left]
    exact (built_addText .empty text).coherent
  have legible : grammar.Legible := by
    rw [← left]
    exact legible_addText text
  have proper : (grammar.declared rule).Proper := by
    intro name inside
    rw [labels_declared] at inside
    obtain ⟨label, among, rfl⟩ := List.mem_map.mp inside
    exact legible.isLabel (coherent.registered_of_mem member label among)
  have spells := spells_describe grammar inner
  refine ⟨run_declared proper spells (coherent.run_declared_again member inner), ?_⟩
  obtain ⟨alone, only, done, rest⟩ := coherent.exists_run_declared member inner
  exact ⟨alone, only, run_declared proper spells done, rest⟩

/-- Labels that are not quite a directive, an arrow or a star. -/
def lookalikes : String := "x@ -> ** --> % three of them\n--> -> x@"

theorem run_lookalikes : ((addText lookalikes).run empty).1 = .ok () := by cbv

theorem rules_lookalikes :
    ((addText lookalikes).run empty).2.rules = [.unary ⟨2, 0⟩, .binary ⟨0, 1, 2⟩] := by cbv

theorem describe_lookalikes :
    ((addText lookalikes).run empty).2.describe (.binary ⟨0, 1, 2⟩) = "x@ -> ** -->" := by cbv

theorem addText_describe_lookalikes : ∃ grammar,
    (addText lookalikes).run empty = (.ok (), grammar) ∧ .binary ⟨0, 1, 2⟩ ∈ grammar.rules ∧
      (addText "x@ -> ** -->").run grammar = (.ok (), grammar) ∧
      ∃ alone only, (addText "x@ -> ** -->").run empty = (.ok (), alone) ∧
        alone.rules = [only] ∧ only.shape = .binary ∧ alone.describe only = "x@ -> ** -->" := by
  have accepted : (addText lookalikes).run empty = (.ok (), ((addText lookalikes).run empty).2) :=
    Prod.ext run_lookalikes rfl
  have member : Rule.binary ⟨0, 1, 2⟩ ∈ ((addText lookalikes).run empty).2.rules := by
    rw [rules_lookalikes]
    exact List.mem_cons_of_mem _ List.mem_cons_self
  have again := addText_describe accepted member (by decide)
  rw [describe_lookalikes] at again
  exact ⟨_, accepted, member, again⟩

end Grammar

end Constituency
