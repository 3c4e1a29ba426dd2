import Mathlib.Data.List.Basic
import Constituency.Proofs.Edits

/-!
Declarations as they are written. A text that spells declarations out, one on a line, with blanks
and comments wherever they may stand, adds to a grammar what the declarations add.
-/

namespace Constituency.Text

open Grammar

/-- A label as it may stand in a text. -/
structure IsLabel (label : String) : Prop where
  nonempty : label.toList ≠ []
  run : ∀ c ∈ label.toList, isBlank c = false ∧ c ≠ '%' ∧ c ≠ '"'
  plain : label.toList.head? ≠ some '@'
  not_arrow : label ≠ "->"
  not_star : label ≠ "*"

/-- What one line of a text declares. -/
inductive Declaration
  | roots (first : String) (rest : List String)
  | binary (parent left right : String)
  | unary (parent child : String)
  | terminal (label : String)
  | lexical (label first : String) (rest : List String)

namespace Declaration

def labels : Declaration → List String
  | roots first rest => first :: rest
  | binary parent left right => [parent, left, right]
  | unary parent child => [parent, child]
  | terminal label => [label]
  | lexical label _ _ => [label]

def Proper (declaration : Declaration) : Prop := ∀ label ∈ declaration.labels, IsLabel label

def add : Declaration → Edit Unit
  | roots first rest => (first :: rest).forM fun label => discard (addRootNamed label)
  | binary parent left right => discard (addBinaryNamed parent left right)
  | unary parent child => discard (addUnaryNamed parent child)
  | terminal label => discard (addTerminalNamed label)
  | lexical label first rest =>
    (first :: rest).forM fun word => discard (addLexicalNamed label word)

def tokens : Declaration → List Token
  | roots first rest => .directive "top" :: (first :: rest).map .symbol
  | binary parent left right => [.symbol parent, .arrow, .symbol left, .symbol right]
  | unary parent child => [.symbol parent, .arrow, .symbol child]
  | terminal label => [.symbol label, .arrow, .star]
  | lexical label first rest => .symbol label :: .arrow :: (first :: rest).map .quoted

def additions : Declaration → List Addition
  | roots first rest => (first :: rest).map .root
  | binary parent left right => [.binary parent left right]
  | unary parent child => [.unary parent child]
  | terminal label => [.terminal label]
  | lexical label first rest => (first :: rest).map (.lexical label)

end Declaration

section Spelling

/-- The characters that stand for a character of a word between quotes. -/
def escape (c : Char) : List Char :=
  if c = '"' ∨ c = '\\' ∨ c = '\n' then ['\\', c] else [c]

def Token.spell : Token → List Char
  | symbol text => text.toList
  | quoted word => '"' :: word.toList.flatMap escape ++ ['"']
  | directive name => '@' :: name.toList
  | arrow => ['-', '>']
  | star => ['*']

/-- Blanks within a line. -/
def IsGap (gap : List Char) : Prop := ∀ c ∈ gap, isBlank c = true ∧ c ≠ '\n'

-- Searching the list, not all characters.
instance (gap : List Char) : Decidable (IsGap gap) :=
  List.decidableBAll (fun c => isBlank c = true ∧ c ≠ '\n') gap

/-- What may follow the last token of a line, and all there is on a line without tokens: blanks and
a comment. -/
inductive IsEnding : List Char → Prop
  | blanks {gap : List Char} : IsGap gap → IsEnding gap
  | comment {gap comment : List Char} : IsGap gap → '\n' ∉ comment →
    IsEnding (gap ++ '%' :: comment)

/-- A text that is empty or starts with a blank, a comment or a word. -/
def Stops (text : List Char) : Prop := ∀ c ∈ text.head?, isBlank c = true ∨ c = '%' ∨ c = '"'

instance (text : List Char) : Decidable (Stops text) :=
  @Option.decidableForallMem Char (fun c => isBlank c = true ∨ c = '%' ∨ c = '"') _ text.head?

/-- Whether a token ends where the text goes on. The closing quote ends a word; any other token goes
on up to a blank, a comment or a word. -/
def Token.Ends (token : Token) (text : List Char) : Prop :=
  (∃ word, token = quoted word) ∨ Stops text

/-- Lines that spell some tokens, with any blanks and any comment. -/
inductive Spells : List Token → List Char → Prop
  | nil {ending : List Char} : IsEnding ending → Spells [] ending
  | cons {token : Token} {tokens : List Token} {gap rest : List Char} : IsGap gap →
    token.Ends rest → Spells tokens rest → Spells (token :: tokens) (gap ++ token.spell ++ rest)

/-- Texts that write some declarations, one on a line, with any lines in between that are blank or
have a comment only. The last line may have no newline behind it. -/
inductive Writes : List Declaration → List Char → Prop
  | nil {ending : List Char} : IsEnding ending → Writes [] ending
  | last {declaration : Declaration} {line : List Char} : Spells declaration.tokens line →
    Writes [declaration] line
  | blank {declarations : List Declaration} {ending text : List Char} : IsEnding ending →
    Writes declarations text → Writes declarations (ending ++ '\n' :: text)
  | cons {declaration : Declaration} {declarations : List Declaration} {line text : List Char} :
    Spells declaration.tokens line → Writes declarations text →
    Writes (declaration :: declarations) (line ++ '\n' :: text)

/-- A text for some declarations, with a blank before each token. -/
def write (declarations : List Declaration) : List Char :=
  declarations.flatMap fun declaration =>
    declaration.tokens.flatMap (fun token => ' ' :: token.spell) ++ ['\n']

theorem spells_blanks (tokens : List Token) :
    Spells tokens (tokens.flatMap fun token => ' ' :: token.spell) := by
  induction tokens with
  | nil => exact .nil (.blanks (by decide))
  | cons token tokens ih =>
    refine @Spells.cons token tokens [' '] _ (by decide) (.inr ?_) ih
    intro c first
    cases tokens with
    | nil => cases first
    | cons other tokens =>
      obtain rfl := Option.some.inj first
      exact .inl (by decide)

/-- Every list of declarations can be written. -/
theorem writes_write (declarations : List Declaration) :
    Writes declarations (write declarations) := by
  induction declarations with
  | nil => exact .nil (.blanks (by decide))
  | cons declaration declarations ih =>
    have line := Writes.cons (spells_blanks declaration.tokens) ih
    rw [write, List.flatMap_cons, List.append_assoc]
    exact line

end Spelling

section Tokens

theorem isSymbol_iff (c : Char) :
    isSymbol c = true ↔ isBlank c = false ∧ c ≠ '%' ∧ c ≠ '"' := by
  simp [isSymbol, and_assoc]

theorem ne_newline_of_visible {c : Char} (visible : isBlank c = false) : c ≠ '\n' := by
  rintro rfl
  exact absurd visible (by decide)

theorem skipBlanks_gap {gap : List Char} (blank : IsGap gap) (text : List Char) :
    skipBlanks (gap ++ text) = skipBlanks text := by
  induction gap with
  | nil => rfl
  | cons c gap ih =>
    obtain ⟨isBlank, inline⟩ := blank c List.mem_cons_self
    rw [List.cons_append, skipBlanks, if_neg inline, if_pos isBlank]
    exact ih fun d member => blank d (List.mem_cons_of_mem c member)

theorem skipBlanks_of_not_blank {c : Char} (visible : isBlank c = false) (uncommented : c ≠ '%')
    (text : List Char) : skipBlanks (c :: text) = c :: text := by
  have inline := ne_newline_of_visible visible
  rw [skipBlanks, if_neg inline, if_neg (by simp [visible]), if_neg uncommented]

/-- The text behind a line: nothing, or a newline and what follows. -/
def AfterLine (text : List Char) : Prop := text = [] ∨ ∃ more, text = '\n' :: more

theorem skipBlanks_afterLine {text : List Char} (behind : AfterLine text) :
    skipBlanks text = text := by
  rcases behind with rfl | ⟨more, rfl⟩
  · rfl
  · rw [skipBlanks, if_pos rfl]

theorem skipBlanks_ending {ending : List Char} (isEnding : IsEnding ending) {text : List Char}
    (behind : AfterLine text) : skipBlanks (ending ++ text) = text := by
  cases isEnding with
  | blanks blank => rw [skipBlanks_gap blank, skipBlanks_afterLine behind]
  | @comment gap comment blank inline =>
    have commented : skipBlanks ('%' :: (comment ++ text)) =
        (comment ++ text).dropWhile (· != '\n') := rfl
    rw [List.append_assoc, List.cons_append, skipBlanks_gap blank, commented,
      List.dropWhile_append_of_pos]
    · rcases behind with rfl | ⟨more, rfl⟩
      · rfl
      · rfl
    · intro c member
      rw [bne_iff_ne]
      rintro rfl
      exact inline member

theorem readQuoted_escape (word text : List Char) :
    readQuoted (word.flatMap escape ++ '"' :: text) = some (word, text) := by
  induction word with
  | nil =>
    rw [List.flatMap_nil, List.nil_append, readQuoted.eq_def]
    simp
  | cons c word ih =>
    rw [List.flatMap_cons, List.append_assoc, escape]
    by_cases special : c = '"' ∨ c = '\\' ∨ c = '\n'
    · rw [if_pos special]
      simp [readQuoted, ih]
    · rw [if_neg special]
      simp only [not_or] at special
      rw [List.singleton_append, readQuoted.eq_def]
      simp [special, ih]

/-- Whether a token comes back as it is spelled. -/
def Token.Spelled (token : Token) : Prop :=
  ∀ text, token.Ends text → ∃ c rest, token.spell ++ text = c :: rest ∧ isBlank c = false ∧
    c ≠ '%' ∧ Lexeme.atCharacter c rest = .token token text

theorem spelled_quoted (word : String) : (Token.quoted word).Spelled := by
  intro text _
  refine ⟨'"', word.toList.flatMap escape ++ '"' :: text, by simp [Token.spell], by decide,
    by decide, ?_⟩
  rw [Lexeme.atCharacter, if_neg (by decide), if_pos rfl, readQuoted_escape]
  simp

theorem span_symbols {run text : List Char} (symbols : run.all isSymbol = true)
    (stops : Stops text) :
    (run ++ text).takeWhile isSymbol = run ∧ (run ++ text).dropWhile isSymbol = text := by
  have stops' : text.takeWhile isSymbol = [] ∧ text.dropWhile isSymbol = text := by
    cases text with
    | nil => exact ⟨rfl, rfl⟩
    | cons c text =>
      have stop : isSymbol c = false := by
        rcases stops c rfl with blank | rfl | rfl
        · simp [isSymbol, blank]
        · decide
        · decide
      rw [List.takeWhile_cons, List.dropWhile_cons, stop]
      exact ⟨rfl, rfl⟩
  rw [List.all_eq_true] at symbols
  rw [List.takeWhile_append_of_pos symbols, List.dropWhile_append_of_pos symbols, stops'.1,
    stops'.2, List.append_nil]
  exact ⟨rfl, rfl⟩

theorem spelled_directive : (Token.directive "top").Spelled := by
  intro text ends
  have stops : Stops text := by
    rcases ends with ⟨word, quoted⟩ | stops
    · cases quoted
    · exact stops
  obtain ⟨taken, dropped⟩ := @span_symbols "top".toList text (by decide) stops
  refine ⟨'@', "top".toList ++ text, rfl, by decide, by decide, ?_⟩
  rw [Lexeme.atCharacter, if_neg (by decide), if_neg (by decide), if_pos rfl, taken, dropped,
    String.ofList_toList]

theorem spelled_run {token : Token} {c : Char} {run : List Char} (spell : token.spell = c :: run)
    (symbols : (c :: run).all isSymbol = true) (plain : c ≠ '@')
    (reads : Token.ofSymbol (c :: run) = token) : token.Spelled := by
  intro text ends
  rw [List.all_cons, Bool.and_eq_true] at symbols
  obtain ⟨visible, uncommented, unquoted⟩ := (isSymbol_iff c).mp symbols.1
  have inline := ne_newline_of_visible visible
  have stops : Stops text := by
    rcases ends with ⟨word, rfl⟩ | stops
    · exact absurd (List.cons.inj spell).1.symm unquoted
    · exact stops
  obtain ⟨taken, dropped⟩ := span_symbols symbols.2 stops
  refine ⟨c, run ++ text, by rw [spell, List.cons_append], visible, uncommented, ?_⟩
  rw [Lexeme.atCharacter, if_neg inline, if_neg unquoted, if_neg plain, taken, dropped, reads]

theorem spelled_arrow : Token.arrow.Spelled :=
  spelled_run rfl (by decide) (by decide) rfl

theorem spelled_star : Token.star.Spelled :=
  spelled_run rfl (by decide) (by decide) rfl

theorem IsLabel.spelled {label : String} (isLabel : IsLabel label) :
    (Token.symbol label).Spelled := by
  obtain ⟨c, run, opened⟩ := List.exists_cons_of_ne_nil isLabel.nonempty
  have whole : label = String.ofList (c :: run) := by rw [← opened, String.ofList_toList]
  apply @spelled_run (.symbol label) c run opened
  · rw [← opened, List.all_eq_true]
    exact fun d member => (isSymbol_iff d).mpr (isLabel.run d member)
  · rintro rfl
    exact isLabel.plain (by rw [opened]; rfl)
  · have arrow : c :: run ≠ ['-', '>'] := fun same => isLabel.not_arrow (by rw [whole, same])
    have star : c :: run ≠ ['*'] := fun same => isLabel.not_star (by rw [whole, same])
    rw [Token.ofSymbol, if_neg arrow, if_neg star, whole]

theorem Declaration.token_cases (declaration : Declaration) :
    ∀ token ∈ declaration.tokens, token = .directive "top" ∨ token = .arrow ∨ token = .star ∨
      (∃ word, token = .quoted word) ∨ ∃ label ∈ declaration.labels, token = .symbol label := by
  intro token member
  cases declaration with
  | roots first rest =>
    rcases List.mem_cons.mp member with rfl | symbol
    · exact .inl rfl
    · obtain ⟨label, inside, rfl⟩ := List.mem_map.mp symbol
      exact .inr (.inr (.inr (.inr ⟨label, inside, rfl⟩)))
  | lexical label first rest =>
    rcases List.mem_cons.mp member with rfl | body
    · exact .inr (.inr (.inr (.inr ⟨label, List.mem_cons_self, rfl⟩)))
    · rcases List.mem_cons.mp body with rfl | quoted
      · exact .inr (.inl rfl)
      · obtain ⟨word, _, rfl⟩ := List.mem_map.mp quoted
        exact .inr (.inr (.inr (.inl ⟨word, rfl⟩)))
  | _ =>
    simp only [tokens, List.mem_cons, List.not_mem_nil, or_false] at member
    simp only [labels, List.mem_cons, List.not_mem_nil, or_false]
    grind

theorem Declaration.Proper.spelled {declaration : Declaration} (proper : declaration.Proper) :
    ∀ token ∈ declaration.tokens, token.Spelled := by
  intro token member
  rcases declaration.token_cases token member with
    rfl | rfl | rfl | ⟨word, rfl⟩ | ⟨label, inside, rfl⟩
  · exact spelled_directive
  · exact spelled_arrow
  · exact spelled_star
  · exact spelled_quoted word
  · exact (proper label inside).spelled

theorem next_token {token : Token} {gap text : List Char} (spelled : token.Spelled)
    (blank : IsGap gap) (ends : token.Ends text) :
    Lexeme.next (gap ++ token.spell ++ text) = .token token text := by
  obtain ⟨c, rest, opened, visible, uncommented, read⟩ := spelled text ends
  rw [Lexeme.next, List.append_assoc, skipBlanks_gap blank, opened,
    skipBlanks_of_not_blank visible uncommented]
  exact read

end Tokens

section Lines

variable {number : Nat} {before tokens : List Token} {text rest line : List Char}

theorem extend_eq (number : Nat) (before : List Token) (text : List Char) :
    Lines.extend number before text =
      match Lexeme.next text with
      | .stop => ⟨[⟨number, before⟩], none⟩
      | .unterminated => ⟨[], some number⟩
      | .token token rest => Lines.extend number (before ++ [token]) rest
      | .lineEnd rest =>
        let later := Lines.extend (number + 1) [] rest
        ⟨⟨number, before⟩ :: later.lines, later.unterminated⟩ := by
  rw [Lines.extend]
  split
  all_goals simp_all

theorem extend_spelled (spells : Spells tokens line) (spelled : ∀ token ∈ tokens, token.Spelled)
    (behind : AfterLine text) :
    Lines.extend number before (line ++ text) = Lines.extend number (before ++ tokens) text := by
  induction spells generalizing before with
  | @nil ending isEnding =>
    have same : Lexeme.next (ending ++ text) = Lexeme.next text := by
      rw [Lexeme.next, Lexeme.next, skipBlanks_ending isEnding behind, skipBlanks_afterLine behind]
    rw [List.append_nil, extend_eq, same, ← extend_eq]
  | @cons token tokens gap rest blank ends _ ih =>
    have ends' : token.Ends (rest ++ text) := by
      rcases ends with quoted | stops
      · exact .inl quoted
      · refine .inr fun c first => ?_
        cases rest with
        | cons d rest => exact stops c first
        | nil =>
          rcases behind with rfl | ⟨more, rfl⟩
          · cases first
          · obtain rfl := Option.some.inj first
            exact .inl (by decide)
    rw [List.append_assoc, extend_eq,
      next_token (spelled token List.mem_cons_self) blank ends']
    simp only
    rw [ih fun other member => spelled other (List.mem_cons_of_mem token member),
      List.append_assoc, List.singleton_append]

theorem extend_last (spells : Spells tokens line) (spelled : ∀ token ∈ tokens, token.Spelled)
    (number : Nat) : Lines.extend number [] line = ⟨[⟨number, tokens⟩], none⟩ := by
  have read := @extend_spelled number [] _ [] _ spells spelled (.inl rfl)
  rw [List.append_nil, List.nil_append] at read
  rw [read, extend_eq]
  rfl

theorem extend_line (spells : Spells tokens line) (spelled : ∀ token ∈ tokens, token.Spelled)
    (number : Nat) {lines : List Line}
    (later : Lines.extend (number + 1) [] text = ⟨lines, none⟩) :
    Lines.extend number [] (line ++ '\n' :: text) = ⟨⟨number, tokens⟩ :: lines, none⟩ := by
  have read := @extend_spelled number [] _ ('\n' :: text) _ spells spelled (.inr ⟨text, rfl⟩)
  have newline : Lexeme.next ('\n' :: text) = .lineEnd text := rfl
  rw [List.nil_append] at read
  rw [read, extend_eq, newline]
  simp only [later]

end Lines

section Declarations

theorem ofRoots_symbols (labels : List String) :
    Statement.ofRoots (labels.map .symbol) = ⟨labels.map .root, none⟩ := by
  induction labels with
  | nil => rfl
  | cons label labels ih =>
    rw [List.map_cons, Statement.ofRoots, ih]
    rfl

theorem ofWords_quoted (label : String) (words : List String) :
    Statement.ofWords label (words.map .quoted) = ⟨words.map (.lexical label), none⟩ := by
  induction words with
  | nil => rfl
  | cons word words ih =>
    rw [List.map_cons, Statement.ofWords, ih]
    rfl

theorem ofTokens_declaration (declaration : Declaration) :
    Statement.ofTokens declaration.tokens = ⟨declaration.additions, none⟩ := by
  cases declaration with
  | roots first rest => exact ofRoots_symbols (first :: rest)
  | binary parent left right => rfl
  | unary parent child => rfl
  | terminal label => rfl
  | lexical label first rest => exact ofWords_quoted label (first :: rest)

theorem ofLines_cons {tokens : List Token} {added : List Addition}
    (statement : Statement.ofTokens tokens = ⟨added, none⟩) {lines : List Line}
    {additions : List (Nat × Addition)} (later : Reading.ofLines none lines = ⟨additions, none⟩)
    (number : Nat) : Reading.ofLines none (⟨number, tokens⟩ :: lines) =
      ⟨added.map (number, ·) ++ additions, none⟩ := by
  rw [Reading.ofLines]
  simp only [statement, later]

theorem exists_reading {declarations : List Declaration} {text : List Char}
    (writes : Writes declarations text)
    (proper : ∀ declaration ∈ declarations, declaration.Proper) (number : Nat) :
    ∃ lines additions, Lines.extend number [] text = ⟨lines, none⟩ ∧
      Reading.ofLines none lines = ⟨additions, none⟩ ∧
      additions.map Prod.snd = declarations.flatMap Declaration.additions := by
  have none (token : Token) (member : token ∈ []) : token.Spelled := by cases member
  induction writes generalizing number with
  | nil isEnding =>
    exact ⟨_, _, extend_last (.nil isEnding) none number, ofLines_cons rfl rfl number, rfl⟩
  | @last declaration line spells =>
    have spelled := (proper declaration List.mem_cons_self).spelled
    refine ⟨_, _, extend_last spells spelled number,
      ofLines_cons (ofTokens_declaration declaration) rfl number, ?_⟩
    simp
  | blank isEnding _ ih =>
    obtain ⟨lines, additions, extended, read, same⟩ := ih proper (number + 1)
    exact ⟨_, _, extend_line (.nil isEnding) none number extended,
      @ofLines_cons [] [] rfl _ _ read number, same⟩
  | @cons declaration declarations line text spells _ ih =>
    have spelled := (proper declaration List.mem_cons_self).spelled
    obtain ⟨lines, additions, extended, read, same⟩ :=
      ih (fun other member => proper other (List.mem_cons_of_mem _ member)) (number + 1)
    refine ⟨_, _, extend_line spells spelled number extended,
      ofLines_cons (ofTokens_declaration declaration) read number, ?_⟩
    rw [List.map_append, same, List.flatMap_cons]
    simp

theorem forM_append {ε ι : Type} (items more : List ι)
    (edit : ι → ExceptT ε (StateM Grammar) Unit) :
    (items ++ more).forM edit = items.forM edit >>= fun _ => more.forM edit := by
  induction items with
  | nil => rfl
  | cons item items ih =>
    rw [List.cons_append, List.forM, List.forM, ih, bind_assoc]

theorem forM_singleton {ε ι : Type} (item : ι) (edit : ι → ExceptT ε (StateM Grammar) Unit) :
    [item].forM edit = edit item := by
  rw [List.forM, List.forM]
  exact bind_pure_unit

theorem forM_additions (declaration : Declaration) :
    declaration.additions.forM Addition.apply = declaration.add := by
  cases declaration with
  | roots first rest => exact forM_map (first :: rest) _ _
  | binary parent left right => exact forM_singleton _ _
  | unary parent child => exact forM_singleton _ _
  | terminal label => exact forM_singleton _ _
  | lexical label first rest => exact forM_map (first :: rest) _ _

theorem forM_flatMap_additions (declarations : List Declaration) :
    (declarations.flatMap Declaration.additions).forM Addition.apply =
      declarations.forM Declaration.add := by
  induction declarations with
  | nil => rfl
  | cons declaration declarations ih =>
    rw [List.flatMap_cons, forM_append, ih, forM_additions, List.forM]

/-- A text that writes declarations does what the declarations do, one after another. If none of
their additions is refused, it is read to its end and leaves the grammar that they leave. -/
theorem addText_written {declarations : List Declaration} {text : String}
    (proper : ∀ declaration ∈ declarations, declaration.Proper)
    (writes : Writes declarations text.toList) (grammar : Grammar) :
    (∀ next, (declarations.forM Declaration.add).run grammar = (.ok (), next) →
      (addText text).run grammar = (.ok (), next)) ∧
    ∀ cause next, (declarations.forM Declaration.add).run grammar = (.error cause, next) →
      ∃ line, (addText text).run grammar = (.error ⟨line, .refused cause⟩, next) := by
  obtain ⟨lines, additions, extended, read, same⟩ := exists_reading writes proper 1
  have reading : Reading.ofText text = ⟨additions, none⟩ := by
    rw [Reading.ofText, Lines.ofText, extended]
    exact read
  have ends := run_reading ⟨additions, none⟩ grammar
  rw [same, forM_flatMap_additions] at ends
  rw [addText, reading]
  constructor
  · intro next result
    rw [result] at ends
    exact ends
  · intro cause next result
    rw [result] at ends
    exact ends

theorem writes_row : Writes [.roots "row" [], .lexical "row" "a\"b" []]
    "% roots\n  @top row % accepted\n\nrow -> \"a\\\"b\"".toList := by
  have comment : IsEnding " % accepted".toList :=
    @IsEnding.comment " ".toList " accepted".toList (by decide) (by decide)
  have root : Spells [.symbol "row"] " row % accepted".toList :=
    @Spells.cons (.symbol "row") [] " ".toList _ (by decide) (.inr (by decide)) (.nil comment)
  have roots : Spells [.directive "top", .symbol "row"] "  @top row % accepted".toList :=
    @Spells.cons (.directive "top") _ "  ".toList _ (by decide) (.inr (by decide)) root
  have word : Spells [.quoted "a\"b"] " \"a\\\"b\"".toList :=
    @Spells.cons (.quoted "a\"b") [] " ".toList [] (by decide) (.inl ⟨_, rfl⟩)
      (.nil (.blanks (by decide)))
  have body : Spells [.arrow, .quoted "a\"b"] " -> \"a\\\"b\"".toList :=
    @Spells.cons .arrow _ " ".toList _ (by decide) (.inr (by decide)) word
  have lexical : Spells [.symbol "row", .arrow, .quoted "a\"b"]
      "row -> \"a\\\"b\"".toList :=
    @Spells.cons (.symbol "row") _ [] _ (by decide) (.inr (by decide)) body
  have first : IsEnding "% roots".toList :=
    @IsEnding.comment [] " roots".toList (by decide) (by decide)
  refine .blank first ?_
  refine @Writes.cons (.roots "row" []) _ _ _ roots ?_
  refine @Writes.blank _ [] _ (.blanks (by decide)) ?_
  exact @Writes.last (.lexical "row" "a\"b" []) _ lexical

theorem isLabel_row : IsLabel "row" where
  nonempty := by decide
  run c member := by
    have symbols : "row".toList.all isSymbol = true := by decide
    exact (isSymbol_iff c).mp (List.all_eq_true.mp symbols c member)
  plain := by decide
  not_arrow := by decide
  not_star := by decide

/-- One label, accepted as a root. -/
def rooted : Grammar := { labels := .push .empty "row", roots := .insert .empty 0 }

theorem run_roots_row : (Declaration.roots "row" []).add.run empty = (.ok (), rooted) := by
  have new : (addLabel "row").run empty = (.ok 0, { labels := .push .empty "row" }) :=
    run_addLabel_of_new (Numbering.find?_empty _) (by decide)
  rw [Declaration.add, forM_singleton, Edit.run_discard, addRootNamed, Edit.run_bind, new]
  rfl

theorem run_lexical_row : ∃ next,
    (Declaration.lexical "row" "a\"b" []).add.run rooted = (.ok (), next) ∧
      next.labels = rooted.labels ∧ next.roots = rooted.roots ∧
      next.words = .push .empty "a\"b" := by
  have known : rooted.labels.find? "row" = some 0 := by
    rw [rooted, Numbering.find?_push]
    rfl
  obtain ⟨number, result⟩ := run_addLexical (Nat.toUInt16 0) "a\"b" rooted
  have said := @run_addWord_of_new ((addTerminal (Nat.toUInt16 0)).grow rooted) "a\"b"
    (Numbering.find?_empty _)
  rw [Declaration.add, forM_singleton, Edit.run_discard, addLexicalNamed, Edit.run_bind,
    run_addLabel_of_known known]
  simp only [result]
  exact ⟨_, rfl, congrArg (·.2.labels) said, congrArg (·.2.roots) said,
    congrArg (·.2.words) said⟩

theorem run_row : ∃ next,
    ([Declaration.roots "row" [], .lexical "row" "a\"b" []].forM Declaration.add).run empty =
      (.ok (), next) ∧
    next.labels.toList = ["row"] ∧ next.roots.toList = [0] ∧ next.words.toList = ["a\"b"] := by
  obtain ⟨next, result, labels, roots, words⟩ := run_lexical_row
  refine ⟨next, ?_, by rw [labels]; rfl, ?_, by rw [words]; rfl⟩
  · rw [List.forM, Edit.run_bind, run_roots_row]
    simp only
    rw [forM_singleton]
    exact result
  · have new : (Numbering.empty : Numbering Label).contains 0 = false := by
      rw [Numbering.contains_eq_isSome_find?, Numbering.find?_empty]
      rfl
    rw [roots, rooted, Numbering.insert, new]
    rfl

theorem addText_written_row : ∃ next,
    (addText "% roots\n  @top row % accepted\n\nrow -> \"a\\\"b\"").run empty = (.ok (), next) ∧
      next.labels.toList = ["row"] ∧ next.roots.toList = [0] ∧ next.words.toList = ["a\"b"] := by
  have proper : ∀ declaration ∈ [Declaration.roots "row" [], .lexical "row" "a\"b" []],
      declaration.Proper := by
    intro declaration member label inside
    have named : label = "row" := by
      rcases List.mem_pair.mp member with rfl | rfl
      · exact List.mem_singleton.mp inside
      · exact List.mem_singleton.mp inside
    rw [named]
    exact isLabel_row
  obtain ⟨next, added, tables⟩ := run_row
  exact ⟨next, (addText_written proper writes_row empty).1 next added, tables⟩

end Declarations

end Constituency.Text
