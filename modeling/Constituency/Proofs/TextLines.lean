import Mathlib
import Constituency.Proofs.Written

/-!
Texts line by line. The first line of a text is read as it is wherever it stands, whatever follows
it, and a text does what its first line says and then what the rest of it says.
-/

namespace Constituency.Text

open Grammar

variable {token : Token} {tokens : List Token} {number : Nat} {text rest behind other : List Char}

/-- Tokens read one after another, and the text behind them. -/
inductive Reads : List Token → List Char → List Char → Prop
  | nil {text : List Char} : Reads [] text text
  | cons {token : Token} {tokens : List Token} {text more rest : List Char} :
    Lexeme.next text = .token token more → Reads tokens more rest →
    Reads (token :: tokens) text rest

/-- A text whose first line has some tokens, and what stands behind that line. -/
def FirstLine (tokens : List Token) (text behind : List Char) : Prop :=
  ∃ ending, Reads tokens text (ending ++ behind) ∧ IsEnding ending ∧ AfterLine behind

/-- A text whose first line stops inside quotes, and what stands behind the opening quote. -/
def OpenLine (tokens : List Token) (text rest : List Char) : Prop :=
  ∃ gap, Reads tokens text (gap ++ '"' :: rest) ∧ IsGap gap ∧ readQuoted rest = none

section Lexemes

theorem ending_or_gap (text : List Char) :
    (∃ ending behind, text = ending ++ behind ∧ IsEnding ending ∧ AfterLine behind) ∨
      ∃ gap c rest, text = gap ++ c :: rest ∧ IsGap gap ∧ isBlank c = false ∧ c ≠ '%' := by
  induction text with
  | nil => exact .inl ⟨[], [], rfl, .blanks (by simp [IsGap]), .inl rfl⟩
  | cons c text ih =>
    by_cases newline : c = '\n'
    · subst newline
      exact .inl ⟨[], _, rfl, .blanks (by simp [IsGap]), .inr ⟨text, rfl⟩⟩
    by_cases blank : isBlank c = true
    · have longer {gap : List Char} (isGap : IsGap gap) : IsGap (c :: gap) :=
        List.forall_mem_cons.mpr ⟨⟨blank, newline⟩, isGap⟩
      rcases ih with ⟨ending, behind, rfl, isEnding, after⟩ | ⟨gap, d, rest, rfl, isGap, visible⟩
      · refine .inl ⟨c :: ending, behind, rfl, ?_, after⟩
        cases isEnding with
        | blanks isGap => exact .blanks (longer isGap)
        | comment isGap inline => exact @IsEnding.comment (c :: _) _ (longer isGap) inline
      · exact .inr ⟨c :: gap, d, rest, rfl, longer isGap, visible⟩
    by_cases comment : c = '%'
    · subst comment
      refine .inl ⟨'%' :: text.takeWhile (· != '\n'), text.dropWhile (· != '\n'), ?_, ?_, ?_⟩
      · rw [List.cons_append, List.takeWhile_append_dropWhile]
      · refine @IsEnding.comment [] _ (by simp [IsGap]) fun member => ?_
        simpa using List.mem_takeWhile_imp member
      · cases left : text.dropWhile (· != '\n') with
        | nil => exact .inl rfl
        | cons d rest =>
          have stop := List.head?_dropWhile_not (· != '\n') text
          rw [left, List.head?_cons] at stop
          exact .inr ⟨rest, by simpa using stop⟩
    · exact .inr ⟨[], c, text, rfl, by simp [IsGap], by simpa using blank, comment⟩

theorem next_gap {gap : List Char} (isGap : IsGap gap) {c : Char} (visible : isBlank c = false)
    (uncommented : c ≠ '%') (rest : List Char) :
    Lexeme.next (gap ++ c :: rest) = Lexeme.atCharacter c rest := by
  rw [Lexeme.next, skipBlanks_gap isGap, skipBlanks_of_not_blank visible uncommented]

theorem next_ending {ending : List Char} (isEnding : IsEnding ending) (after : AfterLine behind) :
    Lexeme.next (ending ++ behind) = Lexeme.next behind := by
  rw [Lexeme.next, Lexeme.next, skipBlanks_ending isEnding after, skipBlanks_afterLine after]

theorem next_ending_ne_token {ending : List Char} (isEnding : IsEnding ending)
    (after : AfterLine behind) : Lexeme.next (ending ++ behind) ≠ .token token rest := by
  rw [next_ending isEnding after]
  rcases after with rfl | ⟨more, rfl⟩
  · exact Lexeme.noConfusion
  · exact Lexeme.noConfusion

theorem exists_gap_of_next (read : Lexeme.next text = .token token rest) :
    ∃ gap c more, text = gap ++ c :: more ∧ IsGap gap ∧ isBlank c = false ∧ c ≠ '%' ∧
      Lexeme.atCharacter c more = .token token rest := by
  rcases ending_or_gap text with
    ⟨ending, behind, rfl, isEnding, after⟩ | ⟨gap, c, more, rfl, isGap, visible, uncommented⟩
  · exact absurd read (next_ending_ne_token isEnding after)
  · rw [next_gap isGap visible uncommented] at read
    exact ⟨gap, c, more, rfl, isGap, visible, uncommented, read⟩

theorem begins (text : List Char) :
    FirstLine [] text (skipBlanks text) ∨
      (∃ token rest, Lexeme.next text = .token token rest) ∨ ∃ rest, OpenLine [] text rest := by
  rcases ending_or_gap text with
    ⟨ending, behind, rfl, isEnding, after⟩ | ⟨gap, c, rest, rfl, isGap, visible, uncommented⟩
  · rw [skipBlanks_ending isEnding after]
    exact .inl ⟨ending, .nil, isEnding, after⟩
  · have inline := ne_newline_of_visible visible
    rw [next_gap isGap visible uncommented, Lexeme.atCharacter, if_neg inline]
    by_cases quote : c = '"'
    · subst quote
      cases read : readQuoted rest with
      | none => exact .inr (.inr ⟨rest, gap, .nil, isGap, read⟩)
      | some found => exact .inr (.inl ⟨_, found.2, by rw [if_pos rfl]⟩)
    · rw [if_neg quote]
      refine .inr (.inl ?_)
      split
      · exact ⟨_, _, rfl⟩
      · exact ⟨_, _, rfl⟩

theorem stops_dropWhile (text : List Char) : Stops (text.dropWhile isSymbol) := by
  intro c first
  have stop := List.head?_dropWhile_not isSymbol text
  simp only [Option.mem_def.mp first] at stop
  by_contra unstopped
  simp only [not_or, Bool.not_eq_true] at unstopped
  rw [(isSymbol_iff c).mpr unstopped] at stop
  cases stop

theorem stops_append {before : List Char} (kept : Stops rest → Stops other) :
    Stops (before ++ rest) → Stops (before ++ other) := by
  cases before with
  | nil => exact kept
  | cons c before => exact id

/-- How many newlines a token takes up in a text: a word may have some, each behind a backslash. -/
def Token.breaks : Token → Nat
  | quoted word => word.toList.count '\n'
  | _ => 0

theorem breaks_ofSymbol (run : List Char) : (Token.ofSymbol run).breaks = 0 := by
  unfold Token.ofSymbol
  split
  · rfl
  · split <;> rfl

theorem readQuoted_reread {word : List Char} (read : readQuoted text = some (word, rest)) :
    ∃ quoted, text = quoted ++ rest ∧ quoted.count '\n' = word.count '\n' ∧
      ∀ other, readQuoted (quoted ++ other) = some (word, other) := by
  fun_induction readQuoted text generalizing word with
  | case1 => cases read
  | case2 text =>
    obtain ⟨rfl, rfl⟩ := Prod.mk.inj (Option.some.inj read)
    refine ⟨['"'], rfl, rfl, fun other => ?_⟩
    rw [List.singleton_append, readQuoted.eq_def]
    simp
  | case3 => cases read
  | case4 => cases read
  | case5 d text plain inline ih =>
    obtain ⟨⟨shorter, more⟩, found, same⟩ := Option.map_eq_some_iff.mp read
    obtain ⟨rfl, rfl⟩ := Prod.mk.inj same
    obtain ⟨quoted, rfl, counted, again⟩ := ih found
    refine ⟨'\\' :: d :: quoted, rfl, ?_, fun other => ?_⟩
    · simp [List.count_cons, counted]
    · simp [readQuoted, again]
  | case6 c text unquoted inline plain ih =>
    obtain ⟨⟨shorter, more⟩, found, same⟩ := Option.map_eq_some_iff.mp read
    obtain ⟨rfl, rfl⟩ := Prod.mk.inj same
    obtain ⟨quoted, rfl, counted, again⟩ := ih found
    refine ⟨c :: quoted, rfl, ?_, fun other => ?_⟩
    · simp [List.count_cons, counted]
    · rw [List.cons_append, readQuoted.eq_def]
      simp [unquoted, inline, plain, again]

theorem atCharacter_reread {c : Char} (inline : c ≠ '\n')
    (read : Lexeme.atCharacter c text = .token token rest) :
    ∃ spelled, text = spelled ++ rest ∧ spelled.count '\n' = token.breaks ∧
      ∀ other, (Stops rest → Stops other) →
        Lexeme.atCharacter c (spelled ++ other) = .token token other := by
  have whole : text.takeWhile isSymbol ++ text.dropWhile isSymbol = text :=
    List.takeWhile_append_dropWhile
  have symbols : (text.takeWhile isSymbol).all isSymbol = true := List.all_takeWhile
  have unbroken : (text.takeWhile isSymbol).count '\n' = 0 := by
    refine List.count_eq_zero.mpr fun member => ?_
    exact absurd (List.mem_takeWhile_imp member) (by decide)
  rw [Lexeme.atCharacter, if_neg inline] at read
  by_cases quote : c = '"'
  · rw [if_pos quote] at read
    cases found : readQuoted text with
    | none =>
      rw [found] at read
      cases read
    | some parts =>
      rw [found] at read
      obtain ⟨rfl, rfl⟩ := Lexeme.token.inj read
      obtain ⟨quoted, whole, counted, again⟩ := readQuoted_reread found
      refine ⟨quoted, whole, ?_, fun other _ => ?_⟩
      · rw [counted, Token.breaks, String.toList_ofList]
      · rw [Lexeme.atCharacter, if_neg inline, if_pos quote, again]
  rw [if_neg quote] at read
  by_cases named : c = '@'
  · rw [if_pos named] at read
    obtain ⟨rfl, rfl⟩ := Lexeme.token.inj read
    refine ⟨_, whole.symm, unbroken, fun other kept => ?_⟩
    obtain ⟨taken, dropped⟩ := span_symbols symbols (kept (stops_dropWhile text))
    rw [Lexeme.atCharacter, if_neg inline, if_neg quote, if_pos named, taken, dropped]
  · rw [if_neg named] at read
    obtain ⟨rfl, rfl⟩ := Lexeme.token.inj read
    refine ⟨_, whole.symm, unbroken.trans (breaks_ofSymbol _).symm, fun other kept => ?_⟩
    obtain ⟨taken, dropped⟩ := span_symbols symbols (kept (stops_dropWhile text))
    rw [Lexeme.atCharacter, if_neg inline, if_neg quote, if_neg named, taken, dropped]

/-- A token is read as it is, whatever follows it that would end it as well. -/
theorem next_reread (read : Lexeme.next text = .token token rest) :
    ∃ spelled, text = spelled ++ rest ∧ spelled.count '\n' = token.breaks ∧
      ∀ other, (Stops rest → Stops other) →
        Lexeme.next (spelled ++ other) = .token token other := by
  obtain ⟨gap, c, more, rfl, isGap, visible, uncommented, read⟩ := exists_gap_of_next read
  have inline := ne_newline_of_visible visible
  have unbroken : gap.count '\n' = 0 :=
    List.count_eq_zero.mpr fun member => (isGap _ member).2 rfl
  obtain ⟨spelled, rfl, counted, again⟩ := atCharacter_reread inline read
  refine ⟨gap ++ c :: spelled, by simp, ?_, fun other kept => ?_⟩
  · rw [List.count_append, unbroken, List.count_cons_of_ne inline, counted, Nat.zero_add]
  · rw [List.append_assoc, List.cons_append, next_gap isGap visible uncommented, again other kept]

end Lexemes

section Lines

def breaks : List Token → Nat
  | [] => 0
  | token :: tokens => token.breaks + breaks tokens

theorem breaks_append (tokens more : List Token) :
    breaks (tokens ++ more) = breaks tokens + breaks more := by
  induction tokens with
  | nil => simp [breaks]
  | cons token tokens ih => rw [List.cons_append, breaks, breaks, ih, Nat.add_assoc]

namespace Reads

theorem reread (reads : Reads tokens text rest) :
    ∃ spelled, text = spelled ++ rest ∧ spelled.count '\n' = breaks tokens ∧
      ∀ other, (Stops rest → Stops other) → Reads tokens (spelled ++ other) other := by
  induction reads with
  | nil => exact ⟨[], rfl, rfl, fun other _ => .nil⟩
  | cons read _ ih =>
    obtain ⟨spelled, rfl, counted, again⟩ := next_reread read
    obtain ⟨more, rfl, counted', again'⟩ := ih
    refine ⟨spelled ++ more, by rw [List.append_assoc], ?_, fun other kept => ?_⟩
    · rw [List.count_append, counted, counted', breaks]
    · rw [List.append_assoc]
      exact .cons (again _ (stops_append kept)) (again' other kept)

theorem extend (reads : Reads tokens text rest) (number : Nat) (before : List Token) :
    Lines.extend number before text = Lines.extend number (before ++ tokens) rest := by
  induction reads generalizing before with
  | nil => rw [List.append_nil]
  | cons read _ ih =>
    rw [extend_eq, read]
    simp only
    rw [ih, List.append_assoc, List.singleton_append]

end Reads

theorem AfterLine.stops (after : AfterLine text) : Stops text := by
  rcases after with rfl | ⟨more, rfl⟩
  · intro c first
    cases first
  · intro c first
    obtain rfl := Option.some.inj first
    exact .inl (by decide)

theorem FirstLine.reread (line : FirstLine tokens text behind) :
    ∃ before, text = before ++ behind ∧ before.count '\n' = breaks tokens ∧
      ∀ other, AfterLine other → FirstLine tokens (before ++ other) other := by
  obtain ⟨ending, reads, isEnding, _⟩ := line
  obtain ⟨spelled, rfl, counted, again⟩ := reads.reread
  have unbroken : ending.count '\n' = 0 := by
    refine List.count_eq_zero.mpr fun member => ?_
    cases isEnding with
    | blanks isGap => exact (isGap _ member).2 rfl
    | comment isGap inline =>
      rcases List.mem_append.mp member with gap | comment
      · exact (isGap _ gap).2 rfl
      · rcases List.mem_cons.mp comment with percent | comment
        · cases percent
        · exact inline comment
  refine ⟨spelled ++ ending, by rw [List.append_assoc], ?_, fun other after => ?_⟩
  · rw [List.count_append, counted, unbroken, Nat.add_zero]
  · rw [List.append_assoc]
    exact ⟨ending, again _ (stops_append fun _ => after.stops), isEnding, after⟩

theorem FirstLine.extend {more : List Char} (line : FirstLine tokens text ('\n' :: more))
    (number : Nat) :
    Lines.extend number [] text =
      let later := Lines.extend (number + 1) [] more
      ⟨⟨number, tokens⟩ :: later.lines, later.unterminated⟩ := by
  obtain ⟨ending, reads, isEnding, after⟩ := line
  have newline : Lexeme.next ('\n' :: more) = .lineEnd more := rfl
  rw [reads.extend, extend_eq, next_ending isEnding after, newline]
  rfl

theorem FirstLine.extend_last (line : FirstLine tokens text []) (number : Nat) :
    Lines.extend number [] text = ⟨[⟨number, tokens⟩], none⟩ := by
  obtain ⟨ending, reads, isEnding, after⟩ := line
  have stop : Lexeme.next [] = .stop := rfl
  rw [reads.extend, extend_eq, next_ending isEnding after, stop]
  rfl

theorem OpenLine.extend (line : OpenLine tokens text rest) (number : Nat) :
    Lines.extend number [] text = ⟨[], some number⟩ := by
  obtain ⟨gap, reads, isGap, unread⟩ := line
  have broken : Lexeme.next (gap ++ '"' :: rest) = .unterminated := by
    rw [next_gap isGap (by decide) (by decide), Lexeme.atCharacter, if_neg (by decide),
      if_pos rfl, unread]
  rw [reads.extend, extend_eq, broken]

theorem FirstLine.cons {more : List Char} (read : Lexeme.next text = .token token more)
    (line : FirstLine tokens more behind) : FirstLine (token :: tokens) text behind := by
  obtain ⟨ending, reads, isEnding, after⟩ := line
  exact ⟨ending, .cons read reads, isEnding, after⟩

theorem OpenLine.cons {more : List Char} (read : Lexeme.next text = .token token more)
    (line : OpenLine tokens more rest) : OpenLine (token :: tokens) text rest := by
  obtain ⟨gap, reads, isGap, unread⟩ := line
  exact ⟨gap, .cons read reads, isGap, unread⟩

theorem exists_line (text : List Char) :
    ∃ tokens rest, FirstLine tokens text rest ∨ OpenLine tokens text rest := by
  rcases begins text with line | ⟨token, more, read⟩ | ⟨rest, line⟩
  · exact ⟨[], _, .inl line⟩
  · have shorter : more.length < text.length := by
      simpa [read, Lexeme.rest] using @length_next_lt text (by simp [read])
    obtain ⟨tokens, rest, line | line⟩ := exists_line more
    · exact ⟨_, rest, .inl (line.cons read)⟩
    · exact ⟨_, rest, .inr (line.cons read)⟩
  · exact ⟨[], rest, .inr line⟩
termination_by text.length

/-- Texts by their lines: the last one ends the text or stops inside quotes, and any other has a text
behind it. -/
@[elab_as_elim]
theorem line_induction {motive : List Char → Prop}
    (line : ∀ tokens text more, FirstLine tokens text ('\n' :: more) → motive more → motive text)
    (last : ∀ tokens text, FirstLine tokens text [] → motive text)
    (unclosed : ∀ tokens text rest, OpenLine tokens text rest → motive text) (text : List Char) :
    motive text := by
  obtain ⟨tokens, rest, whole | broken⟩ := exists_line text
  · obtain ⟨before, split, _⟩ := whole.reread
    have ⟨_, _, _, after⟩ := whole
    rcases after with rfl | ⟨more, rfl⟩
    · exact last tokens text whole
    · have shorter : more.length < text.length := by
        rw [split, List.length_append, List.length_cons]
        omega
      exact line tokens text more whole (line_induction line last unclosed more)
  · exact unclosed tokens text rest broken
termination_by text.length

end Lines

section Errors

variable {ε ε' ε'' β γ : Type}

theorem adapt_bind (change : ε → ε') (first : ExceptT ε (StateM Grammar) β)
    (more : β → ExceptT ε (StateM Grammar) γ) :
    (first >>= more).adapt change =
      first.adapt change >>= fun value => (more value).adapt change := by
  refine funext fun grammar => ?_
  change ((first >>= more).adapt change).run grammar =
    (first.adapt change >>= fun value => (more value).adapt change).run grammar
  rw [Edit.run_adapt, Edit.run_bind, Edit.run_bind, Edit.run_adapt]
  rcases first.run grammar with ⟨_ | _, _⟩
  · rfl
  · rfl

theorem adapt_adapt (change : ε → ε') (again : ε' → ε'') (edit : ExceptT ε (StateM Grammar) β) :
    (edit.adapt change).adapt again = edit.adapt fun error => again (change error) := by
  refine funext fun grammar => ?_
  change ((edit.adapt change).adapt again).run grammar =
    (edit.adapt fun error => again (change error)).run grammar
  rw [Edit.run_adapt, Edit.run_adapt, Edit.run_adapt]
  rcases edit.run grammar with ⟨_ | _, _⟩
  · rfl
  · rfl

theorem forM_adapt {ι : Type} (items : List ι) (edit : ι → ExceptT ε (StateM Grammar) Unit)
    (change : ε → ε') :
    (items.forM edit).adapt change = items.forM fun item => (edit item).adapt change := by
  induction items with
  | nil => rfl
  | cons item items ih => rw [List.forM, List.forM, adapt_bind, ih]

end Errors

section Statements

def Statement.apply (statement : Statement) : ExceptT Fault (StateM Grammar) Unit := do
  statement.additions.forM fun addition => addition.apply.adapt .refused
  match statement.fault with
  | some fault => throw fault
  | none => return ()

def obey (number : Nat) (tokens : List Token) : ExceptT LineFault (StateM Grammar) Unit :=
  (Statement.ofTokens tokens).apply.adapt (⟨number, ·⟩)

def follow : Nat → List (List Token) → ExceptT LineFault (StateM Grammar) Unit
  | _, [] => return ()
  | number, tokens :: lines => obey number tokens >>= fun _ => follow (number + 1) lines

/-- Adds a text whose first line has a number. -/
def addFrom (number : Nat) (text : List Char) : ExceptT LineFault (StateM Grammar) Unit :=
  let lines := Lines.extend number [] text
  (Reading.ofLines (lines.unterminated.map (⟨·, .unterminated⟩)) lines.lines).apply

theorem addText_eq (text : String) : addText text = addFrom 1 text.toList := rfl

theorem apply_ofLines (last : Option LineFault) (line : Line) (lines : List Line) :
    (Reading.ofLines last (line :: lines)).apply =
      obey line.number line.tokens >>= fun _ => (Reading.ofLines last lines).apply := by
  rw [obey, Statement.apply, adapt_bind, forM_adapt, Reading.ofLines]
  simp only [adapt_adapt]
  cases (Statement.ofTokens line.tokens).fault with
  | some fault =>
    simp only
    rw [Reading.apply, forM_map, bind_assoc]
    rfl
  | none =>
    simp only
    rw [Reading.apply, forM_append, forM_map, bind_assoc, bind_assoc]
    rfl

theorem addFrom_line {more : List Char} (line : FirstLine tokens text ('\n' :: more))
    (number : Nat) :
    addFrom number text = obey number tokens >>= fun _ => addFrom (number + 1) more := by
  rw [addFrom, line.extend]
  exact apply_ofLines _ ⟨number, tokens⟩ _

theorem addFrom_last (line : FirstLine tokens text []) (number : Nat) :
    addFrom number text = obey number tokens := by
  rw [addFrom, line.extend_last]
  exact (apply_ofLines none ⟨number, tokens⟩ []).trans bind_pure_unit

theorem addFrom_open (line : OpenLine tokens text rest) (number : Nat) :
    addFrom number text = throw ⟨number, .unterminated⟩ := by
  rw [addFrom, line.extend]
  rfl

end Statements

section Composition

def LineFault.after (count : Nat) (error : LineFault) : LineFault :=
  ⟨count + error.line, error.fault⟩

theorem addFrom_after (count number : Nat) (text : List Char) :
    addFrom (count + number) text = (addFrom number text).adapt (.after count) := by
  induction text using line_induction generalizing number with
  | line tokens text more line ih =>
    rw [addFrom_line line, addFrom_line line, adapt_bind, Nat.add_assoc, ih, obey, obey,
      adapt_adapt]
    rfl
  | last tokens text line =>
    rw [addFrom_last line, addFrom_last line, obey, obey, adapt_adapt]
    rfl
  | unclosed tokens text rest line =>
    rw [addFrom_open line, addFrom_open line]
    rfl

/-- A text that closes its quotes does its own lines first and then those of a text behind it. -/
theorem addFrom_append (text more : List Char) (number : Nat)
    (closed : (Lines.extend number [] text).unterminated = none) :
    addFrom number (text ++ '\n' :: more) = addFrom number text >>= fun _ =>
      addFrom (number + (Lines.extend number [] text).lines.length) more := by
  induction text using line_induction generalizing number with
  | line tokens text rest line ih =>
    obtain ⟨before, rfl, _, again⟩ := line.reread
    rw [line.extend] at closed ⊢
    have longer := again ('\n' :: (rest ++ '\n' :: more)) (.inr ⟨_, rfl⟩)
    have count (lines : Nat) : number + 1 + lines = number + (lines + 1) := by omega
    rw [List.append_assoc, List.cons_append, addFrom_line longer, addFrom_line line,
      ih (number + 1) closed, bind_assoc, count, List.length_cons]
  | last tokens text line =>
    obtain ⟨before, rfl, _, again⟩ := line.reread
    have longer := again ('\n' :: more) (.inr ⟨more, rfl⟩)
    rw [line.extend_last, addFrom_last line, List.append_nil, addFrom_line longer]
    rfl
  | unclosed tokens text rest line =>
    rw [line.extend] at closed
    cases closed

theorem closed_of_ok {grammar next : Grammar}
    (added : (addFrom number text).run grammar = (.ok (), next)) :
    (Lines.extend number [] text).unterminated = none := by
  induction text using line_induction generalizing number grammar with
  | line tokens text more line ih =>
    rw [addFrom_line line] at added
    obtain ⟨_, mid, _, others⟩ := Edit.run_bind_eq_ok added
    rw [line.extend]
    exact ih others
  | last tokens text line => rw [line.extend_last]
  | unclosed tokens text rest line =>
    rw [addFrom_open line] at added
    cases added

/-- Where a text has been added, another one behind it is added as to the grammar that the first one
has left: with the same grammar in the end and the same result, but that an error counts the lines
of the first text too. -/
theorem addText_append {first : String} {grammar next : Grammar}
    (added : (addText first).run grammar = (.ok (), next)) (second : String) :
    (addText (first ++ "\n" ++ second)).run grammar =
      (((addText second).run next).1.mapError (.after (Lines.ofText first).lines.length),
        ((addText second).run next).2) := by
  have whole : (first ++ "\n" ++ second).toList = first.toList ++ '\n' :: second.toList := by
    simp
  rw [addText_eq] at added
  rw [addText_eq, whole, addFrom_append _ _ 1 (closed_of_ok added), Edit.run_bind, added]
  simp only
  rw [Nat.add_comm 1, addFrom_after, Edit.run_adapt]
  rfl

theorem addText_append_row : ((addText ("@top row" ++ "\n" ++ "row -> row")).run empty).1 =
    .error ⟨2, .refused (.selfUnary "row")⟩ := by
  have added : (addText "@top row").run empty = (.ok (), rooted) := by cbv
  have other : ((addText "row -> row").run rooted).1 = .error ⟨1, .refused (.selfUnary "row")⟩ := by
    cbv
  have lines : (Lines.ofText "@top row").lines.length = 1 := by cbv
  rw [addText_append added, other, lines]
  rfl

end Composition

end Constituency.Text
