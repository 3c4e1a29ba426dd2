import Constituency.Proofs.TextLines

/-!
Where texts fail. A text that cannot be added has a line that fails behind lines that do what they
say. The number of that line counts the newlines that end lines ahead of it; it does not count those
that stand in words.
-/

namespace Constituency.Text

open Grammar

variable {tokens : List Token} {lines : List (List Token)} {number : Nat}
  {before text rest behind other : List Char} {grammar mid next : Grammar} {fault : Fault}

section Ahead

/-- Whole lines at the start of a text, each with its newline, and the text behind them. -/
inductive Passes : List (List Token) → List Char → List Char → Prop
  | nil {text : List Char} : Passes [] text text
  | cons {tokens : List Token} {lines : List (List Token)} {text more rest : List Char} :
    FirstLine tokens text ('\n' :: more) → Passes lines more rest →
    Passes (tokens :: lines) text rest

namespace Passes

theorem reread (passes : Passes lines text rest) :
    ∃ before, text = before ++ rest ∧
      before.count '\n' = lines.length + breaks lines.flatten ∧
      ∀ other, Passes lines (before ++ other) other := by
  induction passes with
  | nil => exact ⟨[], rfl, rfl, fun other => .nil⟩
  | cons line _ ih =>
    obtain ⟨first, rfl, counted, again⟩ := line.reread
    obtain ⟨before, rfl, counted', again'⟩ := ih
    refine ⟨first ++ '\n' :: before, by simp, ?_, fun other => ?_⟩
    · rw [List.count_append, List.count_cons_self, counted, counted', List.flatten_cons,
        breaks_append, List.length_cons]
      omega
    · rw [List.append_assoc]
      exact .cons (again _ (.inr ⟨_, rfl⟩)) (again' other)

theorem addFrom (passes : Passes lines text rest) (number : Nat) :
    addFrom number text = follow number lines >>= fun _ =>
      Text.addFrom (number + lines.length) rest := by
  induction passes generalizing number with
  | nil => rfl
  | @cons tokens lines text more rest line _ ih =>
    have count : number + 1 + lines.length = number + (lines.length + 1) := by omega
    rw [addFrom_line line, ih, follow, bind_assoc, count]
    rfl

end Passes

theorem addText_ahead (passes : Passes lines (before ++ rest) rest) :
    addText (String.ofList before) = follow 1 lines := by
  obtain ⟨same, split, _, again⟩ := passes.reread
  obtain rfl := List.append_cancel_right split
  have alone := again []
  have last : FirstLine [] [] [] := ⟨[], .nil, .blanks (by simp [IsGap]), .inl rfl⟩
  rw [List.append_nil] at alone
  rw [addText_eq, String.toList_ofList, alone.addFrom, addFrom_last last]
  exact bind_pure_unit

structure Through (grammar : Grammar) (lines : List (List Token)) (before rest : List Char)
    (mid : Grammar) : Prop where
  passes : Passes lines (before ++ rest) rest
  added : (addText (String.ofList before)).run grammar = (.ok (), mid)

theorem Through.followed (through : Through grammar lines before rest mid) :
    (follow 1 lines).run grammar = (.ok (), mid) := by
  rw [← addText_ahead through.passes]
  exact through.added

/-- The first line of a text fails: its statement does, or the line stops inside quotes, which is
noticed before anything of its statement is done. -/
inductive LineFails (grammar : Grammar) (text : List Char) : Fault → Grammar → Prop
  | statement {tokens : List Token} {behind : List Char} {fault : Fault} {next : Grammar} :
    FirstLine tokens text behind →
    (Statement.ofTokens tokens).apply.run grammar = (.error fault, next) →
    LineFails grammar text fault next
  | unclosed {tokens : List Token} {rest : List Char} : OpenLine tokens text rest →
    LineFails grammar text .unterminated grammar

theorem run_obey_of_error (failed : (Statement.ofTokens tokens).apply.run grammar =
    (.error fault, next)) (number : Nat) :
    (obey number tokens).run grammar = (.error ⟨number, fault⟩, next) := by
  rw [obey, Edit.run_adapt, failed]
  rfl

theorem LineFails.run (fails : LineFails grammar text fault next) (number : Nat) :
    (addFrom number text).run grammar = (.error ⟨number, fault⟩, next) := by
  cases fails with
  | statement line failed =>
    have obeyed := run_obey_of_error failed number
    have ⟨_, _, _, after⟩ := line
    rcases after with rfl | ⟨more, rfl⟩
    · rw [addFrom_last line, obeyed]
    · rw [addFrom_line line, Edit.run_bind, obeyed]
  | unclosed line =>
    rw [addFrom_open line]
    rfl

theorem exists_of_obey {error : LineFault}
    (failed : (obey number tokens).run grammar = (.error error, next)) :
    error.line = number ∧
      (Statement.ofTokens tokens).apply.run grammar = (.error error.fault, next) := by
  obtain ⟨fault, stated, rfl⟩ := Edit.run_adapt_eq_error failed
  exact ⟨rfl, stated⟩

theorem exists_lineFails {error : LineFault}
    (failed : (addFrom number text).run grammar = (.error error, next)) :
    ∃ lines rest mid, Passes lines text rest ∧ (follow number lines).run grammar = (.ok (), mid) ∧
      error.line = number + lines.length ∧ LineFails mid rest error.fault next := by
  induction text using line_induction generalizing number grammar with
  | line tokens text more line ih =>
    rw [addFrom_line line] at failed
    rcases Edit.run_bind_eq_error failed with stopped | ⟨_, mid, done, others⟩
    · obtain ⟨counted, stated⟩ := exists_of_obey stopped
      exact ⟨[], text, grammar, .nil, rfl, counted, .statement line stated⟩
    · obtain ⟨lines, rest, last, passes, followed, counted, fails⟩ := ih others
      refine ⟨tokens :: lines, rest, last, .cons line passes, ?_, ?_, fails⟩
      · rw [follow, Edit.run_bind, done]
        exact followed
      · rw [counted, List.length_cons]
        omega
  | last tokens text line =>
    rw [addFrom_last line] at failed
    obtain ⟨counted, stated⟩ := exists_of_obey failed
    exact ⟨[], text, grammar, .nil, rfl, counted, .statement line stated⟩
  | unclosed tokens text rest line =>
    rw [addFrom_open line] at failed
    obtain ⟨same, rfl⟩ := Prod.mk.inj failed
    obtain rfl := Except.error.inj same
    exact ⟨[], text, grammar, .nil, rfl, rfl, .unclosed line⟩

theorem exists_through {line : Nat}
    (failed : (addFrom 1 text).run grammar = (.error ⟨line, fault⟩, next)) :
    ∃ lines before rest mid, text = before ++ rest ∧ Through grammar lines before rest mid ∧
      line = 1 + lines.length ∧ LineFails mid rest fault next := by
  obtain ⟨lines, rest, mid, passes, followed, counted, fails⟩ := exists_lineFails failed
  obtain ⟨before, rfl, _, _⟩ := passes.reread
  exact ⟨lines, before, rest, mid, rfl, ⟨passes, addText_ahead passes ▸ followed⟩, counted, fails⟩

end Ahead

section Places

/-- The place where a text fails, by the tokens and the text ahead of it. A statement that fails does
so at its first token, and a quote that is never closed is itself the place. -/
inductive FailsAt (grammar : Grammar) : List Char → Fault → List Token → List Char → Prop
  | statement {lines : List (List Token)} {before gap rest behind : List Char} {c : Char}
    {mid next : Grammar} {tokens : List Token} {fault : Fault} :
    Through grammar lines before (gap ++ c :: rest) mid →
    FirstLine tokens (gap ++ c :: rest) behind →
    (Statement.ofTokens tokens).apply.run mid = (.error fault, next) →
    IsGap gap → isBlank c = false → c ≠ '%' →
    FailsAt grammar (before ++ (gap ++ c :: rest)) fault lines.flatten (before ++ gap)
  | unclosed {lines : List (List Token)} {before spelled rest : List Char} {mid : Grammar}
    {tokens : List Token} :
    Through grammar lines before (spelled ++ '"' :: rest) mid →
    OpenLine tokens (spelled ++ '"' :: rest) rest →
    FailsAt grammar (before ++ (spelled ++ '"' :: rest)) .unterminated
      (lines.flatten ++ tokens) (before ++ spelled)

variable {read : List Token}

theorem Token.breaks_eq_zero_iff (token : Token) :
    token.breaks = 0 ↔ ∀ word, token = .quoted word → '\n' ∉ word.toList := by
  cases token with
  | quoted word => simp [Token.breaks, List.count_eq_zero]
  | _ => simp [Token.breaks]

theorem breaks_eq_zero_iff (tokens : List Token) :
    breaks tokens = 0 ↔ ∀ word, .quoted word ∈ tokens → '\n' ∉ word.toList := by
  induction tokens with
  | nil => simp [breaks]
  | cons token tokens ih =>
    rw [breaks, Nat.add_eq_zero_iff, token.breaks_eq_zero_iff, ih]
    constructor
    · rintro ⟨first, others⟩ word member
      rcases List.mem_cons.mp member with rfl | member
      · exact first word rfl
      · exact others word member
    · intro none
      exact ⟨fun word same => none word (same ▸ List.mem_cons_self),
        fun word member => none word (List.mem_cons_of_mem _ member)⟩

theorem IsGap.count {gap : List Char} (isGap : IsGap gap) : gap.count '\n' = 0 :=
  List.count_eq_zero.mpr fun member => (isGap _ member).2 rfl

theorem OpenLine.count {spelled : List Char} (line : OpenLine tokens (spelled ++ '"' :: rest) rest) :
    spelled.count '\n' = breaks tokens := by
  obtain ⟨gap, reads, isGap, _⟩ := line
  obtain ⟨tight, split, counted, _⟩ := reads.reread
  rw [← List.append_assoc] at split
  obtain rfl := List.append_cancel_right split
  rw [List.count_append, counted, isGap.count, Nat.add_zero]

/-- A place where a text fails is where adding the text ends, and the newlines ahead of it are those
between lines and those in words. -/
theorem FailsAt.run (fails : FailsAt grammar text fault read before) :
    ∃ line next, (addFrom 1 text).run grammar = (.error ⟨line, fault⟩, next) ∧
      line + breaks read = 1 + before.count '\n' := by
  have ends {lines : List (List Token)} {before rest : List Char} {mid next : Grammar}
      (through : Through grammar lines before rest mid) (fails : LineFails mid rest fault next) :
      (addFrom 1 (before ++ rest)).run grammar = (.error ⟨1 + lines.length, fault⟩, next) := by
    rw [through.passes.addFrom, Edit.run_bind, through.followed]
    exact fails.run _
  have counted {lines : List (List Token)} {before rest : List Char} {mid : Grammar}
      (through : Through grammar lines before rest mid) :
      before.count '\n' = lines.length + breaks lines.flatten := by
    obtain ⟨same, split, counted, _⟩ := through.passes.reread
    obtain rfl := List.append_cancel_right split
    exact counted
  cases fails with
  | @statement lines _ gap _ _ _ _ next _ _ through line failed isGap _ _ =>
    refine ⟨1 + lines.length, next, ends through (.statement line failed), ?_⟩
    rw [List.count_append, isGap.count, counted through]
    omega
  | @unclosed lines before spelled rest mid tokens through line =>
    refine ⟨1 + lines.length, mid, ends through (.unclosed line), ?_⟩
    rw [List.count_append, line.count, counted through, breaks_append]
    omega

theorem Reads.eq_nil (reads : Reads tokens text rest)
    (none : ∀ token more, Lexeme.next text ≠ .token token more) : tokens = [] := by
  cases reads with
  | nil => rfl
  | cons read _ => exact absurd read (none _ _)

theorem exists_failsAt {line : Nat}
    (failed : (addFrom 1 text).run grammar = (.error ⟨line, fault⟩, next)) :
    ∃ read before, FailsAt grammar text fault read before := by
  obtain ⟨lines, before, rest, mid, rfl, through, _, fails⟩ := exists_through failed
  cases fails with
  | @statement tokens behind _ _ whole stated =>
    rcases ending_or_gap rest with
      ⟨ending, after, rfl, isEnding, afterLine⟩ | ⟨gap, c, more, rfl, isGap, visible, uncommented⟩
    · -- a line without tokens says nothing
      have tokens_eq : tokens = [] := by
        obtain ⟨_, reads, _, _⟩ := whole
        exact reads.eq_nil fun _ _ => next_ending_ne_token isEnding afterLine
      subst tokens_eq
      cases stated
    · exact ⟨_, _, .statement through whole stated isGap visible uncommented⟩
  | @unclosed tokens inside broken =>
    obtain ⟨gap, reads, isGap, _⟩ := id broken
    obtain ⟨tight, rfl, _, _⟩ := reads.reread
    have split : tight ++ (gap ++ '"' :: inside) = tight ++ gap ++ '"' :: inside :=
      (List.append_assoc _ _ _).symm
    rw [split] at through broken ⊢
    exact ⟨_, _, .unclosed through broken⟩

/-- A text that fails does so at one place or another, and the line that is reported for it falls
short by the newlines inside words: it is that of the place just where no word ahead of it has one. -/
theorem addText_line {text : String} {line : Nat}
    (failed : (addText text).run grammar = (.error ⟨line, fault⟩, next)) :
    (∃ read before, FailsAt grammar text.toList fault read before) ∧
      ∀ read before, FailsAt grammar text.toList fault read before →
        line + breaks read = 1 + before.count '\n' ∧
        (line = 1 + before.count '\n' ↔
          ∀ word, .quoted word ∈ read → '\n' ∉ word.toList) := by
  refine ⟨exists_failsAt failed, fun read before fails => ?_⟩
  obtain ⟨same, last, result, counted⟩ := fails.run
  rw [← addText_eq, failed] at result
  have said := Except.error.inj (Prod.mk.inj result).1
  obtain rfl : line = same := congrArg LineFault.line said
  refine ⟨counted, ?_⟩
  rw [← breaks_eq_zero_iff, ← counted]
  omega

/-- A word with a newline in it, and on the next line a statement without an arrow. -/
def brokenWord : String := "row -> \"two\\\nlines\"\nrow row\n"

theorem run_brokenWord : ((addText brokenWord).run empty).1 =
    .error ⟨2, .expected .arrow (some (.symbol "row"))⟩ := by cbv

theorem brokenWord_failsAt :
    FailsAt empty brokenWord.toList (.expected .arrow (some (.symbol "row")))
      [.symbol "row", .arrow, .quoted "two\nlines"] "row -> \"two\\\nlines\"\n".toList := by
  have label : Lexeme.next "row -> \"two\\\nlines\"\nrow row\n".toList =
      .token (.symbol "row") " -> \"two\\\nlines\"\nrow row\n".toList := by cbv
  have arrow : Lexeme.next " -> \"two\\\nlines\"\nrow row\n".toList =
      .token .arrow " \"two\\\nlines\"\nrow row\n".toList := by cbv
  have word : Lexeme.next " \"two\\\nlines\"\nrow row\n".toList =
      .token (.quoted "two\nlines") ('\n' :: "row row\n".toList) := by cbv
  have first : FirstLine [.symbol "row", .arrow, .quoted "two\nlines"]
      "row -> \"two\\\nlines\"\nrow row\n".toList ('\n' :: "row row\n".toList) :=
    ⟨[], .cons label (.cons arrow (.cons word .nil)), .blanks (by simp [IsGap]), .inr ⟨_, rfl⟩⟩
  have again : Lexeme.next "row row\n".toList = .token (.symbol "row") " row\n".toList := by cbv
  have last : Lexeme.next " row\n".toList = .token (.symbol "row") ('\n' :: []) := by cbv
  have second : FirstLine [.symbol "row", .symbol "row"] "row row\n".toList ('\n' :: []) :=
    ⟨[], .cons again (.cons last .nil), .blanks (by simp [IsGap]), .inr ⟨_, rfl⟩⟩
  have added : ((addText (String.ofList "row -> \"two\\\nlines\"\n".toList)).run empty).1 =
      .ok () := by cbv
  have through : Through empty [[.symbol "row", .arrow, .quoted "two\nlines"]]
      "row -> \"two\\\nlines\"\n".toList "row row\n".toList _ :=
    ⟨.cons first .nil, Prod.ext added rfl⟩
  have failed := @FailsAt.statement empty _ _ [] _ _ 'r' _ _ _ _ through second rfl
    (by simp [IsGap]) (by decide) (by decide)
  exact failed

theorem addText_line_broken : ((addText brokenWord).run empty).1 =
      .error ⟨2, .expected .arrow (some (.symbol "row"))⟩ ∧
    2 + breaks [.symbol "row", .arrow, .quoted "two\nlines"] =
      1 + "row -> \"two\\\nlines\"\n".toList.count '\n' :=
  ⟨run_brokenWord, ((addText_line (Prod.ext run_brokenWord rfl)).2 _ _ brokenWord_failsAt).1⟩

/-- The line reported is not that of the place, where a word ahead of it has a newline. -/
theorem newline_in_word_uncounted :
    ¬ ∀ (text : String) (grammar next : Grammar) (line : Nat) (fault : Fault),
      (addText text).run grammar = (.error ⟨line, fault⟩, next) →
      ∀ read before, FailsAt grammar text.toList fault read before →
        line = 1 + before.count '\n' := by
  intro counted
  have same := counted brokenWord empty _ 2 _ (Prod.ext run_brokenWord rfl) _ _ brokenWord_failsAt
  exact absurd same (by decide)

end Places

end Constituency.Text
