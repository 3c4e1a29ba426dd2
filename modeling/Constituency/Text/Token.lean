import Constituency.Text.Blank

/-!
The tokens of a grammar text, line by line. A line ends at a newline outside quotes, and a text
that stops inside quotes has no tokens from that line on.
-/

namespace Constituency.Text

inductive Token
  | symbol (text : String)
  | quoted (word : String)
  | directive (name : String)
  | arrow
  | star
deriving DecidableEq, Repr

namespace Token

def describe : Token → String
  | symbol text => "label `" ++ text ++ "`"
  | quoted word => "word \"" ++ word ++ "\""
  | directive name => "@" ++ name
  | arrow => "`->`"
  | star => "`*`"

/-- The token that a run of symbol characters spells. -/
def ofSymbol (run : List Char) : Token :=
  if run = ['-', '>'] then arrow
  else if run = ['*'] then star
  else symbol (String.ofList run)

end Token

/-- Drops blanks and a comment, and stops at a newline. -/
def skipBlanks : List Char → List Char
  | [] => []
  | c :: rest =>
    if c = '\n' then c :: rest
    else if isBlank c then skipBlanks rest
    else if c = '%' then rest.dropWhile (· != '\n')
    else c :: rest

/-- The word up to the closing quote and the text after it. A backslash takes the next character
as it is. -/
def readQuoted : List Char → Option (List Char × List Char)
  | [] => none
  | c :: rest =>
    if c = '"' then some ([], rest)
    else if c = '\n' then none
    else if c = '\\' then
      match rest with
      | [] => none
      | d :: rest => (readQuoted rest).map fun (word, rest) => (d :: word, rest)
    else (readQuoted rest).map fun (word, rest) => (c :: word, rest)

/-- What a text begins with, blanks and comments aside. -/
inductive Lexeme
  | stop
  | lineEnd (rest : List Char)
  | token (token : Token) (rest : List Char)
  | unterminated

namespace Lexeme

/-- The lexeme at a character that is no blank and opens no comment. -/
def atCharacter (c : Char) (rest : List Char) : Lexeme :=
  if c = '\n' then lineEnd rest
  else if c = '"' then
    match readQuoted rest with
    | some (word, rest) => token (.quoted (String.ofList word)) rest
    | none => unterminated
  else if c = '@' then
    token (.directive (String.ofList (rest.takeWhile isSymbol))) (rest.dropWhile isSymbol)
  else token (.ofSymbol (c :: rest.takeWhile isSymbol)) (rest.dropWhile isSymbol)

def next (text : List Char) : Lexeme :=
  match skipBlanks text with
  | [] => stop
  | c :: rest => atCharacter c rest

def rest : Lexeme → List Char
  | lineEnd rest => rest
  | token _ rest => rest
  | _ => []

end Lexeme

private theorem length_dropWhile_le (keep : Char → Bool) (text : List Char) :
    (text.dropWhile keep).length ≤ text.length :=
  (List.dropWhile_sublist keep).length_le

theorem length_skipBlanks_le (text : List Char) : (skipBlanks text).length ≤ text.length := by
  induction text with
  | nil => simp [skipBlanks]
  | cons c rest ih =>
    unfold skipBlanks
    have := length_dropWhile_le (· != '\n') rest
    split
    · simp
    · split
      · simp; omega
      · split
        · simp; omega
        · simp

theorem length_readQuoted_lt {text word rest : List Char}
    (read : readQuoted text = some (word, rest)) : rest.length < text.length := by
  fun_induction readQuoted text generalizing word <;> simp_all <;> grind

theorem length_atCharacter_le (c : Char) (text : List Char) :
    (Lexeme.atCharacter c text).rest.length ≤ text.length := by
  have := length_dropWhile_le isSymbol text
  unfold Lexeme.atCharacter
  split
  · simp [Lexeme.rest]
  · split
    · split
      · rename_i found
        exact Nat.le_of_lt (length_readQuoted_lt found)
      · simp [Lexeme.rest]
    · split <;> simpa [Lexeme.rest] using this

theorem length_next_lt {text : List Char} (more : Lexeme.next text ≠ .stop) :
    (Lexeme.next text).rest.length < text.length := by
  have bound := length_skipBlanks_le text
  unfold Lexeme.next at more ⊢
  split at more
  · contradiction
  · rename_i c rest found
    have := length_atCharacter_le c rest
    simp only [found] at bound ⊢
    simp at bound
    omega

structure Line where
  number : Nat
  tokens : List Token
deriving DecidableEq, Repr

/-- The lines of a text and, where a quote in it is never closed, the number of the line with that
quote. -/
structure Lines where
  lines : List Line
  unterminated : Option Nat
deriving DecidableEq, Repr

namespace Lines

/-- Continues line `number`, whose tokens so far are `tokens`, with a text. -/
def extend (number : Nat) (tokens : List Token) (text : List Char) : Lines :=
  match found : Lexeme.next text with
  | .stop => ⟨[⟨number, tokens⟩], none⟩
  | .unterminated => ⟨[], some number⟩
  | .token token rest => extend number (tokens ++ [token]) rest
  | .lineEnd rest =>
    let later := extend (number + 1) [] rest
    ⟨⟨number, tokens⟩ :: later.lines, later.unterminated⟩
termination_by text.length
decreasing_by
  all_goals
    have shorter := @length_next_lt text (by simp [found])
    simpa [found, Lexeme.rest] using shorter

def ofText (text : String) : Lines := extend 1 [] text.toList

end Lines

end Constituency.Text
