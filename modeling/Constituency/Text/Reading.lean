import Constituency.Text.Token
import Constituency.Grammar.Build

/-!
Grammar texts. Each line is one statement:

    @top S SQ             accepted root labels
    S -> NP VP            binary rule
    NP -> PRP             unary rule
    PRP -> "I" "you"      words that a label stands over
    NN -> *               label that stands over any word

A text reads as a list of additions that may end in a fault. Adding them one by one grows a
grammar up to the fault, or up to the first addition that the grammar refuses.
-/

namespace Constituency.Text

/-- One thing that a statement adds to a grammar. -/
inductive Addition
  | root (label : String)
  | binary (parent left right : String)
  | unary (parent child : String)
  | terminal (label : String)
  | lexical (label word : String)
deriving DecidableEq, Repr

/-- What a statement needs at the place where it fails. -/
inductive Wanted
  | statement
  | rootLabel
  | arrow
  | body
  | firstPart
  | quotedWord
  | lineEnd
deriving DecidableEq, Repr

namespace Wanted

def describe : Wanted → String
  | statement => "a label or directive"
  | rootLabel => "a root label"
  | arrow => "`->`"
  | body => "a rule body"
  | firstPart => "a label, a quoted word or `*`"
  | quotedWord => "a quoted word"
  | lineEnd => "end of line"

end Wanted

/-- Why a text is no grammar text; no token was found where the line is over. -/
inductive Fault
  | expected (wanted : Wanted) (found : Option Token)
  | unterminated
  | unknownDirective (name : String)
  | refused (cause : GrammarError)
deriving DecidableEq, Repr

namespace Fault

def message : Fault → String
  | expected wanted found =>
    "expected " ++ wanted.describe ++ ", found " ++
      (found.map Token.describe).getD "end of input"
  | unterminated => "unterminated string"
  | unknownDirective name => "unknown directive @" ++ name
  | refused cause => cause.message

end Fault

structure LineFault where
  line : Nat
  fault : Fault
deriving DecidableEq, Repr

namespace LineFault

def message (error : LineFault) : String :=
  "line " ++ toString error.line ++ ": " ++ error.fault.message

end LineFault

/-- What a statement adds, up to its fault if it has one. -/
structure Statement where
  additions : List Addition
  fault : Option Fault := none
deriving DecidableEq, Repr

namespace Statement

def failed (wanted : Wanted) (found : Option Token) : Statement :=
  ⟨[], some (.expected wanted found)⟩

def after (addition : Addition) (rest : Statement) : Statement :=
  ⟨addition :: rest.additions, rest.fault⟩

def ofRoots : List Token → Statement
  | [] => ⟨[], none⟩
  | .symbol label :: rest => after (.root label) (ofRoots rest)
  | other :: _ => failed .rootLabel (some other)

def ofWords (label : String) : List Token → Statement
  | [] => ⟨[], none⟩
  | .quoted word :: rest => after (.lexical label word) (ofWords label rest)
  | other :: _ => failed .quotedWord (some other)

def ofBody (parent : String) : List Token → Statement
  | [] => failed .body none
  | [.symbol child] => ⟨[.unary parent child], none⟩
  | [.symbol left, .symbol right] => ⟨[.binary parent left right], none⟩
  | [.star] => ⟨[.terminal parent], none⟩
  | .quoted word :: rest => ofWords parent (.quoted word :: rest)
  | .symbol _ :: .symbol _ :: other :: _ => failed .lineEnd (some other)
  | first :: _ => failed .firstPart (some first)

def ofTokens : List Token → Statement
  | [] => ⟨[], none⟩
  | .directive name :: labels =>
    if name = "top" then
      if labels.isEmpty then failed .rootLabel none else ofRoots labels
    else ⟨[], some (.unknownDirective name)⟩
  | .symbol parent :: .arrow :: body => ofBody parent body
  | .symbol _ :: other :: _ => failed .arrow (some other)
  | [.symbol _] => failed .arrow none
  | first :: _ => failed .statement (some first)

end Statement

/-- The additions of a text, each with the number of its line, and the fault that ends it. -/
structure Reading where
  additions : List (Nat × Addition)
  fault : Option LineFault
deriving DecidableEq, Repr

namespace Reading

/-- The statements of some lines, up to the first fault; `last` is the fault behind them all. -/
def ofLines (last : Option LineFault) : List Line → Reading
  | [] => ⟨[], last⟩
  | line :: rest =>
    let statement := Statement.ofTokens line.tokens
    let additions := statement.additions.map (line.number, ·)
    match statement.fault with
    | some fault => ⟨additions, some ⟨line.number, fault⟩⟩
    | none =>
      let later := ofLines last rest
      ⟨additions ++ later.additions, later.fault⟩

def ofText (text : String) : Reading :=
  let lines := Lines.ofText text
  ofLines (lines.unterminated.map (⟨·, .unterminated⟩)) lines.lines

end Reading

open Grammar in
def Addition.apply : Addition → Edit Unit
  | root label => discard (addRootNamed label)
  | binary parent left right => discard (addBinaryNamed parent left right)
  | unary parent child => discard (addUnaryNamed parent child)
  | terminal label => discard (addTerminalNamed label)
  | lexical label word => discard (addLexicalNamed label word)

/-- Adds what a text reads as, and reports what ends it. -/
def Reading.apply (reading : Reading) : ExceptT LineFault (StateM Grammar) Unit := do
  reading.additions.forM fun (line, addition) =>
    addition.apply.adapt fun cause => ⟨line, .refused cause⟩
  match reading.fault with
  | some fault => throw fault
  | none => return ()

end Text

def Grammar.addText (text : String) : ExceptT Text.LineFault (StateM Grammar) Unit :=
  (Text.Reading.ofText text).apply

end Constituency
