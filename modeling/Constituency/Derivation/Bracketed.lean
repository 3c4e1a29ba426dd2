import Constituency.Derivation.Basic

/-!
Trees as text, such as `(S (NP (PRP I)) (VP (V sleep)))`.
-/

namespace Constituency.Derivation

/-- Writes the span at a place of a tree and all below it, children in the order of their starts.
`depth` bounds the levels still to come, and the number of spans is enough for it. -/
def writeSpan (grammar : Grammar) (sentence : Sentence) (spans : List Span) (parents : Parents) :
    Nat → Nat → String
  | 0, _ => ""
  | depth + 1, place =>
    match spans[place]? with
    | none => ""
    | some span =>
      let start (child : Nat) : Nat := (spans[child]?.map Span.start).getD 0
      let children := (parents.childrenOf place).mergeSort fun a b => start a ≤ start b
      let token :=
        if span.isTerminal then " " ++ (sentence.token? span.start).getD "?" else ""
      let below := children.map fun child =>
        " " ++ writeSpan grammar sentence spans parents depth child
      "(" ++ grammar.labelName span.label ++ token ++ String.join below ++ ")"

def write (grammar : Grammar) (sentence : Sentence) (spans : List Span) :
    Except TreeError String := do
  let parents ← Parents.ofTree spans sentence.length
  match parents.root? with
  | some root => return writeSpan grammar sentence spans parents spans.length root
  | none => throw .noRoot

end Constituency.Derivation
