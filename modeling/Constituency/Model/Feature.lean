import Constituency.Model.Basic

/-!
Features: what a linear model looks at when a rule is applied.
-/

namespace Constituency

/-- A rule together with one fact about its site; a word outside the vocabulary is `none`. -/
inductive Feature
  | rule (code : RuleCode)
  | emission (code : RuleCode) (word : Option Nat)
  | firstWord (code : RuleCode) (word : Option Nat)
  | lastWord (code : RuleCode) (word : Option Nat)
  | splitWord (code : RuleCode) (word : Option Nat)
  | width (code : RuleCode) (bucket : Nat)
  | parent (code : RuleCode) (label : Label)
deriving DecidableEq, Repr, Hashable

namespace Feature

/-- Widths up to four each have a bucket; those from five, from eight and from sixteen share one. -/
def bucket (width : Nat) : Nat :=
  if width ≤ 4 then width else if width ≤ 7 then 5 else if width ≤ 15 then 6 else 7

/-- The bucket of an interval; one that stops before it starts counts among the widest. -/
def bucketOf (start stop : Nat) : Nat := if start ≤ stop then bucket (stop - start) else 7

def atSite (code : RuleCode) (site : Site) : List Feature :=
  rule code ::
    match code.shape? with
    | some .terminal => [emission code site.firstWord]
    | some .unary =>
      [firstWord code site.firstWord, lastWord code site.lastWord,
        width code (bucketOf site.start site.stop)]
    | some .binary =>
      [firstWord code site.firstWord, lastWord code site.lastWord,
        splitWord code site.splitWord, width code (bucketOf site.start site.stop)]
    | none => []

end Feature

end Constituency
