import Constituency.Score.Basic
import Constituency.Sentence
import Constituency.Tree.Span

/-!
Models score rules at the places where they are applied.
-/

namespace Constituency

/-- An interval of a sentence at which a rule is applied. -/
structure Site where
  sentence : Sentence
  start : Nat
  stop : Nat
  split : Nat

namespace Site

def ofSpan (sentence : Sentence) (span : Span) : Site :=
  ⟨sentence, span.start, span.stop, span.split⟩

def firstWord (site : Site) : Option Nat := site.sentence.number? site.start

def lastWord (site : Site) : Option Nat := site.sentence.number? (site.stop - 1)

def splitWord (site : Site) : Option Nat := site.sentence.number? site.split

end Site

/-- The score of a rule at a site, and what the parent's label adds to it. -/
structure Model (α : Type) where
  score : RuleCode → Site → α
  parentScore : RuleCode → Label → Site → α

namespace Model

open Score

def constant {α : Type} [Score α] (value : α) : Model α :=
  ⟨fun _ _ => value, fun _ _ _ => zero⟩

end Model

end Constituency
