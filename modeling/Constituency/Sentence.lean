/-!
Sentences: tokens with their numbers in a vocabulary.
-/

namespace Constituency

structure Word where
  token : String
  number : Option Nat
deriving DecidableEq, Repr

structure Sentence where
  words : Array Word := #[]
deriving DecidableEq, Repr

namespace Sentence

def length (sentence : Sentence) : Nat := sentence.words.size

def isEmpty (sentence : Sentence) : Bool := sentence.words.isEmpty

def tokens (sentence : Sentence) : List String := sentence.words.toList.map Word.token

def token? (sentence : Sentence) (position : Nat) : Option String :=
  sentence.words[position]?.map Word.token

/-- The number of the word at a position. Unknown words have none, and neither has a position
behind the sentence. -/
def number? (sentence : Sentence) (position : Nat) : Option Nat :=
  sentence.words[position]?.bind Word.number

end Sentence

end Constituency
