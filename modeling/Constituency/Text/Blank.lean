/-!
The characters that separate words: those with the Unicode property White_Space.
-/

namespace Constituency.Text

/-- First and last code point of each range with the property White_Space. -/
def blankRanges : List (Nat × Nat) :=
  [(0x9, 0xD), (0x20, 0x20), (0x85, 0x85), (0xA0, 0xA0), (0x1680, 0x1680), (0x2000, 0x200A),
    (0x2028, 0x2029), (0x202F, 0x202F), (0x205F, 0x205F), (0x3000, 0x3000)]

def isBlank (c : Char) : Bool :=
  blankRanges.any fun (first, last) => first ≤ c.toNat && c.toNat ≤ last

/-- Labels and directives are runs of characters that neither separate, comment nor quote. -/
def isSymbol (c : Char) : Bool := !isBlank c && c != '%' && c != '"'

end Constituency.Text
