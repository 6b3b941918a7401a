/-!
# Blank text

The characters of the Unicode property White_Space.  A name made of these alone says nothing.
-/
namespace StepChain

/-- The ranges of code points with the property White_Space. -/
def blankRanges : List (Nat × Nat) :=
  [(0x09, 0x0D), (0x20, 0x20), (0x85, 0x85), (0xA0, 0xA0), (0x1680, 0x1680), (0x2000, 0x200A), (0x2028, 0x2029),
    (0x202F, 0x202F), (0x205F, 0x205F), (0x3000, 0x3000)]

def isBlankChar (c : Char) : Bool := blankRanges.any fun (low, high) => low ≤ c.toNat && c.toNat ≤ high

/-- Whether nothing is left of a text once blanks are trimmed. -/
def isBlankText (s : String) : Bool := s.toList.all isBlankChar

end StepChain
