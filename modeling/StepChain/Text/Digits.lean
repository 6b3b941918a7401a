/-!
# Digits

What decimal and hexadecimal digits are worth.
-/
namespace StepChain

def hexValue? (c : Char) : Option Nat :=
  if '0' ≤ c ∧ c ≤ '9' then some (c.toNat - '0'.toNat)
  else if 'a' ≤ c ∧ c ≤ 'f' then some (c.toNat - 'a'.toNat + 10)
  else if 'A' ≤ c ∧ c ≤ 'F' then some (c.toNat - 'A'.toNat + 10)
  else none

def digitValue (c : Char) : Nat := c.toNat - '0'.toNat

/-- The number written by decimal digits, the first one highest. -/
def naturalOf (digits : List Char) : Nat := digits.foldl (fun n d => n * 10 + digitValue d) 0

/-- The number written by hexadecimal digits, if they all are. -/
def hexNatural? (digits : List Char) : Option Nat :=
  digits.foldlM (fun n c => (hexValue? c).map (n * 16 + ·)) 0

end StepChain
