import StepChain.Toml.Text
import StepChain.Toml.Value
/-!
# Numbers in TOML

Decimal integers and floats with an optional sign, and hexadecimal, octal and binary integers without one.  Single
underscores may stand between digits, and a decimal integer has no zero before other digits.  Integers fit into 64
bits with a sign.  A float is the nearest double; beyond the largest one a positive float is refused and a negative
one is infinite.
-/
namespace StepChain.Toml

/-- The digits after the first one, underscores taken out; an underscore must be followed by a digit. -/
def readMoreDigits (isDigit : Char → Bool) : List Char → Option (List Char × List Char)
  | '_' :: c :: rest => do
    guard (isDigit c)
    let (digits, rest) ← readMoreDigits isDigit rest
    return (c :: digits, rest)
  | '_' :: [] => none
  | c :: rest =>
    if isDigit c then do
      let (digits, rest) ← readMoreDigits isDigit rest
      return (c :: digits, rest)
    else some ([], c :: rest)
  | [] => some ([], [])

def readDigits? (isDigit : Char → Bool) : List Char → Option (List Char × List Char)
  | c :: rest => do
    guard (isDigit c)
    let (digits, rest) ← readMoreDigits isDigit rest
    return (c :: digits, rest)
  | [] => none

/-- Reads the digits of a decimal integer; a zero stands alone. -/
def readDecimal? : List Char → Option (List Char × List Char)
  | '0' :: rest => some (['0'], rest)
  | cs => readDigits? Char.isDigit cs

/-- Reads a fraction after its point, if there is one. -/
def readFraction? : List Char → Option (Option (List Char) × List Char)
  | '.' :: rest => (readDigits? Char.isDigit rest).map fun (digits, rest) => (some digits, rest)
  | cs => some (none, cs)

/-- Reads the number of an exponent, with an optional sign. -/
def readPower? : List Char → Option (Int × List Char)
  | '-' :: rest => (readDigits? Char.isDigit rest).map fun (digits, rest) => (-(naturalOf digits : Int), rest)
  | '+' :: rest => (readDigits? Char.isDigit rest).map fun (digits, rest) => ((naturalOf digits : Int), rest)
  | cs => (readDigits? Char.isDigit cs).map fun (digits, rest) => ((naturalOf digits : Int), rest)

/-- Reads an exponent, if there is one. -/
def readExponent? : List Char → Option (Option Int × List Char)
  | 'e' :: rest | 'E' :: rest => (readPower? rest).map fun (power, rest) => (some power, rest)
  | cs => some (none, cs)

/-- An integer of 64 bits with a sign. -/
def integer? (n : Int) : Option Value :=
  if -(twoTo 63 : Int) ≤ n ∧ n < (twoTo 63 : Int) then some (.integer n) else none

/-- The float with these digits. -/
def float? (negative : Bool) (whole fraction : List Char) (exponent : Int) : Option Value :=
  match Binary64.ofDecimal? negative (naturalOf (whole ++ fraction)) (exponent - fraction.length) with
  | some x => some (.float (some x))
  | none => if negative then some (.float none) else none

/-- Reads a decimal number after its sign. -/
def readDecimalNumber? (negative : Bool) (cs : List Char) : Option (Value × List Char) := do
  let (whole, rest) ← readDecimal? cs
  let (fraction, rest) ← readFraction? rest
  let (exponent, rest) ← readExponent? rest
  match fraction, exponent with
  | none, none =>
    let n : Int := naturalOf whole
    return (← integer? (if negative then -n else n), rest)
  | _, _ => return (← float? negative whole (fraction.getD []) (exponent.getD 0), rest)

/-- Reads what may follow a sign, or stand without one: a decimal number, `inf` or `nan`. -/
def readSigned? (negative : Bool) : List Char → Option (Value × List Char)
  | 'i' :: 'n' :: 'f' :: rest => some (.float none, rest)
  | 'n' :: 'a' :: 'n' :: rest => some (.float none, rest)
  | cs => readDecimalNumber? negative cs

/-- Reads an integer in another base after its two leading characters. -/
def readRadix? (base : Nat) (cs : List Char) : Option (Value × List Char) := do
  let (digits, rest) ← readDigits? (fun c => (hexValue? c).any (fun d => d < base)) cs
  let n := digits.foldl (fun n c => n * base + (hexValue? c).getD 0) 0
  return (← integer? n, rest)

def readNumber? : List Char → Option (Value × List Char)
  | '+' :: rest => readSigned? false rest
  | '-' :: rest => readSigned? true rest
  | '0' :: 'x' :: rest => readRadix? 16 rest
  | '0' :: 'o' :: rest => readRadix? 8 rest
  | '0' :: 'b' :: rest => readRadix? 2 rest
  | cs => readSigned? false cs

def readNumeral? (cs : List Char) : Option (Value × List Char) :=
  if startsDate cs ∨ startsTime cs then (Datetime.read? cs).map fun (d, rest) => (.datetime d, rest)
  else readNumber? cs

end StepChain.Toml
