/-!
# Finite doubles

A finite double is a sign, a whole mantissa below 2^53 and an exponent of two.  Rounding is to the nearest double, a
tie going to the even mantissa (`roundHalfEven`, `Magnitude.ofRatio?`), and everything is exact arithmetic on
naturals.

- `Magnitude.ofRatio? num den`: the double nearest to a quotient, `none` above the largest one;
- `Binary64.ofDecimal?`: the double nearest to `digits * 10 ^ exponent`;
- `Magnitude.scaled?`: a significand brought to its power of ten in two rounded steps.
-/
namespace StepChain

def twoTo (k : Nat) : Nat := Nat.pow 2 k

def tenTo (k : Nat) : Nat := Nat.pow 10 k

/-- The whole number nearest to `num / den`, of two the even one. -/
def roundHalfEven (num den : Nat) : Nat :=
  let q := num / den
  let r := num % den
  if 2 * r < den then q
  else if den < 2 * r then q + 1
  else if q % 2 = 0 then q else q + 1

structure Magnitude where
  mantissa : Nat
  exponent : Int
  deriving DecidableEq

namespace Magnitude

/-- The least exponent of a double; zero carries it too. -/
def minExponent : Int := -1074

def maxExponent : Int := 971

def zero : Magnitude := ⟨0, minExponent⟩

def isZero (x : Magnitude) : Bool := x.mantissa == 0

/-- The magnitude as a quotient of whole numbers. -/
def numerator (x : Magnitude) : Nat := x.mantissa * twoTo x.exponent.toNat

def denominator (x : Magnitude) : Nat := twoTo (-x.exponent).toNat

/-- `num / den` over `2 ^ e`, rounded to a whole number. -/
def mantissaAt (num den : Nat) (e : Int) : Nat :=
  roundHalfEven (num * twoTo (-e).toNat) (den * twoTo e.toNat)

/-- The exponent that leaves 53 bits before the point of `num / den`, never below the least one. -/
def exponentFor (num den : Nat) : Int :=
  let guess : Int := (num.log2 : Int) - (den.log2 : Int) - 52
  let full : Bool := den * twoTo (guess + 52).toNat ≤ num * twoTo (-(guess + 52)).toNat
  max minExponent (if full then guess else guess - 1)

/-- The double nearest to `num / den`, `none` if that is beyond the largest one. -/
def ofRatio? (num den : Nat) : Option Magnitude :=
  if num = 0 then some zero
  else
    let e := exponentFor num den
    let m := mantissaAt num den e
    let x : Magnitude := if m = twoTo 53 then ⟨twoTo 52, e + 1⟩ else ⟨m, e⟩
    if maxExponent < x.exponent then none else some x

/-- The double nearest to a power of ten up to 10^308. -/
def powerOfTen? (k : Nat) : Option Magnitude := ofRatio? (tenTo k) 1

def mul? (x y : Magnitude) : Option Magnitude :=
  ofRatio? (x.numerator * y.numerator) (x.denominator * y.denominator)

def div? (x y : Magnitude) : Option Magnitude :=
  ofRatio? (x.numerator * y.denominator) (x.denominator * y.numerator)

/-- Divides by 10^`k`, at most 10^308 at a time, each quotient rounded. -/
def shrink? (x : Magnitude) (k : Nat) : Option Magnitude :=
  if x.isZero then some x
  else if k ≤ 308 then (powerOfTen? k).bind x.div?
  else (((powerOfTen? 308).bind x.div?)).bind (·.shrink? (k - 308))
  termination_by k

/-- `significand * 10 ^ exponent` in two steps: the significand is rounded, then brought to its power of ten and
rounded again; `none` beyond the largest double. -/
def scaled? (significand : Nat) (exponent : Int) : Option Magnitude := do
  let x ← ofRatio? significand 1
  if x.isZero then return x
  else if exponent < 0 then x.shrink? (-exponent).toNat
  else if 308 < exponent then none
  else (powerOfTen? exponent.toNat).bind x.mul?

end Magnitude

structure Binary64 where
  negative : Bool
  magnitude : Magnitude
  deriving DecidableEq

/-- How many decimal digits a whole number has; zero has one. -/
def decimalLength (n : Nat) : Nat := (Nat.toDigits 10 n).length

namespace Binary64

/-- The double nearest to `± digits * 10 ^ exponent`, `none` beyond the largest one.  Far outside the range of doubles
the answer is known without forming the power. -/
def ofDecimal? (negative : Bool) (digits : Nat) (exponent : Int) : Option Binary64 :=
  let scale : Int := decimalLength digits + exponent
  if digits = 0 ∨ scale < -330 then some ⟨negative, .zero⟩
  else if 310 < scale then none
  else (Magnitude.ofRatio? (digits * tenTo exponent.toNat) (tenTo (-exponent).toNat)).map (⟨negative, ·⟩)

end Binary64

end StepChain
