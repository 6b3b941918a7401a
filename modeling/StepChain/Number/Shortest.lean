import StepChain.Number.Binary64
/-!
# The shortest decimal of a double

A double stands for an interval of reals, those that round to it; the ends belong to it when its mantissa is even.
`Magnitude.shortest` is the decimal with the fewest digits inside that interval, of those the one nearest to the
double and of two equally near the one with the even last digit.  For each number of digits only the two neighbours of
the double on that decimal grid are tried: if any point of the grid lies in the interval, one of these does.

`Binary64.text` writes it: positional from 10^-5 up to below 10^16, always with a point, and with a signed
exponent elsewhere.
-/
namespace StepChain

structure Decimal where
  digits : Nat
  exponent : Int
  deriving DecidableEq

namespace Decimal

def trimmed (d : Decimal) : Decimal :=
  let zeros := ((Nat.toDigits 10 d.digits).reverse.takeWhile (· == '0')).length
  if d.digits = 0 then d else ⟨d.digits / tenTo zeros, d.exponent + zeros⟩

end Decimal

namespace Magnitude

/-- A quarter of the last place: the unit in which the ends of the interval are whole. -/
def quarters (x : Magnitude) (n : Nat) : Magnitude := ⟨n, x.exponent - 2⟩

/-- The lower end of the interval of reals that round to `x`; below a power of two the spacing is half as wide. -/
def lowerEnd (x : Magnitude) : Magnitude :=
  x.quarters (4 * x.mantissa - (if x.mantissa = twoTo 52 ∧ minExponent < x.exponent then 1 else 2))

def upperEnd (x : Magnitude) : Magnitude := x.quarters (4 * x.mantissa + 2)

/-- `x` divided by `10 ^ k`, as a numerator and a denominator. -/
def quotient (x : Magnitude) (k : Int) : Nat × Nat :=
  (x.numerator * tenTo (-k).toNat, x.denominator * tenTo k.toNat)

/-- Whether `c * 10 ^ k` lies in the interval of reals that round to `x`. -/
def admits (x : Magnitude) (c : Nat) (k : Int) : Bool :=
  let (ln, ld) := x.lowerEnd.quotient k
  let (un, ud) := x.upperEnd.quotient k
  if x.mantissa % 2 = 0 then ln ≤ c * ld && c * ud ≤ un else ln < c * ld && c * ud < un

/-- The power of ten of the first digit: `10 ^ p ≤ x < 10 ^ (p + 1)`. -/
def decimalPlace (x : Magnitude) : Int :=
  let (n, d) := x.quotient (-330)
  (decimalLength (n / d) : Int) - 331

/-- The decimal with `count` digits nearest to `x` among those in its interval. -/
def onGrid? (x : Magnitude) (count : Nat) : Option Decimal :=
  let k := x.decimalPlace + 1 - count
  let (n, d) := x.quotient k
  let below := n / d
  let above := below + 1
  match x.admits below k, x.admits above k with
  | true, false => some ⟨below, k⟩
  | false, true => some ⟨above, k⟩
  | true, true => some ⟨roundHalfEven n d, k⟩
  | false, false => none

/-- The first of the next `fuel` grids, from `count` digits on, that has a point in the interval. -/
def firstGrid (x : Magnitude) : Nat → Nat → Decimal
  | 0, count => ⟨(x.quotient (x.decimalPlace + 1 - count)).1, 0⟩
  | fuel + 1, count => (x.onGrid? count).getD (x.firstGrid fuel (count + 1))

/-- The shortest decimal that reads back as `x`; seventeen digits always do. -/
def shortest (x : Magnitude) : Decimal :=
  if x.isZero then ⟨0, 0⟩ else (x.firstGrid 17 1).trimmed

end Magnitude

namespace Decimal

def zeros (n : Nat) : String := "".pushn '0' n

/-- Digits with a point: `digits` has its point after `point` digits, which may lie outside of them. -/
def positional (digits : String) (point : Int) : String :=
  let size : Int := digits.length
  if size ≤ point then digits ++ zeros (point - size).toNat ++ ".0"
  else if 0 < point then
    String.ofList (digits.toList.take point.toNat) ++ "." ++ String.ofList (digits.toList.drop point.toNat)
  else "0." ++ zeros (-point).toNat ++ digits

/-- One digit before the point and an exponent, which always has a sign. -/
def scientific (digits : String) (point : Int) : String :=
  let tail := digits.toList.drop 1
  String.ofList (digits.toList.take 1) ++ (if tail.isEmpty then "" else "." ++ String.ofList tail) ++
    (if point < 1 then "e-" else "e+") ++ Nat.repr (point - 1).natAbs

/-- Positional notation serves from 10^-5 up to below 10^16. -/
def text (d : Decimal) : String :=
  let digits := String.ofList (Nat.toDigits 10 d.digits)
  let point : Int := digits.length + d.exponent
  if d.digits = 0 then "0.0"
  else if -5 < point ∧ point ≤ 16 then positional digits point
  else scientific digits point

end Decimal

/-- The shortest text that reads back as the double. -/
def Binary64.text (x : Binary64) : String := (if x.negative then "-" else "") ++ x.magnitude.shortest.text

end StepChain
