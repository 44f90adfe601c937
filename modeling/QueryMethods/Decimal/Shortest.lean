/-
The shortest decimal of a double: of the decimals that read back as the double, those on the
coarsest decimal grid, and of these the one nearest to it; of two equally near the larger. Every
comparison is exact, on natural numbers.
-/
import QueryMethods.Decimal.Binary64
namespace QueryMethods

/-- The number `coefficient * 10 ^ exponent`. -/
structure Decimal where
  coefficient : Nat
  exponent : Int
  deriving DecidableEq

namespace Binary64

/-! ## The rounding interval -/

/-- The reals that read back as a double: those between `lower` and `upper`, with both ends if
`closed`. All three numbers count units of `2 ^ unit`. -/
structure Interval where
  lower : Nat
  value : Nat
  upper : Nat
  unit : Int
  closed : Bool

/-- The interval of a finite number, in quarters of its last bit: half a bit to each side, but only
a quarter below a power of two, where the doubles lie closer together. -/
def interval (x : Binary64) : Interval where
  lower := if x.fraction = 0 ∧ 1 < x.exponentField then 4 * x.significand - 1
    else 4 * x.significand - 2
  value := 4 * x.significand
  upper := 4 * x.significand + 2
  unit := x.scale - 2
  closed := x.significand % 2 == 0

/-- Compares `c * 10 ^ p` with `n * 2 ^ e`. -/
def compareScaled (c : Nat) (p : Int) (n : Nat) (e : Int) : Ordering :=
  compare (c * Nat.pow 10 p.toNat <<< (-e).toNat) ((n <<< e.toNat) * Nat.pow 10 (-p).toNat)

namespace Interval

/-- Whether a decimal lies in the interval, whose ends belong to it if it is closed. -/
def contains (i : Interval) (d : Decimal) : Bool :=
  let low := compareScaled d.coefficient d.exponent i.lower i.unit
  let high := compareScaled d.coefficient d.exponent i.upper i.unit
  (low == .gt || i.closed && low == .eq) && (high == .lt || i.closed && high == .eq)

/-- The last point of the grid of `10 ^ p` that is at most the value. -/
def floorOn (i : Interval) (p : Int) : Nat :=
  (i.value <<< i.unit.toNat) * Nat.pow 10 (-p).toNat / (Nat.pow 10 p.toNat <<< (-i.unit).toNat)

/-- The point of the grid of `10 ^ p` in the interval that is nearest to the value. Only the two
neighbours of the value are tried, since no other point is nearer. -/
def nearestOn? (i : Interval) (p : Int) : Option Decimal :=
  let below : Decimal := ⟨i.floorOn p, p⟩
  let above : Decimal := ⟨i.floorOn p + 1, p⟩
  if i.contains below then
    if i.contains above ∧
        compareScaled (2 * below.coefficient + 1) p (2 * i.value) i.unit ≠ .gt then
      some above
    else some below
  else if i.contains above then some above
  else none

/-- Tries the grid of `10 ^ p` and then up to `n` finer ones. -/
def search (i : Interval) : Nat → Int → Decimal
  | 0, p => (i.nearestOn? p).getD ⟨i.floorOn p, p⟩
  | n + 1, p => (i.nearestOn? p).getD (i.search n (p - 1))

/-- The exponent of the first digit of a positive value. The factor makes every value at least one,
for none is below `10 ^ -400`. -/
def leadingExponent (i : Interval) : Int :=
  (toString (i.floorOn (-400))).length - 401

end Interval

/-- The shortest decimal of a finite positive number. The grid above its first digit is tried
too, for the number may round up to a power of ten; seventeen digits always suffice. -/
def shortest (x : Binary64) : Decimal :=
  x.interval.search 17 (x.interval.leadingExponent + 1)

end Binary64

/-! ## Text -/

/-- A run of zero digits. -/
def zeros (n : Nat) : String :=
  String.ofList (List.replicate n '0')

/-- Positional notation, without exponent and without digits that are not needed. -/
def Decimal.positional (d : Decimal) : String :=
  let digits := toString d.coefficient
  let places := (-d.exponent).toNat
  if 0 ≤ d.exponent then digits ++ zeros d.exponent.toNat
  else if places < digits.length then
    let whole := digits.length - places
    String.ofList (digits.toList.take whole) ++ "." ++ String.ofList (digits.toList.drop whole)
  else "0." ++ zeros (places - digits.length) ++ digits

/-- A double as text: its shortest decimal in positional notation, after a minus sign for a
negative number, the negative zero included. -/
def Binary64.render (x : Binary64) : String :=
  if x.isNaN then "NaN"
  else
    let magnitude :=
      if x.isInfinite then "inf" else if x.isZero then "0" else x.shortest.positional
    if x.isNegative then "-" ++ magnitude else magnitude

end QueryMethods
