import KLambda.Number.Exact

/-!
The shortest decimal that reads back as a given double. On each decimal grid, from coarse to fine,
the two grid points next to the value are tried; the first grid with a point inside the interval
of reals that round to the value gives the digits.
-/
namespace KLambda.Number

/-- The positive number `digits * 10 ^ exponent`. -/
structure Decimal where
  digits : Nat
  exponent : Int
deriving DecidableEq, Repr

/-- The reals that round to a positive double, as multiples of `num / den`: from `low` to `high`
around `mid`, the ends belonging to it when `closed`. -/
structure Interval where
  low : Nat
  mid : Nat
  high : Nat
  closed : Bool
  num : Nat
  den : Nat

/-- A quarter of the last place is the unit, as the gap below a power of two is half the gap
above. -/
def Dyadic.interval (d : Dyadic) : Interval :=
  let e := d.exponent - 2
  { low := if d.significand == Nat.pow 2 52 && d.exponent > -1074
      then 4 * d.significand - 1 else 4 * d.significand - 2
    mid := 4 * d.significand
    high := 4 * d.significand + 2
    closed := d.significand % 2 == 0
    num := Nat.pow 2 e.toNat
    den := Nat.pow 2 (-e).toNat }

namespace Interval

/-- The numerators and the common denominator, once the unit is measured in steps of `10 ^ k`. -/
def scale (i : Interval) (k : Int) : Nat × Nat :=
  (i.num * Nat.pow 10 (-k).toNat, i.den * Nat.pow 10 k.toNat)

def holds (i : Interval) (num den n : Nat) : Bool :=
  if i.closed then i.low * num ≤ n * den && n * den ≤ i.high * num
  else i.low * num < n * den && n * den < i.high * num

/-- The grid point nearest to the value among its two neighbours inside the interval; of two
equally near ones the greater. -/
def onGrid? (i : Interval) (k : Int) : Option Nat :=
  let (num, den) := i.scale k
  let below := i.mid * num / den
  let above := below + 1
  match i.holds num den below, i.holds num den above with
  | true, true =>
    some (if i.mid * num - below * den < above * den - i.mid * num then below else above)
  | true, false => some below
  | false, true => some above
  | false, false => none

/-- Searches grids of falling step; `fuel` bounds how many. -/
def search (i : Interval) : Nat → Int → Decimal
  | 0, k => ⟨0, k⟩
  | fuel + 1, k =>
    match i.onGrid? k with
    | some n => ⟨n, k⟩
    | none => i.search fuel (k - 1)

end Interval

/-- An exponent of ten above that of `2 ^ bits`, at most three too large. -/
def decimalBound (bits : Int) : Int := bits * 30103 / 100000 + 2

/-- The shortest decimal inside the rounding interval of a positive magnitude. -/
def Dyadic.shortest (d : Dyadic) : Decimal :=
  d.interval.search 40 (decimalBound (d.significand.log2 + 1 + d.exponent))

end KLambda.Number
