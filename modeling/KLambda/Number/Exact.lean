/-!
The exact value of a double. A finite double is a whole number times a power of two, read off its
bits, so whether it is a whole number, and which one, is decided without rounding.
-/
namespace KLambda.Number

/-- A finite magnitude `significand * 2 ^ exponent` with its sign. -/
structure Dyadic where
  negative : Bool
  significand : Nat
  exponent : Int
deriving DecidableEq, Repr

def signBit (x : Float) : Bool := x.toBits.toNat / Nat.pow 2 63 == 1

def exponentField (x : Float) : Nat := x.toBits.toNat / Nat.pow 2 52 % Nat.pow 2 11

def fractionField (x : Float) : Nat := x.toBits.toNat % Nat.pow 2 52

/-- Infinities and NaN have no exact value. -/
def dyadic? (x : Float) : Option Dyadic :=
  if exponentField x == 2047 then none
  else if exponentField x == 0 then some ⟨signBit x, fractionField x, -1074⟩
  else some ⟨signBit x, Nat.pow 2 52 + fractionField x, (exponentField x : Int) - 1075⟩

/-- The magnitude as a whole number, if it is one. -/
def Dyadic.toNat? (d : Dyadic) : Option Nat :=
  if 0 ≤ d.exponent then some (d.significand * Nat.pow 2 d.exponent.toNat)
  else if d.significand % Nat.pow 2 (-d.exponent).toNat = 0 then
    some (d.significand / Nat.pow 2 (-d.exponent).toNat)
  else none

/-- The whole number that a double is; both zeros are `0`. -/
def toInt? (x : Float) : Option Int :=
  match dyadic? x with
  | none => none
  | some d => d.toNat?.map fun n => if d.negative then -(n : Int) else n

end KLambda.Number
