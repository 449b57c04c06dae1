import KLambda.Number.Shortest

/-!
The text of a number: the shortest digits that read back, always in positional notation, with no
fraction point for whole numbers.
-/
namespace KLambda.Number

/-- Positional notation of `digits * 10 ^ exponent`. -/
def Decimal.text (d : Decimal) : String :=
  let digits := Nat.toDigits 10 d.digits
  if 0 ≤ d.exponent then
    String.ofList (digits ++ List.replicate d.exponent.toNat '0')
  else
    let places := (-d.exponent).toNat
    let padded := List.replicate (places + 1 - digits.length) '0' ++ digits
    let whole := padded.length - places
    String.ofList (padded.take whole ++ '.' :: padded.drop whole)

/-- Infinities are `inf` and `-inf`, and zero keeps its sign. -/
def text (x : Float) : String :=
  match dyadic? x with
  | none => if fractionField x ≠ 0 then "NaN" else if signBit x then "-inf" else "inf"
  | some d =>
    let magnitude := if d.significand = 0 then "0" else d.shortest.text
    if d.negative then "-" ++ magnitude else magnitude

end KLambda.Number
