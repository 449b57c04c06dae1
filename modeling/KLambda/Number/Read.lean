/-!
Decimal texts as doubles, each rounded to the nearest double. Source text has one spelling of
numbers, `[+-]digits[.digits]`; values handed in from outside may also have an exponent, lack one
side of the point, or name an infinity or NaN.
-/
namespace KLambda.Number

def isDigits (cs : List Char) : Bool := !cs.isEmpty && cs.all Char.isDigit

def digitsValue (cs : List Char) : Nat := cs.foldl (fun n c => 10 * n + (c.toNat - 48)) 0

/-- The sign, if there is one, and what follows it. -/
def splitSign : List Char → Bool × List Char
  | '-' :: cs => (true, cs)
  | '+' :: cs => (false, cs)
  | cs => (false, cs)

def signed (negative : Bool) (x : Float) : Float := if negative then -x else x

/-- What stands before the first `mark`, and what stands after it. -/
def splitAtMark (mark : Char) (cs : List Char) : List Char × Option (List Char) :=
  match cs.dropWhile (· != mark) with
  | [] => (cs, none)
  | _ :: rest => (cs.takeWhile (· != mark), some rest)

/-- A number as source text spells it: a whole part and, after a point, a fraction, both of
ASCII digits and neither empty. -/
def ofLexeme? (cs : List Char) : Option Float :=
  let (negative, unsigned) := splitSign cs
  match splitAtMark '.' unsigned with
  | (whole, none) =>
    if isDigits whole then some (signed negative (Float.ofScientific (digitsValue whole) false 0))
    else none
  | (whole, some fraction) =>
    if isDigits whole && isDigits fraction then
      some (signed negative
        (Float.ofScientific (digitsValue (whole ++ fraction)) true fraction.length))
    else none

/-- `digits * 10 ^ exponent`. Beyond the range of doubles the answer is zero or infinite whatever
the exponent is, so it is cut off there. -/
def ofDigits (digits : Nat) (size : Nat) (exponent : Int) : Float :=
  if digits = 0 then 0
  else if exponent > 400 then Float.ofScientific digits false 400
  else if exponent < -400 - (size : Int) then 0
  else if 0 ≤ exponent then Float.ofScientific digits false exponent.toNat
  else Float.ofScientific digits true (-exponent).toNat

def exponent? (cs : List Char) : Option Int :=
  let (negative, digits) := splitSign cs
  if isDigits digits then
    some (if negative then -(digitsValue digits : Int) else digitsValue digits)
  else none

/-- Digits with an optional point, of which at least one side has a digit, and an exponent. -/
def ofUnsigned? (cs : List Char) : Option Float :=
  let (mantissa, power) := splitAtMark 'e' cs
  let (whole, fraction) := splitAtMark '.' mantissa
  let fraction := fraction.getD []
  match (match power with | none => some 0 | some p => exponent? p) with
  | none => none
  | some e =>
    if isDigits (whole ++ fraction) then
      some (ofDigits (digitsValue (whole ++ fraction)) (whole ++ fraction).length
        (e - fraction.length))
    else none

/-- Any decimal text of a double, in either case of letters. -/
def ofText? (s : String) : Option Float :=
  let (negative, cs) := splitSign (s.toList.map Char.toLower)
  if cs == "inf".toList || cs == "infinity".toList then some (signed negative (1 / 0))
  else if cs == "nan".toList then some (0 / 0)
  else (ofUnsigned? cs).map (signed negative)

end KLambda.Number
