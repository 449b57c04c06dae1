import KLambda.Error
import KLambda.Value

/-! Checked views of a value as one of the kinds that a function expects. -/
namespace KLambda.Value

def mismatch {α : Type} (expected : String) (v : Value) : Except Error α :=
  .error (.typeMismatch expected v.text)

def toNumber : Value → Except Error Float
  | .number n => .ok n
  | v => v.mismatch "number"

def toStr : Value → Except Error String
  | .str s => .ok s
  | v => v.mismatch "string"

def toSymbol : Value → Except Error String
  | .symbol s => .ok s
  | v => v.mismatch "symbol"

def toBool (v : Value) : Except Error Bool :=
  match v.toBool? with
  | some b => .ok b
  | none => v.mismatch "boolean"

theorem toBool?_eq_some_iff {v : Value} {b : Bool} : v.toBool? = some b ↔ v = .bool b := by
  cases v with
  | symbol s =>
    simp only [toBool?, bool, symbol.injEq]
    by_cases ht : s = "true"
    · cases b <;> simp [ht]
    · by_cases hf : s = "false"
      · cases b <;> simp [hf]
      · cases b <;> simp [ht, hf]
  | _ => simp [toBool?, bool]

theorem toBool_eq_ok_iff {v : Value} {b : Bool} : v.toBool = .ok b ↔ v = .bool b := by
  rw [← toBool?_eq_some_iff]
  unfold toBool
  cases v.toBool? <;> simp [mismatch]

theorem toBool_eq_error {v : Value} (hv : v.toBool? = none) :
    v.toBool = .error (.typeMismatch "boolean" v.text) := by
  simp only [toBool, hv, mismatch]

/-- The vector and its size. -/
def toVector : Value → Except Error (Nat × Nat)
  | .vector id size => .ok (id, size)
  | v => v.mismatch "absvector"

def toErrorMessage : Value → Except Error String
  | .error _ m => .ok m
  | v => v.mismatch "error"

def toStream : Value → Except Error StreamHandle
  | .stream s => .ok s
  | v => v.mismatch "stream"

/-- Sizes are whole numbers that fit a 64-bit word. -/
def wordLimit : Nat := Nat.pow 2 64

/-- A whole number as a size. -/
def size? (i : Int) : Option Nat :=
  if 0 ≤ i ∧ i < wordLimit then some i.toNat else none

def toSize (v : Value) : Except Error Nat :=
  match v with
  | .number n =>
    match (Number.toInt? n).bind size? with
    | some k => .ok k
    | none => v.mismatch "non-negative integer"
  | v => v.mismatch "number"

/-- An index below `length`. A number that is not whole has the wrong type; a whole one outside the
bounds is out of range. -/
def toIndex (v : Value) (length : Nat) : Except Error Nat :=
  match v with
  | .number n =>
    match Number.toInt? n with
    | none => v.mismatch "integer"
    | some i => if 0 ≤ i ∧ i < length then .ok i.toNat else .error (.indexOutOfRange n length)
  | v => v.mismatch "number"

end KLambda.Value
