import KLambda.Heap
import KLambda.Number.Read
import KLambda.Value.Coerce

/-!
Conversion between values of the host and guest values. Numbers are doubles on the guest's side,
so an integer is taken back only if the double is whole and in range.
-/
namespace KLambda

/-- The double nearest to an integer of at most 64 bits. -/
def Number.ofInt (i : Int) : Float := signed (decide (i < 0)) i.natAbs.toUInt64.toFloat

class ToGuest (α : Type) where
  toGuest : α → Heap → Value × Heap

class OfGuest (α : Type) where
  ofGuest : Value → Except Error α

export ToGuest (toGuest)
export OfGuest (ofGuest)

instance : ToGuest Value := ⟨fun v h => (v, h)⟩

instance : ToGuest Unit := ⟨fun _ h => (.empty, h)⟩

instance : ToGuest Bool := ⟨fun b h => (.bool b, h)⟩

instance : ToGuest Float := ⟨fun x h => (.number x, h)⟩

instance : ToGuest Int64 := ⟨fun n h => (.number (Number.ofInt n.toInt), h)⟩

instance : ToGuest Int32 := ⟨fun n h => (.number (Number.ofInt n.toInt), h)⟩

instance : ToGuest UInt64 := ⟨fun n h => (.number n.toFloat, h)⟩

instance : ToGuest String := ⟨fun s h => (.str s, h)⟩

/-- The items in order, then a list of them. -/
def itemsToGuest {α : Type} [ToGuest α] : List α → Heap → Value × Heap
  | [], h => (.empty, h)
  | a :: as, h =>
    let (v, h) := toGuest a h
    let (rest, h) := itemsToGuest as h
    h.cons v rest

instance {α : Type} [ToGuest α] : ToGuest (List α) := ⟨itemsToGuest⟩

instance : OfGuest Value := ⟨.ok⟩

instance : OfGuest Unit where
  ofGuest
    | .empty => .ok ()
    | v => v.mismatch "()"

instance : OfGuest Bool := ⟨Value.toBool⟩

instance : OfGuest Float := ⟨Value.toNumber⟩

/-- Is this one of the integers that a signed word of `bits` bits can hold? -/
def fitsWord (bits : Nat) (i : Int) : Bool :=
  decide (-(Nat.pow 2 (bits - 1) : Int) ≤ i) && decide (i < (Nat.pow 2 (bits - 1) : Int))

/-- A number that is whole and within the 64-bit integers. -/
def Value.toInteger (v : Value) : Except Error Int :=
  match v with
  | .number x =>
    match Number.toInt? x with
    | some i => if fitsWord 64 i then .ok i else v.mismatch "integer"
    | none => v.mismatch "integer"
  | v => v.mismatch "integer"

instance : OfGuest Int64 where
  ofGuest v := do
    let i ← v.toInteger
    return Int64.ofInt i

instance : OfGuest Int32 where
  ofGuest v := do
    let i ← v.toInteger
    if fitsWord 32 i then return Int32.ofInt i else v.mismatch "32-bit integer"

instance : OfGuest UInt64 where
  ofGuest v := do
    let i ← v.toInteger
    if 0 ≤ i then return UInt64.ofNat i.toNat else v.mismatch "non-negative integer"

instance : OfGuest String := ⟨Value.toStr⟩

/-- All items in order, or the first that does not convert. -/
def itemsOfGuest {α : Type} [OfGuest α] : List Value → Except Error (List α)
  | [] => .ok []
  | v :: vs => do
    let a ← ofGuest v
    let as ← itemsOfGuest vs
    return a :: as

instance {α : Type} [OfGuest α] : OfGuest (List α) where
  ofGuest v :=
    match v.items? with
    | some vs => itemsOfGuest vs
    | none => v.mismatch "list"

end KLambda
