import KLambda.Heap.Equate
import KLambda.Value.Coerce
import KLambda.World

/-!
What the primitives do. Each one checks its arguments in order before it changes anything, and
most of them only compute.
-/
namespace KLambda.Primitive

/-- A result that guest code may see: arithmetic never yields an infinity or NaN. -/
def finite (p : Primitive) (x : Float) : Except Error Value :=
  if x.isFinite then .ok (.number x) else .error (.arithmetic (.notFinite p.name))

def numbers (x y : Value) : Except Error (Float × Float) := do
  let a ← x.toNumber
  let b ← y.toNumber
  return (a, b)

def arithmetic (p : Primitive) (f : Float → Float → Float) (x y : Value) : Except Error Value := do
  let (a, b) ← numbers x y
  p.finite (f a b)

def quotient (x y : Value) : Except Error Value := do
  let (a, b) ← numbers x y
  if b == 0 then .error (.arithmetic .divisionByZero) else finite .div (a / b)

def comparison (f : Float → Float → Bool) (x y : Value) : Except Error Value := do
  let (a, b) ← numbers x y
  return .bool (f a b)

def nonEmpty (v : Value) : Except Error (Char × List Char) := do
  let s ← v.toStr
  match s.toList with
  | [] => v.mismatch "non-empty string"
  | c :: cs => .ok (c, cs)

def character (c : Char) : Value := .str (String.singleton c)

/-- A number is a character code exactly when it is a Unicode scalar value. -/
def characterOf (v : Value) : Except Error Value := do
  let n ← v.toSize
  if n.isValidChar then .ok (character (Char.ofNat n)) else v.mismatch "character code"

def characterAt (s i : Value) : Except Error Value := do
  let text ← s.toStr
  let index ← i.toIndex text.toList.length
  match text.toList[index]? with
  | some c => .ok (character c)
  | none => .error (.internal (.recheck "character"))

/-- The primitives that only look at their arguments and the heap. -/
def compute (h : Heap) : Primitive → List Value → Option (Except Error Value)
  | .choose, [test, yes, no] => some do
    let b ← test.toBool
    return if b then yes else no
  | .and, [x, y] => some do
    let a ← x.toBool
    if a then
      let b ← y.toBool
      return .bool b
    else return .bool false
  | .or, [x, y] => some do
    let a ← x.toBool
    if a then return .bool true
    else
      let b ← y.toBool
      return .bool b
  | .isNumber, [x] => some (.ok (.bool (x.kind == .number)))
  | .isString, [x] => some (.ok (.bool (x.kind == .string)))
  | .isSymbol, [x] => some (.ok (.bool (x.kind == .symbol)))
  | .isVector, [x] => some (.ok (.bool (x.kind == .vector)))
  | .isCons, [x] => some (.ok (.bool (x.kind == .cons)))
  | .equal, [x, y] => some (.ok (.bool (h.equate x y)))
  | .hd, [.cons _ head _] => some (.ok head)
  | .hd, [v] => some (v.mismatch "cons")
  | .tl, [.cons _ _ tail] => some (.ok tail)
  | .tl, [v] => some (v.mismatch "cons")
  | .tlstr, [s] => some do
    let (_, cs) ← nonEmpty s
    return .str (String.ofList cs)
  | .cn, [s, t] => some do
    let a ← s.toStr
    let b ← t.toStr
    return .str (a ++ b)
  | .stringToN, [s] => some do
    let (c, _) ← nonEmpty s
    return .number (Float.ofNat c.toNat)
  | .nToString, [n] => some (characterOf n)
  | .pos, [s, i] => some (characterAt s i)
  | .str, [x] => some (.ok (.str x.text))
  | .vectorGet, [v, i] => some do
    let (id, size) ← v.toVector
    let index ← i.toIndex size
    match (h.elements id)[index]? with
    | some x => .ok x
    | none => .error (.internal (.recheck "vector"))
  | .add, [x, y] => some (add.arithmetic (· + ·) x y)
  | .sub, [x, y] => some (sub.arithmetic (· - ·) x y)
  | .mul, [x, y] => some (mul.arithmetic (· * ·) x y)
  | .div, [x, y] => some (quotient x y)
  | .gt, [x, y] => some (comparison (fun a b => decide (a > b)) x y)
  | .lt, [x, y] => some (comparison (fun a b => decide (a < b)) x y)
  | .ge, [x, y] => some (comparison (fun a b => decide (a ≥ b)) x y)
  | .le, [x, y] => some (comparison (fun a b => decide (a ≤ b)) x y)
  | .intern, [name] => some do
    let s ← name.toStr
    return .symbol s
  | .annotate, [x, _] => some (.ok x)
  | .simpleError, [message] => some do
    let s ← message.toStr
    .error (.raised s)
  | .errorToString, [e] => some do
    let s ← e.toErrorMessage
    return .str s
  | _, _ => none

/-- `unix` is the configured clock, or else the time of day; `run` counts from the start. -/
def time (w : World) (mode : Value) : Except Error Value := do
  let s ← mode.toSymbol
  if s = "unix" then return .number (w.options.clock.getD w.now)
  else if s = "run" then return .number (w.now - w.started)
  else mode.mismatch "unix or run"

def openFile (w : World) (path mode : Value) : Except Error Value × World :=
  match (do return (← path.toStr, ← mode.toSymbol) : Except Error (String × String)) with
  | .error e => (.error e, w)
  | .ok (path, direction) =>
    if direction = "in" then
      let (r, w) := w.openForReading path
      (r.map .stream, w)
    else if direction = "out" then
      let (r, w) := w.openForWriting path
      (r.map .stream, w)
    else (mode.mismatch "in or out", w)

/-- The byte that a number stands for. -/
def byteOf (v : Value) : Except Error UInt8 := do
  let n ← v.toSize
  if n < 256 then return n.toUInt8 else v.mismatch "byte"

def writeTo (w : World) (byte stream : Value) : Except Error Value × World :=
  match (do return (← byteOf byte, ← stream.toStream) : Except Error (UInt8 × StreamHandle)) with
  | .error e => (.error e, w)
  | .ok (b, s) =>
    match w.heap.writeByte s b with
    | (.ok (), heap) => (.ok byte, { w with heap })
    | (.error e, heap) => (.error (.stream e), { w with heap })

/-- The end of a stream reads as -1. -/
def readFrom (w : World) (stream : Value) : Except Error Value × World :=
  match stream.toStream with
  | .error e => (.error e, w)
  | .ok s =>
    match w.heap.readByte s with
    | (.ok (some b), heap) => (.ok (.number (Float.ofNat b.toNat)), { w with heap })
    | (.ok none, heap) => (.ok (.number (-1)), { w with heap })
    | (.error e, heap) => (.error (.stream e), { w with heap })

def closeFile (w : World) (stream : Value) : Except Error Value × World :=
  match stream.toStream with
  | .error e => (.error e, w)
  | .ok s =>
    match w.heap.closeStream s with
    | (.ok (), heap) => (.ok .empty, { w with heap })
    | (.error e, heap) => (.error (.stream e), { w with heap })

def makeVector (w : World) (size : Value) : Except Error Value × World :=
  match size.toSize with
  | .error e => (.error e, w)
  | .ok n =>
    let (v, heap) := w.heap.vector (Array.replicate n .empty)
    (.ok v, { w with heap })

def storeElement (w : World) (vector index x : Value) : Except Error Value × World :=
  match (do
    let (id, size) ← vector.toVector
    return (id, ← index.toIndex size) : Except Error (Nat × Nat)) with
  | .error e => (.error e, w)
  | .ok (id, i) => (.ok vector, { w with heap := w.heap.setElement id i x })

/-- The call of a primitive that changes nothing. -/
def computed (p : Primitive) (args : List Value) (w : World) : Except Error Value × World :=
  match compute w.heap p args with
  | some r => (r, w)
  | none => (.error (.internal (.argumentCount p.name args.length p.arity)), w)

/-- Calls a primitive. It has to be given as many arguments as its arity says. -/
def call (p : Primitive) (args : List Value) (w : World) : Except Error Value × World :=
  match p, args with
  | .openStream, [path, mode] => openFile w path mode
  | .close, [s] => closeFile w s
  | .readByte, [s] => readFrom w s
  | .writeByte, [b, s] => writeTo w b s
  | .cons, [head, tail] =>
    let (v, heap) := w.heap.cons head tail
    (.ok v, { w with heap })
  | .vector, [n] => makeVector w n
  | .vectorSet, [v, i, x] => storeElement w v i x
  | .set, [name, v] =>
    match name.toSymbol with
    | .error e => (.error e, w)
    | .ok s => (.ok v, w.setValue s v)
  | .value, [name] => (name.toSymbol.bind w.value?, w)
  | .getTime, [mode] => (time w mode, w)
  | p, args => p.computed args w

end KLambda.Primitive
