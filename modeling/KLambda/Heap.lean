import KLambda.Code
import KLambda.Form
import KLambda.Primitive
import KLambda.Stream

/-!
The heap: function bodies, vectors, streams and files, and the supply of marks that tell cells and
errors apart. Nothing in it is ever removed.
-/
namespace KLambda

/-- Local names with their values, the innermost binding first. -/
abbrev Locals := List (String × Value)

namespace Locals

/-- The bindings that no inner one hides. -/
def visible : Locals → Locals
  | [] => []
  | (name, v) :: rest => (name, v) :: (visible rest).filter (·.1 != name)

theorem find_filter_ne {name other : String} (h : name ≠ other) (locals : Locals) :
    Table.find name (locals.filter (·.1 != other)) = Table.find name locals := by
  induction locals with
  | nil => rfl
  | cons e es ih => by_cases he : e.1 = other <;> grind [Table.find]

theorem find_visible (name : String) (locals : Locals) :
    Table.find name locals.visible = Table.find name locals := by
  induction locals with
  | nil => rfl
  | cons e es ih =>
    by_cases he : e.1 = name
    · simp [visible, Table.find, he]
    · simp [visible, Table.find, he, find_filter_ne (Ne.symm he), ih]

end Locals

/-- What a function does when it is entered. Functions of the language itself belong to the
runtime that made them; host functions go by the name the host knows them by, with the values
that they hold. -/
inductive Body where
  | primitive (runtime : Nat) (op : Primitive)
  | evaluator (runtime : Nat)
  | closure (runtime : Nat) (params : List String) (code : Code) (captured : Locals)
  | partialOf (target : Function) (bound : List Value)
  | native (op : String) (held : List Value)
  | async (op : String) (held : List Value)
  | missing

structure Heap where
  bodies : Array Body
  vectors : Array (Array Value)
  streams : Array Stream
  disk : Disk
  marks : Nat

namespace Heap

def empty : Heap := ⟨#[], #[], #[], .empty, 0⟩

def cons (h : Heap) (head tail : Value) : Value × Heap :=
  (.cons h.marks head tail, { h with marks := h.marks + 1 })

/-- A new chain of cells in front of `tail`. -/
def chain (h : Heap) (items : List Value) (tail : Value) : Value × Heap :=
  items.foldr (fun v (t, h) => h.cons v t) (tail, h)

def list (h : Heap) (items : List Value) : Value × Heap := h.chain items .empty

def error (h : Heap) (message : String) : Value × Heap :=
  (.error h.marks message, { h with marks := h.marks + 1 })

def function (h : Heap) (name : String) (arity : Option Nat) (body : Body) : Function × Heap :=
  (⟨h.bodies.size, name, arity⟩, { h with bodies := h.bodies.push body })

def body (h : Heap) (f : Function) : Body := h.bodies.getD f.id .missing

def vector (h : Heap) (items : Array Value) : Value × Heap :=
  (.vector h.vectors.size items.size, { h with vectors := h.vectors.push items })

def elements (h : Heap) (id : Nat) : Array Value := h.vectors.getD id #[]

def setElement (h : Heap) (id index : Nat) (v : Value) : Heap :=
  { h with vectors := h.vectors.modify id fun items => items.setIfInBounds index v }

def stream (h : Heap) (s : Stream) : StreamHandle × Heap :=
  (⟨h.streams.size, s.name, s.direction⟩, { h with streams := h.streams.push s })

def setStream (h : Heap) (id : Nat) (s : Stream) : Heap :=
  { h with streams := h.streams.setIfInBounds id s }

/-- The stream of a handle; one that is in no heap counts as unavailable. -/
def getStream (h : Heap) (s : StreamHandle) : Stream :=
  h.streams.getD s.id (.unavailable s.name s.name)

def readByte (h : Heap) (s : StreamHandle) : Except StreamError (Option UInt8) × Heap :=
  let (answer, t) := (h.getStream s).read h.disk
  (answer, h.setStream s.id t)

def writeByte (h : Heap) (s : StreamHandle) (b : UInt8) : Except StreamError Unit × Heap :=
  let (answer, t, disk) := (h.getStream s).write h.disk b
  (answer, { h.setStream s.id t with disk })

def closeStream (h : Heap) (s : StreamHandle) : Except StreamError Unit × Heap :=
  let (answer, t, disk) := (h.getStream s).close h.disk
  (answer, { h.setStream s.id t with disk })

end Heap

mutual

/-- The value of a form, its lists made of new cells. -/
def Form.build : Form → Heap → Value × Heap
  | .number n, h => (.number n, h)
  | .str s, h => (.str s, h)
  | .symbol s, h => (.symbol s, h)
  | .list items, h => Form.buildList items h

def Form.buildList : List Form → Heap → Value × Heap
  | [], h => (.empty, h)
  | f :: fs, h =>
    let (head, h) := Form.build f h
    let (tail, h) := Form.buildList fs h
    h.cons head tail

end

end KLambda
