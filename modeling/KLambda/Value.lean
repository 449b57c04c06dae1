import KLambda.Number.Text
import KLambda.Text.Quoted

/-!
Values. Cons cells, functions, errors and streams have an identity besides their contents; vectors
and function bodies are held in the heap, and a value only refers to them.
-/
namespace KLambda

/-- Which operations a stream permits. -/
inductive Direction where
  | input
  | output
  | both
deriving DecidableEq, Repr

namespace Direction

def readable : Direction → Bool
  | .input | .both => true
  | .output => false

def writable : Direction → Bool
  | .output | .both => true
  | .input => false

end Direction

/-- A function: which body it has, and the name and arity it was made with. No arity means that it
takes whatever it is applied to. -/
structure Function where
  id : Nat
  name : String
  arity : Option Nat
deriving DecidableEq, Repr

/-- A stream: which one it is, and the name and direction it was opened with. -/
structure StreamHandle where
  id : Nat
  name : String
  direction : Direction
deriving DecidableEq, Repr

inductive Value where
  | empty
  | number (n : Float)
  | str (s : String)
  | symbol (name : String)
  | cons (mark : Nat) (head tail : Value)
  | vector (id size : Nat)
  | function (f : Function)
  | error (mark : Nat) (message : String)
  | stream (s : StreamHandle)
deriving Inhabited

/-- The nine kinds of values. -/
inductive Kind where
  | empty
  | number
  | string
  | symbol
  | cons
  | vector
  | function
  | error
  | stream
deriving DecidableEq, Repr

def Kind.text : Kind → String
  | .empty => "empty"
  | .number => "number"
  | .string => "string"
  | .symbol => "symbol"
  | .cons => "cons"
  | .vector => "vector"
  | .function => "function"
  | .error => "error"
  | .stream => "stream"

namespace Value

/-- The symbols `true` and `false` are the booleans. -/
def bool (b : Bool) : Value := .symbol (if b then "true" else "false")

def toBool? : Value → Option Bool
  | .symbol s => if s == "true" then some true else if s == "false" then some false else none
  | _ => none

def symbol? : Value → Option String
  | .symbol s => some s
  | _ => none

def kind : Value → Kind
  | .empty => .empty
  | .number _ => .number
  | .str _ => .string
  | .symbol _ => .symbol
  | .cons .. => .cons
  | .vector .. => .vector
  | .function _ => .function
  | .error .. => .error
  | .stream _ => .stream

/-- The heads along a chain of cells, up to the first tail that is no cell. -/
def heads : Value → List Value
  | .cons _ h t => h :: heads t
  | _ => []

/-- What a chain of cells ends in. -/
def ending : Value → Value
  | .cons _ _ t => ending t
  | v => v

/-- The elements of a proper list, one that ends in the empty list. -/
def items? (v : Value) : Option (List Value) :=
  match v.ending with
  | .empty => some v.heads
  | _ => none

/-- The text of a value that is no cell. -/
def atomText : Value → String
  | .empty => "[]"
  | .number n => Number.text n
  | .str s => "\"" ++ s ++ "\""
  | .symbol s => s
  | .cons .. => ""
  | .vector _ size => "<Vector " ++ toString size ++ ">"
  | .function f => "<Function " ++ f.name ++ ">"
  | .error _ m => "<Error \"" ++ m ++ "\">"
  | .stream s => "<Stream " ++ s.name ++ ">"

/-- Appends the text of a value, as a list's tail if `inside`. -/
def write : (inside : Bool) → Value → String → String
  | false, .cons _ h t, acc => write true t (write false h (acc ++ "["))
  | true, .cons _ h t, acc => write true t (write false h (acc ++ " "))
  | true, .empty, acc => acc ++ "]"
  | true, v, acc => acc ++ " | " ++ v.atomText ++ "]"
  | false, v, acc => acc ++ v.atomText

/-- The canonical text: lists in full, everything else that has parts by its name or size. -/
def text (v : Value) : String := v.write false ""

/-- The text for looking at a value from outside, which tells symbols from other text and shows an
error's message with escapes. -/
def inspect : Value → String
  | .symbol s => "Symbol(" ++ s ++ ")"
  | .error _ m => "<Error " ++ Text.quote m ++ ">"
  | v => v.text

end Value
end KLambda
