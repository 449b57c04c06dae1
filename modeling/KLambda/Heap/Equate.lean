import KLambda.Heap

/-!
Equality of values. Numbers, strings and symbols are equal by content; lists and vectors
element by element, where one and the same object is always equal to itself; functions, errors and
streams only to themselves.
-/
namespace KLambda

/-- Compares two values, leaving the contents of two different vectors of one size to `below`. -/
def Value.equateWith (below : Nat → Nat → Bool) : Value → Value → Bool
  | .empty, .empty => true
  | .number x, .number y => x == y
  | .str s, .str t => s == t
  | .symbol s, .symbol t => s == t
  | .cons m h t, .cons n h' t' =>
    m == n || (equateWith below h h' && equateWith below t t')
  | .vector i m, .vector j n => i == j || (m == n && below i j)
  | .function f, .function g => f.id == g.id
  | .error m _, .error n _ => m == n
  | .stream s, .stream t => s.id == t.id
  | _, _ => false

namespace Heap

def allPairs (p : Value → Value → Bool) : List Value → List Value → Bool
  | [], [] => true
  | v :: vs, w :: ws => p v w && allPairs p vs ws
  | _, _ => false

/-- Compares values whose vectors are nested at most `depth` deep. -/
def equateTo (h : Heap) : Nat → Value → Value → Bool
  | 0 => Value.equateWith fun _ _ => false
  | depth + 1 => Value.equateWith fun i j =>
    allPairs (h.equateTo depth) (h.elements i).toList (h.elements j).toList

/-- No chain of vectors without a repetition is longer than the number of vectors. -/
def equate (h : Heap) (v w : Value) : Bool := h.equateTo h.vectors.size v w

end Heap
end KLambda
