/-! Tables from names to things: the last entry for a name wins, in the place of the first. -/
namespace KLambda

structure Table (α : Type) where
  entries : List (String × α)

namespace Table

variable {α : Type}

def empty : Table α := ⟨[]⟩

def find (name : String) : List (String × α) → Option α
  | [] => none
  | (k, a) :: rest => if k = name then some a else find name rest

def get? (t : Table α) (name : String) : Option α := find name t.entries

def contains (t : Table α) (name : String) : Bool := (t.get? name).isSome

def put (name : String) (a : α) : List (String × α) → List (String × α)
  | [] => [(name, a)]
  | (k, b) :: rest => if k = name then (k, a) :: rest else (k, b) :: put name a rest

def insert (t : Table α) (name : String) (a : α) : Table α := ⟨put name a t.entries⟩

theorem find_put (name k : String) (a : α) (es : List (String × α)) :
    find k (put name a es) = if name = k then some a else find k es := by
  induction es with
  | nil => rfl
  | cons e es ih => simp only [put]; grind [find]

@[simp]
theorem get?_insert (t : Table α) (name k : String) (a : α) :
    (t.insert name a).get? k = if name = k then some a else t.get? k :=
  find_put name k a t.entries

end Table
end KLambda
