/-!
Where a form stands when it is compiled: which names are local, whether its value ends the body it
is part of or is consumed at once, whether its value is used at all, and which definition it is in.
-/
namespace KLambda

/-- A call in tail position ends its function's body; one in head position is settled in place. -/
inductive CallPosition where
  | head
  | tail
deriving DecidableEq, Repr

structure Scope where
  locals : List String
  position : CallPosition
  statement : Bool
  owner : Option String
deriving DecidableEq, Repr

namespace Scope

def toplevel : Scope := ⟨[], .tail, false, none⟩

def isLocal (s : Scope) (name : String) : Bool := s.locals.contains name

def withLocal (s : Scope) (name : String) : Scope := { s with locals := name :: s.locals }

/-- The body of a `lambda`. -/
def lambda (s : Scope) (param : String) : Scope :=
  { s with locals := param :: s.locals, position := .tail, statement := false }

/-- The body of a `freeze`. -/
def freeze (s : Scope) : Scope := { s with position := .tail, statement := false }

/-- The body of a `defun`, which sees nothing of the scope around it. -/
def defun (name : String) (params : List String) : Scope := ⟨params, .tail, false, some name⟩

/-- An operand whose value is consumed at once. -/
def inHead (s : Scope) : Scope := { s with position := .head, statement := false }

/-- A form that stands for its effects only. -/
def asStatement (s : Scope) : Scope := { s with statement := true }

/-- The name of a closure made here. -/
def closureName (s : Scope) (kind : String) : String :=
  match s.owner with
  | some name => name ++ "/" ++ kind
  | none => kind

end Scope
end KLambda
