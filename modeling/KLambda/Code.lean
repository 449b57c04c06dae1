import KLambda.Scope
import KLambda.Value

/-! Code: forms with their special forms, scoping and call positions resolved. -/
namespace KLambda

/-- The constants of code, which have no identity. -/
inductive Literal where
  | empty
  | number (n : Float)
  | str (s : String)
  | symbol (name : String)

def Literal.value : Literal → Value
  | .empty => .empty
  | .number n => .number n
  | .str s => .str s
  | .symbol s => .symbol s

mutual

inductive Code where
  | const (l : Literal)
  | local (name : String)
  | all (operands : List Code)
  | any (operands : List Code)
  | branch (test yes no : Code)
  | cond (clauses : List (Code × Code)) (default : Option Code)
  | letIn (name : String) (value body : Code)
  | seq (effects : List Code) (last : Code)
  | lambda (name param : String) (body : Code)
  | freeze (name : String) (body : Code)
  | trap (body : Code) (handler : Handler) (position : CallPosition)
  | defun (name : String) (params : List String) (body : Code)
  | globalValue (name : String)
  | setGlobal (name : String) (value : Code)
  | call (callee : Callee) (args : List Code) (position : CallPosition)
  | interop (name : String) (args : List Code)

/-- How the function of a call is found. -/
inductive Callee where
  | local (name : String)
  | global (name : String)
  | computed (head : Code)

/-- What a trapped error is given to: a body with the error bound, or a function. -/
inductive Handler where
  | bind (param : String) (body : Code)
  | apply (function : Code)

end

/-- Evaluating pure code has no effect and cannot fail. -/
def Code.isPure : Code → Bool
  | .const _ | .local _ | .lambda .. | .freeze .. => true
  | _ => false

/-- Effects before a last code; the pure ones are left out. -/
def Code.sequence (effects : List Code) (last : Code) : Code :=
  match effects.filter (!·.isPure) with
  | [] => last
  | effects => .seq effects last

end KLambda
