import KLambda.Error
import KLambda.Value.Shape

/-!
The special forms. A list is recognised by its head and its number of operands alone, so what it
is does not depend on where it stands. Keywords that are also functions are plain calls when they
have fewer operands than their special form takes.
-/
namespace KLambda

inductive Construct where
  | junction (all : Bool) (operands : List Value)
  | branch (test yes no : Value)
  | cond (clauses : List Value)
  | letIn (binder value body : Value)
  | sequence (forms : List Value)
  | lambda (binder body : Value)
  | freeze (body : Value)
  | trap (body handler : Value)
  | defun (name params body : Value)
  | lookup (name : Value)
  | assign (name value : Value)
  | typed (form : Value)
  | call
  | malformed (e : Error)

namespace Construct

def wrongCount (keyword : String) (count : Nat) : Construct :=
  .malformed (.malformed keyword (.operands count))

/-- The special form that a keyword and its operands make. -/
def ofKeyword (keyword : String) (operands : List Value) : Construct :=
  if keyword = "and" then
    if 2 ≤ operands.length then .junction true (Value.splice "and" operands) else .call
  else if keyword = "or" then
    if 2 ≤ operands.length then .junction false (Value.splice "or" operands) else .call
  else if keyword = "if" then
    match operands with
    | [test, yes, no] => .branch test yes no
    | _ :: _ :: _ :: _ :: _ => wrongCount "if" 3
    | _ => .call
  else if keyword = "cond" then .cond operands
  else if keyword = "let" then
    match operands with
    | [binder, value, body] => .letIn binder value body
    | _ => wrongCount "let" 3
  else if keyword = "do" then
    match operands with
    | [] => .malformed (.malformed "do" .someOperand)
    | operands => .sequence (Value.splice "do" operands)
  else if keyword = "lambda" then
    match operands with
    | [binder, body] => .lambda binder body
    | _ => wrongCount "lambda" 2
  else if keyword = "freeze" then
    match operands with
    | [body] => .freeze body
    | _ => wrongCount "freeze" 1
  else if keyword = "trap-error" then
    match operands with
    | [body, handler] => .trap body handler
    | _ => wrongCount "trap-error" 2
  else if keyword = "defun" then
    match operands with
    | [name, params, body] => .defun name params body
    | _ => wrongCount "defun" 3
  else if keyword = "value" then
    match operands with
    | [name] => .lookup name
    | _ :: _ :: _ => wrongCount "value" 1
    | [] => .call
  else if keyword = "set" then
    match operands with
    | [name, value] => .assign name value
    | _ :: _ :: _ :: _ => wrongCount "set" 2
    | _ => .call
  else if keyword = "type" then
    match operands with
    | [form, _] => .typed form
    | _ :: _ :: _ :: _ => wrongCount "type" 2
    | _ => .call
  else .call

def ofList (head : Value) (operands : List Value) : Construct :=
  match head with
  | .symbol keyword => ofKeyword keyword operands
  | _ => .call

/-- The forms that are compiled as part of it. -/
def parts : Construct → List Value
  | .junction _ operands => operands
  | .branch test yes no => [test, yes, no]
  | .cond clauses => clauses
  | .letIn binder value body => [binder, value, body]
  | .sequence forms => forms
  | .lambda binder body => [binder, body]
  | .freeze body => [body]
  | .trap body handler => [body, handler]
  | .defun name params body => [name, params, body]
  | .lookup name => [name]
  | .assign name value => [name, value]
  | .typed form => [form]
  | .call | .malformed _ => []

theorem sizes_splice_le (keyword : String) (vs : List Value) :
    Value.sizes (Value.splice keyword vs) ≤ Value.sizes vs := by
  fun_induction Value.splice keyword vs with
  | case1 => simp
  | case2 v rest _ ih =>
    have := v.sizes_operands_lt
    simp at ih ⊢
    omega
  | case3 v rest _ ih => simp; omega

theorem sizes_parts_ofKeyword_le (keyword : String) (operands : List Value) :
    Value.sizes (ofKeyword keyword operands).parts ≤ Value.sizes operands := by
  have ha := sizes_splice_le "and" operands
  have ho := sizes_splice_le "or" operands
  have hd := sizes_splice_le "do" operands
  fun_cases ofKeyword keyword operands <;>
    simp [parts, wrongCount] at ha ho hd ⊢ <;> omega

theorem sizes_parts_le (head : Value) (operands : List Value) :
    Value.sizes (ofList head operands).parts ≤ Value.sizes operands := by
  unfold ofList
  split
  · exact sizes_parts_ofKeyword_le _ _
  · simp [parts]

end Construct
end KLambda
