import KLambda.Code
import KLambda.Code.Construct

/-!
Compilation of forms to code. Whether a global value is defined is asked at compile time only to
read it without a call; everything else is a matter of the form and its scope.
-/
namespace KLambda

/-- The name after the marker of host calls, if there is one. -/
def hostName? (name : String) : Option String :=
  match name.toList with
  | 'h' :: 'o' :: 's' :: 't' :: '.' :: c :: cs => some (String.ofList (c :: cs))
  | _ => none

namespace Value

/-- The name that a form binds. -/
def binder (keyword : String) : Value → Except Error String
  | .symbol s => .ok s
  | v => .error (.malformed keyword (.binder v.text))

def binders (keyword : String) : List Value → Except Error (List String)
  | [] => .ok []
  | v :: vs => do
    let name ← v.binder keyword
    let names ← binders keyword vs
    return name :: names

/-- An inline handler `(lambda E body)`. -/
def handler? (v : Value) : Option (String × Value) :=
  match v.items? with
  | some [.symbol k, .symbol param, body] => if k = "lambda" then some (param, body) else none
  | _ => none

theorem heads_eq_of_items? {v : Value} {vs : List Value} (h : v.items? = some vs) :
    v.heads = vs := by
  unfold items? at h
  split at h <;> simp_all

theorem size_handler?_lt {v body : Value} {param : String} (h : v.handler? = some (param, body)) :
    body.size < v.size := by
  unfold handler? at h
  split at h
  · rename_i hv
    split at h
    · cases h
      exact size_lt_of_mem_heads (by simp [heads_eq_of_items? hv])
    · cases h
  · cases h

/-- The test and the consequent of a clause. -/
def clause? (v : Value) : Option (Value × Value) :=
  match v.items? with
  | some [test, consequent] => some (test, consequent)
  | _ => none

theorem size_clause?_lt {v test consequent : Value} (h : v.clause? = some (test, consequent)) :
    test.size < v.size ∧ consequent.size < v.size := by
  unfold clause? at h
  split at h
  · rename_i hv
    cases h
    exact ⟨size_lt_of_mem_heads (by simp [heads_eq_of_items? hv]),
      size_lt_of_mem_heads (by simp [heads_eq_of_items? hv])⟩
  · cases h

end Value

namespace Code

/-- Code whose value is not used is only kept for its effects. -/
def finish (s : Scope) (c : Code) : Code :=
  if s.statement && c.isPure then .const .empty else c

/-- How a call finds its function, once its arguments and its head are compiled. -/
def callOf (s : Scope) (name : String) (args : List Code) : Code :=
  if s.isLocal name then .call (.local name) args s.position
  else match hostName? name with
    | some host => .interop host args
    | none => .call (.global name) args s.position

end Code

variable (defined : String → Bool)

mutual

/-- Compiles a form in a scope. -/
def compile (s : Scope) (v : Value) : Except Error Code :=
  match v with
  | .empty => .ok (Code.finish s (.const .empty))
  | .number n => .ok (Code.finish s (.const (.number n)))
  | .str t => .ok (Code.finish s (.const (.str t)))
  | .symbol name =>
    .ok (Code.finish s (if s.isLocal name then .local name else .const (.symbol name)))
  | .cons mark h t =>
    match _h : (Value.cons mark h t).items? with
    | some (head :: operands) => do
      let code ← compileList s head operands
      return Code.finish s code
    | _ => .error (.invalidForm ("improper list " ++ (Value.cons mark h t).text))
  | v => .error (.invalidForm v.text)
termination_by 4 * v.size
decreasing_by
  have := Value.sizes_heads_lt (.cons mark h t)
  rw [Value.heads_eq_of_items? _h] at this
  simp at this
  omega

/-- Compiles a proper list with at least one element. -/
def compileList (s : Scope) (head : Value) (operands : List Value) : Except Error Code :=
  match _h : Construct.ofList head operands with
  | .malformed e => .error e
  | .junction all parts => do
    let codes ← compileAll s.inHead parts
    return if all then .all codes else .any codes
  | .branch test yes no => do
    let test ← compile s.inHead test
    let yes ← compile s yes
    let no ← compile s no
    return .branch test yes no
  | .cond clauses => do
    let (clauses, default) ← compileClauses s clauses
    return .cond clauses default
  | .letIn binder value body => do
    let name ← binder.binder "let"
    let value ← compile s.inHead value
    if name == "_" || !body.mentions name then
      let last ← compile s body
      return .sequence [value] last
    else
      let body ← compile (s.withLocal name) body
      return .letIn name value body
  | .sequence forms => do
    let (effects, last) ← compileSequence s forms
    return .sequence effects last
  | .lambda binder body => do
    let param ← binder.binder "lambda"
    let body ← compile (s.lambda param) body
    return .lambda (s.closureName "lambda") param body
  | .freeze body => do
    let body ← compile s.freeze body
    return .freeze (s.closureName "freeze") body
  | .trap body handler => do
    let body ← compile s.inHead body
    let handler ← compileHandler s handler
    return .trap body handler s.position
  | .defun name params body => do
    let name ← name.binder "defun"
    match params.items? with
    | none => .error (.malformed "defun" .parameterList)
    | some params =>
      let params ← Value.binders "defun" params
      let body ← compile (.defun name params) body
      return .defun name params body
  | .lookup (.symbol name) =>
    if !s.isLocal name && defined name then .ok (.globalValue name)
    else compileCall s head operands
  | .assign (.symbol name) value =>
    if s.isLocal name then compileCall s head operands
    else do
      let value ← compile s.inHead value
      return .setGlobal name value
  | .typed form => compile s form
  | .lookup _ | .assign _ _ | .call => compileCall s head operands
termination_by 4 * (head.size + Value.sizes operands) + 2
decreasing_by
  all_goals
    have hp := Construct.sizes_parts_le head operands
    have := head.size_pos
    simp only [_h, Construct.parts, Value.sizes_cons, Value.sizes_nil] at hp
    omega

/-- An inline handler is part of the body around it; any other is a function to be computed. -/
def compileHandler (s : Scope) (v : Value) : Except Error Handler :=
  match _h : v.handler? with
  | some (param, body) => do
    let body ← compile (s.withLocal param) body
    return .bind param body
  | none => do
    let function ← compile s.inHead v
    return .apply function
termination_by 4 * v.size + 1
decreasing_by
  · have := Value.size_handler?_lt _h; omega
  · omega

/-- Compiles a call: the operands first, then a head that is no symbol. -/
def compileCall (s : Scope) (head : Value) (operands : List Value) : Except Error Code :=
  match head.symbol? with
  | some name => do
    let args ← compileAll s.inHead operands
    return Code.callOf s name args
  | none => do
    let args ← compileAll s.inHead operands
    let head ← compile s.inHead head
    return .call (.computed head) args s.position
termination_by 4 * (head.size + Value.sizes operands) + 1
decreasing_by
  all_goals
    have := Value.size_pos
    grind

/-- Compiles operands left to right. -/
def compileAll (s : Scope) (vs : List Value) : Except Error (List Code) :=
  match vs with
  | [] => .ok []
  | v :: vs => do
    let code ← compile s v
    let codes ← compileAll s vs
    return code :: codes
termination_by 4 * Value.sizes vs + 1
decreasing_by
  all_goals
    have := v.size_pos
    simp only [Value.sizes_cons]
    omega

/-- Compiles the clauses of a `cond` up to one whose test is the constant `true`, which becomes the
default; nothing after it is looked at. -/
def compileClauses (s : Scope) (vs : List Value) :
    Except Error (List (Code × Code) × Option Code) :=
  match vs with
  | [] => .ok ([], none)
  | v :: vs =>
    match _h : v.clause? with
    | none => .error (.malformed "cond" .clausePairs)
    | some (test, consequent) =>
      if test.isSymbol "true" && !s.isLocal "true" then do
        let default ← compile s consequent
        return ([], some default)
      else do
        let test ← compile s.inHead test
        let consequent ← compile s consequent
        let (clauses, default) ← compileClauses s vs
        return ((test, consequent) :: clauses, default)
termination_by 4 * Value.sizes vs + 1
decreasing_by
  all_goals
    have := v.size_pos
    have := Value.size_clause?_lt _h
    simp only [Value.sizes_cons]
    omega

/-- Compiles the forms of a `do`: all but the last for their effects. -/
def compileSequence (s : Scope) (vs : List Value) : Except Error (List Code × Code) :=
  match vs with
  | [] => .error (.malformed "do" .someOperand)
  | [last] => do
    let last ← compile s last
    return ([], last)
  | v :: w :: vs => do
    let effect ← compile s.inHead.asStatement v
    let (effects, last) ← compileSequence s (w :: vs)
    return (effect :: effects, last)
termination_by 4 * Value.sizes vs + 1
decreasing_by
  all_goals
    simp only [Value.sizes_cons, Value.sizes_nil]
    have := Value.size_pos
    grind

end

end KLambda
