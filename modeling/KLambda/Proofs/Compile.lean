import KLambda.Code.Compile

/-!
Compilation, one equation for each shape of a form. A list is compiled by the construct that it is,
and what the construct's parts are compiled in is the same wherever the list came from.
-/
namespace KLambda

variable (defined : String → Bool)

/-- What a list compiles to, once it is known which construct it is. -/
def Construct.compiled (s : Scope) (head : Value) (operands : List Value) :
    Construct → Except Error Code
  | .malformed e => .error e
  | .junction all parts => do
    let codes ← compileAll defined s.inHead parts
    return if all then .all codes else .any codes
  | .branch test yes no => do
    let test ← compile defined s.inHead test
    let yes ← compile defined s yes
    let no ← compile defined s no
    return .branch test yes no
  | .cond clauses => do
    let (clauses, default) ← compileClauses defined s clauses
    return .cond clauses default
  | .letIn binder value body => do
    let name ← binder.binder "let"
    let value ← compile defined s.inHead value
    if name == "_" || !body.mentions name then
      let last ← compile defined s body
      return .sequence [value] last
    else
      let body ← compile defined (s.withLocal name) body
      return .letIn name value body
  | .sequence forms => do
    let (effects, last) ← compileSequence defined s forms
    return .sequence effects last
  | .lambda binder body => do
    let param ← binder.binder "lambda"
    let body ← compile defined (s.lambda param) body
    return .lambda (s.closureName "lambda") param body
  | .freeze body => do
    let body ← compile defined s.freeze body
    return .freeze (s.closureName "freeze") body
  | .trap body handler => do
    let body ← compile defined s.inHead body
    let handler ← compileHandler defined s handler
    return .trap body handler s.position
  | .defun name params body => do
    let name ← name.binder "defun"
    match params.items? with
    | none => .error (.malformed "defun" .parameterList)
    | some params =>
      let params ← Value.binders "defun" params
      let body ← compile defined (.defun name params) body
      return .defun name params body
  | .lookup (.symbol name) =>
    if !s.isLocal name && defined name then .ok (.globalValue name)
    else compileCall defined s head operands
  | .assign (.symbol name) value =>
    if s.isLocal name then compileCall defined s head operands
    else do
      let value ← compile defined s.inHead value
      return .setGlobal name value
  | .typed form => compile defined s form
  | .lookup _ | .assign _ _ | .call => compileCall defined s head operands

variable {defined} {s : Scope}

theorem compileList_eq (head : Value) (operands : List Value) :
    compileList defined s head operands =
      (Construct.ofList head operands).compiled defined s head operands := by
  unfold compileList
  split
  case h_10 h =>
    rw [h]
    rfl
  all_goals simp_all [Construct.compiled]

theorem compile_cons {mark : Nat} {h t head : Value} {operands : List Value}
    (hi : (Value.cons mark h t).items? = some (head :: operands)) :
    compile defined s (.cons mark h t) =
      (compileList defined s head operands).map (Code.finish s) := by
  rw [compile]
  split <;> simp_all
  cases compileList defined s head operands <;> rfl

theorem compile_improper {mark : Nat} {h t : Value}
    (hi : ∀ head operands, (Value.cons mark h t).items? ≠ some (head :: operands)) :
    compile defined s (.cons mark h t) =
      .error (.invalidForm ("improper list " ++ (Value.cons mark h t).text)) := by
  rw [compile]
  split
  · rename_i hi'
    exact absurd hi' (hi _ _)
  · rfl

theorem compileHandler_some {v body : Value} {param : String}
    (h : v.handler? = some (param, body)) :
    compileHandler defined s v =
      (compile defined (s.withLocal param) body).map (Handler.bind param) := by
  rw [compileHandler]
  split <;> simp_all
  cases compile defined (s.withLocal param) body <;> rfl

theorem compileHandler_none {v : Value} (h : v.handler? = none) :
    compileHandler defined s v = (compile defined s.inHead v).map Handler.apply := by
  rw [compileHandler]
  split <;> simp_all
  cases compile defined s.inHead v <;> rfl

theorem compileClauses_cons_none {v : Value} {vs : List Value} (h : v.clause? = none) :
    compileClauses defined s (v :: vs) = .error (.malformed "cond" .clausePairs) := by
  rw [compileClauses]
  split <;> simp_all

theorem compileClauses_cons_some {v test consequent : Value} {vs : List Value}
    (h : v.clause? = some (test, consequent)) :
    compileClauses defined s (v :: vs) =
      if test.isSymbol "true" && !s.isLocal "true" then do
        let default ← compile defined s consequent
        return ([], some default)
      else do
        let test ← compile defined s.inHead test
        let consequent ← compile defined s consequent
        let (clauses, default) ← compileClauses defined s vs
        return ((test, consequent) :: clauses, default) := by
  rw [compileClauses]
  split <;> simp_all

/-- A property of forms that the members of a list have if the list has it. -/
def Value.Hereditary (R : Value → Prop) : Prop := ∀ v, R v → ∀ u ∈ v.heads, R u

namespace Value.Hereditary

variable {R : Value → Prop} {u v head : Value} {operands : List Value} (hR : Hereditary R)

include hR

theorem items {vs : List Value} (hv : R v) (h : v.items? = some vs) : ∀ u ∈ vs, R u := by
  intro u hu
  rw [← heads_eq_of_items? h] at hu
  exact hR v hv u hu

theorem splice {keyword : String} {vs : List Value} (hs : ∀ v ∈ vs, R v) :
    ∀ u ∈ Value.splice keyword vs, R u := by
  fun_induction Value.splice keyword vs with
  | case1 => exact hs
  | case2 v rest _ ih =>
    obtain ⟨hv, hr⟩ := List.forall_mem_cons.1 hs
    refine ih (List.forall_mem_append.2 ⟨fun u hu => ?_, hr⟩)
    exact hR v hv u (List.mem_of_mem_tail hu)
  | case3 v rest _ ih =>
    obtain ⟨hv, hr⟩ := List.forall_mem_cons.1 hs
    exact List.forall_mem_cons.2 ⟨hv, ih hr⟩

/-- What a construct is made of comes from its operands. -/
theorem part {c : Construct} (hs : ∀ v ∈ operands, R v) (h : Construct.ofList head operands = c)
    (hu : u ∈ c.parts) : R u := by
  subst h
  cases head with
  | symbol keyword =>
    simp only [Construct.ofList] at hu
    revert hu
    fun_cases Construct.ofKeyword keyword operands <;> intro hu <;>
      simp only [Construct.parts, Construct.wrongCount] at hu
    case case1 | case3 | case12 => exact hR.splice hs u hu
    case case27 => exact hs u (by simp [List.mem_singleton.1 hu])
    all_goals first | exact hs u hu | simp at hu
  | _ => simp [Construct.ofList, Construct.parts] at hu

theorem clause {test consequent : Value} (hv : R v) (h : v.clause? = some (test, consequent)) :
    R test ∧ R consequent := by
  unfold clause? at h
  split at h
  · rename_i hi
    cases h
    have hs := hR.items hv hi
    exact ⟨hs _ (by simp), hs _ (by simp)⟩
  · cases h

theorem handler {param : String} {body : Value} (hv : R v)
    (h : v.handler? = some (param, body)) : R body := by
  unfold handler? at h
  split at h
  · rename_i hi
    split at h
    · cases h
      exact hR.items hv hi _ (by simp)
    · cases h
  · cases h

end Value.Hereditary
end KLambda
