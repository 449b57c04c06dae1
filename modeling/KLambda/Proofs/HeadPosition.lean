import KLambda.Proofs.Parts

/-!
Code moved from tail to head position. Only the calls that end the code change: those on the way
through branches, clauses, bodies of bindings, last forms and handlers. Compiling a form in head
position gives the code that moving it there gives.
-/
namespace KLambda

namespace Scope

variable (s : Scope)

@[simp]
theorem isLocal_inHead (name : String) : s.inHead.isLocal name = s.isLocal name := rfl

@[simp]
theorem position_inHead : s.inHead.position = .head := rfl

@[simp]
theorem statement_inHead : s.inHead.statement = false := rfl

@[simp]
theorem inHead_inHead : s.inHead.inHead = s.inHead := rfl

@[simp]
theorem withLocal_inHead (name : String) :
    s.inHead.withLocal name = (s.withLocal name).inHead := rfl

@[simp]
theorem lambda_inHead (param : String) : s.inHead.lambda param = s.lambda param := rfl

@[simp]
theorem freeze_inHead : s.inHead.freeze = s.freeze := rfl

@[simp]
theorem closureName_inHead (kind : String) : s.inHead.closureName kind = s.closureName kind := rfl

end Scope

mutual

/-- Settles in place every call that the code ends in. -/
def Code.inHead : Code → Code
  | .branch test yes no => .branch test yes.inHead no.inHead
  | .cond clauses default => .cond (Code.clausesInHead clauses) (Code.defaultInHead default)
  | .letIn name value body => .letIn name value body.inHead
  | .seq effects last => .seq effects last.inHead
  | .trap body handler _ => .trap body handler.inHead .head
  | .call callee args _ => .call callee args .head
  | c => c

def Code.clausesInHead : List (Code × Code) → List (Code × Code)
  | [] => []
  | (test, consequent) :: rest => (test, consequent.inHead) :: Code.clausesInHead rest

def Code.defaultInHead : Option Code → Option Code
  | none => none
  | some c => some c.inHead

def Handler.inHead : Handler → Handler
  | .bind param body => .bind param body.inHead
  | .apply function => .apply function

end

namespace Code

theorem sequence_inHead (effects : List Code) (last : Code) :
    (sequence effects last).inHead = sequence effects last.inHead := by
  unfold sequence
  split <;> simp [inHead]

theorem callOf_inHead (s : Scope) (name : String) (args : List Code) :
    callOf s.inHead name args = (callOf s name args).inHead := by
  unfold callOf
  by_cases h : s.isLocal name
  · simp [h, inHead]
  · cases hostName? name <;> simp [h, inHead]

theorem finish_of_expression {s : Scope} (h : s.statement = false) (c : Code) :
    finish s c = c := by
  simp [finish, h]

@[simp]
theorem finish_inHead (s : Scope) (c : Code) : finish s.inHead c = c :=
  finish_of_expression s.statement_inHead c

end Code

section

variable {defined : String → Bool} {s : Scope} {head : Value} {operands : List Value}

theorem compileCall_inHead (head : Value) (operands : List Value) :
    compileCall defined s.inHead head operands =
      (compileCall defined s head operands).map Code.inHead := by
  simp only [compileCall, Scope.inHead_inHead, Scope.position_inHead]
  cases head.symbol? with
  | some name =>
    cases compileAll defined s.inHead operands with
    | error e => rfl
    | ok args => exact congrArg Except.ok (Code.callOf_inHead s name args)
  | none =>
    cases compileAll defined s.inHead operands with
    | error e => rfl
    | ok args =>
      cases compile defined s.inHead head <;>
        simp [bind, Except.bind, pure, Except.pure, Except.map, Code.inHead]

end

variable (defined : String → Bool)

theorem Code.cond_eq_inHead {clauses clauses' : List (Code × Code)} {d d' : Option Code}
    (h : List.Forall₂ (fun a b => a.1 = b.1 ∧ a.2 = b.2.inHead) clauses clauses')
    (hd : Option.Rel (fun c c' => c = c'.inHead) d d') :
    Code.cond clauses d = (Code.cond clauses' d').inHead := by
  have hc : clauses = Code.clausesInHead clauses' := by
    induction h with
    | nil => rfl
    | cons hab _ ih =>
      rw [Code.clausesInHead, ih]
      exact congrArg (· :: _) (Prod.ext hab.1 hab.2)
  cases hd with
  | none => rw [hc, Code.inHead, Code.defaultInHead]
  | some hd => rw [hc, hd, Code.inHead, Code.defaultInHead]

/-- Whether a form stands in head or in tail position decides nothing but the positions of the calls
that its code ends in. -/
theorem compile_inHead (s : Scope) (v : Value) (hs : s.statement = false) :
    compile defined s.inHead v = (compile defined s v).map Code.inHead := by
  rw [← Agree.eq_map_iff]
  induction v using Value.parts_induction generalizing s with
  | constant v l h =>
    rw [compile_constant h, compile_constant h, Code.finish_inHead, Code.finish_of_expression hs]
    rfl
  | symbol x =>
    rw [compile, compile, Code.finish_inHead, Code.finish_of_expression hs, Scope.isLocal_inHead]
    split <;> rfl
  | invalid v h =>
    obtain ⟨t, ht⟩ := h.exists_compile
    rw [ht, ht]
    rfl
  | list v head operands hi ih =>
    have call : Agree (fun c c' => c = c'.inHead) (compileCall defined s.inHead head operands)
        (compileCall defined s head operands) :=
      Agree.eq_map_iff.2 (compileCall_inHead head operands)
    rw [compile_of_items? hi, compile_of_items? hi]
    refine Agree.map (R := fun c c' => c = c'.inHead) ?_ fun c c' hc => ?_
    · cases hc : Construct.ofList head operands <;> rw [hc] at ih
      case malformed e => rfl
      case junction all forms => exact .bind_same _ fun codes => by cases all <;> rfl
      case branch test yes no =>
        obtain ⟨-, ihy, ihn⟩ := ih
        exact .bind_same _ fun t => (ihy s hs).bind fun _ _ hy => (ihn s hs).bind fun _ _ hn =>
          congrArg₂ (Code.branch t) hy hn
      case cond clauses =>
        refine (compileClauses_agree (s := s.inHead) (t := s) (R := Eq)
          (forall₂_clauses fun v hv p hp => ⟨rfl, .of_eq rfl, (ih v hv p hp).2 s hs⟩)).bind ?_
        exact fun p q hp => Code.cond_eq_inHead hp.1 hp.2
      case letIn binder value body =>
        refine .bind_same _ fun name => .bind_same _ fun value => ?_
        split
        · refine (ih.2 s hs).bind fun _ c hc => ?_
          rw [hc]
          exact (Code.sequence_inHead [value] c).symm
        · exact (ih.2 (s.withLocal name) hs).bind fun _ _ hc => congrArg (Code.letIn name value) hc
      case sequence forms =>
        refine (compileSequence_agree (s := s.inHead) (t := s) (R := Eq)
          (List.forall₂_same.2 fun v hv => ⟨.of_eq rfl, ih v hv s hs⟩)).bind ?_
        rintro ⟨effects, _⟩ ⟨effects', c⟩ ⟨he, rfl⟩
        obtain rfl : effects = effects' := by rwa [List.forall₂_eq_eq_eq] at he
        exact (Code.sequence_inHead effects c).symm
      case lambda => exact .bind_same _ fun param => .bind_same _ fun body => rfl
      case freeze => exact .bind_same _ fun body => rfl
      case trap body handler =>
        refine .bind_same _ fun body => Agree.bind (R := fun i i' => i = i'.inHead)
          (compileHandler_agree (fun p hp => ?_) fun _ => ?_) fun _ _ hi =>
            congrArg (Code.trap body · .head) hi
        · exact (ih.2.2 p hp (s.withLocal p.1) hs).imp fun _ _ hc => congrArg (Handler.bind p.1) hc
        · exact (Agree.of_eq rfl).imp fun _ _ hc => congrArg Handler.apply hc
      case defun name params body =>
        rw [Construct.compiled_defun, Construct.compiled_defun]
        exact .bind_same _ fun p => .bind_same _ fun body => rfl
      case lookup name =>
        cases name with
        | symbol x =>
          rw [Construct.compiled, Construct.compiled, Scope.isLocal_inHead]
          split
          · rfl
          · exact call
        | _ => exact call
      case assign name value =>
        cases name with
        | symbol x =>
          rw [Construct.compiled, Construct.compiled, Scope.isLocal_inHead]
          split
          · exact call
          · exact .bind_same _ fun value => rfl
        | _ => exact call
      case typed form => exact ih s hs
      case call => exact call
    · rw [Code.finish_inHead, Code.finish_of_expression hs, hc]

end KLambda
