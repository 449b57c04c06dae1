import KLambda.Proofs.Parts

/-!
Lexical scope. Code is scoped by a list of names if every local it looks up is one of them or is
bound on the way; a definition sees its parameters only. Compiling a form gives code that is scoped
by the locals of the scope it was compiled in, or else an error that blames the form.
-/
namespace KLambda

inductive Code.Scoped : List String → Code → Prop
  | const {names : List String} (l : Literal) : Scoped names (.const l)
  | local {names : List String} {name : String} (h : name ∈ names) : Scoped names (.local name)
  | all {names : List String} {codes : List Code} (h : ∀ c ∈ codes, Scoped names c) :
      Scoped names (.all codes)
  | any {names : List String} {codes : List Code} (h : ∀ c ∈ codes, Scoped names c) :
      Scoped names (.any codes)
  | branch {names : List String} {test yes no : Code} (ht : Scoped names test)
      (hy : Scoped names yes) (hn : Scoped names no) : Scoped names (.branch test yes no)
  | cond {names : List String} {clauses : List (Code × Code)} {default : Option Code}
      (ht : ∀ p ∈ clauses, Scoped names p.1) (hc : ∀ p ∈ clauses, Scoped names p.2)
      (hd : ∀ c ∈ default, Scoped names c) : Scoped names (.cond clauses default)
  | letIn {names : List String} {name : String} {value body : Code} (hv : Scoped names value)
      (hb : Scoped (name :: names) body) : Scoped names (.letIn name value body)
  | seq {names : List String} {effects : List Code} {last : Code}
      (he : ∀ c ∈ effects, Scoped names c) (hl : Scoped names last) :
      Scoped names (.seq effects last)
  | lambda {names : List String} (name : String) {param : String} {body : Code}
      (h : Scoped (param :: names) body) : Scoped names (.lambda name param body)
  | freeze {names : List String} (name : String) {body : Code} (h : Scoped names body) :
      Scoped names (.freeze name body)
  | trapBind {names : List String} {body inner : Code} {param : String} (position : CallPosition)
      (hb : Scoped names body) (hi : Scoped (param :: names) inner) :
      Scoped names (.trap body (.bind param inner) position)
  | trapApply {names : List String} {body function : Code} (position : CallPosition)
      (hb : Scoped names body) (hf : Scoped names function) :
      Scoped names (.trap body (.apply function) position)
  | defun {names : List String} (name : String) {params : List String} {body : Code}
      (h : Scoped params body) : Scoped names (.defun name params body)
  | globalValue {names : List String} (name : String) : Scoped names (.globalValue name)
  | setGlobal {names : List String} (name : String) {value : Code} (h : Scoped names value) :
      Scoped names (.setGlobal name value)
  | callLocal {names : List String} {name : String} {args : List Code} (position : CallPosition)
      (h : name ∈ names) (ha : ∀ c ∈ args, Scoped names c) :
      Scoped names (.call (.local name) args position)
  | callGlobal {names : List String} (name : String) {args : List Code} (position : CallPosition)
      (ha : ∀ c ∈ args, Scoped names c) : Scoped names (.call (.global name) args position)
  | callComputed {names : List String} {head : Code} {args : List Code} (position : CallPosition)
      (hh : Scoped names head) (ha : ∀ c ∈ args, Scoped names c) :
      Scoped names (.call (.computed head) args position)
  | interop {names : List String} (name : String) {args : List Code}
      (ha : ∀ c ∈ args, Scoped names c) : Scoped names (.interop name args)

/-- The parameter of an inline handler is bound in its body. -/
def Handler.Scoped (names : List String) : Handler → Prop
  | .bind param body => body.Scoped (param :: names)
  | .apply function => function.Scoped names

namespace Code.Scoped

variable {names more : List String} {code body : Code}

theorem trap {handler : Handler} (position : CallPosition) (hb : body.Scoped names)
    (hh : handler.Scoped names) : (Code.trap body handler position).Scoped names := by
  cases handler with
  | bind param inner => exact .trapBind position hb hh
  | apply function => exact .trapApply position hb hh

/-- Code stays scoped where more names are bound. -/
theorem mono (h : code.Scoped names) (hs : names ⊆ more) : code.Scoped more := by
  induction h generalizing more with
  | const l => exact .const l
  | «local» h => exact .local (hs h)
  | all _ ih => exact .all fun c hc => ih c hc hs
  | any _ ih => exact .any fun c hc => ih c hc hs
  | branch _ _ _ iht ihy ihn => exact .branch (iht hs) (ihy hs) (ihn hs)
  | cond _ _ _ iht ihc ihd =>
    exact .cond (fun p hp => iht p hp hs) (fun p hp => ihc p hp hs) (fun c hc => ihd c hc hs)
  | letIn _ _ ihv ihb => exact .letIn (ihv hs) (ihb (List.cons_subset_cons _ hs))
  | seq _ _ ihe ihl => exact .seq (fun c hc => ihe c hc hs) (ihl hs)
  | lambda name _ ih => exact .lambda name (ih (List.cons_subset_cons _ hs))
  | freeze name _ ih => exact .freeze name (ih hs)
  | trapBind position _ _ ihb ihi =>
    exact .trapBind position (ihb hs) (ihi (List.cons_subset_cons _ hs))
  | trapApply position _ _ ihb ihf => exact .trapApply position (ihb hs) (ihf hs)
  | defun name h _ => exact .defun name h
  | globalValue name => exact .globalValue name
  | setGlobal name _ ih => exact .setGlobal name (ih hs)
  | callLocal position h _ ih => exact .callLocal position (hs h) fun c hc => ih c hc hs
  | callGlobal name position _ ih => exact .callGlobal name position fun c hc => ih c hc hs
  | callComputed position _ _ ihh iha =>
    exact .callComputed position (ihh hs) fun c hc => iha c hc hs
  | interop name _ ih => exact .interop name fun c hc => ih c hc hs

theorem sequence {effects : List Code} (he : ∀ c ∈ effects, c.Scoped names)
    (hl : code.Scoped names) : (Code.sequence effects code).Scoped names := by
  unfold Code.sequence
  split
  · exact hl
  · exact .seq (fun c hc => he c (List.mem_filter.1 hc).1) hl

theorem finish {s : Scope} (h : code.Scoped names) : (Code.finish s code).Scoped names := by
  unfold Code.finish
  split
  · exact .const .empty
  · exact h

theorem callOf {s : Scope} (name : String) {args : List Code} (h : ∀ c ∈ args, c.Scoped s.locals) :
    (Code.callOf s name args).Scoped s.locals := by
  unfold Code.callOf
  split
  · rename_i hl
    exact .callLocal _ (by simpa [Scope.isLocal] using hl) h
  · split
    · exact .interop _ h
    · exact .callGlobal _ _ h

end Code.Scoped

/-- An error that blames the shape of a form. -/
def Error.Syntactic : Error → Prop
  | .malformed .. | .invalidForm _ => True
  | _ => False

theorem Error.syntactic_malformed (keyword : String) (r : Requirement) :
    (Error.malformed keyword r).Syntactic := trivial

section

variable {Q : Error → Prop} (hq : ∀ keyword r, Q (.malformed keyword r))

include hq

theorem Value.binder_yields (keyword : String) (v : Value) :
    Yields (fun _ => True) Q (v.binder keyword) := by
  cases v with
  | symbol name => trivial
  | _ => exact hq keyword _

theorem Value.binders_yields (keyword : String) (vs : List Value) :
    Yields (fun _ => True) Q (Value.binders keyword vs) := by
  induction vs with
  | nil => trivial
  | cons v vs ih => exact (v.binder_yields hq keyword).bind fun _ _ => ih.bind fun _ _ => trivial

theorem Value.signature_yields (name params : Value) :
    Yields (fun _ => True) Q (name.signature params) := by
  refine (name.binder_yields hq "defun").bind fun name _ => ?_
  cases params.items? with
  | none => exact hq _ _
  | some params => exact (Value.binders_yields hq "defun" params).bind fun _ _ => trivial

/-- A list that is no construct is the fault of its keyword. -/
theorem Construct.of_malformed {head : Value} {operands : List Value} {e : Error}
    (h : Construct.ofList head operands = .malformed e) : Q e := by
  unfold Construct.ofList at h
  split at h
  · rename_i keyword
    revert h
    fun_cases Construct.ofKeyword keyword operands <;> intro h <;> cases h <;> exact hq _ _
  · cases h

end

variable {defined : String → Bool}

/-- Every local that compiled code looks up is a local of its scope or bound within the code. -/
theorem compile_yields (s : Scope) (v : Value) :
    Yields (Code.Scoped s.locals) Error.Syntactic (compile defined s v) := by
  induction v using Value.parts_induction generalizing s with
  | constant v l h =>
    rw [compile_constant h]
    exact .finish (.const l)
  | symbol x =>
    rw [compile]
    apply Code.Scoped.finish
    split
    · rename_i hx
      exact .local (by simpa [Scope.isLocal] using hx)
    · exact .const _
  | invalid v h =>
    obtain ⟨t, ht⟩ := h.exists_compile
    rw [ht]
    trivial
  | list v head operands hi ih =>
    have call (hh : ∀ s, Yields (Code.Scoped s.locals) Error.Syntactic (compile defined s head))
        (ho : ∀ v ∈ operands, ∀ s, Yields (Code.Scoped s.locals) Error.Syntactic
          (compile defined s v)) :
        Yields (Code.Scoped s.locals) Error.Syntactic (compileCall defined s head operands) := by
      refine compileCall_yields (P := fun _ c => c.Scoped s.locals) (hh _) (fun v hv => ho v hv _)
        (fun x args _ ha => .callOf x (forall_of_forall₂ ha)) fun c args _ hc ha => ?_
      exact .callComputed _ hc (forall_of_forall₂ ha)
    rw [compile_of_items? hi]
    refine Yields.map ?_ fun c hc => Code.Scoped.finish hc
    cases hc : Construct.ofList head operands <;> rw [hc] at ih
    case malformed e => exact Construct.of_malformed Error.syntactic_malformed hc
    case junction all forms =>
      refine (compileAll_yields fun v hv => ih v hv _).bind fun codes h => ?_
      cases all with
      | true => exact .all (forall_of_forall₂ h)
      | false => exact .any (forall_of_forall₂ h)
    case branch test yes no =>
      obtain ⟨iht, ihy, ihn⟩ := ih
      exact (iht _).bind fun t ht => (ihy s).bind fun y hy => (ihn s).bind fun n hn =>
        .branch ht hy hn
    case cond clauses =>
      refine (compileClauses_yields (P := fun _ c => c.Scoped s.locals)
        (R := fun _ c => c.Scoped s.locals) (Error.syntactic_malformed _ _) fun v hv p hp =>
          ⟨(ih v hv p hp).1 _, (ih v hv p hp).2 s⟩).bind ?_
      rintro ⟨codes, default⟩ ⟨clauses, d, -, hp, hd⟩
      have h := forall_of_forall₂ hp
      refine .cond (fun q hq => (h q hq).1) (fun q hq => (h q hq).2) ?_
      cases hd with
      | none => simp
      | some hd => simpa using hd
    case letIn binder value body =>
      obtain ⟨ihv, ihb⟩ := ih
      have hn := binder.binder_yields Error.syntactic_malformed "let"
      refine hn.bind fun name _ => (ihv _).bind fun v hv => ?_
      split
      · exact (ihb s).bind fun last hl => .sequence (List.forall_mem_singleton.2 hv) hl
      · exact (ihb (s.withLocal name)).bind fun inner hi => .letIn hv hi
    case sequence forms =>
      refine (compileSequence_yields (Error.syntactic_malformed _ _) (fun v hv => ih v hv _)
        fun v hv => ih v hv s).bind ?_
      rintro p ⟨init, last, -, he, hl⟩
      exact .sequence (forall_of_forall₂ he) hl
    case lambda binder body =>
      have hp := binder.binder_yields Error.syntactic_malformed "lambda"
      exact hp.bind fun param _ => (ih (s.lambda param)).bind fun b hb => .lambda _ hb
    case freeze body => exact (ih s.freeze).bind fun b hb => .freeze _ hb
    case trap body handler =>
      obtain ⟨ihb, iha, ihh⟩ := ih
      exact (ihb _).bind fun b hb => (compileHandler_yields (fun p hp => ihh p hp (s.withLocal p.1))
        fun _ => iha _).bind fun inner hi => .trap _ hb hi
    case defun name params body =>
      rw [Construct.compiled_defun]
      exact (name.signature_yields Error.syntactic_malformed params).bind fun p _ =>
        (ih (.defun p.1 p.2)).bind fun b hb => .defun p.1 hb
    case lookup name =>
      rcases Construct.compiled_lookup name head operands with h | ⟨x, -, -, -, h⟩ <;> rw [h]
      · exact call ih.1 ih.2
      · exact .globalValue x
    case assign name value =>
      rcases Construct.compiled_assign name value head operands with h | ⟨x, -, -, h⟩ <;> rw [h]
      · exact call ih.2.1 ih.2.2
      · exact (ih.1 _).map fun v hv => .setGlobal x hv
    case typed form => exact ih s
    case call => exact call ih.1 ih.2

theorem compile_scoped {defined : String → Bool} {s : Scope} {v : Value} {c : Code}
    (h : compile defined s v = .ok c) : c.Scoped s.locals := by
  have hy : Yields (Code.Scoped s.locals) Error.Syntactic (compile defined s v) :=
    compile_yields s v
  rwa [h] at hy

end KLambda
