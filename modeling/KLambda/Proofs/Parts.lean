import KLambda.Proofs.Compile
import Mathlib.Data.List.Forall2

/-!
Induction over the forms that a form is compiled from. A form is a constant, a symbol, a proper list
or invalid; a list is compiled by the construct that it is, and what that is compiled from is
smaller. What is shown of all the parts of a construct goes over to the lists of codes, the clauses,
the handler and the call that are made of them, for results of one compilation and for those of two
that are compared.
-/
namespace KLambda

/-- What holds of a result if there is one, and of the error if there is none. -/
def Yields {α : Type} (P : α → Prop) (Q : Error → Prop) : Except Error α → Prop
  | .ok a => P a
  | .error e => Q e

namespace Yields

variable {α β : Type} {P P' : α → Prop} {R : β → Prop} {Q : Error → Prop} {x : Except Error α}

@[simp]
theorem ok_iff {a : α} : Yields P Q (.ok a) ↔ P a := Iff.rfl

@[simp]
theorem error_iff {e : Error} : Yields P Q (.error e) ↔ Q e := Iff.rfl

@[simp]
theorem pure_iff {a : α} : Yields P Q (pure a) ↔ P a := Iff.rfl

theorem imp (h : Yields P Q x) (hp : ∀ a, P a → P' a) : Yields P' Q x := by
  cases x with
  | ok a => exact hp a h
  | error e => exact h

theorem bind {f : α → Except Error β} (h : Yields P Q x) (hf : ∀ a, P a → Yields R Q (f a)) :
    Yields R Q (x >>= f) := by
  cases x with
  | ok a => exact hf a h
  | error e => exact h

theorem map {f : α → β} (h : Yields P Q x) (hf : ∀ a, P a → R (f a)) : Yields R Q (x.map f) := by
  cases x with
  | ok a => exact hf a h
  | error e => exact h

end Yields

/-- Results that are related, or the same error. -/
def Agree {α β : Type} (R : α → β → Prop) : Except Error α → Except Error β → Prop
  | .ok a, .ok b => R a b
  | .error e, .error e' => e = e'
  | _, _ => False

namespace Agree

variable {α β γ δ : Type} {R R' : α → β → Prop} {Q : γ → δ → Prop} {x : Except Error α}
  {y : Except Error β}

theorem refl {R : α → α → Prop} (h : ∀ a, R a a) (x : Except Error α) : Agree R x x := by
  cases x with
  | error e => exact rfl
  | ok a => exact h a

theorem of_eq {x y : Except Error α} (h : x = y) : Agree Eq x y := h ▸ refl (fun _ => rfl) x

theorem imp (h : Agree R x y) (hr : ∀ a b, R a b → R' a b) : Agree R' x y := by
  cases x <;> cases y <;> first | exact h | exact hr _ _ h

theorem bind {f : α → Except Error γ} {g : β → Except Error δ} (h : Agree R x y)
    (hf : ∀ a b, R a b → Agree Q (f a) (g b)) : Agree Q (x >>= f) (y >>= g) := by
  cases x <;> cases y <;> first | exact h | exact hf _ _ h | exact h.elim

theorem bind_same {f : α → Except Error γ} {g : α → Except Error δ} (x : Except Error α)
    (h : ∀ a, Agree Q (f a) (g a)) : Agree Q (x >>= f) (x >>= g) := by
  cases x with
  | error e => exact rfl
  | ok a => exact h a

theorem map {f : α → γ} {g : β → δ} (h : Agree R x y) (hf : ∀ a b, R a b → Q (f a) (g b)) :
    Agree Q (x.map f) (y.map g) := by
  cases x <;> cases y <;> first | exact h | exact hf _ _ h

theorem and {P : α → Prop} {P' : β → Prop} (h : Agree R x y) (hx : Yields P (fun _ => True) x)
    (hy : Yields P' (fun _ => True) y) : Agree (fun a b => P a ∧ P' b ∧ R a b) x y := by
  cases x <;> cases y <;> first | exact h | exact ⟨hx, hy, h⟩

theorem error_iff (h : Agree R x y) (e : Error) : x = .error e ↔ y = .error e := by
  cases x <;> cases y <;> simp_all [Agree]

theorem exists_ok {a : α} (h : Agree R (.ok a) y) : ∃ b, y = .ok b ∧ R a b := by
  cases y with
  | error e => exact h.elim
  | ok b => exact ⟨b, rfl, h⟩

theorem eq_map_iff {f : β → α} : Agree (fun a b => a = f b) x y ↔ x = y.map f := by
  cases x <;> cases y <;> simp [Agree, Except.map]

end Agree

/-- The literal that a form stands for by itself. -/
def Value.constant? : Value → Option Literal
  | .empty => some .empty
  | .number n => some (.number n)
  | .str t => some (.str t)
  | _ => none

/-- What is neither an atom nor a proper list with a head. -/
structure Value.Invalid (v : Value) : Prop where
  constant? : v.constant? = none
  symbol? : v.symbol? = none
  items? : ∀ head operands, v.items? ≠ some (head :: operands)

namespace Construct

/-- A property of all the forms that a construct is compiled from. A list that is called, or may be,
is compiled from its head and its operands. -/
def Each (P : Value → Prop) (head : Value) (operands : List Value) : Construct → Prop
  | .junction _ forms => ∀ v ∈ forms, P v
  | .branch test yes no => P test ∧ P yes ∧ P no
  | .cond clauses => ∀ v ∈ clauses, ∀ p ∈ v.clause?, P p.1 ∧ P p.2
  | .letIn _ value body => P value ∧ P body
  | .sequence forms => ∀ v ∈ forms, P v
  | .lambda _ body => P body
  | .freeze body => P body
  | .trap body handler => P body ∧ P handler ∧ ∀ p ∈ handler.handler?, P p.2
  | .defun _ _ body => P body
  | .lookup _ => P head ∧ ∀ v ∈ operands, P v
  | .assign _ value => P value ∧ P head ∧ ∀ v ∈ operands, P v
  | .typed form => P form
  | .call => P head ∧ ∀ v ∈ operands, P v
  | .malformed _ => True

variable {P R : Value → Prop} {head : Value} {operands : List Value} {c : Construct}

theorem Each.imp₂ {Q : Value → Prop} (hp : c.Each P head operands) (hr : c.Each R head operands)
    (h : ∀ v, P v → R v → Q v) : c.Each Q head operands := by
  cases c with
  | cond clauses =>
    intro v hv p hc
    obtain ⟨ht, hb⟩ := hp v hv p hc
    obtain ⟨ht', hb'⟩ := hr v hv p hc
    exact ⟨h _ ht ht', h _ hb hb'⟩
  | _ => simp_all [Each]

end Construct

theorem Value.Hereditary.each {R : Value → Prop} (hR : Value.Hereditary R) {head : Value}
    {operands : List Value} (hh : R head) (ho : ∀ v ∈ operands, R v) :
    (Construct.ofList head operands).Each R head operands := by
  have hp : ∀ u ∈ (Construct.ofList head operands).parts, R u := fun u hu => hR.part ho rfl hu
  cases hc : Construct.ofList head operands with
  | cond clauses => exact fun v hv p hp' => hR.clause (hp v (by rwa [hc])) hp'
  | trap body handler =>
    have hb : R handler := hp handler (by simp [hc, Construct.parts])
    exact ⟨hp body (by simp [hc, Construct.parts]), hb, fun p hp => hR.handler hb hp⟩
  | _ => simp_all [Construct.Each, Construct.parts]

theorem Value.hereditary_size_lt (n : Nat) : Value.Hereditary fun v => v.size < n :=
  fun _ hv _ hu => Nat.lt_trans (Value.size_lt_of_mem_heads hu) hv

/-- What holds of constants, of symbols and of invalid forms, and of a list as soon as it does of
the forms that it is compiled from, holds of every form. -/
@[elab_as_elim]
theorem Value.parts_induction {P : Value → Prop}
    (constant : ∀ v l, v.constant? = some l → P v)
    (symbol : ∀ x, P (.symbol x))
    (invalid : ∀ v, v.Invalid → P v)
    (list : ∀ v head operands, v.items? = some (head :: operands) →
      (Construct.ofList head operands).Each P head operands → P v)
    (v : Value) : P v := by
  induction hn : v.size using Nat.strongRecOn generalizing v with
  | _ n ih =>
    subst hn
    by_cases hi : ∃ head operands, v.items? = some (head :: operands)
    · obtain ⟨head, operands, hi⟩ := hi
      have hs : ∀ u ∈ head :: operands, u.size < v.size := by
        intro u hu
        rw [← Value.heads_eq_of_items? hi] at hu
        exact Value.size_lt_of_mem_heads hu
      obtain ⟨hh, ho⟩ := List.forall_mem_cons.1 hs
      have hsize := (Value.hereditary_size_lt v.size).each hh ho
      exact list v head operands hi (hsize.imp₂ hsize fun u hu _ => ih u.size hu u rfl)
    · simp only [not_exists] at hi
      cases hc : v.constant? with
      | some l => exact constant v l hc
      | none =>
        cases hx : v.symbol? with
        | none => exact invalid v ⟨hc, hx, hi⟩
        | some x =>
          cases v with
          | symbol y => exact symbol y
          | _ => simp [Value.symbol?] at hx

theorem Value.exists_cons_of_items? {v head : Value} {operands : List Value}
    (h : v.items? = some (head :: operands)) : ∃ mark t, v = .cons mark head t := by
  cases v with
  | cons mark a t =>
    have ha := Value.heads_eq_of_items? h
    rw [Value.heads] at ha
    cases ha
    exact ⟨mark, t, rfl⟩
  | _ => simp [Value.items?, Value.ending, Value.heads] at h

section

variable {defined : String → Bool} {s : Scope} {v : Value}

theorem compile_constant {l : Literal} (h : v.constant? = some l) :
    compile defined s v = .ok (Code.finish s (.const l)) := by
  cases v <;> simp [Value.constant?] at h <;> subst h <;> rw [compile]

theorem compile_of_items? {head : Value} {operands : List Value}
    (h : v.items? = some (head :: operands)) :
    compile defined s v =
      ((Construct.ofList head operands).compiled defined s head operands).map (Code.finish s) := by
  obtain ⟨mark, t, rfl⟩ := Value.exists_cons_of_items? h
  rw [compile_cons h, compileList_eq]

theorem Value.Invalid.exists_compile (h : v.Invalid) :
    ∃ t, ∀ defined s, compile defined s v = .error (.invalidForm t) := by
  obtain ⟨hc, hx, hi⟩ := h
  cases v with
  | cons m a b => exact ⟨_, fun _ _ => compile_improper hi⟩
  | empty | number | str => cases hc
  | symbol => cases hx
  | _ => exact ⟨_, fun _ _ => by rw [compile] <;> simp⟩

/-- The name of a definition and the names of its parameters come before anything else of it. -/
def Value.signature (name params : Value) : Except Error (String × List String) := do
  let name ← name.binder "defun"
  match params.items? with
  | none => .error (.malformed "defun" .parameterList)
  | some params =>
    let params ← Value.binders "defun" params
    return (name, params)

theorem Construct.compiled_defun (name params body head : Value) (operands : List Value) :
    (Construct.defun name params body).compiled defined s head operands = (do
      let p ← Value.signature name params
      let body ← compile defined (.defun p.1 p.2) body
      return .defun p.1 p.2 body) := by
  simp only [Construct.compiled, Value.signature]
  cases name.binder "defun" with
  | error e => rfl
  | ok name =>
    cases params.items? with
    | none => rfl
    | some params =>
      cases hb : Value.binders "defun" params <;>
        simp only [hb, bind, Except.bind, pure, Except.pure]

/-- A lookup is a call unless it is one of the value of a free name that is defined. -/
theorem Construct.compiled_lookup (name head : Value) (operands : List Value) :
    (Construct.lookup name).compiled defined s head operands =
        compileCall defined s head operands ∨
      ∃ x, name = .symbol x ∧ s.isLocal x = false ∧ defined x = true ∧
        (Construct.lookup name).compiled defined s head operands = .ok (.globalValue x) := by
  cases name with
  | symbol x =>
    rw [Construct.compiled]
    split
    · rename_i h
      obtain ⟨hx, hd⟩ := Bool.and_eq_true_iff.1 h
      exact Or.inr ⟨x, rfl, by simpa using hx, hd, rfl⟩
    · exact Or.inl rfl
  | _ => exact Or.inl rfl

/-- An assignment is a call unless it is one to a free name. -/
theorem Construct.compiled_assign (name value head : Value) (operands : List Value) :
    (Construct.assign name value).compiled defined s head operands =
        compileCall defined s head operands ∨
      ∃ x, name = .symbol x ∧ s.isLocal x = false ∧
        (Construct.assign name value).compiled defined s head operands =
          (compile defined s.inHead value).map (.setGlobal x) := by
  cases name with
  | symbol x =>
    rw [Construct.compiled]
    split
    · exact Or.inl rfl
    · rename_i h
      exact Or.inr ⟨x, rfl, by simpa using h, by cases compile defined s.inHead value <;> rfl⟩
  | _ => exact Or.inl rfl

end

/-- The tests and consequents of a `cond`, up to a test that is the constant `true`. -/
inductive Clauses (s : Scope) : List Value → List (Value × Value) → Option Value → Prop
  | nil : Clauses s [] [] none
  | default {v consequent : Value} {vs : List Value}
      (hv : v.clause? = some (.symbol "true", consequent)) (ht : s.isLocal "true" = false) :
      Clauses s (v :: vs) [] (some consequent)
  | cons {v test consequent : Value} {vs : List Value} {clauses : List (Value × Value)}
      {default : Option Value} (hv : v.clause? = some (test, consequent))
      (ht : test = .symbol "true" → s.isLocal "true" = true) (h : Clauses s vs clauses default) :
      Clauses s (v :: vs) ((test, consequent) :: clauses) default

/-- Forms and codes that are related one by one, stated of the pairs. -/
theorem pairs_of_forall₂ {α β : Type} {R : α → β → Prop} {as : List α} {bs : List β}
    (h : List.Forall₂ R as bs) : as.length = bs.length ∧ ∀ p ∈ as.zip bs, R p.1 p.2 :=
  ⟨h.length_eq, fun _ hp => (List.forall₂_iff_zip.1 h).2 hp⟩

theorem forall_of_forall₂ {α β : Type} {P : β → Prop} {as : List α} {bs : List β}
    (h : List.Forall₂ (fun _ b => P b) as bs) : ∀ b ∈ bs, P b := by
  induction h with
  | nil => simp
  | cons hb _ ih => exact List.forall_mem_cons.2 ⟨hb, ih⟩

theorem Value.isSymbol_iff {x : String} {v : Value} : v.isSymbol x = true ↔ v = .symbol x := by
  cases v <;> simp [Value.isSymbol]

section

variable {defined : String → Bool} {s : Scope} {P R : Value → Code → Prop} {Q : Error → Prop}
  {v : Value} {vs : List Value}

theorem compileAll_yields (h : ∀ v ∈ vs, Yields (P v) Q (compile defined s v)) :
    Yields (List.Forall₂ P vs) Q (compileAll defined s vs) := by
  induction vs with
  | nil =>
    rw [compileAll]
    exact .nil
  | cons v vs ih =>
    obtain ⟨hv, hs⟩ := List.forall_mem_cons.1 h
    rw [compileAll]
    exact hv.bind fun c hc => (ih hs).bind fun cs hcs => .cons hc hcs

theorem compileSequence_yields (hq : Q (.malformed "do" .someOperand))
    (he : ∀ v ∈ vs, Yields (P v) Q (compile defined s.inHead.asStatement v))
    (hl : ∀ v ∈ vs, Yields (R v) Q (compile defined s v)) :
    Yields (fun p => ∃ init last, vs = init ++ [last] ∧ List.Forall₂ P init p.1 ∧ R last p.2) Q
      (compileSequence defined s vs) := by
  induction vs with
  | nil =>
    rw [compileSequence]
    exact hq
  | cons v vs ih =>
    obtain ⟨hv, hs⟩ := List.forall_mem_cons.1 he
    obtain ⟨hv', hs'⟩ := List.forall_mem_cons.1 hl
    cases vs with
    | nil =>
      rw [compileSequence]
      exact hv'.bind fun c hc => ⟨[], v, rfl, .nil, hc⟩
    | cons w vs =>
      rw [compileSequence]
      refine hv.bind fun c hc => (ih hs hs').bind ?_
      rintro p ⟨init, last, hvs, hi, hp⟩
      exact ⟨v :: init, last, congrArg (v :: ·) hvs, .cons hc hi, hp⟩

theorem compileClauses_yields (hq : Q (.malformed "cond" .clausePairs))
    (h : ∀ v ∈ vs, ∀ p ∈ v.clause?, Yields (P p.1) Q (compile defined s.inHead p.1) ∧
      Yields (R p.2) Q (compile defined s p.2)) :
    Yields (fun p => ∃ clauses default, Clauses s vs clauses default ∧
      List.Forall₂ (fun a b => P a.1 b.1 ∧ R a.2 b.2) clauses p.1 ∧ Option.Rel R default p.2) Q
      (compileClauses defined s vs) := by
  induction vs with
  | nil =>
    rw [compileClauses]
    exact ⟨[], none, .nil, .nil, .none⟩
  | cons v vs ih =>
    obtain ⟨hv, hs⟩ := List.forall_mem_cons.1 h
    cases hc : v.clause? with
    | none =>
      rw [compileClauses_cons_none hc]
      exact hq
    | some p =>
      obtain ⟨test, consequent⟩ := p
      obtain ⟨ht, hb⟩ := hv _ hc
      rw [compileClauses_cons_some hc]
      split
      · rename_i hd
        rw [Bool.and_eq_true, Value.isSymbol_iff, Bool.not_eq_true'] at hd
        obtain ⟨rfl, hx⟩ := hd
        exact hb.bind fun c hb => ⟨[], some consequent, .default hc hx, .nil, .some hb⟩
      · rename_i hd
        refine ht.bind fun t ht => hb.bind fun b hb => (ih hs).bind ?_
        rintro ⟨codes, d⟩ ⟨clauses, default, hcs, hp, hdef⟩
        refine ⟨(test, consequent) :: clauses, default, .cons hc ?_ hcs, .cons ⟨ht, hb⟩ hp, hdef⟩
        rintro rfl
        simpa [Value.isSymbol] using hd

theorem compileHandler_yields {H : Handler → Prop}
    (hb : ∀ p ∈ v.handler?, Yields (fun c => H (.bind p.1 c)) Q
      (compile defined (s.withLocal p.1) p.2))
    (ha : v.handler? = none → Yields (fun c => H (.apply c)) Q (compile defined s.inHead v)) :
    Yields H Q (compileHandler defined s v) := by
  cases hh : v.handler? with
  | none =>
    rw [compileHandler_none hh]
    exact (ha hh).map fun _ hc => hc
  | some p =>
    rw [compileHandler_some hh]
    exact (hb p hh).map fun _ hc => hc

/-- A call yields what a call of a name or one of a computed head does. -/
theorem compileCall_yields {C : Code → Prop} {head : Value} {operands : List Value}
    (hh : Yields (P head) Q (compile defined s.inHead head))
    (ho : ∀ v ∈ operands, Yields (P v) Q (compile defined s.inHead v))
    (hn : ∀ x args, head = .symbol x → List.Forall₂ P operands args → C (Code.callOf s x args))
    (hc : ∀ c args, head.symbol? = none → P head c → List.Forall₂ P operands args →
      C (.call (.computed c) args s.position)) :
    Yields C Q (compileCall defined s head operands) := by
  have ha := compileAll_yields ho
  cases hx : head.symbol? with
  | none =>
    rw [compileCall, hx]
    exact ha.bind fun args ha => hh.bind fun c hp => hc c args hx hp ha
  | some x =>
    have hs : head = .symbol x := by cases head <;> simp_all [Value.symbol?]
    rw [compileCall, hx]
    exact ha.bind fun args ha => hn x args hs ha

end

section

variable {defined defined' : String → Bool} {s t : Scope} {R S : Code → Code → Prop}
  {v : Value} {us vs : List Value}

theorem compileAll_agree
    (h : List.Forall₂ (fun v u => Agree R (compile defined s v) (compile defined' t u)) vs us) :
    Agree (List.Forall₂ R) (compileAll defined s vs) (compileAll defined' t us) := by
  induction h with
  | nil =>
    rw [compileAll, compileAll]
    exact .nil
  | cons hv _ ih =>
    rw [compileAll, compileAll]
    exact hv.bind fun c c' hc => ih.bind fun cs cs' hcs => .cons hc hcs

theorem compileSequence_agree
    (h : List.Forall₂ (fun v u =>
      Agree R (compile defined s.inHead.asStatement v) (compile defined' t.inHead.asStatement u) ∧
        Agree S (compile defined s v) (compile defined' t u)) vs us) :
    Agree (fun p q => List.Forall₂ R p.1 q.1 ∧ S p.2 q.2) (compileSequence defined s vs)
      (compileSequence defined' t us) := by
  induction h with
  | nil =>
    rw [compileSequence, compileSequence]
    rfl
  | cons hv hs ih =>
    cases hs with
    | nil =>
      rw [compileSequence, compileSequence]
      exact hv.2.bind fun c c' hc => ⟨.nil, hc⟩
    | cons hw hs =>
      rw [compileSequence, compileSequence]
      exact hv.1.bind fun c c' hc => ih.bind fun p q hp => ⟨.cons hc hp.1, hp.2⟩

theorem compileClauses_agree
    (h : List.Forall₂ (fun v u => Option.Rel (fun p q =>
      (p.1.isSymbol "true" && !s.isLocal "true") = (q.1.isSymbol "true" && !t.isLocal "true") ∧
        Agree R (compile defined s.inHead p.1) (compile defined' t.inHead q.1) ∧
        Agree S (compile defined s p.2) (compile defined' t q.2)) v.clause? u.clause?) vs us) :
    Agree (fun p q => List.Forall₂ (fun a b => R a.1 b.1 ∧ S a.2 b.2) p.1 q.1 ∧
      Option.Rel S p.2 q.2) (compileClauses defined s vs) (compileClauses defined' t us) := by
  induction h with
  | nil =>
    rw [compileClauses, compileClauses]
    exact ⟨.nil, .none⟩
  | @cons v u vs us hv _ ih =>
    generalize hc : v.clause? = o, hu : u.clause? = o' at hv
    cases hv with
    | none =>
      rw [compileClauses_cons_none hc, compileClauses_cons_none hu]
      rfl
    | @some p q hp =>
      obtain ⟨hd, ht, hb⟩ := hp
      rw [compileClauses_cons_some hc, compileClauses_cons_some hu, hd]
      split
      · exact hb.bind fun c c' hb => ⟨.nil, .some hb⟩
      · exact ht.bind fun t t' ht => hb.bind fun b b' hb => ih.bind fun p q hp =>
          ⟨.cons ⟨ht, hb⟩ hp.1, hp.2⟩

/-- Clauses are compared with themselves test by test and consequent by consequent. -/
theorem forall₂_clauses {C : Value × Value → Value × Value → Prop}
    (h : ∀ v ∈ vs, ∀ p ∈ v.clause?, C p p) :
    List.Forall₂ (fun v u => Option.Rel C v.clause? u.clause?) vs vs := by
  refine List.forall₂_same.2 fun v hv => ?_
  have hc := h v hv
  cases hp : v.clause? with
  | none => exact .none
  | some p => exact .some (hc p hp)

theorem compileAll_congr
    (h : List.Forall₂ (fun v u => compile defined s v = compile defined' t u) vs us) :
    compileAll defined s vs = compileAll defined' t us := by
  induction h with
  | nil => rw [compileAll, compileAll]
  | cons hv _ ih => rw [compileAll, compileAll, hv, ih]

theorem compileSequence_congr
    (h : List.Forall₂ (fun v u => compile defined s.inHead.asStatement v =
      compile defined' t.inHead.asStatement u ∧ compile defined s v = compile defined' t u) vs us) :
    compileSequence defined s vs = compileSequence defined' t us := by
  induction h with
  | nil => rw [compileSequence, compileSequence]
  | cons hv hs ih =>
    cases hs with
    | nil => rw [compileSequence, compileSequence, hv.2]
    | cons hw hs => rw [compileSequence, compileSequence, hv.1, ih]

theorem compileClauses_congr
    (h : List.Forall₂ (fun v u => Option.Rel (fun p q =>
      (p.1.isSymbol "true" && !s.isLocal "true") = (q.1.isSymbol "true" && !t.isLocal "true") ∧
        compile defined s.inHead p.1 = compile defined' t.inHead q.1 ∧
        compile defined s p.2 = compile defined' t q.2) v.clause? u.clause?) vs us) :
    compileClauses defined s vs = compileClauses defined' t us := by
  induction h with
  | nil => rw [compileClauses, compileClauses]
  | @cons v u vs us hv _ ih =>
    generalize hc : v.clause? = o, hu : u.clause? = o' at hv
    cases hv with
    | none => rw [compileClauses_cons_none hc, compileClauses_cons_none hu]
    | some hp =>
      obtain ⟨hd, ht, hb⟩ := hp
      rw [compileClauses_cons_some hc, compileClauses_cons_some hu, hd, ht, hb, ih]

theorem compileHandler_agree {H : Handler → Handler → Prop}
    (hb : ∀ p ∈ v.handler?, Agree (fun c c' => H (.bind p.1 c) (.bind p.1 c'))
      (compile defined (s.withLocal p.1) p.2) (compile defined' (t.withLocal p.1) p.2))
    (ha : v.handler? = none → Agree (fun c c' => H (.apply c) (.apply c'))
      (compile defined s.inHead v) (compile defined' t.inHead v)) :
    Agree H (compileHandler defined s v) (compileHandler defined' t v) := by
  cases hh : v.handler? with
  | none =>
    rw [compileHandler_none hh, compileHandler_none hh]
    exact (ha hh).map fun _ _ hc => hc
  | some p =>
    rw [compileHandler_some hh, compileHandler_some hh]
    exact (hb p hh).map fun _ _ hc => hc

theorem compileCall_agree {C : Code → Code → Prop} {head : Value} {operands : List Value}
    (hh : Agree R (compile defined s.inHead head) (compile defined' t.inHead head))
    (ho : ∀ v ∈ operands, Agree R (compile defined s.inHead v) (compile defined' t.inHead v))
    (hn : ∀ x args args', head = .symbol x → List.Forall₂ R args args' →
      C (Code.callOf s x args) (Code.callOf t x args'))
    (hc : ∀ c c' args args', R c c' → List.Forall₂ R args args' →
      C (.call (.computed c) args s.position) (.call (.computed c') args' t.position)) :
    Agree C (compileCall defined s head operands) (compileCall defined' t head operands) := by
  have ha := compileAll_agree (List.forall₂_same.2 ho)
  rw [compileCall, compileCall]
  cases hx : head.symbol? with
  | none =>
    exact ha.bind fun args args' ha => hh.bind fun c c' h => hc c c' args args' h ha
  | some x =>
    have hs : head = .symbol x := by cases head <;> simp_all [Value.symbol?]
    exact ha.bind fun args args' ha => hn x args args' hs ha

end
end KLambda
