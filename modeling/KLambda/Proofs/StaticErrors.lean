import KLambda.Proofs.Inlining
import KLambda.Proofs.Reading

/-!
Errors of compilation are static. Which values are defined, which names are local and where a form
stands decide what code it becomes, but not whether it becomes any: all that a failure depends on
is the form, and whether `true` is a local. A form that was read from source is built of atoms and
proper lists, so all that can be wrong with it is the shape of a special form.
-/
namespace KLambda

/-- Both succeed, or both fail with the same error. -/
abbrev Concurs {α β : Type} (x : Except Error α) (y : Except Error β) : Prop :=
  Agree (fun _ _ => True) x y

namespace Concurs

variable {α β γ δ : Type} {x : Except Error α} {y : Except Error β} {z : Except Error γ}

theorem symm (h : Concurs x y) : Concurs y x := by
  cases x <;> cases y <;> simp_all [Agree]

theorem trans (h : Concurs x y) (h' : Concurs y z) : Concurs x z := by
  cases x <;> cases y <;> cases z <;> simp_all [Agree]

theorem bind {f : α → Except Error γ} {g : β → Except Error δ} (h : Concurs x y)
    (hf : ∀ a b, Concurs (f a) (g b)) : Concurs (x >>= f) (y >>= g) :=
  Agree.bind h fun a b _ => hf a b

/-- What is made of a result does not matter. -/
theorem bind_pure (h : Concurs x y) (f : α → γ) (g : β → δ) :
    Concurs (x >>= fun a => pure (f a)) (y >>= fun b => pure (g b)) :=
  h.bind fun _ _ => trivial

theorem bind_same {f g : α → Except Error γ} (x : Except Error α) (hf : ∀ a, Concurs (f a) (g a)) :
    Concurs (x >>= f) (x >>= g) := by
  cases x with
  | error e => exact rfl
  | ok a => exact hf a

theorem succeed_or_fail (h : Concurs x y) :
    (∃ a b, x = .ok a ∧ y = .ok b) ∨ ∃ e, x = .error e ∧ y = .error e := by
  cases x with
  | ok a =>
    obtain ⟨b, hb, -⟩ := Agree.exists_ok h
    exact Or.inl ⟨a, b, rfl, hb⟩
  | error e => exact Or.inr ⟨e, rfl, (Agree.error_iff h e).1 rfl⟩

end Concurs

/-- Scopes that treat `true` as a local, both or neither. -/
def Scope.SameTruth (s t : Scope) : Prop := s.isLocal "true" = t.isLocal "true"

namespace Scope.SameTruth

variable {s t : Scope}

theorem inHead (h : s.SameTruth t) : s.inHead.SameTruth t.inHead := h

theorem asStatement (h : s.SameTruth t) : s.asStatement.SameTruth t.asStatement := h

theorem freeze (h : s.SameTruth t) : s.freeze.SameTruth t.freeze := h

theorem withLocal (h : s.SameTruth t) (x : String) : (s.withLocal x).SameTruth (t.withLocal x) := by
  by_cases hx : "true" = x
  · simp [SameTruth, Scope.withLocal, isLocal, ← hx]
  · simpa [SameTruth, Scope.withLocal, isLocal, hx] using h

theorem lambda (h : s.SameTruth t) (x : String) : (s.lambda x).SameTruth (t.lambda x) :=
  (h.withLocal x).freeze

end Scope.SameTruth

/-- Only what is written `(set x v)` is an assignment. -/
theorem Construct.eq_of_ofList_assign {head name value : Value} {operands : List Value}
    (h : Construct.ofList head operands = .assign name value) :
    head = .symbol "set" ∧ operands = [name, value] := by
  unfold ofList at h
  split at h
  · rename_i keyword
    revert h
    fun_cases ofKeyword keyword operands <;> intro h <;> cases h
    simp_all
  · cases h

section

variable {defined defined' : String → Bool} {s t : Scope}

theorem compile_symbol_ok (x : String) : ∃ c, compile defined s (.symbol x) = .ok c := by
  rw [compile]
  exact ⟨_, rfl⟩

/-- A lookup of a name never fails, whether it is a read or a call. -/
theorem lookup_ok {head : Value} {operands : List Value} {x : String}
    (hc : Construct.ofList head operands = .lookup (.symbol x)) :
    ∃ c, (Construct.lookup (.symbol x)).compiled defined s head operands = .ok c := by
  obtain ⟨rfl, rfl⟩ := Construct.eq_of_ofList_lookup hc
  obtain ⟨c, hx⟩ : ∃ c, compile defined s.inHead (.symbol x) = .ok c := compile_symbol_ok x
  rw [Construct.compiled]
  split
  · exact ⟨_, rfl⟩
  · simp only [compileCall, Value.symbol?, compileAll, hx]
    exact ⟨_, rfl⟩

theorem lookup_concurs {head : Value} {operands : List Value} {x : String}
    (hc : Construct.ofList head operands = .lookup (.symbol x)) :
    Concurs ((Construct.lookup (.symbol x)).compiled defined s head operands)
      ((Construct.lookup (.symbol x)).compiled defined' t head operands) := by
  obtain ⟨c, h⟩ := @lookup_ok defined s _ _ _ hc
  obtain ⟨c', h'⟩ := @lookup_ok defined' t _ _ _ hc
  rw [h, h']
  exact trivial

/-- A call of `set` for a name fails as the value does. -/
theorem compileCall_set_concurs (x : String) (value : Value) :
    Concurs (compileCall defined s (.symbol "set") [.symbol x, value])
      (compile defined s.inHead value) := by
  obtain ⟨c, hx⟩ : ∃ c, compile defined s.inHead (.symbol x) = .ok c := compile_symbol_ok x
  simp only [compileCall, Value.symbol?, compileAll, hx]
  cases compile defined s.inHead value with
  | error e => exact rfl
  | ok v => exact trivial

/-- An assignment to a name fails as its value does, whether it is a write or a call. -/
theorem assign_concurs (x : String) (value : Value) :
    Concurs ((Construct.assign (.symbol x) value).compiled defined s (.symbol "set")
      [.symbol x, value]) (compile defined s.inHead value) := by
  rw [Construct.compiled]
  split
  · exact compileCall_set_concurs x value
  · cases compile defined s.inHead value with
    | error e => exact rfl
    | ok v => exact trivial

theorem compileCall_concurs {head : Value} {operands : List Value}
    (hh : Concurs (compile defined s.inHead head) (compile defined' t.inHead head))
    (ho : ∀ v ∈ operands, Concurs (compile defined s.inHead v) (compile defined' t.inHead v)) :
    Concurs (compileCall defined s head operands) (compileCall defined' t head operands) :=
  compileCall_agree hh ho (fun _ _ _ _ _ => trivial) fun _ _ _ _ _ _ => trivial

/-- Scopes and moments that agree on `true` compile a form alike as far as failing goes. -/
theorem compile_concurs (v : Value) (h : s.SameTruth t) :
    Concurs (compile defined s v) (compile defined' t v) := by
  induction v using Value.parts_induction generalizing s t with
  | constant v l hv =>
    rw [compile_constant hv, compile_constant hv]
    exact trivial
  | symbol x =>
    rw [compile, compile]
    exact trivial
  | invalid v hv =>
    obtain ⟨e, he⟩ := hv.exists_compile
    rw [he, he]
    rfl
  | list v head operands hi ih =>
    rw [compile_of_items? hi, compile_of_items? hi]
    refine Agree.map (R := fun _ _ => True) ?_ fun _ _ _ => trivial
    cases hc : Construct.ofList head operands <;> rw [hc] at ih
    case malformed e => rfl
    case junction all forms =>
      exact (compileAll_agree (R := fun _ _ => True)
        (List.forall₂_same.2 fun v hv => ih v hv h.inHead)).bind fun _ _ _ => trivial
    case branch test yes no =>
      obtain ⟨iht, ihy, ihn⟩ := ih
      exact (iht h.inHead).bind fun _ _ => (ihy h).bind fun _ _ => (ihn h).bind_pure _ _
    case cond clauses =>
      -- a clause is the default on both sides, and what follows it is looked at on neither
      refine (compileClauses_agree (R := fun _ _ => True) (S := fun _ _ => True)
        (forall₂_clauses fun v hv p hp => ?_)).bind fun _ _ _ => trivial
      exact ⟨congrArg (p.1.isSymbol "true" && !·) h, (ih v hv p hp).1 h.inHead,
        (ih v hv p hp).2 h⟩
    case letIn binder value body =>
      refine .bind_same _ fun name => (ih.1 h.inHead).bind fun _ _ => ?_
      split
      · exact (ih.2 h).bind_pure _ _
      · exact (ih.2 (h.withLocal name)).bind_pure _ _
    case sequence forms =>
      exact (compileSequence_agree (R := fun _ _ => True) (S := fun _ _ => True)
        (List.forall₂_same.2 fun v hv => ⟨ih v hv h.inHead.asStatement, ih v hv h⟩)).bind
          fun _ _ _ => trivial
    case lambda binder body =>
      exact .bind_same _ fun param => (ih (h.lambda param)).bind_pure _ _
    case freeze body => exact (ih h.freeze).bind_pure _ _
    case trap body handler =>
      obtain ⟨ihb, iha, ihh⟩ := ih
      exact (ihb h.inHead).bind fun _ _ => (compileHandler_agree (H := fun _ _ => True)
        (fun p hp => ihh p hp (h.withLocal p.1)) fun _ => iha h.inHead).bind fun _ _ _ => trivial
    case defun name params body =>
      rw [Construct.compiled_defun, Construct.compiled_defun]
      exact .bind_same _ fun p => (ih rfl).bind_pure _ _
    case lookup name =>
      cases name with
      | symbol x => exact lookup_concurs hc
      | _ => exact compileCall_concurs (ih.1 h.inHead) fun v hv => ih.2 v hv h.inHead
    case assign name value =>
      cases name with
      | symbol x =>
        obtain ⟨rfl, rfl⟩ := Construct.eq_of_ofList_assign hc
        exact (assign_concurs x value).trans
          ((ih.1 h.inHead).trans (assign_concurs x value).symm)
      | _ => exact compileCall_concurs (ih.2.1 h.inHead) fun v hv => ih.2.2 v hv h.inHead
    case typed form => exact ih h
    case call => exact compileCall_concurs (ih.1 h.inHead) fun v hv => ih.2 v hv h.inHead

end

namespace Value

/-- Built of numbers, strings, symbols and proper lists only, as everything that is read is. -/
def Readable (v : Value) : Prop := v.form?.isSome = true

theorem readable_build (f : Form) (h : Heap) : (f.build h).1.Readable := by
  rw [Readable, Form.form?_build]
  rfl

/-- A readable cell has a readable head, and its tail is a readable list. -/
theorem Readable.cell {m : Nat} {h t : Value} (hv : (cons m h t).Readable) :
    h.Readable ∧ ∃ fs, t.form? = some (.list fs) := by
  unfold Readable form? at hv
  split at hv
  · rename_i f fs hf hfs
    exact ⟨by rw [Readable, hf]; rfl, fs, hfs⟩
  · simp at hv

theorem ending_of_form?_list {v : Value} {fs : List Form} (h : v.form? = some (.list fs)) :
    v.ending = .empty := by
  induction v generalizing fs with
  | empty => rfl
  | cons m a b _ ihb =>
    have hv : (cons m a b).Readable := by rw [Readable, h]; rfl
    obtain ⟨-, gs, hb⟩ := hv.cell
    exact ihb hb
  | _ => simp [form?] at h

namespace Readable

variable {u v : Value}

theorem of_mem_heads (hv : v.Readable) (hu : u ∈ v.heads) : u.Readable := by
  induction v with
  | cons m a b _ ihb =>
    obtain ⟨ha, fs, hb⟩ := hv.cell
    rcases List.mem_cons.1 hu with rfl | hu
    · exact ha
    · exact ihb (by rw [Readable, hb]; rfl) hu
  | _ => simp [heads] at hu

/-- A cell that is readable is a proper list. -/
theorem items?_cons {m : Nat} {h t : Value} (hv : (cons m h t).Readable) :
    (cons m h t).items? = some (h :: t.heads) := by
  obtain ⟨-, fs, ht⟩ := hv.cell
  have he : t.ending = .empty := ending_of_form?_list ht
  rw [items?, ending, he, heads]

end Readable

theorem hereditary_readable : Hereditary Readable := fun _ hv _ => hv.of_mem_heads

end Value

/-- An error that a special form has the wrong shape. -/
def Error.Malformed (e : Error) : Prop := ∃ keyword r, e = .malformed keyword r

theorem Error.malformed_malformed (keyword : String) (r : Requirement) :
    (Error.malformed keyword r).Malformed := ⟨keyword, r, rfl⟩

/-- All that can be expected of a compilation whose code does not matter. -/
abbrev Shaped {α : Type} (x : Except Error α) : Prop := Yields (fun _ => True) Error.Malformed x

theorem Shaped.bind {α β : Type} {x : Except Error α} {f : α → Except Error β} (h : Shaped x)
    (hf : ∀ a, Shaped (f a)) : Shaped (x >>= f) :=
  Yields.bind h fun a _ => hf a

theorem Shaped.bind_pure {α β : Type} {x : Except Error α} (h : Shaped x) (f : α → β) :
    Shaped (x >>= fun a => pure (f a)) :=
  h.bind fun _ => trivial

section

variable {defined : String → Bool} {s : Scope}

/-- All that can be wrong with a readable form is the shape of a special form in it. -/
theorem compile_shaped (v : Value) (hv : v.Readable) : Shaped (compile defined s v) := by
  induction v using Value.parts_induction generalizing s with
  | constant v l h =>
    rw [compile_constant h]
    exact trivial
  | symbol x =>
    rw [compile]
    exact trivial
  | invalid v h =>
    cases v with
    | cons m a b => exact absurd hv.items?_cons (h.items? a b.heads)
    | empty | number | str => cases h.constant?
    | symbol => cases h.symbol?
    | _ => simp [Value.Readable, Value.form?] at hv
  | list v head operands hi ih =>
    obtain ⟨hh, ho⟩ := List.forall_mem_cons.1 (Value.hereditary_readable.items hv hi)
    have ih := ih.imp₂ (Value.hereditary_readable.each hh ho) fun u hu hr s => hu hr (s := s)
    have call (hh : ∀ s, Shaped (compile defined s head))
        (ho : ∀ v ∈ operands, ∀ s, Shaped (compile defined s v)) :
        Shaped (compileCall defined s head operands) :=
      compileCall_yields (P := fun _ _ => True) (hh _) (fun v hv => ho v hv _)
        (fun _ _ _ _ => trivial) fun _ _ _ _ _ => trivial
    rw [compile_of_items? hi]
    refine Yields.map (P := fun _ => True) ?_ fun _ _ => trivial
    cases hc : Construct.ofList head operands <;> rw [hc] at ih
    case malformed e => exact Construct.of_malformed Error.malformed_malformed hc
    case junction all forms =>
      exact (compileAll_yields (P := fun _ _ => True) fun v hv => ih v hv _).bind fun _ _ => trivial
    case branch test yes no =>
      obtain ⟨iht, ihy, ihn⟩ := ih
      exact (iht _).bind fun _ => (ihy s).bind fun _ => (ihn s).bind_pure _
    case cond clauses =>
      exact (compileClauses_yields (P := fun _ _ => True) (R := fun _ _ => True)
        (Error.malformed_malformed _ _) fun v hv p hp =>
          ⟨(ih v hv p hp).1 _, (ih v hv p hp).2 s⟩).bind fun _ _ => trivial
    case letIn binder value body =>
      refine Shaped.bind (binder.binder_yields Error.malformed_malformed _) fun name =>
        (ih.1 _).bind fun _ => ?_
      split
      · exact (ih.2 s).bind_pure _
      · exact (ih.2 (s.withLocal name)).bind_pure _
    case sequence forms =>
      exact (compileSequence_yields (P := fun _ _ => True) (R := fun _ _ => True)
        (Error.malformed_malformed _ _) (fun v hv => ih v hv _) fun v hv => ih v hv s).bind
          fun _ _ => trivial
    case lambda binder body =>
      exact Shaped.bind (binder.binder_yields Error.malformed_malformed _) fun param =>
        (ih (s.lambda param)).bind_pure _
    case freeze body => exact (ih s.freeze).bind_pure _
    case trap body handler =>
      obtain ⟨ihb, iha, ihh⟩ := ih
      exact (ihb _).bind fun _ => (compileHandler_yields (H := fun _ => True)
        (fun p hp => ihh p hp (s.withLocal p.1)) fun _ => iha _).bind fun _ _ => trivial
    case defun name params body =>
      rw [Construct.compiled_defun]
      exact Shaped.bind (name.signature_yields Error.malformed_malformed params) fun p =>
        (ih (.defun p.1 p.2)).bind_pure _
    case lookup name =>
      rcases Construct.compiled_lookup name head operands with h | ⟨x, -, -, -, h⟩ <;> rw [h]
      · exact call ih.1 ih.2
      · exact trivial
    case assign name value =>
      rcases Construct.compiled_assign name value head operands with h | ⟨x, -, -, h⟩ <;> rw [h]
      · exact call ih.2.1 ih.2.2
      · exact (ih.1 _).map fun _ _ => trivial
    case typed form => exact ih s
    case call => exact call ih.1 ih.2

end

/-- Compiling fails or succeeds whatever values are defined and whatever is local besides `true`,
and always with the same error; and a form that was read fails only for the shape of a special form
in it. -/
theorem compile_errors_static :
    (∀ (defined defined' : String → Bool) (s t : Scope) (v : Value),
      s.isLocal "true" = t.isLocal "true" →
      (∃ c c', compile defined s v = .ok c ∧ compile defined' t v = .ok c') ∨
        ∃ e, compile defined s v = .error e ∧ compile defined' t v = .error e) ∧
    ∀ (defined : String → Bool) (s : Scope) (f : Form) (h : Heap) (e : Error),
      compile defined s (f.build h).1 = .error e → ∃ keyword r, e = .malformed keyword r := by
  constructor
  · intro defined defined' s t v h
    exact (compile_concurs v h).succeed_or_fail
  · intro defined s f h e he
    have hs : Shaped (compile defined s (f.build h).1) :=
      compile_shaped _ (Value.readable_build f h)
    rw [he] at hs
    exact hs

/-- In `(set x (lambda "1" y))` the binder is at fault, whether `x` is a local or not. -/
theorem compile_errors_static_binder :
    let form : Form :=
      .list [.symbol "set", .symbol "x", .list [.symbol "lambda", .str "1", .symbol "y"]]
    let v := (form.build .empty).1
    let inner : Scope := ⟨["x", "y"], .head, true, some "f"⟩
    Scope.toplevel.isLocal "true" = inner.isLocal "true" ∧
    compile (fun _ => false) .toplevel v = .error (.malformed "lambda" (.binder "\"1\"")) ∧
    compile (fun _ => true) inner v = .error (.malformed "lambda" (.binder "\"1\"")) ∧
    ∃ keyword r, Error.malformed "lambda" (.binder "\"1\"") = .malformed keyword r := by
  intro form v inner
  have ht : Scope.toplevel.isLocal "true" = inner.isLocal "true" := by decide
  have he : compile (fun _ => false) .toplevel v =
      .error (.malformed "lambda" (.binder "\"1\"")) := by cbv
  refine ⟨ht, he, ?_, compile_errors_static.2 _ _ form .empty _ he⟩
  obtain ⟨c, -, hc, -⟩ | ⟨e, hs, hi⟩ :=
    compile_errors_static.1 (fun _ => false) (fun _ => true) .toplevel inner v ht
  · rw [he] at hc
    cases hc
  · rw [he] at hs
    cases hs
    exact hi

end KLambda
