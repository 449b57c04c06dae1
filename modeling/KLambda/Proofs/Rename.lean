import KLambda.Proofs.Parts

/-!
Renaming functions. A function is known by its place in the heap, which no program can see: the text
of a value, the form that it is and the code that it compiles to do not depend on it.
-/
namespace KLambda

/-- The same function at another place. -/
def Function.rename (σ : Nat → Nat) (f : Function) : Function := { f with id := σ f.id }

/-- The same value with its functions at other places. -/
def Value.rename (σ : Nat → Nat) : Value → Value
  | .cons m head tail => .cons m (head.rename σ) (tail.rename σ)
  | .function f => .function (f.rename σ)
  | v => v

variable (σ : Nat → Nat)

namespace Value

@[simp]
theorem rename_empty : Value.empty.rename σ = .empty := rfl

@[simp]
theorem rename_number (n : Float) : (number n).rename σ = .number n := rfl

@[simp]
theorem rename_str (s : String) : (str s).rename σ = .str s := rfl

@[simp]
theorem rename_symbol (s : String) : (symbol s).rename σ = .symbol s := rfl

@[simp]
theorem rename_cons (m : Nat) (a b : Value) :
    (cons m a b).rename σ = .cons m (a.rename σ) (b.rename σ) := rfl

@[simp]
theorem rename_function (f : Function) : (function f).rename σ = .function (f.rename σ) := rfl

@[simp]
theorem rename_bool (b : Bool) : (bool b).rename σ = .bool b := rfl

@[simp]
theorem rename_id : Value.rename id = id := by
  funext v
  induction v with
  | cons m a b iha ihb => simp [iha, ihb]
  | _ => rfl

@[simp]
theorem kind_rename (v : Value) : (v.rename σ).kind = v.kind := by
  cases v <;> rfl

@[simp]
theorem toBool?_rename (v : Value) : (v.rename σ).toBool? = v.toBool? := by
  cases v <;> rfl

@[simp]
theorem symbol?_rename (v : Value) : (v.rename σ).symbol? = v.symbol? := by
  cases v <;> rfl

@[simp]
theorem write_rename (inside : Bool) (v : Value) (acc : String) :
    (v.rename σ).write inside acc = v.write inside acc := by
  induction v generalizing inside acc with
  | cons m a b iha ihb => cases inside <;> simp [write, iha, ihb]
  | _ => cases inside <;> rfl

@[simp]
theorem text_rename (v : Value) : (v.rename σ).text = v.text := write_rename σ false v ""

@[simp]
theorem heads_rename (v : Value) : (v.rename σ).heads = v.heads.map (rename σ) := by
  induction v with
  | cons m a b _ ih => simp [heads, ih]
  | _ => rfl

@[simp]
theorem ending_rename (v : Value) : (v.rename σ).ending = v.ending.rename σ := by
  induction v with
  | cons m a b _ ih => simpa [ending] using ih
  | _ => rfl

@[simp]
theorem items?_rename (v : Value) :
    (v.rename σ).items? = v.items?.map (List.map (rename σ)) := by
  simp only [items?, ending_rename, heads_rename]
  cases v.ending <;> rfl

@[simp]
theorem isForm_rename (keyword : String) (v : Value) :
    (v.rename σ).isForm keyword = v.isForm keyword := by
  cases v with
  | cons m a b => cases a <;> rfl
  | _ => rfl

@[simp]
theorem isSymbol_rename (name : String) (v : Value) :
    (v.rename σ).isSymbol name = v.isSymbol name := by
  cases v <;> rfl

@[simp]
theorem operands_rename (v : Value) : (v.rename σ).operands = v.operands.map (rename σ) := by
  simp [operands]

theorem splice_rename (keyword : String) (vs : List Value) :
    splice keyword (vs.map (rename σ)) = (splice keyword vs).map (rename σ) := by
  fun_induction splice keyword vs with
  | case1 => simp [splice]
  | case2 v rest h ih =>
    rw [List.map_cons, splice, if_pos (by simpa using h), operands_rename, ← List.map_append, ih]
  | case3 v rest h ih =>
    rw [List.map_cons, splice, if_neg (by simpa using h), ih, List.map_cons]

/-- The same binding form of renamed parts. -/
def Binding.rename (σ : Nat → Nat) : Binding → Binding
  | .letIn x value body => .letIn x (value.rename σ) (body.rename σ)
  | .lambda x body => .lambda x (body.rename σ)
  | .defun params body => .defun (params.map (Value.rename σ)) (body.rename σ)

theorem binding?_rename (vs : List Value) :
    binding? (vs.map (rename σ)) = (binding? vs).map (Binding.rename σ) := by
  rcases vs with _ | ⟨k, _ | ⟨x, _ | ⟨a, _ | ⟨b, _ | ⟨c, rest⟩⟩⟩⟩⟩
  · rfl
  · cases k <;> rfl
  · cases k <;> cases x <;> rfl
  · cases k <;> cases x <;> try rfl
    simp only [List.map_cons, List.map_nil, rename_symbol, binding?]
    split <;> rfl
  · cases k <;> cases x <;> try rfl
    all_goals simp only [List.map_cons, List.map_nil, rename, binding?]
    all_goals repeat' split
    all_goals simp [Binding.rename]
  · cases k <;> cases x <;> rfl

/-- What occurs free in a list, by the binding form that it is or by its parts. -/
theorem mentions_cons (name : String) (m : Nat) (h t : Value) :
    (cons m h t).mentions name =
      match binding? (cons m h t).heads with
      | some (.letIn x a b) => a.mentions name || (x != name && b.mentions name)
      | some (.lambda x b) => x != name && b.mentions name
      | some (.defun ps b) => !ps.any (isSymbol name) && b.mentions name
      | none => (cons m h t).heads.any (mentions name) := by
  rw [mentions]
  split <;> simp_all

/-- Which names occur free in a form does not depend on its functions. -/
theorem mentions_rename (name : String) (v : Value) :
    (v.rename σ).mentions name = v.mentions name := by
  have parts : ∀ (m : Nat) (h t : Value),
      binding? (cons m (h.rename σ) (t.rename σ)).heads =
        (binding? (cons m h t).heads).map (Binding.rename σ) := by
    intro m h t
    rw [← binding?_rename, ← heads_rename, rename_cons]
  fun_induction mentions name v with
  | case1 s => simp [mentions]
  | case2 m h t _ x a b hb iha ihb =>
    rw [rename_cons, mentions_cons, parts, show binding? (cons m h t).heads = _ from hb]
    simp only [Option.map_some, Binding.rename, iha, ihb]
  | case3 m h t _ x b hb ih =>
    rw [rename_cons, mentions_cons, parts, show binding? (cons m h t).heads = _ from hb]
    simp only [Option.map_some, Binding.rename, ih]
  | case4 m h t _ ps b hb ih =>
    rw [rename_cons, mentions_cons, parts, show binding? (cons m h t).heads = _ from hb]
    simp only [Option.map_some, Binding.rename, ih, List.any_map]
    congr 2
    simp [Function.comp_def]
  | case5 m h t _ hb ih =>
    rw [rename_cons, mentions_cons, parts, show binding? (cons m h t).heads = _ from hb]
    simp only [Option.map_none]
    rw [← rename_cons, heads_rename, List.any_map, List.any_subtype fun v _ => rfl,
      List.unattach_attach]
    rw [Bool.eq_iff_iff, List.any_eq_true, List.any_eq_true]
    refine exists_congr fun v => and_congr_right fun hv => ?_
    rw [Function.comp_apply, ih ⟨v, hv⟩]
  | case6 v hs hc => cases v <;> simp_all [mentions, rename]

@[simp]
theorem binder_rename (keyword : String) (v : Value) :
    (v.rename σ).binder keyword = v.binder keyword := by
  cases v with
  | symbol s => rfl
  | _ =>
    exact congrArg (fun t => Except.error (Error.malformed keyword (.binder t))) (text_rename σ _)

theorem binders_rename (keyword : String) (vs : List Value) :
    binders keyword (vs.map (rename σ)) = binders keyword vs := by
  induction vs with
  | nil => rfl
  | cons v vs ih => simp only [List.map_cons, binders, binder_rename, ih]

theorem signature_rename (name params : Value) :
    (name.rename σ).signature (params.rename σ) = name.signature params := by
  rw [signature, signature, binder_rename, items?_rename]
  cases params.items? with
  | none => rfl
  | some vs => simp only [Option.map_some, binders_rename]

@[simp]
theorem handler?_rename (v : Value) :
    (v.rename σ).handler? = v.handler?.map fun p => (p.1, p.2.rename σ) := by
  simp only [handler?, items?_rename]
  rcases v.items? with _ | _ | ⟨k, _ | ⟨x, _ | ⟨b, _ | ⟨c, rest⟩⟩⟩⟩
  · rfl
  · rfl
  · cases k <;> rfl
  · cases k <;> cases x <;> rfl
  · cases k <;> cases x <;> try rfl
    simp only [Option.map_some, List.map_cons, List.map_nil, rename_symbol]
    split <;> rfl
  · cases k <;> cases x <;> rfl

@[simp]
theorem clause?_rename (v : Value) :
    (v.rename σ).clause? = v.clause?.map fun p => (p.1.rename σ, p.2.rename σ) := by
  simp only [clause?, items?_rename]
  rcases v.items? with _ | _ | ⟨test, _ | ⟨c, _ | ⟨d, rest⟩⟩⟩ <;> rfl

end Value

/-- The same construct of renamed parts. -/
def Construct.rename (σ : Nat → Nat) : Construct → Construct
  | .junction all operands => .junction all (operands.map (Value.rename σ))
  | .branch test yes no => .branch (test.rename σ) (yes.rename σ) (no.rename σ)
  | .cond clauses => .cond (clauses.map (Value.rename σ))
  | .letIn binder value body => .letIn (binder.rename σ) (value.rename σ) (body.rename σ)
  | .sequence forms => .sequence (forms.map (Value.rename σ))
  | .lambda binder body => .lambda (binder.rename σ) (body.rename σ)
  | .freeze body => .freeze (body.rename σ)
  | .trap body handler => .trap (body.rename σ) (handler.rename σ)
  | .defun name params body => .defun (name.rename σ) (params.rename σ) (body.rename σ)
  | .lookup name => .lookup (name.rename σ)
  | .assign name value => .assign (name.rename σ) (value.rename σ)
  | .typed form => .typed (form.rename σ)
  | .call => .call
  | .malformed e => .malformed e

namespace Construct

theorem ofKeyword_rename (keyword : String) (operands : List Value) :
    ofKeyword keyword (operands.map (Value.rename σ)) = (ofKeyword keyword operands).rename σ := by
  have splice : ∀ k, Value.splice k (operands.map (Value.rename σ)) =
      (Value.splice k operands).map (Value.rename σ) := fun k => Value.splice_rename σ k operands
  unfold ofKeyword
  simp only [apply_ite (rename σ), List.length_map, splice]
  refine ite_congr rfl (fun _ => rfl) fun _ => ?_
  refine ite_congr rfl (fun _ => rfl) fun _ => ?_
  rcases operands with _ | ⟨a, _ | ⟨b, _ | ⟨c, _ | ⟨d, rest⟩⟩⟩⟩
  · rfl
  all_goals
    refine ite_congr rfl (fun _ => rfl) fun _ => ?_
    refine ite_congr rfl (fun _ => rfl) fun _ => ?_
    refine ite_congr rfl (fun _ => rfl) fun _ => ?_
    refine ite_congr rfl (fun _ => congrArg Construct.sequence (splice "do")) fun _ => ?_
    rfl

theorem ofList_rename (head : Value) (operands : List Value) :
    ofList (head.rename σ) (operands.map (Value.rename σ)) = (ofList head operands).rename σ := by
  cases head with
  | symbol keyword => exact ofKeyword_rename σ keyword operands
  | _ => rfl

end Construct

variable (defined : String → Bool)

theorem compileHandler_rename {s : Scope} {v : Value}
    (hb : ∀ p ∈ v.handler?, compile defined (s.withLocal p.1) (p.2.rename σ) =
      compile defined (s.withLocal p.1) p.2)
    (ha : compile defined s.inHead (v.rename σ) = compile defined s.inHead v) :
    compileHandler defined s (v.rename σ) = compileHandler defined s v := by
  have hr := v.handler?_rename σ
  cases hh : v.handler? with
  | none =>
    rw [hh] at hr
    rw [compileHandler_none hh, compileHandler_none hr, ha]
  | some p =>
    rw [hh] at hr
    rw [compileHandler_some hh, compileHandler_some hr, hb p hh]

/-- The code of a form does not depend on the places of its functions. -/
theorem compile_rename (s : Scope) (v : Value) :
    compile defined s (v.rename σ) = compile defined s v := by
  induction v using Value.parts_induction generalizing s with
  | constant v l h =>
    cases v <;> first | rfl | cases h
  | symbol x => rfl
  | invalid v h =>
    cases v with
    | cons m a b =>
      rw [compile_improper h.items?, Value.rename_cons, compile_improper]
      · rw [← Value.rename_cons, Value.text_rename]
      · intro head operands hr
        rw [← Value.rename_cons, Value.items?_rename] at hr
        obtain ⟨vs, hv, hm⟩ := Option.map_eq_some_iff.1 hr
        cases vs with
        | nil => cases hm
        | cons v vs => exact h.items? v vs hv
    | empty | number | str => cases h.constant?
    | symbol => cases h.symbol?
    | function f =>
      have ht := Value.text_rename σ (.function f)
      rw [Value.rename_function] at ht ⊢
      rw [compile, compile, ht] <;> simp
    | _ => rfl
  | list v head operands hi ih =>
    have hr := v.items?_rename σ
    rw [hi] at hr
    have call (hh : ∀ s, compile defined s (head.rename σ) = compile defined s head)
        (ho : ∀ v ∈ operands, ∀ s, compile defined s (v.rename σ) = compile defined s v) :
        compileCall defined s (head.rename σ) (operands.map (Value.rename σ)) =
          compileCall defined s head operands := by
      have ha : compileAll defined s.inHead (operands.map (Value.rename σ)) =
          compileAll defined s.inHead operands :=
        compileAll_congr (List.forall₂_map_left_iff.2 (List.forall₂_same.2 fun v hv => ho v hv _))
      rw [compileCall, compileCall, Value.symbol?_rename, ha, hh]
    rw [compile_of_items? hi, compile_of_items? hr, Construct.ofList_rename]
    congr 1
    cases hc : Construct.ofList head operands <;> rw [hc] at ih <;>
      simp only [Construct.rename, Construct.compiled_defun]
    case malformed e => rfl
    case junction all forms =>
      rw [Construct.compiled, Construct.compiled, compileAll_congr
        (List.forall₂_map_left_iff.2 (List.forall₂_same.2 fun v hv => ih v hv _))]
    case branch test yes no =>
      obtain ⟨iht, ihy, ihn⟩ := ih
      rw [Construct.compiled, Construct.compiled, iht, ihy, ihn]
    case cond clauses =>
      rw [Construct.compiled, Construct.compiled, compileClauses_congr]
      refine List.forall₂_map_left_iff.2 (List.forall₂_same.2 fun v hv => ?_)
      have hp := ih v hv
      rw [Value.clause?_rename]
      cases hc : v.clause? with
      | none => exact .none
      | some p =>
        refine .some ⟨?_, (hp p hc).1 _, (hp p hc).2 s⟩
        rw [Value.isSymbol_rename]
    case letIn binder value body =>
      simp only [Construct.compiled, Value.binder_rename, Value.mentions_rename, ih.1, ih.2]
    case sequence forms =>
      rw [Construct.compiled, Construct.compiled, compileSequence_congr
        (List.forall₂_map_left_iff.2 (List.forall₂_same.2 fun v hv => ⟨ih v hv _, ih v hv s⟩))]
    case lambda binder body =>
      have hb : ∀ s, compile defined s (body.rename σ) = compile defined s body := ih
      simp only [Construct.compiled, Value.binder_rename, hb]
    case freeze body => rw [Construct.compiled, Construct.compiled, ih]
    case trap body handler =>
      rw [Construct.compiled, Construct.compiled, ih.1,
        compileHandler_rename σ defined (fun p hp => ih.2.2 p hp _) (ih.2.1 _)]
    case defun name params body =>
      have hb : ∀ s, compile defined s (body.rename σ) = compile defined s body := ih
      simp only [Value.signature_rename, hb]
    case lookup name =>
      cases name with
      | symbol x => simp only [Value.rename_symbol, Construct.compiled, call ih.1 ih.2]
      | _ => exact call ih.1 ih.2
    case assign name value =>
      cases name with
      | symbol x =>
        simp only [Value.rename_symbol, Construct.compiled, call ih.2.1 ih.2.2, ih.1]
      | _ => exact call ih.2.1 ih.2.2
    case typed form => exact ih s
    case call => exact call ih.1 ih.2

end KLambda
