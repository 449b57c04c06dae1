import KLambda.Proofs.Rename

/-!
The names that matter. What a form compiles to depends on the scope only as far as names go that
occur free in it, so two scopes that agree on these compile it alike. The wildcard is the one name
that a `let` discards without hiding it, and counts as occurring everywhere.
-/
namespace KLambda

namespace Value

/-- Does a name occur free in a list with these parts? -/
def listMentions (name : String) (parts : List Value) : Bool :=
  match binding? parts with
  | some (.letIn x a b) => a.mentions name || (x != name && b.mentions name)
  | some (.lambda x b) => x != name && b.mentions name
  | some (.defun ps b) => !ps.any (isSymbol name) && b.mentions name
  | none => parts.any (mentions name)

theorem mentions_cons_eq (name : String) (m : Nat) (h t : Value) :
    (cons m h t).mentions name = listMentions name (cons m h t).heads :=
  mentions_cons name m h t

end Value

/-- The binding form that a construct is. -/
def Construct.binding? : Construct → Option Value.Binding
  | .letIn (.symbol x) value body => some (.letIn x value body)
  | .lambda (.symbol x) body => some (.lambda x body)
  | .defun _ params body => some (.defun params.heads body)
  | _ => none

theorem Value.binding?_of_ne {keyword : String} (hl : keyword ≠ "let") (hm : keyword ≠ "lambda")
    (hd : keyword ≠ "defun") (operands : List Value) :
    binding? (.symbol keyword :: operands) = none := by
  unfold binding?
  split <;> simp_all

theorem Construct.binding?_ofKeyword (keyword : String) (operands : List Value) :
    (ofKeyword keyword operands).binding? = Value.binding? (.symbol keyword :: operands) := by
  by_cases hl : keyword = "let"
  · subst hl
    rcases operands with _ | ⟨x, _ | ⟨a, _ | ⟨b, _ | ⟨c, rest⟩⟩⟩⟩
    · rfl
    all_goals cases x <;> rfl
  by_cases hm : keyword = "lambda"
  · subst hm
    rcases operands with _ | ⟨x, _ | ⟨a, _ | ⟨b, _ | ⟨c, rest⟩⟩⟩⟩
    · rfl
    all_goals cases x <;> rfl
  by_cases hd : keyword = "defun"
  · subst hd
    rcases operands with _ | ⟨x, _ | ⟨a, _ | ⟨b, _ | ⟨c, rest⟩⟩⟩⟩
    · rfl
    all_goals cases x <;> rfl
  rw [Value.binding?_of_ne hl hm hd]
  fun_cases ofKeyword keyword operands <;> first | rfl | contradiction

theorem Construct.binding?_ofList (head : Value) (operands : List Value) :
    (ofList head operands).binding? = Value.binding? (head :: operands) := by
  cases head with
  | symbol keyword => exact binding?_ofKeyword keyword operands
  | _ => rfl

namespace Value

variable {name : String} {u v : Value}

/-- What occurs in a part of a list that binds nothing occurs in the list. -/
theorem mentions_of_mem_heads (hb : binding? v.heads = none) (hu : u ∈ v.heads)
    (hm : u.mentions name = true) : v.mentions name = true := by
  cases v with
  | cons m h t =>
    rw [mentions_cons, hb]
    exact List.any_eq_true.2 ⟨u, hu, hm⟩
  | _ => simp [heads] at hu

/-- What occurs in a form that is spliced in occurs in one of the forms it comes from. -/
theorem mentions_of_mem_splice {keyword : String} {vs : List Value}
    (hb : ∀ operands, binding? (.symbol keyword :: operands) = none)
    (hu : u ∈ splice keyword vs) (hm : u.mentions name = true) :
    ∃ v ∈ vs, v.mentions name = true := by
  fun_induction splice keyword vs with
  | case1 => simp at hu
  | case2 v rest hv ih =>
    obtain ⟨w, hw, hn⟩ := ih hu
    rcases List.mem_append.1 hw with hw | hw
    · refine ⟨v, List.mem_cons_self, ?_⟩
      have hh : v.heads = .symbol keyword :: v.operands := by
        unfold isForm at hv
        split at hv
        · simp_all [heads, operands]
        · simp at hv
      exact mentions_of_mem_heads (hh ▸ hb _) (hh ▸ List.mem_cons_of_mem _ hw) hn
    · exact ⟨w, List.mem_cons_of_mem _ hw, hn⟩
  | case3 v rest hv ih =>
    rcases List.mem_cons.1 hu with rfl | hu
    · exact ⟨u, List.mem_cons_self, hm⟩
    · obtain ⟨w, hw, hn⟩ := ih hu
      exact ⟨w, List.mem_cons_of_mem _ hw, hn⟩

theorem mentions_of_clause? {test consequent : Value} (h : v.clause? = some (test, consequent))
    (hm : test.mentions name = true ∨ consequent.mentions name = true) :
    v.mentions name = true := by
  unfold clause? at h
  split at h
  · rename_i hv
    cases h
    have hh := heads_eq_of_items? hv
    have hb : binding? v.heads = none := by
      rw [hh]
      unfold binding?
      split <;> simp_all
    rcases hm with hm | hm
    · exact mentions_of_mem_heads hb (by simp [hh]) hm
    · exact mentions_of_mem_heads hb (by simp [hh]) hm
  · cases h

/-- The parameter of an inline handler hides its name in the body. -/
theorem mentions_of_handler? {param : String} {body : Value} (h : v.handler? = some (param, body))
    (hn : name ≠ param) (hm : body.mentions name = true) : v.mentions name = true := by
  unfold handler? at h
  split at h
  · rename_i k x b hv
    split at h
    · rename_i hk
      cases h
      have hh := heads_eq_of_items? hv
      cases v with
      | cons m a t =>
        rw [mentions_cons, hh]
        simp [binding?, hk, hm, Ne.symm hn]
      | _ => simp [heads] at hh
    · cases h
  · cases h

end Value

/-- What occurs in a part of a construct occurs in the operands it is made of. -/
theorem Construct.mentions_of_mem_parts {name : String} {head u : Value} {operands : List Value}
    (hu : u ∈ (ofList head operands).parts) (hm : u.mentions name = true) :
    ∃ v ∈ operands, v.mentions name = true := by
  cases head with
  | symbol keyword =>
    simp only [ofList] at hu
    have hs : ∀ {k : String}, k ≠ "let" → k ≠ "lambda" → k ≠ "defun" →
        u ∈ Value.splice k operands → ∃ v ∈ operands, v.mentions name = true := by
      intro k hl hl' hd hu
      exact Value.mentions_of_mem_splice (Value.binding?_of_ne hl hl' hd) hu hm
    revert hu
    fun_cases ofKeyword keyword operands <;> intro hu <;> simp only [parts, wrongCount] at hu
    case case1 | case3 | case12 => exact hs (by decide) (by decide) (by decide) hu
    case case27 => exact ⟨u, by simp [List.mem_singleton.1 hu], hm⟩
    all_goals first | exact ⟨u, hu, hm⟩ | simp at hu
  | _ => simp [ofList, parts] at hu

/-- Scopes that differ in their locals at most, and not on the wildcard or on any of these names. -/
structure Scope.Agree (names : String → Prop) (s t : Scope) : Prop where
  position : s.position = t.position
  statement : s.statement = t.statement
  owner : s.owner = t.owner
  wildcard : s.isLocal "_" = t.isLocal "_"
  locals : ∀ x, names x → s.isLocal x = t.isLocal x

namespace Scope.Agree

variable {names more : String → Prop} {s t : Scope}

theorem imp (h : s.Agree names t) (hn : ∀ x, more x → names x) : s.Agree more t :=
  ⟨h.position, h.statement, h.owner, h.wildcard, fun x hx => h.locals x (hn x hx)⟩

theorem inHead (h : Agree names s t) : Agree names s.inHead t.inHead :=
  ⟨rfl, rfl, h.owner, h.wildcard, h.locals⟩

theorem asStatement (h : Agree names s t) : Agree names s.asStatement t.asStatement :=
  ⟨h.position, rfl, h.owner, h.wildcard, h.locals⟩

theorem freeze (h : Agree names s t) : Agree names s.freeze t.freeze :=
  ⟨rfl, rfl, h.owner, h.wildcard, h.locals⟩

/-- A name that is bound on both sides may have differed before. -/
theorem withLocal (h : Agree names s t) (x : String) (hn : ∀ y, y ≠ x → more y → names y) :
    Agree more (s.withLocal x) (t.withLocal x) where
  position := h.position
  statement := h.statement
  owner := h.owner
  wildcard := by
    have := h.wildcard
    simp_all [isLocal, Scope.withLocal]
  locals y hy := by
    by_cases hx : y = x
    · simp [isLocal, Scope.withLocal, hx]
    · have := h.locals y (hn y hx hy)
      simp_all [isLocal, Scope.withLocal]

theorem lambda (h : Agree names s t) (x : String) (hn : ∀ y, y ≠ x → more y → names y) :
    Agree more (s.lambda x) (t.lambda x) :=
  (h.withLocal x hn).freeze

theorem closureName (h : Agree names s t) (kind : String) :
    s.closureName kind = t.closureName kind := by
  simp only [Scope.closureName, h.owner]

theorem finish (h : Agree names s t) (c : Code) : Code.finish s c = Code.finish t c := by
  simp only [Code.finish, h.statement]

theorem isLocal_symbol {x : String} (h : Agree ((Value.symbol x).mentions · = true) s t) :
    s.isLocal x = t.isLocal x :=
  h.locals x (by simp [Value.mentions])

theorem callOf {name : String} (h : Agree names s t) (hn : names name) (args : List Code) :
    Code.callOf s name args = Code.callOf t name args := by
  simp only [Code.callOf, h.locals name hn, h.position]

variable {head u : Value} {operands : List Value} {c : Construct}

theorem listMentions_of_part (hc : Construct.ofList head operands = c) (hb : c.binding? = none)
    {name : String} (hu : u ∈ head :: operands ∨ u ∈ c.parts) (hm : u.mentions name = true) :
    Value.listMentions name (head :: operands) = true := by
  rw [Value.listMentions, ← Construct.binding?_ofList, hc, hb]
  apply List.any_eq_true.2
  rcases hu with hu | hu
  · exact ⟨u, hu, hm⟩
  · obtain ⟨v, hv, hn⟩ := Construct.mentions_of_mem_parts (hc ▸ hu) hm
    exact ⟨v, List.mem_cons_of_mem _ hv, hn⟩

/-- A part of a construct that binds nothing. -/
theorem part (h : Agree (Value.listMentions · (head :: operands) = true) s t)
    (hc : Construct.ofList head operands = c) (hb : c.binding? = none) (hu : u ∈ c.parts) :
    Agree (u.mentions · = true) s t :=
  h.imp fun _ hm => listMentions_of_part hc hb (Or.inr hu) hm

/-- The head and the operands of a list that binds nothing. -/
theorem elements (h : Agree (Value.listMentions · (head :: operands) = true) s t)
    (hc : Construct.ofList head operands = c) (hb : c.binding? = none) :
    Agree (fun x => ∃ u ∈ head :: operands, u.mentions x = true) s t := by
  refine h.imp ?_
  rintro x ⟨u, hu, hm⟩
  exact listMentions_of_part hc hb (Or.inl hu) hm

end Scope.Agree

variable {defined : String → Bool} {s t : Scope}

/-- A test is the constant `true` in both scopes or in neither. -/
theorem isTrue_agree {test : Value} (h : Scope.Agree (test.mentions · = true) s t) :
    (test.isSymbol "true" && !s.isLocal "true") = (test.isSymbol "true" && !t.isLocal "true") := by
  cases test with
  | symbol x =>
    by_cases hx : x = "true"
    · subst hx
      rw [h.isLocal_symbol]
    · simp only [Value.isSymbol, beq_false_of_ne hx, Bool.false_and]
  | _ => rfl

theorem compileCall_congr {head : Value} {operands : List Value}
    (h : Scope.Agree (fun x => ∃ u ∈ head :: operands, u.mentions x = true) s t)
    (hs : ∀ u ∈ head :: operands, ∀ {s t : Scope}, Scope.Agree (u.mentions · = true) s t →
      compile defined s u = compile defined t u) :
    compileCall defined s head operands = compileCall defined t head operands := by
  have hu : ∀ u ∈ head :: operands, compile defined s.inHead u = compile defined t.inHead u :=
    fun u hu => hs u hu (h.imp fun x hx => ⟨u, hu, hx⟩).inHead
  obtain ⟨hh, ho⟩ := List.forall_mem_cons.1 hu
  rw [compileCall, compileCall, compileAll_congr (List.forall₂_same.2 ho), hh, h.position]
  cases head with
  | symbol x =>
    have hx : ∃ u ∈ Value.symbol x :: operands, u.mentions x = true :=
      ⟨_, List.mem_cons_self, by simp [Value.mentions]⟩
    simp only [Value.symbol?, h.callOf hx]
  | _ => rfl

/-- Scopes that agree on the names that occur free in a form compile it to the same code, or fail
with the same error. -/
theorem compile_agree (v : Value) (h : Scope.Agree (v.mentions · = true) s t) :
    compile defined s v = compile defined t v := by
  induction v using Value.parts_induction generalizing s t with
  | constant v l hv => rw [compile_constant hv, compile_constant hv, h.finish]
  | symbol x => rw [compile, compile, h.finish, h.isLocal_symbol]
  | invalid v hv =>
    obtain ⟨e, he⟩ := hv.exists_compile
    rw [he, he]
  | list v head operands hi ih =>
    obtain ⟨mark, tail, rfl⟩ := Value.exists_cons_of_items? hi
    have h : Scope.Agree (Value.listMentions · (head :: operands) = true) s t := by
      refine h.imp fun x hx => ?_
      rwa [Value.mentions_cons_eq, Value.heads_eq_of_items? hi]
    rw [compile_of_items? hi, compile_of_items? hi, funext h.finish]
    congr 1
    cases hc : Construct.ofList head operands <;> rw [hc] at ih
    case malformed e => rfl
    case junction all forms =>
      rw [Construct.compiled, Construct.compiled, compileAll_congr
        (List.forall₂_same.2 fun v hv => ih v hv (h.part hc rfl hv).inHead)]
    case branch test yes no =>
      obtain ⟨iht, ihy, ihn⟩ := ih
      rw [Construct.compiled, Construct.compiled,
        iht (h.part hc rfl (by simp [Construct.parts])).inHead,
        ihy (h.part hc rfl (by simp [Construct.parts])),
        ihn (h.part hc rfl (by simp [Construct.parts]))]
    case cond clauses =>
      rw [Construct.compiled, Construct.compiled, compileClauses_congr]
      refine forall₂_clauses fun v hv p hp => ?_
      have hm := h.part hc rfl hv
      have ht := hm.imp fun x hx => Value.mentions_of_clause? hp (Or.inl hx)
      have hb := hm.imp fun x hx => Value.mentions_of_clause? hp (Or.inr hx)
      exact ⟨isTrue_agree ht, (ih v hv p hp).1 ht.inHead, (ih v hv p hp).2 hb⟩
    case sequence forms =>
      rw [Construct.compiled, Construct.compiled, compileSequence_congr (List.forall₂_same.2
        fun v hv => ⟨ih v hv (h.part hc rfl hv).inHead.asStatement, ih v hv (h.part hc rfl hv)⟩)]
    case freeze body =>
      rw [Construct.compiled, Construct.compiled,
        ih (h.part hc rfl (by simp [Construct.parts])).freeze, h.closureName]
    case trap body handler =>
      have hm := h.part hc rfl (u := handler) (by simp [Construct.parts])
      have hh : compileHandler defined s handler = compileHandler defined t handler := by
        cases hp : handler.handler? with
        | none => rw [compileHandler_none hp, compileHandler_none hp, ih.2.1 hm.inHead]
        | some p =>
          rw [compileHandler_some hp, compileHandler_some hp, ih.2.2 p hp
            (hm.withLocal p.1 fun y hy => Value.mentions_of_handler? hp hy)]
      rw [Construct.compiled, Construct.compiled,
        ih.1 (h.part hc rfl (by simp [Construct.parts])).inHead, hh, h.position]
    case defun name params body => rfl
    case lookup name =>
      have call := compileCall_congr (h.elements hc rfl) (List.forall_mem_cons.2 ih)
      cases name with
      | symbol x =>
        rw [Construct.compiled, Construct.compiled, call,
          (h.part hc rfl List.mem_cons_self).isLocal_symbol]
      | _ => exact call
    case assign name value =>
      have call := compileCall_congr (h.elements hc rfl) (List.forall_mem_cons.2 ih.2)
      cases name with
      | symbol x =>
        rw [Construct.compiled, Construct.compiled, call,
          (h.part hc rfl List.mem_cons_self).isLocal_symbol,
          ih.1 (h.part hc rfl (by simp [Construct.parts])).inHead]
      | _ => exact call
    case typed form => exact ih (h.part hc rfl (by simp [Construct.parts]))
    case call => exact compileCall_congr (h.elements hc rfl) (List.forall_mem_cons.2 ih)
    case letIn binder value body =>
      cases binder with
      | symbol x =>
        have hm : ∀ {y}, (value.mentions y = true ∨ y ≠ x ∧ body.mentions y = true) →
            Value.listMentions y (head :: operands) = true := by
          intro y hy
          rw [Value.listMentions, ← Construct.binding?_ofList, hc]
          rcases hy with hy | ⟨hy, hy'⟩
          · simp [Construct.binding?, hy]
          · simp [Construct.binding?, hy', Ne.symm hy]
        have hv := ih.1 (h.imp fun y hy => hm (Or.inl hy)).inHead
        have hb := ih.2 (h.withLocal x fun y hx hy => hm (Or.inr ⟨hx, hy⟩))
        simp only [Construct.compiled, Value.binder, bind, Except.bind, hv, hb]
        split
        · rfl
        · split
          · rename_i hd
            have hs : compile defined s body = compile defined t body := by
              refine ih.2 ⟨h.position, h.statement, h.owner, h.wildcard, fun y hy => ?_⟩
              by_cases hx : y = x
              · subst hx
                obtain rfl : y = "_" := by simpa [hy] using hd
                exact h.wildcard
              · exact h.locals y (hm (Or.inr ⟨hx, hy⟩))
            rw [hs]
          · rfl
      | _ => rfl
    case lambda binder body =>
      cases binder with
      | symbol x =>
        have hm : ∀ y, y ≠ x → body.mentions y = true →
            Value.listMentions y (head :: operands) = true := by
          intro y hy hy'
          rw [Value.listMentions, ← Construct.binding?_ofList, hc]
          simp [Construct.binding?, hy', Ne.symm hy]
        have hb := ih (h.lambda x hm)
        simp only [Construct.compiled, Value.binder, bind, Except.bind, hb, h.closureName]
      | _ => rfl

/-- A name that does not occur in a form may be bound around it or not. -/
theorem compile_withLocal {x : String} {v : Value} (hx : x ≠ "_") (hm : v.mentions x = false) :
    compile defined (s.withLocal x) v = compile defined s v := by
  refine compile_agree v ⟨rfl, rfl, rfl, ?_, fun y hy => ?_⟩
  · simp [Scope.isLocal, Scope.withLocal, Ne.symm hx]
  · have hn : y ≠ x := by
      rintro rfl
      simp [hm] at hy
    simp [Scope.isLocal, Scope.withLocal, hn]

end KLambda
