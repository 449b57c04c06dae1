import KLambda.Proofs.Flattening
import KLambda.Proofs.Positions

/-!
Inlining. A lookup of a global value is compiled to a read of it if it is defined by then, and to a
call if it is not. So what a form is compiled to later is what it was compiled to earlier, with some
calls replaced by reads: those for the values that have been defined in between.
-/
namespace KLambda

theorem forall₂_of_pairs {α β : Type} {R : α → β → Prop} {as : List α} {bs : List β}
    (hl : as.length = bs.length) (h : ∀ p ∈ as.zip bs, R p.1 p.2) : List.Forall₂ R as bs :=
  List.forall₂_iff_zip.2 ⟨hl, fun hp => h _ hp⟩

/-- The callees that a form `(value x)` may be compiled to a call of. -/
inductive Callee.Looks : Callee → Prop
  | global : Looks (.global "value")
  | shadowed : Looks (.local "value")

namespace Code

/-- The second code is the first one with calls for a global value replaced by reads: `inlined` says
for which callees and names, and `kept` which names are read by both. -/
inductive Inlines (kept : String → Prop) (inlined : Callee → String → Prop) : Code → Code → Prop
  | const (k : Literal) : Inlines kept inlined (.const k) (.const k)
  | local (x : String) : Inlines kept inlined (.local x) (.local x)
  | all {cs cs' : List Code} (hl : cs.length = cs'.length)
      (h : ∀ p ∈ cs.zip cs', Inlines kept inlined p.1 p.2) :
      Inlines kept inlined (.all cs) (.all cs')
  | any {cs cs' : List Code} (hl : cs.length = cs'.length)
      (h : ∀ p ∈ cs.zip cs', Inlines kept inlined p.1 p.2) :
      Inlines kept inlined (.any cs) (.any cs')
  | branch {test test' yes yes' no no' : Code} (ht : Inlines kept inlined test test')
      (hy : Inlines kept inlined yes yes') (hn : Inlines kept inlined no no') :
      Inlines kept inlined (.branch test yes no) (.branch test' yes' no')
  | cond {clauses clauses' : List (Code × Code)} (hl : clauses.length = clauses'.length)
      (ht : ∀ p ∈ clauses.zip clauses', Inlines kept inlined p.1.1 p.2.1)
      (hc : ∀ p ∈ clauses.zip clauses', Inlines kept inlined p.1.2 p.2.2) :
      Inlines kept inlined (.cond clauses none) (.cond clauses' none)
  | condDefault {clauses clauses' : List (Code × Code)} {d d' : Code}
      (hl : clauses.length = clauses'.length)
      (ht : ∀ p ∈ clauses.zip clauses', Inlines kept inlined p.1.1 p.2.1)
      (hc : ∀ p ∈ clauses.zip clauses', Inlines kept inlined p.1.2 p.2.2)
      (hd : Inlines kept inlined d d') :
      Inlines kept inlined (.cond clauses (some d)) (.cond clauses' (some d'))
  | letIn (x : String) {value value' body body' : Code} (hv : Inlines kept inlined value value')
      (hb : Inlines kept inlined body body') :
      Inlines kept inlined (.letIn x value body) (.letIn x value' body')
  | seq {cs cs' : List Code} {c c' : Code} (hl : cs.length = cs'.length)
      (h : ∀ p ∈ cs.zip cs', Inlines kept inlined p.1 p.2) (hc : Inlines kept inlined c c') :
      Inlines kept inlined (.seq cs c) (.seq cs' c')
  | lambda (name param : String) {body body' : Code} (hb : Inlines kept inlined body body') :
      Inlines kept inlined (.lambda name param body) (.lambda name param body')
  | freeze (name : String) {body body' : Code} (hb : Inlines kept inlined body body') :
      Inlines kept inlined (.freeze name body) (.freeze name body')
  | trapBind (x : String) (position : CallPosition) {body body' inner inner' : Code}
      (hb : Inlines kept inlined body body') (hi : Inlines kept inlined inner inner') :
      Inlines kept inlined (.trap body (.bind x inner) position)
        (.trap body' (.bind x inner') position)
  | trapApply (position : CallPosition) {body body' f f' : Code}
      (hb : Inlines kept inlined body body') (hf : Inlines kept inlined f f') :
      Inlines kept inlined (.trap body (.apply f) position) (.trap body' (.apply f') position)
  | defun (name : String) (params : List String) {body body' : Code}
      (hb : Inlines kept inlined body body') :
      Inlines kept inlined (.defun name params body) (.defun name params body')
  | globalValue {x : String} (hx : kept x) : Inlines kept inlined (.globalValue x) (.globalValue x)
  | setGlobal (x : String) {value value' : Code} (hv : Inlines kept inlined value value') :
      Inlines kept inlined (.setGlobal x value) (.setGlobal x value')
  | callLocal (x : String) (position : CallPosition) {cs cs' : List Code}
      (hl : cs.length = cs'.length) (h : ∀ p ∈ cs.zip cs', Inlines kept inlined p.1 p.2) :
      Inlines kept inlined (.call (.local x) cs position) (.call (.local x) cs' position)
  | callGlobal (x : String) (position : CallPosition) {cs cs' : List Code}
      (hl : cs.length = cs'.length) (h : ∀ p ∈ cs.zip cs', Inlines kept inlined p.1 p.2) :
      Inlines kept inlined (.call (.global x) cs position) (.call (.global x) cs' position)
  | callComputed (position : CallPosition) {c c' : Code} {cs cs' : List Code}
      (hc : Inlines kept inlined c c') (hl : cs.length = cs'.length)
      (h : ∀ p ∈ cs.zip cs', Inlines kept inlined p.1 p.2) :
      Inlines kept inlined (.call (.computed c) cs position) (.call (.computed c') cs' position)
  | interop (name : String) {cs cs' : List Code} (hl : cs.length = cs'.length)
      (h : ∀ p ∈ cs.zip cs', Inlines kept inlined p.1 p.2) :
      Inlines kept inlined (.interop name cs) (.interop name cs')
  | lookup {callee : Callee} {x : String} (position : CallPosition) (hc : callee.Looks)
      (hx : inlined callee x) :
      Inlines kept inlined (.call callee [.const (.symbol x)] position) (.globalValue x)

variable {kept : String → Prop} {inlined : Callee → String → Prop} {c c' : Code}

namespace Inlines

theorem isPure_eq (h : c.Inlines kept inlined c') : c'.isPure = c.isPure := by
  cases h <;> rfl

theorem finish (h : c.Inlines kept inlined c') (s : Scope) :
    (Code.finish s c).Inlines kept inlined (Code.finish s c') := by
  unfold Code.finish
  rw [h.isPure_eq]
  split
  · exact .const .empty
  · exact h

theorem sequence {cs cs' : List Code} (hs : List.Forall₂ (Inlines kept inlined) cs cs')
    (h : c.Inlines kept inlined c') :
    (Code.sequence cs c).Inlines kept inlined (Code.sequence cs' c') := by
  have hf : List.Forall₂ (Inlines kept inlined) (cs.filter (!·.isPure)) (cs'.filter (!·.isPure)) :=
    List.rel_filter (fun a b hab => by simp [hab.isPure_eq]) hs
  unfold Code.sequence
  generalize cs.filter (!·.isPure) = as at hf
  generalize cs'.filter (!·.isPure) = bs at hf
  cases hf with
  | nil => exact h
  | cons ha hs =>
    obtain ⟨hl, hp⟩ := pairs_of_forall₂ (.cons ha hs)
    exact .seq hl hp h

theorem callOf {cs cs' : List Code} (hs : List.Forall₂ (Inlines kept inlined) cs cs') (s : Scope)
    (name : String) :
    (Code.callOf s name cs).Inlines kept inlined (Code.callOf s name cs') := by
  obtain ⟨hl, h⟩ := pairs_of_forall₂ hs
  unfold Code.callOf
  split
  · exact .callLocal name s.position hl h
  · split
    · exact .interop _ hl h
    · exact .callGlobal name s.position hl h

end Inlines

end Code

/-- Handlers of which the second inlines the first. -/
def Handler.Inlines (kept : String → Prop) (inlined : Callee → String → Prop) :
    Handler → Handler → Prop
  | .bind x c, .bind x' c' => x' = x ∧ c.Inlines kept inlined c'
  | .apply c, .apply c' => c.Inlines kept inlined c'
  | _, _ => False

theorem Handler.Inlines.trap {kept : String → Prop} {inlined : Callee → String → Prop}
    {c c' : Code} {handler handler' : Handler} (h : handler.Inlines kept inlined handler')
    (hc : c.Inlines kept inlined c') (position : CallPosition) :
    (Code.trap c handler position).Inlines kept inlined (.trap c' handler' position) := by
  cases handler <;> cases handler' <;> simp only [Handler.Inlines] at h
  · obtain ⟨rfl, h⟩ := h
    exact .trapBind _ position hc h
  · exact .trapApply position hc h

/-- Only what is written `(value x)` is a lookup. -/
theorem Construct.eq_of_ofList_lookup {head name : Value} {operands : List Value}
    (h : Construct.ofList head operands = .lookup name) :
    head = .symbol "value" ∧ operands = [name] := by
  unfold ofList at h
  split at h
  · rename_i keyword
    revert h
    fun_cases ofKeyword keyword operands <;> intro h <;> cases h
    simp_all
  · cases h

section

variable {before after : String → Bool}

theorem Code.callOf_value (s : Scope) (args : List Code) :
    ∃ callee, callee.Looks ∧ Code.callOf s "value" args = .call callee args s.position := by
  have hh : hostName? "value" = none := by decide
  unfold Code.callOf
  split
  · exact ⟨_, .shadowed, rfl⟩
  · rw [hh]
    exact ⟨_, .global, rfl⟩

theorem compileCall_value (s : Scope) {x : String} (hx : s.isLocal x = false) :
    compileCall before s (.symbol "value") [.symbol x] =
      .ok (Code.callOf s "value" [.const (.symbol x)]) := by
  have hv : compile before s.inHead (.symbol x) = .ok (.const (.symbol x)) := by
    have hn : ¬ s.inHead.isLocal x = true := by simpa [Scope.inHead, Scope.isLocal] using hx
    rw [compile, if_neg hn]
    rfl
  have ha : compileAll before s.inHead [.symbol x] = .ok [.const (.symbol x)] := by
    rw [compileAll, compileAll, hv]
    rfl
  rw [compileCall]
  simp only [Value.symbol?, ha]
  rfl

/-- A lookup of a free name is a read if the value is defined, and else a call. -/
theorem compile_lookup {s : Scope} {x : String} (hx : s.isLocal x = false) (m m' : Nat) :
    compile before s (.cons m (.symbol "value") (.cons m' (.symbol x) .empty)) =
      .ok (if before x then .globalValue x else Code.callOf s "value" [.const (.symbol x)]) := by
  obtain ⟨callee, -, hc⟩ := Code.callOf_value s [.const (.symbol x)]
  have hi : (Value.cons m (.symbol "value") (.cons m' (.symbol x) .empty)).items? =
      some [.symbol "value", .symbol x] := rfl
  rw [compile_of_items? hi,
    show Construct.ofList (.symbol "value") [.symbol x] = .lookup (.symbol x) from rfl,
    Construct.compiled, compileCall_value s hx, hc, hx]
  cases before x <;> simp [Except.map, Code.finish, Code.isPure]

/-- What a form is compiled to after more values are defined, beside what it was compiled to before:
calls for those values are replaced by reads, and nothing else is. -/
abbrev Code.Later (before after : String → Bool) : Code → Code → Prop :=
  Code.Inlines (before · = true) fun _ x => before x = false ∧ after x = true

/-- Compiling later gives the same error, or code that inlines. -/
theorem compile_later (hd : ∀ x, before x = true → after x = true) (s : Scope) (v : Value) :
    Agree (Code.Later before after) (compile before s v) (compile after s v) := by
  induction v using Value.parts_induction generalizing s with
  | constant v l h =>
    rw [compile_constant h, compile_constant h]
    exact Code.Inlines.finish (.const l) s
  | symbol x =>
    rw [compile, compile]
    refine Code.Inlines.finish ?_ s
    split
    · exact .local x
    · exact .const _
  | invalid v h =>
    obtain ⟨t, ht⟩ := h.exists_compile
    rw [ht, ht]
    rfl
  | list v head operands hi ih =>
    have call (hh : ∀ s, Agree (Code.Later before after) (compile before s head)
        (compile after s head))
        (ho : ∀ v ∈ operands, ∀ s, Agree (Code.Later before after) (compile before s v)
          (compile after s v)) :
        Agree (Code.Later before after) (compileCall before s head operands)
          (compileCall after s head operands) := by
      refine compileCall_agree (hh _) (fun v hv => ho v hv _)
        (fun x args args' _ ha => .callOf ha s x) fun c c' args args' hc ha => ?_
      obtain ⟨hl, hp⟩ := pairs_of_forall₂ ha
      exact .callComputed s.position hc hl hp
    rw [compile_of_items? hi, compile_of_items? hi]
    refine Agree.map ?_ fun c c' hc => Code.Inlines.finish hc s
    cases hc : Construct.ofList head operands <;> rw [hc] at ih
    case malformed e => rfl
    case junction all forms =>
      refine (compileAll_agree (List.forall₂_same.2 fun v hv => ih v hv _)).bind
        fun cs cs' hs => ?_
      obtain ⟨hl, hp⟩ := pairs_of_forall₂ hs
      cases all with
      | true => exact .all hl hp
      | false => exact .any hl hp
    case branch test yes no =>
      obtain ⟨iht, ihy, ihn⟩ := ih
      exact (iht _).bind fun t t' ht => (ihy s).bind fun y y' hy => (ihn s).bind fun n n' hn =>
        .branch ht hy hn
    case cond clauses =>
      refine (compileClauses_agree (forall₂_clauses fun v hv p hp =>
        ⟨rfl, (ih v hv p hp).1 _, (ih v hv p hp).2 s⟩)).bind ?_
      rintro ⟨cs, d⟩ ⟨cs', d'⟩ ⟨hs, hd⟩
      obtain ⟨hl, hp⟩ := pairs_of_forall₂ hs
      cases hd with
      | none => exact .cond hl (fun q hq => (hp q hq).1) fun q hq => (hp q hq).2
      | some hd => exact .condDefault hl (fun q hq => (hp q hq).1) (fun q hq => (hp q hq).2) hd
    case letIn binder value body =>
      refine .bind_same _ fun name => (ih.1 _).bind fun v v' hv => ?_
      split
      · exact (ih.2 s).bind fun c c' hc => .sequence (.cons hv .nil) hc
      · exact (ih.2 (s.withLocal name)).bind fun c c' hc => .letIn name hv hc
    case sequence forms =>
      refine (compileSequence_agree (List.forall₂_same.2 fun v hv =>
        ⟨ih v hv _, ih v hv s⟩)).bind fun p q hp => ?_
      exact .sequence hp.1 hp.2
    case lambda binder body =>
      exact .bind_same _ fun param => (ih (s.lambda param)).bind fun c c' hc => .lambda _ param hc
    case freeze body => exact (ih s.freeze).bind fun c c' hc => .freeze _ hc
    case trap body handler =>
      obtain ⟨ihb, iha, ihh⟩ := ih
      refine (ihb _).bind fun c c' hc => (compileHandler_agree (H := Handler.Inlines _ _)
        (fun p hp => ?_) fun _ => iha _).bind fun i i' hi => hi.trap hc _
      exact (ihh p hp (s.withLocal p.1)).imp fun c c' hc => ⟨rfl, hc⟩
    case defun name params body =>
      rw [Construct.compiled_defun, Construct.compiled_defun]
      exact .bind_same _ fun p => (ih (.defun p.1 p.2)).bind fun c c' hc => .defun p.1 p.2 hc
    case lookup name =>
      cases name with
      | symbol x =>
        rw [Construct.compiled, Construct.compiled]
        by_cases hx : s.isLocal x = false ∧ before x = true
        · rw [if_pos (by simp [hx]), if_pos (by simp [hx, hd x hx.2])]
          exact .globalValue hx.2
        · rw [if_neg (by simpa using hx)]
          split
          · rename_i ha
            obtain ⟨hl, ha⟩ := Bool.and_eq_true_iff.1 ha
            rw [Bool.not_eq_true'] at hl
            have hb : before x = false := by simpa [hl] using hx
            obtain ⟨rfl, rfl⟩ := Construct.eq_of_ofList_lookup hc
            obtain ⟨callee, hc, he⟩ := Code.callOf_value s [.const (.symbol x)]
            rw [compileCall_value s hl, he]
            exact .lookup s.position hc ⟨hb, ha⟩
          · exact call ih.1 ih.2
      | _ => exact call ih.1 ih.2
    case assign name value =>
      cases name with
      | symbol x =>
        rw [Construct.compiled, Construct.compiled]
        split
        · exact call ih.2.1 ih.2.2
        · exact (ih.1 _).bind fun c c' hc => .setGlobal x hc
      | _ => exact call ih.2.1 ih.2.2
    case typed form => exact ih s
    case call => exact call ih.1 ih.2

end

theorem exists_of_mem_pairs {α β : Type} {R : α → β → Prop} {as : List α} {bs : List β}
    (hl : as.length = bs.length) (h : ∀ p ∈ as.zip bs, R p.1 p.2) {a : α} (ha : a ∈ as) :
    ∃ b, R a b := by
  rw [← List.map_fst_zip (Nat.le_of_eq hl)] at ha
  obtain ⟨p, hp, rfl⟩ := List.mem_map.1 ha
  exact ⟨p.2, h p hp⟩

namespace Code

variable {kept : String → Prop} {inlined : Callee → String → Prop} {p q : CallPosition}
  {c c' d e : Code}

namespace Inlines

theorem ending (h : d.Inlines kept inlined c') (he : e ∈ d.endings) :
    ∃ e', e.Inlines kept inlined e' := by
  have clauses : ∀ {cs cs' : List (Code × Code)}, cs.length = cs'.length →
      (∀ p ∈ cs.zip cs', p.1.2.Inlines kept inlined p.2.2) → e ∈ cs.map Prod.snd →
      ∃ e', e.Inlines kept inlined e' := by
    intro cs cs' hl hc he
    obtain ⟨a, ha, rfl⟩ := List.mem_map.1 he
    obtain ⟨b, hb⟩ := exists_of_mem_pairs (R := fun a b => a.2.Inlines kept inlined b.2) hl hc ha
    exact ⟨b.2, hb⟩
  cases h with
  | branch _ hy hn =>
    obtain rfl | rfl : e = _ ∨ e = _ := by simpa only [endings, List.mem_pair] using he
    · exact ⟨_, hy⟩
    · exact ⟨_, hn⟩
  | cond hl _ hc => exact clauses hl hc (by simpa using he)
  | condDefault hl _ hc hd =>
    rcases List.mem_append.1 he with he | he
    · exact clauses hl hc he
    · obtain rfl := List.mem_singleton.1 he
      exact ⟨_, hd⟩
  | letIn _ _ h | seq _ _ h | trapBind _ _ _ h =>
    obtain rfl := List.mem_singleton.1 he
    exact ⟨_, h⟩
  | _ => cases he

theorem operand (h : d.Inlines kept inlined c') (he : e ∈ d.operands) :
    ∃ e', e.Inlines kept inlined e' := by
  have tests : ∀ {cs cs' : List (Code × Code)}, cs.length = cs'.length →
      (∀ p ∈ cs.zip cs', p.1.1.Inlines kept inlined p.2.1) → e ∈ cs.map Prod.fst →
      ∃ e', e.Inlines kept inlined e' := by
    intro cs cs' hl ht he
    obtain ⟨a, ha, rfl⟩ := List.mem_map.1 he
    obtain ⟨b, hb⟩ := exists_of_mem_pairs (R := fun a b => a.1.Inlines kept inlined b.1) hl ht ha
    exact ⟨b.1, hb⟩
  cases h with
  | all hl h | any hl h | seq hl h _ | interop _ hl h | callLocal _ _ hl h | callGlobal _ _ hl h =>
    exact exists_of_mem_pairs hl h he
  | cond hl ht _ | condDefault hl ht _ _ => exact tests hl ht he
  | branch h _ _ | letIn _ h _ | trapBind _ _ h _ | setGlobal _ h =>
    obtain rfl := List.mem_singleton.1 he
    exact ⟨_, h⟩
  | trapApply _ hb hf =>
    obtain rfl | rfl := List.mem_pair.1 he
    · exact ⟨_, hb⟩
    · exact ⟨_, hf⟩
  | callComputed _ hc hl h =>
    rcases List.mem_cons.1 he with rfl | he
    · exact ⟨_, hc⟩
    · exact exists_of_mem_pairs hl h he
  | @lookup _ x _ hc _ =>
    obtain rfl : e = .const (.symbol x) := by cases hc <;> exact List.mem_singleton.1 he
    exact ⟨_, .const _⟩
  | _ => cases he

theorem functionBody (h : d.Inlines kept inlined c') (he : d.functionBody? = some e) :
    ∃ e', e.Inlines kept inlined e' := by
  cases h with
  | lambda _ _ h | freeze _ h | defun _ _ h =>
    cases he
    exact ⟨_, h⟩
  | _ => cases he

/-- Whatever occurs in code is inlined where the code is. -/
theorem occurs (h : c.Inlines kept inlined c') (ho : c.Occurs p q d) :
    ∃ d', d.Inlines kept inlined d' := by
  induction ho with
  | root => exact ⟨c', h⟩
  | ending _ he ih =>
    obtain ⟨d', hd⟩ := ih
    exact hd.ending he
  | operand _ he ih =>
    obtain ⟨d', hd⟩ := ih
    exact hd.operand he
  | body _ he ih =>
    obtain ⟨d', hd⟩ := ih
    exact hd.functionBody he

end Inlines

/-- No local of the name `value` is called for one of these names. -/
def Unshadowed (names : String → Prop) (p : CallPosition) (c : Code) : Prop :=
  ∀ q x r, c.Occurs p q (.call (.local "value") [.const (.symbol x)] r) → ¬ names x

namespace Unshadowed

variable {names : String → Prop}

theorem ending (h : c.Unshadowed names p) (he : e ∈ c.endings) : e.Unshadowed names p :=
  fun q x r ho => h q x r ((Occurs.root.ending he).trans ho)

theorem operand (h : c.Unshadowed names p) (he : e ∈ c.operands) : e.Unshadowed names .head :=
  fun q x r ho => h q x r ((Occurs.root.operand he).trans ho)

theorem body (h : c.Unshadowed names p) (he : c.functionBody? = some e) :
    e.Unshadowed names .tail :=
  fun q x r ho => h q x r ((Occurs.root.body he).trans ho)

end Unshadowed

/-- Reads of global values in place of calls of the global function `value`. -/
abbrev Reads : Code → Code → Prop :=
  Inlines (fun _ => True) fun callee _ => callee = .global "value"

/-- Where no local stands in for it, all that is replaced are calls of the global function. -/
theorem Inlines.reads {names : String → Prop} (h : c.Inlines kept (fun _ => names) c')
    (hu : c.Unshadowed names p) : c.Reads c' := by
  induction h generalizing p with
  | const k => exact .const k
  | «local» x => exact .local x
  | all hl _ ih => exact .all hl fun a ha => ih a ha (hu.operand (List.of_mem_zip ha).1)
  | any hl _ ih => exact .any hl fun a ha => ih a ha (hu.operand (List.of_mem_zip ha).1)
  | branch _ _ _ iht ihy ihn =>
    exact .branch (iht (hu.operand (by simp))) (ihy (hu.ending (by simp)))
      (ihn (hu.ending (by simp)))
  | cond hl _ _ iht ihc =>
    refine .cond hl (fun a ha => iht a ha (hu.operand ?_)) fun a ha => ihc a ha (hu.ending ?_)
    · exact List.mem_map_of_mem (List.of_mem_zip ha).1
    · exact List.mem_append_left _ (List.mem_map_of_mem (List.of_mem_zip ha).1)
  | condDefault hl _ _ _ iht ihc ihd =>
    refine .condDefault hl (fun a ha => iht a ha (hu.operand ?_))
      (fun a ha => ihc a ha (hu.ending ?_)) (ihd (hu.ending (by simp)))
    · exact List.mem_map_of_mem (List.of_mem_zip ha).1
    · exact List.mem_append_left _ (List.mem_map_of_mem (List.of_mem_zip ha).1)
  | letIn x _ _ ihv ihb =>
    exact .letIn x (ihv (hu.operand (by simp))) (ihb (hu.ending (by simp)))
  | seq hl _ _ ih ihc =>
    exact .seq hl (fun a ha => ih a ha (hu.operand (List.of_mem_zip ha).1))
      (ihc (hu.ending (by simp)))
  | lambda name param _ ih => exact .lambda name param (ih (hu.body rfl))
  | freeze name _ ih => exact .freeze name (ih (hu.body rfl))
  | trapBind x position _ _ ihb ihi =>
    exact .trapBind x position (ihb (hu.operand (by simp))) (ihi (hu.ending (by simp)))
  | trapApply position _ _ ihb ihf =>
    exact .trapApply position (ihb (hu.operand (by simp))) (ihf (hu.operand (by simp)))
  | defun name params _ ih => exact .defun name params (ih (hu.body rfl))
  | globalValue _ => exact .globalValue trivial
  | setGlobal x _ ih => exact .setGlobal x (ih (hu.operand (by simp)))
  | callLocal x position hl _ ih =>
    exact .callLocal x position hl fun a ha => ih a ha (hu.operand (List.of_mem_zip ha).1)
  | callGlobal x position hl _ ih =>
    exact .callGlobal x position hl fun a ha => ih a ha (hu.operand (List.of_mem_zip ha).1)
  | callComputed position _ hl _ ihc ih =>
    refine .callComputed position (ihc (hu.operand (by simp))) hl fun a ha => ?_
    exact ih a ha (hu.operand (List.mem_cons_of_mem _ (List.of_mem_zip ha).1))
  | interop name hl _ ih =>
    exact .interop name hl fun a ha => ih a ha (hu.operand (List.of_mem_zip ha).1)
  | @lookup callee x position hc hx =>
    cases hc with
    | global => exact .lookup position .global rfl
    | shadowed => exact absurd hx (hu p x position .root)

mutual

theorem Reads.refl : (c : Code) → c.Reads c
  | .const k => .const k
  | .local x => .local x
  | .all cs =>
    have h := pairs_of_forall₂ (Reads.refl_list cs)
    .all h.1 h.2
  | .any cs =>
    have h := pairs_of_forall₂ (Reads.refl_list cs)
    .any h.1 h.2
  | .branch test yes no => .branch (Reads.refl test) (Reads.refl yes) (Reads.refl no)
  | .cond clauses none =>
    have h := pairs_of_forall₂ (Reads.refl_clauses clauses)
    .cond h.1 (fun p hp => (h.2 p hp).1) fun p hp => (h.2 p hp).2
  | .cond clauses (some d) =>
    have h := pairs_of_forall₂ (Reads.refl_clauses clauses)
    .condDefault h.1 (fun p hp => (h.2 p hp).1) (fun p hp => (h.2 p hp).2) (Reads.refl d)
  | .letIn x value body => .letIn x (Reads.refl value) (Reads.refl body)
  | .seq cs c =>
    have h := pairs_of_forall₂ (Reads.refl_list cs)
    .seq h.1 h.2 (Reads.refl c)
  | .lambda name param body => .lambda name param (Reads.refl body)
  | .freeze name body => .freeze name (Reads.refl body)
  | .trap body (.bind x inner) position =>
    .trapBind x position (Reads.refl body) (Reads.refl inner)
  | .trap body (.apply f) position => .trapApply position (Reads.refl body) (Reads.refl f)
  | .defun name params body => .defun name params (Reads.refl body)
  | .globalValue _ => .globalValue trivial
  | .setGlobal x value => .setGlobal x (Reads.refl value)
  | .call (.local x) cs position =>
    have h := pairs_of_forall₂ (Reads.refl_list cs)
    .callLocal x position h.1 h.2
  | .call (.global x) cs position =>
    have h := pairs_of_forall₂ (Reads.refl_list cs)
    .callGlobal x position h.1 h.2
  | .call (.computed c) cs position =>
    have h := pairs_of_forall₂ (Reads.refl_list cs)
    .callComputed position (Reads.refl c) h.1 h.2
  | .interop name cs =>
    have h := pairs_of_forall₂ (Reads.refl_list cs)
    .interop name h.1 h.2

theorem Reads.refl_list : (cs : List Code) → List.Forall₂ Reads cs cs
  | [] => .nil
  | c :: cs => .cons (Reads.refl c) (Reads.refl_list cs)

theorem Reads.refl_clauses :
    (cs : List (Code × Code)) → List.Forall₂ (fun a b => a.1.Reads b.1 ∧ a.2.Reads b.2) cs cs
  | [] => .nil
  | (test, c) :: cs => .cons ⟨Reads.refl test, Reads.refl c⟩ (Reads.refl_clauses cs)

end

end Code

/-- A value that is read by compiled code was defined when it was compiled. -/
theorem defined_of_occurs {defined : String → Bool} {s : Scope} {v : Value} {c : Code}
    (hc : compile defined s v = .ok c) {p q : CallPosition} {x : String}
    (ho : c.Occurs p q (.globalValue x)) : defined x = true := by
  have h : Agree (Code.Later defined defined) (compile defined s v) (compile defined s v) :=
    compile_later (fun _ => id) s v
  rw [hc] at h
  obtain ⟨d', hd⟩ := Code.Inlines.occurs h ho
  cases hd
  assumption

end KLambda
