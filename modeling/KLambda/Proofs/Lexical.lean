import KLambda.Proofs.Mentions
import KLambda.Proofs.Scoped

/-!
Lexical scope. Which forms become which code is stated here with the scope that the text shows: a
binder is in scope in all of its body, also where the compiler leaves it out because nothing refers
to it. A name in scope is a local wherever it is used; constants, global functions and values, and
functions of the host come of names that are not.
-/
namespace KLambda

/-- The construct that a proper list is. -/
def Value.construct? (v : Value) : Option Construct :=
  match v.items? with
  | some (head :: operands) => some (.ofList head operands)
  | _ => none

/-- A list that is a call, unless it is one of a global name that need not be called. -/
def Construct.Applies : Construct → Prop
  | .call | .lookup _ | .assign .. => True
  | _ => False

/-- What the forms of a scope are compiled to. -/
inductive Compiles : Scope → Value → Code → Prop
  | empty (s : Scope) : Compiles s .empty (.const .empty)
  | number (s : Scope) (n : Float) : Compiles s (.number n) (.const (.number n))
  | str (s : Scope) (t : String) : Compiles s (.str t) (.const (.str t))
  | bound {s : Scope} {x : String} (hx : s.isLocal x = true) : Compiles s (.symbol x) (.local x)
  | free {s : Scope} {x : String} (hx : s.isLocal x = false) :
      Compiles s (.symbol x) (.const (.symbol x))
  | unused {s : Scope} {v : Value} {c : Code} (hs : s.statement = true) (hp : c.isPure = true)
      (h : Compiles s v c) : Compiles s v (.const .empty)
  | all {s : Scope} {v : Value} {parts : List Value} {codes : List Code}
      (hv : v.construct? = some (.junction true parts)) (hl : parts.length = codes.length)
      (h : ∀ p ∈ parts.zip codes, Compiles s.inHead p.1 p.2) : Compiles s v (.all codes)
  | any {s : Scope} {v : Value} {parts : List Value} {codes : List Code}
      (hv : v.construct? = some (.junction false parts)) (hl : parts.length = codes.length)
      (h : ∀ p ∈ parts.zip codes, Compiles s.inHead p.1 p.2) : Compiles s v (.any codes)
  | branch {s : Scope} {v test yes no : Value} {t y n : Code}
      (hv : v.construct? = some (.branch test yes no)) (ht : Compiles s.inHead test t)
      (hy : Compiles s yes y) (hn : Compiles s no n) : Compiles s v (.branch t y n)
  | cond {s : Scope} {v : Value} {vs : List Value} {clauses : List (Value × Value)}
      {codes : List (Code × Code)} (hv : v.construct? = some (.cond vs))
      (hc : Clauses s vs clauses none) (hl : clauses.length = codes.length)
      (ht : ∀ p ∈ clauses.zip codes, Compiles s.inHead p.1.1 p.2.1)
      (hb : ∀ p ∈ clauses.zip codes, Compiles s p.1.2 p.2.2) : Compiles s v (.cond codes none)
  | condDefault {s : Scope} {v default : Value} {vs : List Value} {clauses : List (Value × Value)}
      {codes : List (Code × Code)} {d : Code} (hv : v.construct? = some (.cond vs))
      (hc : Clauses s vs clauses (some default)) (hl : clauses.length = codes.length)
      (ht : ∀ p ∈ clauses.zip codes, Compiles s.inHead p.1.1 p.2.1)
      (hb : ∀ p ∈ clauses.zip codes, Compiles s p.1.2 p.2.2) (hd : Compiles s default d) :
      Compiles s v (.cond codes (some d))
  | letIn {s : Scope} {v value body : Value} {x : String} {a b : Code}
      (hv : v.construct? = some (.letIn (.symbol x) value body)) (hx : x ≠ "_")
      (ha : Compiles s.inHead value a) (hb : Compiles (s.withLocal x) body b) :
      Compiles s v (.letIn x a b)
  | letDead {s : Scope} {v value body : Value} {x : String} {a b : Code}
      (hv : v.construct? = some (.letIn (.symbol x) value body)) (hx : x ≠ "_")
      (ha : Compiles s.inHead value a) (hb : Compiles (s.withLocal x) body b) :
      Compiles s v (.sequence [a] b)
  | letDiscard {s : Scope} {v value body : Value} {a b : Code}
      (hv : v.construct? = some (.letIn (.symbol "_") value body))
      (ha : Compiles s.inHead value a) (hb : Compiles s body b) : Compiles s v (.sequence [a] b)
  | sequence {s : Scope} {v last : Value} {init : List Value} {effects : List Code} {c : Code}
      (hv : v.construct? = some (.sequence (init ++ [last]))) (hl : init.length = effects.length)
      (he : ∀ p ∈ init.zip effects, Compiles s.inHead.asStatement p.1 p.2)
      (hc : Compiles s last c) : Compiles s v (.sequence effects c)
  | lambda {s : Scope} {v body : Value} {x : String} {b : Code}
      (hv : v.construct? = some (.lambda (.symbol x) body)) (hb : Compiles (s.lambda x) body b) :
      Compiles s v (.lambda (s.closureName "lambda") x b)
  | freeze {s : Scope} {v body : Value} {b : Code} (hv : v.construct? = some (.freeze body))
      (hb : Compiles s.freeze body b) : Compiles s v (.freeze (s.closureName "freeze") b)
  | trapBind {s : Scope} {v body handler inner : Value} {x : String} {b i : Code}
      (hv : v.construct? = some (.trap body handler)) (hh : handler.handler? = some (x, inner))
      (hb : Compiles s.inHead body b) (hi : Compiles (s.withLocal x) inner i) :
      Compiles s v (.trap b (.bind x i) s.position)
  | trapApply {s : Scope} {v body handler : Value} {b f : Code}
      (hv : v.construct? = some (.trap body handler)) (hh : handler.handler? = none)
      (hb : Compiles s.inHead body b) (hf : Compiles s.inHead handler f) :
      Compiles s v (.trap b (.apply f) s.position)
  | defun {s : Scope} {v params body : Value} {f : String} {xs : List String} {b : Code}
      (hv : v.construct? = some (.defun (.symbol f) params body))
      (hp : params.items? = some (xs.map .symbol)) (hb : Compiles (.defun f xs) body b) :
      Compiles s v (.defun f xs b)
  | lookup {s : Scope} {v : Value} {x : String} (hv : v.construct? = some (.lookup (.symbol x)))
      (hx : s.isLocal x = false) : Compiles s v (.globalValue x)
  | assign {s : Scope} {v value : Value} {x : String} {a : Code}
      (hv : v.construct? = some (.assign (.symbol x) value)) (hx : s.isLocal x = false)
      (ha : Compiles s.inHead value a) : Compiles s v (.setGlobal x a)
  | typed {s : Scope} {v form : Value} {c : Code} (hv : v.construct? = some (.typed form))
      (h : Compiles s form c) : Compiles s v c
  | callLocal {s : Scope} {v : Value} {x : String} {operands : List Value} {args : List Code}
      (hv : v.items? = some (.symbol x :: operands))
      (hc : (Construct.ofList (.symbol x) operands).Applies) (hx : s.isLocal x = true)
      (hl : operands.length = args.length)
      (ha : ∀ p ∈ operands.zip args, Compiles s.inHead p.1 p.2) :
      Compiles s v (.call (.local x) args s.position)
  | callGlobal {s : Scope} {v : Value} {x : String} {operands : List Value} {args : List Code}
      (hv : v.items? = some (.symbol x :: operands))
      (hc : (Construct.ofList (.symbol x) operands).Applies) (hx : s.isLocal x = false)
      (hh : hostName? x = none) (hl : operands.length = args.length)
      (ha : ∀ p ∈ operands.zip args, Compiles s.inHead p.1 p.2) :
      Compiles s v (.call (.global x) args s.position)
  | interop {s : Scope} {v : Value} {x host : String} {operands : List Value} {args : List Code}
      (hv : v.items? = some (.symbol x :: operands))
      (hc : (Construct.ofList (.symbol x) operands).Applies) (hx : s.isLocal x = false)
      (hh : hostName? x = some host) (hl : operands.length = args.length)
      (ha : ∀ p ∈ operands.zip args, Compiles s.inHead p.1 p.2) :
      Compiles s v (.interop host args)
  | callComputed {s : Scope} {v head : Value} {operands : List Value} {c : Code} {args : List Code}
      (hv : v.items? = some (head :: operands)) (hn : head.symbol? = none)
      (hh : Compiles s.inHead head c) (hl : operands.length = args.length)
      (ha : ∀ p ∈ operands.zip args, Compiles s.inHead p.1 p.2) :
      Compiles s v (.call (.computed c) args s.position)

namespace Compiles

variable {s : Scope} {v : Value} {c : Code}

theorem finish (h : Compiles s v c) : Compiles s v (Code.finish s c) := by
  unfold Code.finish
  split
  · rename_i hp
    exact .unused (Bool.and_eq_true_iff.1 hp).1 (Bool.and_eq_true_iff.1 hp).2 h
  · exact h

theorem callOf {x : String} {operands : List Value} {args : List Code}
    (hv : v.items? = some (.symbol x :: operands))
    (hc : (Construct.ofList (.symbol x) operands).Applies)
    (ha : List.Forall₂ (Compiles s.inHead) operands args) :
    Compiles s v (Code.callOf s x args) := by
  obtain ⟨hl, ha⟩ := pairs_of_forall₂ ha
  unfold Code.callOf
  split
  · rename_i hx
    exact .callLocal hv hc hx hl ha
  · rename_i hx
    rw [Bool.not_eq_true] at hx
    split
    · rename_i hh
      exact .interop hv hc hx hh hl ha
    · rename_i hh
      exact .callGlobal hv hc hx hh hl ha

end Compiles

theorem Value.construct?_eq {v head : Value} {operands : List Value} {c : Construct}
    (hv : v.items? = some (head :: operands)) (hc : Construct.ofList head operands = c) :
    v.construct? = some c := by
  simp only [Value.construct?, hv, hc]

theorem Value.binders_eq_ok {keyword : String} {vs : List Value} {xs : List String}
    (h : Value.binders keyword vs = .ok xs) : vs = xs.map .symbol := by
  induction vs generalizing xs with
  | nil =>
    obtain rfl : [] = xs := Except.ok.inj h
    rfl
  | cons v vs ih =>
    cases v with
    | symbol x =>
      cases hb : Value.binders keyword vs with
      | error e =>
        rw [Value.binders, hb] at h
        cases h
      | ok ys =>
        rw [Value.binders, hb] at h
        cases h
        rw [List.map_cons, ih hb]
    | _ => cases h

theorem Value.signature_eq_ok {name params : Value} {p : String × List String}
    (h : name.signature params = .ok p) :
    name = .symbol p.1 ∧ params.items? = some (p.2.map .symbol) := by
  cases name with
  | symbol f =>
    cases hp : params.items? with
    | none => simp [Value.signature, hp, Value.binder, bind, Except.bind] at h
    | some vs =>
      cases hb : Value.binders "defun" vs with
      | error e => simp [Value.signature, hp, hb, Value.binder, bind, Except.bind] at h
      | ok xs =>
        obtain rfl : (f, xs) = p := by
          simpa [Value.signature, hp, hb, Value.binder, bind, Except.bind, pure, Except.pure]
            using h
        rw [Value.binders_eq_ok hb]
        exact ⟨rfl, rfl⟩
  | _ => cases h

variable {defined : String → Bool}

/-- Compilation follows the text: in the body of a binder that is left out, too, the name of the
binder would have been a local if it had been used. -/
theorem compile_compiles (s : Scope) (v : Value) :
    Yields (Compiles s v) (fun _ => True) (compile defined s v) := by
  induction v using Value.parts_induction generalizing s with
  | constant v l h =>
    rw [compile_constant h]
    apply Compiles.finish
    cases v <;> simp [Value.constant?] at h <;> subst h <;> constructor
  | symbol x =>
    rw [compile]
    apply Compiles.finish
    split
    · exact .bound ‹_›
    · exact .free (Bool.not_eq_true _ ▸ ‹_›)
  | invalid v h =>
    obtain ⟨t, ht⟩ := h.exists_compile
    rw [ht]
    trivial
  | list v head operands hi ih =>
    have call (hk : (Construct.ofList head operands).Applies)
        (hh : ∀ s, Yields (Compiles s head) (fun _ => True) (compile defined s head))
        (ho : ∀ v ∈ operands, ∀ s, Yields (Compiles s v) (fun _ => True) (compile defined s v)) :
        Yields (Compiles s v) (fun _ => True) (compileCall defined s head operands) := by
      refine compileCall_yields (hh _) (fun v hv => ho v hv _) (fun x args hx ha => ?_)
        fun c args hx hc ha => ?_
      · subst hx
        exact .callOf hi hk ha
      · obtain ⟨hl, ha⟩ := pairs_of_forall₂ ha
        exact .callComputed hi hx hc hl ha
    rw [compile_of_items? hi]
    refine Yields.map ?_ fun c hc => Compiles.finish hc
    cases hc : Construct.ofList head operands <;> rw [hc] at ih call <;>
      have hv := Value.construct?_eq hi hc
    case malformed e => trivial
    case junction all forms =>
      refine (compileAll_yields fun v hv => ih v hv _).bind fun codes h => ?_
      obtain ⟨hl, h⟩ := pairs_of_forall₂ h
      cases all with
      | true => exact .all hv hl h
      | false => exact .any hv hl h
    case branch test yes no =>
      obtain ⟨iht, ihy, ihn⟩ := ih
      exact (iht _).bind fun t ht => (ihy s).bind fun y hy => (ihn s).bind fun n hn =>
        .branch hv ht hy hn
    case cond clauses =>
      refine (compileClauses_yields trivial fun v hv p hp =>
        ⟨(ih v hv p hp).1 _, (ih v hv p hp).2 s⟩).bind ?_
      rintro ⟨codes, d⟩ ⟨clauses, default, h, hp, hd⟩
      obtain ⟨hl, hp⟩ := pairs_of_forall₂ hp
      cases hd with
      | none => exact .cond hv h hl (fun q hq => (hp q hq).1) fun q hq => (hp q hq).2
      | some hd =>
        exact .condDefault hv h hl (fun q hq => (hp q hq).1) (fun q hq => (hp q hq).2) hd
    case letIn binder value body =>
      obtain ⟨ihv, ihb⟩ := ih
      cases binder with
      | symbol x =>
        refine (ihv _).bind fun a ha => ?_
        split
        · rename_i hd
          by_cases hx : x = "_"
          · subst hx
            exact (ihb s).bind fun b hb => .letDiscard hv ha hb
          · have hm : body.mentions x = false := by simpa [hx] using hd
            have hb := ihb (s.withLocal x)
            rw [compile_withLocal hx hm] at hb
            exact hb.bind fun b hb => .letDead hv hx ha hb
        · rename_i hd
          have hx : x ≠ "_" := by
            rintro rfl
            simp at hd
          exact (ihb (s.withLocal x)).bind fun b hb => .letIn hv hx ha hb
      | _ => trivial
    case sequence forms =>
      refine (compileSequence_yields trivial (fun v hv => ih v hv _) fun v hv => ih v hv s).bind ?_
      rintro p ⟨init, last, rfl, he, hl⟩
      obtain ⟨hn, he⟩ := pairs_of_forall₂ he
      exact .sequence hv hn he hl
    case lambda binder body =>
      cases binder with
      | symbol x => exact (ih (s.lambda x)).bind fun b hb => .lambda hv hb
      | _ => trivial
    case freeze body => exact (ih s.freeze).bind fun b hb => .freeze hv hb
    case trap body handler =>
      obtain ⟨ihb, iha, ihh⟩ := ih
      refine (ihb _).bind fun b hb => (compileHandler_yields
        (H := fun h => Compiles s v (.trap b h s.position)) (fun p hp => ?_) fun hn => ?_).bind
        fun h hh => hh
      · exact (ihh p hp (s.withLocal p.1)).imp fun i hi => .trapBind hv hp hb hi
      · exact (iha _).imp fun f hf => .trapApply hv hn hb hf
    case defun name params body =>
      rw [Construct.compiled_defun]
      cases hs : name.signature params with
      | error e => trivial
      | ok p =>
        obtain ⟨rfl, hp⟩ := Value.signature_eq_ok hs
        exact (ih (.defun p.1 p.2)).bind fun b hb => .defun hv hp hb
    case lookup name =>
      rcases Construct.compiled_lookup name head operands with h | ⟨x, rfl, hx, -, h⟩ <;> rw [h]
      · exact call trivial ih.1 ih.2
      · exact .lookup hv hx
    case assign name value =>
      rcases Construct.compiled_assign name value head operands with h | ⟨x, rfl, hx, h⟩ <;> rw [h]
      · exact call trivial ih.2.1 ih.2.2
      · exact (ih.1 _).map fun a ha => .assign hv hx ha
    case typed form => exact (ih s).imp fun c h => .typed hv h
    case call => exact call trivial ih.1 ih.2

/-- A use of a name, as an operand or as the head of a call, that does not look it up as a local. -/
def TakesFree (x : String) (v : Value) (c : Code) : Prop :=
  (v = .symbol x ∧ c = .const (.symbol x)) ∨
  (∃ operands, v.items? = some (.symbol x :: operands) ∧
    Construct.ofList (.symbol x) operands = .call ∧
    ((∃ args position, c = .call (.global x) args position) ∨
      ∃ host args, c = .interop host args)) ∨
  (v.construct? = some (.lookup (.symbol x)) ∧ c = .globalValue x) ∨
  ∃ value a, v.construct? = some (.assign (.symbol x) value) ∧ c = .setGlobal x a

theorem Compiles.not_takesFree {s : Scope} {v : Value} {c : Code} {x : String}
    (h : Compiles s v c) (hx : s.isLocal x = true) : ¬ TakesFree x v c := by
  rintro (⟨rfl, hc⟩ | ⟨operands, hv, hn, hc⟩ | ⟨hv, hc⟩ | ⟨value, a, hv, hc⟩)
  · have hn : (Value.symbol x).construct? = none := rfl
    cases h <;> simp_all [Value.items?, Value.ending]
  · have hn := Value.construct?_eq hv hn
    cases h <;> simp_all
  · cases h <;> simp_all
  · cases h <;> simp_all

/-- Every local that compiled code looks up is a local of its scope or bound around it within the
code, and a definition sees its own parameters only. Conversely the code is what the text makes of
the form, where a binder is in scope in all of its body, and no use of a name in scope is taken for
a constant, a global name or a function of the host. -/
theorem compile_lexically_scoped {defined : String → Bool} {s : Scope} {v : Value} {c : Code}
    (h : compile defined s v = .ok c) :
    c.Scoped s.locals ∧ Compiles s v c ∧
      ∀ {s' : Scope} {v' : Value} {c' : Code}, Compiles s' v' c' →
        ∀ x, s'.isLocal x = true → ¬ TakesFree x v' c' := by
  have hs : Yields (Code.Scoped s.locals) Error.Syntactic (compile defined s v) :=
    compile_yields s v
  have hc : Yields (Compiles s v) (fun _ => True) (compile defined s v) := compile_compiles s v
  rw [h] at hs hc
  exact ⟨hs, hc, fun h x hx => h.not_takesFree hx⟩

/-- In `(lambda X (X b))` the head of the call is a local, and `b` stands for itself. -/
theorem compile_lexically_scoped_call :
    compile (fun _ => false) .toplevel
      (.cons 0 (.symbol "lambda") (.cons 1 (.symbol "X") (.cons 2
        (.cons 3 (.symbol "X") (.cons 4 (.symbol "b") .empty)) .empty))) =
      .ok (.lambda "lambda" "X" (.call (.local "X") [.const (.symbol "b")] .tail)) ∧
    (Code.lambda "lambda" "X" (.call (.local "X") [.const (.symbol "b")] .tail)).Scoped [] := by
  have h : compile (fun _ => false) .toplevel
      (.cons 0 (.symbol "lambda") (.cons 1 (.symbol "X") (.cons 2
        (.cons 3 (.symbol "X") (.cons 4 (.symbol "b") .empty)) .empty))) =
      .ok (.lambda "lambda" "X" (.call (.local "X") [.const (.symbol "b")] .tail)) := by cbv
  exact ⟨h, (compile_lexically_scoped h).1⟩

end KLambda
