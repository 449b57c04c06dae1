import KLambda.Console
import KLambda.Proofs.Evolution
import KLambda.Proofs.Faultless
import KLambda.Proofs.Flattening
import KLambda.Proofs.Frames
import KLambda.Proofs.Kin
import KLambda.Proofs.Unbuffered

/-!
Locals that are not referred to. What code does depends on the values of its free locals only. A
closure captures every name that it can see, so closures made in different locals differ in what
they capture, but only under names that their code never looks up.
-/
namespace KLambda

open Machine

/-- A local that the code may look up and that is not bound on the way. A definition has none, as it
sees its parameters only. -/
inductive Code.Free (x : String) : Code → Prop
  | local : Free x (.local x)
  | all {c : Code} {cs : List Code} (hc : c ∈ cs) (h : Free x c) : Free x (.all cs)
  | any {c : Code} {cs : List Code} (hc : c ∈ cs) (h : Free x c) : Free x (.any cs)
  | test {test yes no : Code} (h : Free x test) : Free x (.branch test yes no)
  | yes {test yes no : Code} (h : Free x yes) : Free x (.branch test yes no)
  | no {test yes no : Code} (h : Free x no) : Free x (.branch test yes no)
  | clauseTest {p : Code × Code} {clauses : List (Code × Code)} {d : Option Code}
      (hp : p ∈ clauses) (h : Free x p.1) : Free x (.cond clauses d)
  | clause {p : Code × Code} {clauses : List (Code × Code)} {d : Option Code}
      (hp : p ∈ clauses) (h : Free x p.2) : Free x (.cond clauses d)
  | default {clauses : List (Code × Code)} {c : Code} (h : Free x c) :
      Free x (.cond clauses (some c))
  | letValue {name : String} {value body : Code} (h : Free x value) :
      Free x (.letIn name value body)
  | letBody {name : String} {value body : Code} (hx : x ≠ name) (h : Free x body) :
      Free x (.letIn name value body)
  | effect {c last : Code} {cs : List Code} (hc : c ∈ cs) (h : Free x c) : Free x (.seq cs last)
  | last {cs : List Code} {last : Code} (h : Free x last) : Free x (.seq cs last)
  | lambda {name param : String} {body : Code} (hx : x ≠ param) (h : Free x body) :
      Free x (.lambda name param body)
  | freeze {name : String} {body : Code} (h : Free x body) : Free x (.freeze name body)
  | trapped {body : Code} {handler : Handler} {position : CallPosition} (h : Free x body) :
      Free x (.trap body handler position)
  | handlerBody {body inner : Code} {param : String} {position : CallPosition} (hx : x ≠ param)
      (h : Free x inner) : Free x (.trap body (.bind param inner) position)
  | handler {body function : Code} {position : CallPosition} (h : Free x function) :
      Free x (.trap body (.apply function) position)
  | setGlobal {name : String} {value : Code} (h : Free x value) : Free x (.setGlobal name value)
  | callee {args : List Code} {position : CallPosition} : Free x (.call (.local x) args position)
  | head {head : Code} {args : List Code} {position : CallPosition} (h : Free x head) :
      Free x (.call (.computed head) args position)
  | argument {callee : Callee} {c : Code} {args : List Code} {position : CallPosition}
      (hc : c ∈ args) (h : Free x c) : Free x (.call callee args position)
  | interop {name : String} {c : Code} {args : List Code} (hc : c ∈ args) (h : Free x c) :
      Free x (.interop name args)

namespace Code.Scoped

variable {names more : List String} {c : Code} {x : String}

/-- The free locals of scoped code are names of its scope. -/
theorem mem_of_free (hs : c.Scoped names) (hx : c.Free x) : x ∈ names := by
  induction hx generalizing names with
  | «local» => cases hs; assumption
  | all hc _ ih => cases hs with | all h => exact ih (h _ hc)
  | any hc _ ih => cases hs with | any h => exact ih (h _ hc)
  | test _ ih => cases hs with | branch h _ _ => exact ih h
  | yes _ ih => cases hs with | branch _ h _ => exact ih h
  | no _ ih => cases hs with | branch _ _ h => exact ih h
  | clauseTest hp _ ih => cases hs with | cond h _ _ => exact ih (h _ hp)
  | clause hp _ ih => cases hs with | cond _ h _ => exact ih (h _ hp)
  | default _ ih => cases hs with | cond _ _ h => exact ih (h _ rfl)
  | letValue _ ih => cases hs with | letIn h _ => exact ih h
  | letBody hx _ ih => cases hs with | letIn _ h => exact List.mem_of_ne_of_mem hx (ih h)
  | effect hc _ ih => cases hs with | seq h _ => exact ih (h _ hc)
  | last _ ih => cases hs with | seq _ h => exact ih h
  | lambda hx _ ih => cases hs with | lambda _ h => exact List.mem_of_ne_of_mem hx (ih h)
  | freeze _ ih => cases hs with | freeze _ h => exact ih h
  | trapped _ ih =>
    cases hs with
    | trapBind _ h _ | trapApply _ h _ => exact ih h
  | handlerBody hx _ ih => cases hs with | trapBind _ _ h => exact List.mem_of_ne_of_mem hx (ih h)
  | handler _ ih => cases hs with | trapApply _ _ h => exact ih h
  | setGlobal _ ih => cases hs with | setGlobal _ h => exact ih h
  | callee => cases hs; assumption
  | head _ ih => cases hs with | callComputed _ h _ => exact ih h
  | argument hc _ ih =>
    cases hs with
    | callLocal _ _ h | callGlobal _ _ h | callComputed _ _ h => exact ih (h _ hc)
  | interop hc _ ih => cases hs with | interop _ h => exact ih (h _ hc)

/-- Only the free locals have to be bound. -/
theorem of_free (hs : c.Scoped names) (h : ∀ x, c.Free x → x ∈ more) : c.Scoped more := by
  have under : ∀ {body : Code} {name : String} {more : List String},
      (∀ x, x ≠ name → body.Free x → x ∈ more) → ∀ x, body.Free x → x ∈ name :: more := by
    intro body name more hb x hx
    by_cases he : x = name
    · exact List.mem_cons.2 (Or.inl he)
    · exact List.mem_cons_of_mem name (hb x he hx)
  induction hs generalizing more with
  | const l => exact .const l
  | «local» _ => exact .local (h _ .local)
  | all _ ih => exact .all fun c hc => ih c hc fun x hx => h x (.all hc hx)
  | any _ ih => exact .any fun c hc => ih c hc fun x hx => h x (.any hc hx)
  | branch _ _ _ iht ihy ihn =>
    exact .branch (iht fun x hx => h x (.test hx)) (ihy fun x hx => h x (.yes hx))
      (ihn fun x hx => h x (.no hx))
  | cond _ _ _ iht ihc ihd =>
    refine .cond (fun p hp => iht p hp fun x hx => h x (.clauseTest hp hx))
      (fun p hp => ihc p hp fun x hx => h x (.clause hp hx)) fun c hc => ihd c hc fun x hx => ?_
    obtain rfl := Option.mem_def.1 hc
    exact h x (.default hx)
  | letIn _ _ ihv ihb =>
    exact .letIn (ihv fun x hx => h x (.letValue hx))
      (ihb (under fun x hne hx => h x (.letBody hne hx)))
  | seq _ _ ihe ihl =>
    exact .seq (fun c hc => ihe c hc fun x hx => h x (.effect hc hx))
      (ihl fun x hx => h x (.last hx))
  | lambda name _ ih => exact .lambda name (ih (under fun x hne hx => h x (.lambda hne hx)))
  | freeze name _ ih => exact .freeze name (ih fun x hx => h x (.freeze hx))
  | trapBind position _ _ ihb ihi =>
    exact .trapBind position (ihb fun x hx => h x (.trapped hx))
      (ihi (under fun x hne hx => h x (.handlerBody hne hx)))
  | trapApply position _ _ ihb ihf =>
    exact .trapApply position (ihb fun x hx => h x (.trapped hx))
      (ihf fun x hx => h x (.handler hx))
  | defun name hb _ => exact .defun name hb
  | globalValue name => exact .globalValue name
  | setGlobal name _ ih => exact .setGlobal name (ih fun x hx => h x (.setGlobal hx))
  | callLocal position _ _ ih =>
    exact .callLocal position (h _ .callee) fun c hc => ih c hc fun x hx => h x (.argument hc hx)
  | callGlobal name position _ ih =>
    exact .callGlobal name position fun c hc => ih c hc fun x hx => h x (.argument hc hx)
  | callComputed position _ _ ihh iha =>
    exact .callComputed position (ihh fun x hx => h x (.head hx))
      fun c hc => iha c hc fun x hx => h x (.argument hc hx)
  | interop name _ ih => exact .interop name fun c hc => ih c hc fun x hx => h x (.interop hc hx)

end Code.Scoped

/-- Locals that give the same values to these names. -/
def Locals.AgreeOn (P : String → Prop) (l l' : Locals) : Prop :=
  ∀ x, P x → Table.find x l = Table.find x l'

namespace Locals.AgreeOn

variable {P Q : String → Prop} {l l' : Locals}

theorem mono (h : AgreeOn P l l') (hq : ∀ x, Q x → P x) : AgreeOn Q l l' :=
  fun x hx => h x (hq x hx)

/-- One more name is bound on both sides. -/
theorem cons {name : String} (h : AgreeOn P l l') (hq : ∀ x, x ≠ name → Q x → P x) (v : Value) :
    AgreeOn Q ((name, v) :: l) ((name, v) :: l') := by
  intro x hx
  by_cases he : name = x
  · simp [Table.find, he]
  · simp only [Table.find, he, if_false]
    exact h x (hq x (Ne.symm he) hx)

theorem visible (h : AgreeOn P l l') : AgreeOn P l.visible l'.visible := by
  intro x hx
  rw [Locals.find_visible, Locals.find_visible]
  exact h x hx

end Locals.AgreeOn

theorem Locals.mem_names_of_find {x : String} {v : Value} {l : Locals}
    (h : Table.find x l = some v) : x ∈ l.names := by
  induction l with
  | nil => cases h
  | cons e l ih =>
    by_cases he : e.1 = x
    · simp [names, he]
    · simp only [Table.find, he, if_false] at h
      exact List.mem_cons_of_mem _ (ih h)

theorem Table.find_append {α : Type} (name : String) (as bs : List (String × α)) :
    Table.find name (as ++ bs) = (Table.find name as).or (Table.find name bs) := by
  induction as with
  | nil => simp [Table.find]
  | cons e as ih =>
    by_cases he : e.1 = name
    · simp [Table.find, he]
    · simp [Table.find, he, ih]

/-- Parameters that are given as many arguments are bound, whatever is captured. -/
theorem Machine.find_bindParams_of_mem {params : List String} {args : List Value} {x : String}
    (hn : args.length = params.length) (hx : x ∈ params) (cap cap' : Locals) :
    Table.find x (bindParams params args cap) = Table.find x (bindParams params args cap') := by
  have hm : x ∈ (bindParams params args []).names := names_bindParams hn (by simp [hx])
  obtain ⟨v, -, hv⟩ := Locals.exists_find_of_mem hm
  simp only [bindParams, List.append_nil] at hv
  simp [bindParams, Table.find_append, hv]

/-- Codes are related if they are the same and their locals agree on the free ones; closures are
related if what they capture agrees on those that are no parameters. -/
def Kinship.free : Kinship where
  code c l c' l' := c' = c ∧ Locals.AgreeOn c.Free l l'
  closure params c l c' l' := c' = c ∧ Locals.AgreeOn (fun x => c.Free x ∧ x ∉ params) l l'
  code_refl _ _ := ⟨rfl, fun _ _ => rfl⟩
  closure_refl _ _ _ := ⟨rfl, fun _ _ => rfl⟩

namespace Kinship

variable {c c' : Code} {l l' : Locals}

theorem free_code {P : String → Prop} (h : Locals.AgreeOn P l l') (hp : ∀ x, c.Free x → P x) :
    free.code c l c l' := ⟨rfl, h.mono hp⟩

theorem free_under {P : String → Prop} {name : String} (h : Locals.AgreeOn P l l')
    (hp : ∀ x, x ≠ name → c.Free x → P x) (v : Value) :
    free.code c ((name, v) :: l) c ((name, v) :: l') := ⟨rfl, h.cons hp v⟩

theorem free_list {P : String → Prop} {cs : List Code} (h : Locals.AgreeOn P l l')
    (hp : ∀ c ∈ cs, ∀ x, c.Free x → P x) :
    List.Forall₂ (fun c c' => free.code c l c' l') cs cs :=
  List.forall₂_same.2 fun c hc => free_code h (hp c hc)

/-- The parts of code look up nothing that the code does not. -/
theorem free_parts (h : free.code c l c' l') : free.Parts c l c' l' := by
  obtain ⟨rfl, h⟩ := h
  cases c' with
  | const k => exact .const k l l'
  | «local» name => exact .local (h name .local)
  | all cs =>
    cases cs with
    | nil => exact .allNil l l'
    | cons c cs =>
      refine .allCons (free_code h fun x hx => .all (by simp) hx) (free_code h fun x hx => ?_)
      cases hx with
      | all hc hx => exact .all (List.mem_cons_of_mem c hc) hx
  | any cs =>
    cases cs with
    | nil => exact .anyNil l l'
    | cons c cs =>
      refine .anyCons (free_code h fun x hx => .any (by simp) hx) (free_code h fun x hx => ?_)
      cases hx with
      | any hc hx => exact .any (List.mem_cons_of_mem c hc) hx
  | branch test yes no =>
    exact .branch (free_code h fun x hx => .test hx) (free_code h fun x hx => .yes hx)
      (free_code h fun x hx => .no hx)
  | cond clauses default =>
    rcases clauses with _ | ⟨⟨test, c⟩, rest⟩
    · cases default with
      | none => exact .condNone l l'
      | some c => exact .condSome (free_code h fun x hx => .default hx)
    · refine .condCons (free_code h fun x hx => .clauseTest (List.mem_cons_self ..) hx)
        (free_code h fun x hx => .clause (List.mem_cons_self ..) hx) (free_code h fun x hx => ?_)
      cases hx with
      | clauseTest hp hx => exact .clauseTest (List.mem_cons_of_mem _ hp) hx
      | clause hp hx => exact .clause (List.mem_cons_of_mem _ hp) hx
      | default hx => exact .default hx
  | letIn name value body =>
    exact .letIn name (free_code h fun x hx => .letValue hx)
      (free_under h fun x hne hx => .letBody hne hx)
  | seq cs last =>
    cases cs with
    | nil => exact .seqNil (free_code h fun x hx => .last hx)
    | cons c cs =>
      refine .seqCons (free_code h fun x hx => .effect (by simp) hx) (free_code h fun x hx => ?_)
      cases hx with
      | effect hc hx => exact .effect (List.mem_cons_of_mem c hc) hx
      | last hx => exact .last hx
  | lambda name param body =>
    refine .lambda name param ⟨rfl, h.visible.mono ?_⟩
    rintro x ⟨hx, hp⟩
    exact .lambda (by simpa using hp) hx
  | freeze name body => exact .freeze name ⟨rfl, h.visible.mono fun x hx => .freeze hx.1⟩
  | trap body handler position =>
    cases handler with
    | bind param inner =>
      exact .trapBind param position (free_code h fun x hx => .trapped hx)
        (free_under h fun x hne hx => .handlerBody hne hx)
    | apply function =>
      exact .trapApply position (free_code h fun x hx => .trapped hx)
        (free_code h fun x hx => .handler hx)
  | defun name params body => exact .defun name params (free.closure_refl params body [])
  | globalValue name => exact .globalValue name l l'
  | setGlobal name value => exact .setGlobal name (free_code h fun x hx => .setGlobal hx)
  | call callee args position =>
    have ha := free_list h fun c hc x hx => Code.Free.argument hc hx
    cases callee with
    | «local» name => exact .callLocal position (h name .callee) ha
    | global name => exact .callGlobal name position ha
    | computed head => exact .callComputed position (free_code h fun x hx => .head hx) ha
  | interop name args => exact .interop name (free_list h fun c hc x hx => .interop hc hx)

/-- A closure looks up its parameters, which are bound, and what it captures. -/
theorem free_enter {params : List String} {args : List Value} (hn : args.length = params.length)
    (h : free.closure params c l c' l') :
    free.code c (bindParams params args l) c' (bindParams params args l') := by
  obtain ⟨rfl, h⟩ := h
  refine ⟨rfl, fun x hx => ?_⟩
  by_cases hp : x ∈ params
  · exact find_bindParams_of_mem hn hp l l'
  · simp only [bindParams, Table.find_append, h x ⟨hx, hp⟩]

/-- In a sound state closures are entered with as many arguments as they take. -/
theorem free_apt {runtime : Nat} {s s' : State} (hs : s.Sound runtime) (h : free.States s s') :
    free.Apt s s' where
  eval hc hc' := by
    have hk := h.control
    rw [hc, hc'] at hk
    exact free_parts hk
  enter hc hb h := free_enter (hs.orderly.closure _ _ _ _ _ _ hc hb) h

end Kinship

/-- A suspended call is the same on both sides. -/
theorem Kinship.States.wait {K : Kinship} {s s' : State} (h : K.States s s') {op : String}
    {held args : List Value} (hs : s.control = .wait op held args) :
    s'.control = .wait op held args := by
  have hc := h.control
  rw [hs] at hc
  exact hc.symm

theorem valueOf_fst {r r' : Outcome Step × World} (h : r'.1 = r.1) :
    (valueOf r').1 = (valueOf r).1 := by
  obtain ⟨o, w⟩ := r
  obtain ⟨o', w'⟩ := r'
  obtain rfl : o' = o := h
  rcases o' with step | e | _
  · cases step <;> rfl
  · rfl
  · rfl

/-- Compiled code with free locals that two environments give the same values to, and whatever else
they bind. Unless bytes are lost that a stream holds back, it comes in both to the same value, error
or suspension with the same effects, in worlds that differ only in what closures capture under names
that their code does not look up. The free locals are among those of the scope, and so code that was
compiled at top level has none; a definition has none either, and leads to the very same state
whatever the locals are. The evaluator is given a form alone, and evaluates it without locals above
everything that is left to do. -/
theorem unreferenced_locals_irrelevant {runtime : Nat} {host : Host} {w : World}
    (hh : host.Sound runtime) (ho : host.Opaque) (hw : w.Live host runtime)
    {defined : String → Bool} {scope : Scope} {form : Value} {code : Code}
    (hc : compile defined scope form = .ok code) :
    (∀ (l l' : Locals), (∀ v ∈ l.values, v.Sound runtime w.heap) →
      (∀ x, code.Free x → ∃ v, Table.find x l = some v ∧ Table.find x l' = some v) →
      ∀ mode, Lossless host mode ⟨.eval code l, [.settle []], w⟩ →
        Lossless host mode ⟨.eval code l', [.settle []], w⟩ →
        (∀ fuel, (settle (shed host mode) mode fuel (.eval code l') w).1 =
            (settle (shed host mode) mode fuel (.eval code l) w).1 ∧
          Kinship.free.Worlds (settle (shed host mode) mode fuel (.eval code l) w).2
            (settle (shed host mode) mode fuel (.eval code l') w).2) ∧
        (∀ n es t, Runs (shed host mode) mode n ⟨.eval code l, [.settle []], w⟩ es t →
          ∃ t', Runs (shed host mode) mode n ⟨.eval code l', [.settle []], w⟩ es t' ∧
            Kinship.free.States t t' ∧
            ∀ op held args, t.control = .wait op held args → t'.control = .wait op held args) ∧
        ∀ n es t', Runs (shed host mode) mode n ⟨.eval code l', [.settle []], w⟩ es t' →
          ∃ t, Runs (shed host mode) mode n ⟨.eval code l, [.settle []], w⟩ es t ∧
            Kinship.free.States t t') ∧
    (∀ x, code.Free x → x ∈ scope.locals) ∧
    (∀ name params body, (∀ x, ¬ (Code.defun name params body).Free x) ∧
      ∀ (l l' : Locals) (S : List Frame) (u : World) mode,
        (move host ⟨.eval (.defun name params body) l, S, u⟩).Quiet mode →
        shed host mode ⟨.eval (.defun name params body) l, S, u⟩ =
          shed host mode ⟨.eval (.defun name params body) l', S, u⟩) ∧
    ∀ (f : Function) (form : Value) (S : List Frame) (u : World) mode,
      u.heap.body f = .evaluator u.runtime →
      (move host ⟨.enter f [form], S, u⟩).Quiet mode →
      shed host mode ⟨.enter f [form], S, u⟩ =
        (evalForm [] u form).onto (.settle [] :: .keep [form] :: S) := by
  have hscoped : code.Scoped scope.locals := by
    have hy : Yields (Code.Scoped scope.locals) Error.Syntactic (compile defined scope form) :=
      compile_yields scope form
    rwa [hc] at hy
  refine ⟨fun l l' hl hagree mode hlossless hlossless' => ?_, fun x => hscoped.mem_of_free, ?_, ?_⟩
  · let s : State := ⟨.eval code l, [.settle []], w⟩
    let s' : State := ⟨.eval code l', [.settle []], w⟩
    have hbound : code.Scoped l.names := by
      refine hscoped.of_free fun x hx => ?_
      obtain ⟨v, hv, -⟩ := hagree x hx
      exact Locals.mem_names_of_find hv
    have hs : s.Sound runtime := by
      refine ⟨hw.sound hh, hbound, hl, ?_⟩
      exact List.forall_mem_singleton.2 ⟨trivial, by simp [Frame.roots, Locals.values]⟩
    have hk : Kinship.free.States s s' := by
      refine ⟨⟨rfl, fun x hx => ?_⟩, .cons (.settle [] []) .nil, .refl _ w⟩
      obtain ⟨v, hv, hv'⟩ := hagree x hx
      rw [hv, hv']
    have ha : ∀ n es t t', Runs host mode n s es t → Kinship.free.States t t' →
        Kinship.free.Apt t t' :=
      fun n es t t' hr => Kinship.free_apt (hr.sound hh hs)
    refine ⟨fun fuel => ?_, fun n es t hr => ?_, fun n es t' hr => ?_⟩
    · obtain ⟨hr, hworld⟩ := hk.drive ho ha fuel
      simp only [settle, hlossless.drive_eq, hlossless'.drive_eq, valueOf_snd]
      exact ⟨valueOf_fst hr, hworld⟩
    · obtain ⟨t', ht', hst⟩ := hk.runs ho ha (hlossless.runs_iff.1 hr)
      exact ⟨t', hlossless'.runs_iff.2 ht', hst, fun op held args => hst.wait⟩
    · obtain ⟨t, ht, hst⟩ := hk.runs_inv ho ha (hlossless'.runs_iff.1 hr)
      exact ⟨t, hlossless.runs_iff.2 ht, hst⟩
  · intro name params body
    refine ⟨fun x hx => ?_, fun l l' S u mode hq => ?_⟩
    · cases hx
    · have hm : move host ⟨.eval (.defun name params body) l, S, u⟩ =
          move host ⟨.eval (.defun name params body) l', S, u⟩ := rfl
      rw [shed_eq_move hq, hm, shed_eq_move (hm ▸ hq)]
  · intro f form S u mode hb hq
    have he : move host ⟨.enter f [form], S, u⟩ =
        evalForm (.settle [] :: .keep [form] :: S) u form := by
      simp [move, step, enterFunction, hb]
    rw [shed_eq_move hq, he]
    exact evalForm_onto [] _ u form

/-- `(lambda Y X)` where `X` is bound, and where another name is bound too, which the closure then
captures. -/
theorem unreferenced_locals_irrelevant_captured :
    ∃ (w : World) (code : Code), Host.Sound 0 .echo ∧ Host.Opaque .echo ∧ w.Live .echo 0 ∧
      w.Unbuffered ∧ code = .lambda "lambda" "Y" (.local "X") ∧ code.Free "X" ∧ ∀ fuel,
        (settle (shed .echo .sync) .sync fuel
            (.eval code [("Z", .empty), ("X", .symbol "a")]) w).1 =
          (settle (shed .echo .sync) .sync fuel (.eval code [("X", .symbol "a")]) w).1 ∧
        Kinship.free.Worlds
          (settle (shed .echo .sync) .sync fuel (.eval code [("X", .symbol "a")]) w).2
          (settle (shed .echo .sync) .sync fuel
            (.eval code [("Z", .empty), ("X", .symbol "a")]) w).2 := by
  let form := Value.list [.symbol "lambda", .symbol "Y", .symbol "X"]
  have hc : compile (fun _ => false) ⟨["X", "Z"], .tail, false, none⟩ form =
      .ok (.lambda "lambda" "Y" (.local "X")) := by
    cbv
  have hw : World.Live .echo 0 (World.create .empty {} 0 0) := .create .empty {} 0
  have hu : (World.create .empty {} 0 0).Unbuffered := .create_empty 0 0
  have lossless : ∀ c l, Lossless .echo .sync ⟨.eval c l, [.settle []], .create .empty {} 0 0⟩ :=
    fun c l => lossless_of_unbuffered Host.unbuffered_echo hu .sync
  have hagree : ∀ x, (Code.lambda "lambda" "Y" (.local "X")).Free x →
      ∃ v, Table.find x [("X", Value.symbol "a")] = some v ∧
        Table.find x [("Z", Value.empty), ("X", .symbol "a")] = some v := by
    intro x hx
    cases hx with
    | lambda _ hx => cases hx; exact ⟨.symbol "a", rfl, rfl⟩
  have h := unreferenced_locals_irrelevant (Host.sound_echo 0) Host.opaque_echo hw hc
  refine ⟨_, _, Host.sound_echo 0, Host.opaque_echo, hw, hu, rfl, .lambda (by decide) .local, ?_⟩
  exact (h.1 _ _ (by simp [Locals.values, Value.sound_symbol]) hagree .sync (lossless _ _)
    (lossless _ _)).1

/-- A local that nothing refers to keeps the stream that is its value open. -/
theorem not_unreferenced_locals_irrelevant :
    ¬ ∀ (defined : String → Bool) (scope : Scope) (form : Value) (code : Code) (w : World)
      (l l' : Locals) (fuel : Nat), compile defined scope form = .ok code →
      (∀ x, code.Free x → ∃ v, Table.find x l = some v ∧ Table.find x l' = some v) →
      (settle (Console.next .sync) .sync fuel (.eval code l') w).1 =
        (settle (Console.next .sync) .sync fuel (.eval code l) w).1 := by
  intro h
  let form := Value.list [.symbol "do", .list [.symbol "set", .symbol "s", .symbol "y"],
    .list [.symbol "read-byte", .list [.symbol "value", .symbol "r"]]]
  let code : Code := .seq [.setGlobal "s" (.const (.symbol "y"))]
    (.call (.global "read-byte") [.globalValue "r"] .head)
  let w := World.withheld [("s", .writer), ("r", .reader)]
  have hc : compile (fun _ => true) Scope.toplevel.inHead form = .ok code := by cbv
  have hscoped : code.Scoped [] := by
    have hy : Yields (Code.Scoped []) Error.Syntactic
        (compile (fun _ => true) Scope.toplevel.inHead form) := compile_yields _ form
    rwa [hc] at hy
  have held : (settle (Console.next .sync) .sync 40
      (.eval code [("X", .writer)]) w).1.atEnd? = some true := by
    decide +kernel
  have free : (settle (Console.next .sync) .sync 40
      (.eval code [("X", .empty)]) w).1.atEnd? = some false := by
    decide +kernel
  rw [h _ _ _ _ w [("X", .writer)] [("X", .empty)] 40 hc fun x hx => absurd (hscoped.mem_of_free hx)
    List.not_mem_nil] at free
  cases held.symm.trans free

end KLambda
