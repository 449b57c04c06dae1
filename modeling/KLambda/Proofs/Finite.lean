import KLambda.Proofs.Numeric

/-!
Numbers that programs see. As long as the host adds nothing, every number that a program can come
upon is finite or one that its text spells, and a text can spell numbers that are too large for a
double. Arithmetic checks its results, so no primitive makes an infinity out of finite numbers, and
neither does anything else that runs.
-/
namespace KLambda

variable {P : Float → Prop}

/-- Every number in the code and the forms that a frame goes on to is one of `P`, and it does not go
on to the host. -/
def Frame.Ahead (P : Float → Prop) : Frame → Prop
  | .all rest _ | .any rest _ | .callee rest _ _ | .args _ _ rest _ _ => ∀ c ∈ rest, c.Numeric P
  | .branch yes no _ => yes.Numeric P ∧ no.Numeric P
  | .cond consequent rest default _ => consequent.Numeric P ∧ (Code.cond rest default).Numeric P
  | .letIn _ body _ | .trap (.bind _ body) _ _ | .trap (.apply body) _ _ => body.Numeric P
  | .seq rest last _ => (Code.seq rest last).Numeric P
  | .forms _ rest => ∀ n, Token.number n ∈ Form.listTokens rest → P n
  | .interop .. => False
  | _ => True

/-- Every number in the code that is to be evaluated is one of `P`, and the host is not waited
for. -/
def Control.Ahead (P : Float → Prop) : Control → Prop
  | .eval code _ => code.Numeric P
  | .wait .. => False
  | _ => True

/-- Every number in a state is one of `P`. -/
structure State.Numeric (P : Float → Prop) (s : State) : Prop where
  world : s.world.Numeric P
  control : s.control.Ahead P
  values (v : Value) : v ∈ s.control.roots → v.Numeric P
  stack (frame : Frame) : frame ∈ s.stack → frame.Ahead P ∧ ∀ v ∈ frame.roots, v.Numeric P

namespace Machine

variable {host : Host} {S : List Frame} {w w' : World} {l : Locals} {v : Value} {f : Function}
  {args done : List Value} {codes : List Code}

/-- A world and a stack in which every number is one of `P`. -/
def Clean (P : Float → Prop) (w : World) (S : List Frame) : Prop :=
  w.Numeric P ∧ ∀ frame ∈ S, frame.Ahead P ∧ ∀ v ∈ frame.roots, v.Numeric P

theorem Clean.world (h : Clean P w S) (hw : w'.Numeric P) : Clean P w' S := ⟨hw, h.2⟩

theorem Clean.push {frame : Frame} (h : Clean P w S) (ha : frame.Ahead P)
    (hv : ∀ v ∈ frame.roots, v.Numeric P) : Clean P w (frame :: S) :=
  ⟨h.1, List.forall_mem_cons.2 ⟨⟨ha, hv⟩, h.2⟩⟩

theorem Clean.state {c : Control} (h : Clean P w S) (hc : c.Ahead P)
    (hv : ∀ v ∈ c.roots, v.Numeric P) : State.Numeric P ⟨c, S, w⟩ :=
  ⟨h.1, hc, hv, h.2⟩

theorem giveValue_numeric (h : Clean P w S) (hv : v.Numeric P) : (giveValue S w v).Numeric P :=
  h.state trivial (List.forall_mem_singleton.2 hv)

theorem raise_numeric (h : Clean P w S) (e : Error) : State.Numeric P ⟨.raise e, S, w⟩ :=
  h.state trivial (by simp [Control.roots])

theorem ofResult_numeric {r : Except Error Value} (h : Clean P w S)
    (hr : Yields (Value.Numeric P) (fun _ => True) r) : (ofResult S w r).Numeric P := by
  cases r with
  | ok v => exact giveValue_numeric h hr
  | error e => exact raise_numeric h e

theorem call_numeric (h : Clean P w S) (f : Function) (ha : ∀ v ∈ args, v.Numeric P)
    (hl : ∀ v ∈ l.values, v.Numeric P) (position : CallPosition) :
    (call S w f args position l).Numeric P := by
  have hf : (Value.function f).Numeric P := trivial
  cases position with
  | tail => exact h.state trivial (List.forall_mem_cons.2 ⟨hf, ha⟩)
  | head =>
    have hs : Clean P w (.settle l :: S) := h.push trivial hl
    exact hs.state trivial (by simpa [Control.roots, or_imp, forall_and] using ⟨ha, hf⟩)

theorem evalArgs_numeric (h : Clean P w S) (f : Function) (hd : ∀ v ∈ done, v.Numeric P)
    (hc : ∀ c ∈ codes, c.Numeric P) (hl : ∀ v ∈ l.values, v.Numeric P) (position : CallPosition) :
    (evalArgs S w f done codes position l).Numeric P := by
  have hf : (Value.function f).Numeric P := trivial
  cases codes with
  | nil => exact call_numeric h f (by simpa using hd) hl position
  | cons c codes =>
    obtain ⟨hc, hcs⟩ := List.forall_mem_cons.1 hc
    have hs : Clean P w (.args f done codes position l :: S) := by
      refine h.push hcs ?_
      simpa [Frame.roots, or_imp, forall_and] using ⟨hd, hf, hl⟩
    exact hs.state hc hl

theorem closure_numeric (hw : w.Numeric P) (name : String) (params : List String) {code : Code}
    (hc : code.Numeric P) (hl : ∀ v ∈ l.values, v.Numeric P) :
    (closure w name params code l).2.Numeric P :=
  hw.makeFunction name _ ⟨hc, fun v hv => hl v (Locals.mem_values_of_visible hv)⟩

theorem evalForm_numeric (h : Clean P w S) {form : Value} (hv : form.Numeric P) :
    (evalForm S w form).Numeric P := by
  have hy : Yields (Code.Numeric P) (fun _ => True) (w.compileForm form).1 :=
    World.compileForm_numeric hv
  have hs : Clean P (w.compileForm form).2 S := h.world (h.1.report _)
  unfold evalForm
  split <;> rename_i he <;> rw [he] at hy hs
  · exact raise_numeric hs _
  · exact hs.state hy (by simp [Control.roots, Locals.values])

theorem local?_numeric (hl : ∀ v ∈ l.values, v.Numeric P) (name : String) :
    Yields (Value.Numeric P) (fun _ => True) (local? l name) := by
  unfold local?
  split
  · rename_i v hv
    obtain ⟨e, he, rfl⟩ := Table.mem_of_find hv
    exact hl e.2 (List.mem_map_of_mem he)
  · trivial

/-- Going on with the function that there is, if there is one. -/
theorem found_numeric {k : Function → State} (h : Clean P w S) (r : Except Error Function)
    (hk : ∀ f, (k f).Numeric P) :
    State.Numeric P
      (match r with
      | .error e => ⟨.raise e, S, w⟩
      | .ok f => k f) := by
  cases r with
  | error e => exact raise_numeric h e
  | ok f => exact hk f

/-- Going on with a truth value. -/
theorem toBool_numeric {yes no : State} (h : Clean P w S) (v : Value) (hy : yes.Numeric P)
    (hn : no.Numeric P) :
    State.Numeric P
      (match v.toBool with
      | .error e => ⟨.raise e, S, w⟩
      | .ok true => yes
      | .ok false => no) := by
  split
  · exact raise_numeric h _
  · exact hy
  · exact hn

theorem evalCode_numeric (h : Clean P w S) {code : Code} (hc : code.Numeric P)
    (hl : ∀ v ∈ l.values, v.Numeric P) : (evalCode S w host code l).Numeric P := by
  have part : ∀ {c : Code} {frame : Frame}, c ∈ code.operands → frame.Ahead P →
      frame.roots = l.values → State.Numeric P ⟨.eval c l, frame :: S, w⟩ := by
    intro c frame hm ha hr
    exact (h.push ha (hr ▸ hl)).state (hc.operand hm) hl
  cases code with
  | const literal =>
    refine giveValue_numeric h ?_
    cases literal with
    | number n => exact hc.constant
    | _ => trivial
  | «local» name => exact ofResult_numeric h (local?_numeric hl name)
  | all codes | any codes =>
    cases codes with
    | nil => exact giveValue_numeric h trivial
    | cons c codes =>
      exact part (by simp) (fun d hd => hc.operand (List.mem_cons_of_mem _ hd)) rfl
  | branch test yes no =>
    exact part (by simp) ⟨hc.ending (by simp), hc.ending (by simp)⟩ rfl
  | cond clauses default =>
    rcases clauses with _ | ⟨⟨test, consequent⟩, rest⟩
    · cases default with
      | none => exact raise_numeric h _
      | some c => exact h.state (hc.ending (by simp)) hl
    · have hrest : (Code.cond rest default).Numeric P := by
        refine .of_parts (by simp) (fun e he => ?_) (fun e he => ?_) (by simp)
        · exact hc.ending (List.mem_cons_of_mem _ he)
        · exact hc.operand (List.mem_cons_of_mem _ he)
      exact part (by simp) ⟨hc.ending (by simp), hrest⟩ rfl
  | letIn name value body => exact part (by simp) (hc.ending (by simp)) rfl
  | seq codes last =>
    cases codes with
    | nil => exact h.state (hc.ending (by simp)) hl
    | cons c codes =>
      have hrest : (Code.seq codes last).Numeric P := by
        refine .of_parts (by simp) (fun e he => hc.ending he) (fun e he => ?_) (by simp)
        exact hc.operand (List.mem_cons_of_mem _ he)
      exact part (by simp) hrest rfl
  | lambda name param body =>
    exact giveValue_numeric (h.world (closure_numeric h.1 name [param] (hc.body rfl) hl)) trivial
  | freeze name body =>
    exact giveValue_numeric (h.world (closure_numeric h.1 name [] (hc.body rfl) hl)) trivial
  | trap body handler position =>
    cases handler with
    | bind param inner => exact part (by simp) (hc.ending (by simp)) rfl
    | apply function => exact part (by simp) (hc.operand (by simp)) rfl
  | defun name params body =>
    have hw := closure_numeric (l := []) h.1 name params (hc.body rfl) (by simp [Locals.values])
    exact giveValue_numeric (h.world (hw.define name _)) trivial
  | globalValue name =>
    have hy : Yields _ (fun _ => True) (w.value? name) := w.value?_yields (fun _ _ => trivial) name
    exact ofResult_numeric h (hy.imp fun _ => h.1.value)
  | setGlobal name value => exact part (by simp) trivial rfl
  | call callee args position =>
    cases callee with
    | computed head =>
      exact part (by simp) (fun d hd => hc.operand (List.mem_cons_of_mem _ hd)) rfl
    | global name | «local» name =>
      have ha : ∀ c ∈ args, c.Numeric P := fun c hm => hc.operand hm
      exact found_numeric h _ fun f => evalArgs_numeric h f (by simp) ha hl position
  | interop name args =>
    have hn : w.interop? name = .error (.unbound .interop name) := by
      simp [World.interop?, Table.get?, h.1.interop, Table.find]
    simp only [evalCode, hn]
    exact raise_numeric h _

theorem runFunction_numeric (h : Clean P w S) (f : Function) (ha : ∀ v ∈ args, v.Numeric P) :
    (runFunction S w f args).Numeric P := by
  have hf : (Value.function f).Numeric P := trivial
  have enter : ∀ {vs : List Value} {T : List Frame}, Clean P w T → (∀ v ∈ vs, v ∈ args) →
      State.Numeric P ⟨.enter f vs, T, w⟩ := by
    intro vs T hT hs
    refine hT.state trivial ?_
    simpa [Control.roots, or_imp, forall_and] using ⟨fun v hv => ha v (hs v hv), hf⟩
  unfold runFunction
  split
  · exact enter h fun _ hv => hv
  · split
    · exact giveValue_numeric h hf
    · split
      · exact giveValue_numeric (h.world (h.1.partialApply f ha)) trivial
      · split
        · rename_i n _ _ _ _
          have hs : Clean P w (.surplus f (args.drop n) :: S) := by
            refine h.push trivial (List.forall_mem_cons.2 ⟨hf, fun v hv => ?_⟩)
            exact ha v (List.mem_of_mem_drop hv)
          exact enter hs fun v hv => List.mem_of_mem_take hv
        · exact enter h fun _ hv => hv

theorem unwind_numeric {frame : Frame} (h : Clean P w S) (e : Error) (ha : frame.Ahead P)
    (hl : ∀ v ∈ frame.roots, v.Numeric P) : (unwind S w e frame).Numeric P := by
  cases frame with
  | trap handler position l =>
    have hs : Clean P { w with heap := (w.heap.error e.message).2 } S :=
      h.world (h.1.withHeap (h.1.heap.of_eq rfl rfl))
    have hc : (w.heap.error e.message).1.Numeric P := trivial
    cases handler with
    | bind param body => exact hs.state ha (List.forall_mem_cons.2 ⟨hc, hl⟩)
    | apply function =>
      have hp : Clean P _ (.handle _ position l :: S) :=
        hs.push trivial (List.forall_mem_cons.2 ⟨hc, hl⟩)
      exact hp.state ha hl
  | _ => exact raise_numeric h e

theorem resumeFrame_numeric (h : Clean P w S) {frame : Frame} (ha : frame.Ahead P)
    (hl : ∀ v ∈ frame.roots, v.Numeric P) (hv : v.Numeric P) :
    (resumeFrame S w host frame v).Numeric P := by
  cases frame with
  | settle | trap | keep => exact giveValue_numeric h hv
  | all rest l =>
    have hc : (Code.all rest).Numeric P := .of_parts (by simp) (by simp) ha (by simp)
    exact toBool_numeric h v (h.state hc hl) (giveValue_numeric h trivial)
  | any rest l =>
    have hc : (Code.any rest).Numeric P := .of_parts (by simp) (by simp) ha (by simp)
    exact toBool_numeric h v (giveValue_numeric h trivial) (h.state hc hl)
  | branch yes no l => exact toBool_numeric h v (h.state ha.1 hl) (h.state ha.2 hl)
  | cond consequent rest default l => exact toBool_numeric h v (h.state ha.1 hl) (h.state ha.2 hl)
  | letIn name body l => exact h.state ha (List.forall_mem_cons.2 ⟨hv, hl⟩)
  | seq rest last l => exact h.state ha hl
  | handle caught position l =>
    obtain ⟨hc, hl⟩ := List.forall_mem_cons.1 hl
    exact found_numeric h _ fun f =>
      call_numeric h f (List.forall_mem_singleton.2 hc) hl position
  | setGlobal name l => exact giveValue_numeric (h.world (h.1.setValue name hv)) hv
  | callee codes position l =>
    exact found_numeric h _ fun f => evalArgs_numeric h f (by simp) ha hl position
  | args f done codes position l =>
    simp only [Frame.roots, List.mem_append, List.mem_reverse, List.mem_cons, or_imp, forall_and,
      forall_eq] at hl
    exact evalArgs_numeric h f (List.forall_mem_cons.2 ⟨hv, hl.1⟩) ha hl.2.2 position
  | interop => exact ha.elim
  | surplus f args =>
    obtain ⟨hf, hargs⟩ := List.forall_mem_cons.1 hl
    cases v with
    | function g =>
      have hk : Clean P w (.keep [.function f] :: S) :=
        h.push trivial (List.forall_mem_singleton.2 hf)
      exact hk.state trivial (by simpa [Control.roots, or_imp, forall_and] using ⟨hargs, hv⟩)
    | _ => exact raise_numeric h _
  | forms last rest =>
    cases rest with
    | nil => exact giveValue_numeric h hv
    | cons form rest =>
      have hs : Clean P { w with heap := (form.build w.heap).2 } S := by
        rw [Form.build_heap]
        exact h.world (h.1.withHeap (h.1.heap.of_eq rfl rfl))
      have hrest : (Frame.forms v rest).Ahead P := fun n hn => ha n (by simp [Form.listTokens, hn])
      have hform : (form.build w.heap).1.Numeric P :=
        form.build_numeric w.heap fun n hn => ha n (by simp [Form.listTokens, hn])
      exact evalForm_numeric (hs.push hrest (List.forall_mem_singleton.2 hv)) hform

section

variable (hP : ∀ x : Float, x.isFinite = true → P x)

include hP

theorem enterFunction_numeric (h : Clean P w S) (f : Function) (ha : ∀ v ∈ args, v.Numeric P) :
    (enterFunction S w host f args).Numeric P := by
  have hb : (w.heap.body f).Numeric P := h.1.heap.bodies f.id
  unfold enterFunction
  cases he : w.heap.body f with
  | primitive r op =>
    obtain ⟨hw, hr⟩ := Primitive.call_numeric hP h.1 ha op
    dsimp only
    split
    · exact ofResult_numeric (h.world hw) hr
    · exact raise_numeric h _
  | evaluator r =>
    have hv : (args.headD .empty).Numeric P := by
      cases args with
      | nil => trivial
      | cons a args => exact ha a (by simp)
    have hk : Clean P w (.keep [args.headD .empty] :: S) :=
      h.push trivial (List.forall_mem_singleton.2 hv)
    have hk : Clean P w (.settle [] :: .keep [args.headD .empty] :: S) :=
      hk.push trivial (by simp [Frame.roots, Locals.values])
    dsimp only
    split
    · exact evalForm_numeric hk hv
    · exact raise_numeric h _
  | closure r params code captured =>
    rw [he] at hb
    dsimp only
    split
    · refine h.state hb.1 fun v hv => ?_
      rcases values_bindParams hv with hv | hv
      · exact ha v hv
      · exact hb.2 v hv
    · exact raise_numeric h _
  | partialOf target bound =>
    rw [he] at hb
    have hf : (Value.function target).Numeric P := trivial
    refine h.state trivial ?_
    simpa [Control.roots, or_imp, forall_and] using ⟨hb, ha, hf⟩
  | native | async =>
    rw [he] at hb
    exact hb.elim
  | missing => exact raise_numeric h _

/-- No move makes a number that is neither finite nor there before. -/
theorem move_numeric {s : State} (hs : s.Numeric P) : (move host s).Numeric P := by
  obtain ⟨c, S, w⟩ := s
  obtain ⟨hw, hc, hv, hS⟩ := hs
  have h : Clean P w S := ⟨hw, hS⟩
  cases c with
  | eval code l => exact evalCode_numeric h hc hv
  | run f args => exact runFunction_numeric h f fun v hm => hv v (by simp [Control.roots, hm])
  | enter f args =>
    exact enterFunction_numeric hP h f fun v hm => hv v (by simp [Control.roots, hm])
  | wait => exact hc.elim
  | raise e =>
    cases S with
    | nil => exact ⟨hw, hc, hv, hS⟩
    | cons frame S =>
      obtain ⟨hf, hS⟩ := List.forall_mem_cons.1 hS
      exact unwind_numeric ⟨hw, hS⟩ e hf.1 hf.2
  | give step =>
    cases S with
    | nil => cases step <;> exact ⟨hw, hc, hv, hS⟩
    | cons frame S =>
      obtain ⟨hf, hS'⟩ := List.forall_mem_cons.1 hS
      cases step with
      | done v =>
        exact resumeFrame_numeric ⟨hw, hS'⟩ hf.1 hf.2 (hv v (by simp [Control.roots]))
      | bounce f args =>
        have hr : ∀ v ∈ (Control.run f args).roots, v.Numeric P := by
          intro v hm
          exact hv v (by simpa [Control.roots, or_comm] using hm)
        cases frame with
        | keep vs => exact ⟨hw, hc, hv, hS'⟩
        | _ => exact h.state trivial hr

theorem Runs.numeric {mode : Mode} {n : Nat} {s t : State} {es : List Effect}
    (hr : Runs host mode n s es t) (hs : s.Numeric P) : t.Numeric P := by
  induction hr with
  | refl => exact hs
  | move _ _ ih => exact ih (move_numeric hP hs)

end
end Machine

/-- A number that a program can come upon: it is in reach of what is being done, of a frame or of a
global, or held in a vector or a function. -/
def State.Shows (s : State) (x : Float) : Prop :=
  ∃ v, (v ∈ s.roots ∨ ∃ node, v ∈ s.world.heap.parts node) ∧ s.world.heap.Reaches v (.number x)

variable {h : Heap} {w : World}

theorem Body.Numeric.parts {b : Body} (hb : b.Numeric P) : ∀ v ∈ b.parts, v.Numeric P := by
  cases b with
  | closure => exact hb.2
  | partialOf target bound => exact List.forall_mem_cons.2 ⟨trivial, hb⟩
  | native | async => exact hb.elim
  | _ => simp [Body.parts]

theorem Heap.Numeric.parts (hn : h.Numeric P) (node : Node) : ∀ v ∈ h.parts node, v.Numeric P := by
  intro v hv
  cases node with
  | vector id => exact hn.vectors id v (Array.mem_toList_iff.1 hv)
  | body id =>
    have he : h.parts (.body id) = (h.body ⟨id, "", none⟩).parts := h.parts_body ⟨id, "", none⟩
    rw [he] at hv
    exact (hn.bodies id).parts v hv
  | stream id => simp [Heap.parts] at hv

theorem Heap.Numeric.reaches {u v : Value} (hn : h.Numeric P) (hr : h.Reaches v u)
    (hv : v.Numeric P) : u.Numeric P := by
  induction hr with
  | refl => exact hv
  | head _ ih => exact ih hv.1
  | tail _ ih => exact ih hv.2
  | element hu _ ih | part hu _ ih => exact ih (hn.parts _ _ hu)

theorem World.Numeric.roots (hw : w.Numeric P) : ∀ v ∈ w.roots, v.Numeric P := by
  intro v hv
  simp only [World.roots, List.mem_append, List.mem_map, List.mem_filterMap] at hv
  rcases hv with (⟨e, he, rfl⟩ | ⟨e, he, rfl⟩) | ⟨o, -, ho⟩
  · trivial
  · exact hw.values e he
  · obtain ⟨s, -, rfl⟩ := Option.map_eq_some_iff.1 ho
    trivial

theorem State.Numeric.shows {s : State} (hs : s.Numeric P) {x : Float} (hx : s.Shows x) : P x := by
  obtain ⟨v, hv, hr⟩ := hx
  refine hs.world.heap.reaches hr ?_
  rcases hv with hv | ⟨node, hv⟩
  · simp only [State.roots, List.mem_append, List.mem_flatMap] at hv
    rcases hv with (hv | ⟨frame, hf, hv⟩) | hv
    · exact hs.values v hv
    · exact (hs.stack frame hf).2 v hv
    · exact hs.world.roots v hv
  · exact hs.world.heap.parts node v hv

/-- The number stands in the text as one of its lexemes. -/
def Lexed.Spells (l : Lexed) (x : Float) : Prop := Token.number x ∈ l.lexemes.map Lexeme.token

/-- A number in a text is never NaN. -/
theorem Lexed.Spells.isNaN {source : String} {x : Float} (h : (Lexed.ofSource source).Spells x) :
    x.isNaN = false := by
  obtain ⟨ps, rest, hs, hl, -⟩ := Lexer.scan_splits [] source.toList
  have hm : Token.number x ∈ ps.map Lexer.Piece.token := by
    rw [← Lexer.map_placed [] ps, ← hl]
    exact h
  obtain ⟨p, hp, ht⟩ := List.mem_map.1 hm
  have hspell := hs.spells p hp
  rw [ht] at hspell
  generalize p.text = text at hspell
  cases hspell with
  | number _ hn => exact hn.isNaN

/-- The numbers of forms that were read stand in the text. -/
theorem Form.spells_of_all {source : String} {fs : List Form} (h : Form.all source = .ok fs)
    {x : Float} (hx : Token.number x ∈ Form.listTokens fs) : (Lexed.ofSource source).Spells x := by
  cases ht : (Lexed.ofSource source).tokens? with
  | none =>
    obtain ⟨e, he⟩ := Form.all_of_failure ht
    rw [h] at he
    cases he
  | some ts =>
    have hr := Reader.readAll_spec none (Lexed.ofSource source).lexemes
    rw [← (Form.all_of_tokens ht).1, h] at hr
    have hl : (Lexed.ofSource source).lexemes.map Lexeme.token = Form.listTokens fs := hr.1
    rw [Lexed.Spells, hl]
    exact hx

/-- A finite number, or an infinity that one of the texts spells. -/
def FiniteOrSpelled (texts : List String) (x : Float) : Prop :=
  x.isFinite = true ∨ x.isInf = true ∧ ∃ text ∈ texts, (Lexed.ofSource text).Spells x

theorem FiniteOrSpelled.of_spells {texts : List String} {text : String} {x : Float}
    (hm : text ∈ texts) (h : (Lexed.ofSource text).Spells x) : FiniteOrSpelled texts x := by
  by_cases hx : x.isFinite = true
  · exact Or.inl hx
  · exact Or.inr ⟨Number.isInf_of_not_finite h.isNaN hx, text, hm, h⟩

/-- The worlds of an engine whose host adds no functions and no values, after the evaluation of
these texts. Time goes on in it, and streams, files and reports are the host's business. -/
inductive World.Guest (host : Host) : List String → World → Prop
  | create {heap : Heap} (hb : heap.bodies = #[]) (hv : heap.vectors = #[]) {options : Options}
      (hc : ∀ x ∈ options.clock, x.isFinite = true) (runtime : Nat) {now : Float}
      (hn : now.isFinite = true) : Guest host [] (World.create heap options runtime now)
  | tick {texts : List String} {w : World} (hw : Guest host texts w) {now : Float}
      (hn : now.isFinite = true) (he : (now - w.started).isFinite = true) :
      Guest host texts { w with now }
  | touch {texts : List String} {w w' : World} (hw : Guest host texts w) (h : w.Touches w') :
      Guest host texts w'
  | evalSource {texts : List String} {w : World} (hw : Guest host texts w) (mode : Mode)
      (fuel : Nat) (source : String) :
      Guest host (source :: texts) (w.evalSource host mode fuel source).2

theorem World.guest_new (host : Host) : World.Guest host [] (World.create .empty {} 0 0) :=
  .create rfl rfl (by simp) 0 (Number.isFinite_ofNat (by decide))

namespace Machine

variable {host : Host} {mode : Mode}

theorem drive_numeric (hP : ∀ x : Float, x.isFinite = true → P x) (fuel : Nat) {s : State}
    (hs : s.Numeric P) :
    (valueOf (drive host mode fuel s)).2.Numeric P ∧
      ∀ v, (valueOf (drive host mode fuel s)).1 = .ok v → v.Numeric P := by
  obtain ⟨n, es, t, hr, hw, hv⟩ := exists_runs_valueOf host mode fuel s
  have ht := hr.numeric hP hs
  rw [hw]
  exact ⟨ht.world, fun v h => ht.values v (hv v h)⟩

end Machine

namespace World

variable {host : Host} {texts : List String} {source : String}

/-- What the evaluation of a text starts with. -/
theorem Numeric.start (hw : w.Numeric P) {forms : List Form}
    (hf : ∀ x, Token.number x ∈ Form.listTokens forms → P x) :
    State.Numeric P ⟨.give (.done .empty), [.forms .empty forms], w⟩ where
  world := hw
  control := trivial
  values := List.forall_mem_singleton.2 trivial
  stack := List.forall_mem_singleton.2 ⟨hf, List.forall_mem_singleton.2 trivial⟩

theorem evalSource_numeric (hP : ∀ x : Float, x.isFinite = true → P x) (host : Host)
    (hw : w.Numeric P) (hs : ∀ x, (Lexed.ofSource source).Spells x → P x) (mode : Mode)
    (fuel : Nat) :
    (w.evalSource host mode fuel source).2.Numeric P ∧
      ∀ v, (w.evalSource host mode fuel source).1 = .ok v → v.Numeric P := by
  unfold evalSource
  split
  · refine ⟨hw, fun v hv => ?_⟩
    cases hv
  · split
    · refine ⟨hw, fun v hv => ?_⟩
      cases hv
    · rename_i forms hf
      exact Machine.drive_numeric hP fuel (hw.start fun x hx => hs x (Form.spells_of_all hf hx))

theorem Guest.numeric (hP : ∀ x : Float, x.isFinite = true → P x) (hw : w.Guest host texts)
    (ht : ∀ text ∈ texts, ∀ x, (Lexed.ofSource text).Spells x → P x) : w.Numeric P := by
  induction hw with
  | @create heap hb hv options hc runtime now hn =>
    have define : ∀ (w : World) name arity b, Body.Numeric P b → w.Numeric P →
        ((w.makeFunction name arity b).2.define name (w.makeFunction name arity b).1).Numeric P :=
      fun w name arity b hb hw => (hw.makeFunction name arity hb).define name _
    refine World.create_induction ?_ (fun w p => define w p.name _ (.primitive w.runtime p) trivial)
      (fun w => define w "eval-kl" _ (.evaluator w.runtime) trivial) ?_
      (fun w w' ht hw => hw.of_touches ht)
    · refine ⟨⟨fun i => ?_, fun id v hm => ?_⟩, by simp [Table.empty], rfl, ?_, ?_⟩
      · rw [hb]
        trivial
      · simp [Heap.elements, hv] at hm
      · cases ho : options.clock with
        | none => exact hP now hn
        | some x => exact hP x (hc x ho)
      · exact hP _ (Number.isFinite_sub_self hn)
    · intro w name v hk hw
      have hv : v.Numeric P := by
        cases v <;> trivial
      exact hw.setValue name hv
  | @tick texts w _ now hn he ih =>
    obtain ⟨hh, hv, hi, hc, -⟩ := ih ht
    refine ⟨hh, hv, hi, ?_, hP _ he⟩
    dsimp only
    revert hc
    cases w.options.clock with
    | none => exact fun _ => hP _ hn
    | some x => exact id
  | touch _ h ih => exact (ih ht).of_touches h
  | evalSource _ mode fuel source ih =>
    obtain ⟨hs, hr⟩ := List.forall_mem_cons.1 ht
    exact (evalSource_numeric hP host (ih hr) hs mode fuel).1

end World

theorem Number.digitsValue_zeros (k : Nat) :
    digitsValue ('1' :: List.replicate k '0') = 10 ^ k := by
  have zeros : ∀ n, (List.replicate k '0').foldl (fun n c => 10 * n + (c.toNat - 48)) n =
      10 ^ k * n := by
    intro n
    induction k generalizing n with
    | zero => simp
    | succ k ih =>
      rw [List.replicate_succ, List.foldl_cons, ih, Nat.pow_succ, Nat.mul_assoc]
      rfl
  have h := zeros 1
  rwa [Nat.mul_one] at h

theorem Lexer.isAtom_digits {cs : List Char} (h : Number.Digits cs) : IsAtom cs where
  ne_nil := h.1
  inAtom c hc := by
    have hd : 48 ≤ c.toNat ∧ c.toNat ≤ 57 := by
      simpa [Char.isDigit, UInt32.le_iff_toNat_le] using h.2 c hc
    have hb : Text.isBlank c = false := by
      simp [Text.isBlank]
      omega
    refine inAtom_iff.2 ⟨hb, ?_, ?_, ?_⟩ <;> rintro rfl <;> exact absurd hd (by decide)
  not_comment := by
    rintro ⟨ds, rfl⟩
    exact absurd (h.2 '\\' (by simp [opener])) (by decide)

/-- A run of digits is read as a whole number. -/
theorem Form.all_digits {cs : List Char} (h : Number.Digits cs) :
    Form.all (String.ofList cs) =
      .ok [.number (Float.ofScientific (Number.digitsValue cs) false 0)] := by
  have hn : Number.Spells cs (Float.ofScientific (Number.digitsValue cs) false 0) :=
    @Number.Spells.whole false [] cs (Or.inl rfl) h
  generalize Float.ofScientific (Number.digitsValue cs) false 0 = x at hn ⊢
  have ha := Lexer.isAtom_digits h
  have hsplit : Lexer.Split cs [⟨[], cs, .number x⟩] [] := by
    have hs := Lexer.Split.cons (p := ⟨[], cs, .number x⟩) .nil (.number ha hn)
      (fun _ => Lexer.endsAtom_nil) (.nil [])
    simpa [Lexer.Piece.source] using hs
  have ht : (Lexed.ofSource (String.ofList cs)).tokens? = some [.number x] := by
    rw [Lexed.ofSource, String.toList_ofList]
    exact Lexer.tokens?_scan_of_split hsplit .nil .start
  obtain ⟨hall, hl⟩ := Form.all_of_tokens ht
  rw [hall]
  exact Reader.readAll_listTokens [.number x] hl

namespace Machine

/-- A text that is a number shows it. -/
theorem exists_runs_number (host : Host) (mode : Mode) (x : Float) (w : World) :
    ∃ t, Runs host mode 2 ⟨.give (.done .empty), [.forms .empty [.number x]], w⟩ [] t ∧
      t.Shows x := by
  have hc : compile w.values.contains .toplevel (.number x) = .ok (.const (.number x)) := by
    rw [compile]
    rfl
  let w' := w.report (.compiling (Value.number x).text)
  have h₁ : move host ⟨.give (.done .empty), [.forms .empty [.number x]], w⟩ =
      ⟨.eval (.const (.number x)) [], [.forms .empty []], w'⟩ := by
    simp only [move, step, resumeFrame, Form.build, evalForm, World.compileForm, hc]
    rfl
  refine ⟨⟨.give (.done (.number x)), [.forms .empty []], w'⟩, ?_, ?_⟩
  · exact .silent rfl rfl (h₁ ▸ .silent rfl rfl (.refl _))
  · exact ⟨.number x, Or.inl (by simp [State.roots, Control.roots]), .refl _⟩

end Machine

/-- In an engine whose host adds no functions and no values, every number that a program can come
upon at any point of the evaluation of a text, and every number in the value of the text and in what
it leaves behind, is finite or an infinity that this text or one before it spells. -/
theorem numbers_finite_or_spelled {host : Host} {texts : List String} {w : World}
    (hw : w.Guest host texts) (mode : Mode) (source : String) :
    (∀ forms, Form.all source = .ok forms → ∀ n es t,
      Machine.Runs host mode n ⟨.give (.done .empty), [.forms .empty forms], w⟩ es t →
      ∀ x, t.Shows x → FiniteOrSpelled (source :: texts) x) ∧
    ∀ fuel v w', w.evalSource host mode fuel source = (.ok v, w') →
      ∀ x, State.Shows ⟨.give (.done v), [], w'⟩ x → FiniteOrSpelled (source :: texts) x := by
  have hP : ∀ x : Float, x.isFinite = true → FiniteOrSpelled (source :: texts) x :=
    fun _ => Or.inl
  have hs : ∀ text ∈ source :: texts, ∀ x, (Lexed.ofSource text).Spells x →
      FiniteOrSpelled (source :: texts) x :=
    fun text hm x => .of_spells hm
  have hn := hw.numeric hP fun text hm => hs text (List.mem_cons_of_mem _ hm)
  have hsource := hs source List.mem_cons_self
  constructor
  · intro forms hf n es t hr x hx
    have ht := hr.numeric hP (hn.start fun x hx => hsource x (Form.spells_of_all hf hx))
    exact ht.shows hx
  · intro fuel v w' he x hx
    obtain ⟨hw', hv⟩ := World.evalSource_numeric hP host hn hsource mode fuel
    rw [he] at hw' hv
    have ht : State.Numeric (FiniteOrSpelled (source :: texts)) ⟨.give (.done v), [], w'⟩ :=
      ⟨hw', trivial, List.forall_mem_singleton.2 (hv v rfl), by simp⟩
    exact ht.shows hx

/-- After one text, the number in another. -/
theorem numbers_finite_or_spelled_next :
    ∃ w, World.Guest .echo ["(set x 1)"] w ∧ ∃ t x,
      Form.all "42" = .ok [.number x] ∧
      Machine.Runs Host.echo .sync 2 ⟨.give (.done .empty), [.forms .empty [.number x]], w⟩ [] t ∧
      t.Shows x ∧ FiniteOrSpelled ["42", "(set x 1)"] x := by
  have hw := (World.guest_new .echo).evalSource .sync 10 "(set x 1)"
  have hd : Number.Digits ['4', '2'] := Number.isDigits_iff.1 rfl
  have hf : Form.all "42" = .ok [.number _] := Form.all_digits hd
  obtain ⟨t, hr, hx⟩ := Machine.exists_runs_number .echo .sync _ _
  exact ⟨_, hw, t, _, hf, hr, hx, (numbers_finite_or_spelled hw .sync "42").1 _ hf 2 [] t hr _ hx⟩

/-- Not every number is finite: a one with four hundred zeros is read as infinity. -/
theorem not_numbers_finite :
    ¬ ∀ (host : Host) (texts : List String) (w : World), w.Guest host texts →
      ∀ mode source forms, Form.all source = .ok forms → ∀ n es t,
        Machine.Runs host mode n ⟨.give (.done .empty), [.forms .empty forms], w⟩ es t →
        ∀ x, t.Shows x → x.isFinite = true := by
  intro h
  have hd : Number.Digits ('1' :: List.replicate 400 '0') := by
    refine ⟨List.cons_ne_nil _ _, List.forall_mem_cons.2 ⟨by decide, fun c hc => ?_⟩⟩
    obtain ⟨-, rfl⟩ := List.mem_replicate.1 hc
    decide
  have hf := Form.all_digits hd
  rw [Number.digitsValue_zeros] at hf
  obtain ⟨t, hr, hx⟩ := Machine.exists_runs_number .echo .sync
    (Float.ofScientific (10 ^ 400) false 0) (World.create .empty {} 0 0)
  have hfinite := h .echo [] _ (World.guest_new .echo) .sync _ _ hf 2 [] t hr _ hx
  have hinfinite : (Float.ofScientific (10 ^ 400) false 0).isFinite = false := by decide +kernel
  rw [hinfinite] at hfinite
  cases hfinite

end KLambda
