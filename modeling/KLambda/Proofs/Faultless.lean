import KLambda.Proofs.Run
import KLambda.Proofs.SoundWorld

/-!
No internal error is ever raised. The invariant is that everything in reach of a state is sound,
that the code that is left to evaluate is scoped by the locals it will be evaluated with, and that
a function is entered with as many arguments as it takes. Every move keeps it.
-/
namespace KLambda

namespace Locals

variable {name : String} {v : Value} {l : Locals}

theorem exists_find_of_mem (h : name ∈ l.names) : ∃ v ∈ l.values, Table.find name l = some v := by
  induction l with
  | nil => simp [names] at h
  | cons e l ih =>
    by_cases he : e.1 = name
    · exact ⟨e.2, by simp [values], by simp [Table.find, he]⟩
    · obtain ⟨v, hv, hf⟩ := ih (by simpa [names, Ne.symm he] using h)
      exact ⟨v, by simp_all [values], by simp [Table.find, he, hf]⟩

theorem mem_names_visible : name ∈ l.visible.names ↔ name ∈ l.names := by
  induction l with
  | nil => simp [visible]
  | cons e l ih =>
    simp only [names, visible, List.map_cons, List.mem_cons, List.mem_map, List.mem_filter] at ih ⊢
    grind

theorem visible_sublist (l : Locals) : l.visible.Sublist l := by
  induction l with
  | nil => exact .slnil
  | cons e l ih => exact .cons_cons e (List.filter_sublist.trans ih)

theorem mem_values_of_visible (h : v ∈ l.visible.values) : v ∈ l.values :=
  ((visible_sublist l).map (·.2)).subset h

end Locals

namespace Frame

/-- What a frame will evaluate is scoped by its locals. -/
def Scoped : Frame → Prop
  | .all rest l => (Code.all rest).Scoped l.names
  | .any rest l => (Code.any rest).Scoped l.names
  | .branch yes no l => yes.Scoped l.names ∧ no.Scoped l.names
  | .cond consequent rest default l =>
    consequent.Scoped l.names ∧ (Code.cond rest default).Scoped l.names
  | .letIn name body l => body.Scoped (name :: l.names)
  | .seq rest last l => (Code.seq rest last).Scoped l.names
  | .trap handler _ l => handler.Scoped l.names
  | .callee codes _ l | .args _ _ codes _ l | .interop _ _ codes l =>
    ∀ c ∈ codes, c.Scoped l.names
  | _ => True

/-- A frame that is scoped and holds sound values. -/
def Sound (runtime : Nat) (h : Heap) (frame : Frame) : Prop :=
  frame.Scoped ∧ ∀ v ∈ frame.roots, v.Sound runtime h

end Frame

/-- Code is scoped by its locals, functions are entered with the arguments they take, and no fault
is raised. -/
def Control.Fits : Control → Prop
  | .eval code l => code.Scoped l.names
  | .enter f args => ∀ n, f.arity = some n → args.length = n
  | .raise e => e.Guest
  | _ => True

structure State.Sound (runtime : Nat) (s : State) : Prop where
  world : s.world.Sound runtime
  control : s.control.Fits
  values (v : Value) : v ∈ s.control.roots → v.Sound runtime s.world.heap
  stack (frame : Frame) : frame ∈ s.stack → frame.Sound runtime s.world.heap

namespace Machine

variable {runtime : Nat} {host : Host} {S : List Frame} {w w' : World} {l : Locals} {v : Value}
  {f : Function} {args done : List Value} {codes : List Code}

/-- A stack of sound frames. -/
def Steady (runtime : Nat) (w : World) (S : List Frame) : Prop :=
  w.Sound runtime ∧ ∀ frame ∈ S, frame.Sound runtime w.heap

theorem Steady.follows (h : Steady runtime w S) (hf : w.Follows runtime w') :
    Steady runtime w' S := by
  refine ⟨hf.sound, fun frame hm => ?_⟩
  obtain ⟨hs, hv⟩ := h.2 frame hm
  exact ⟨hs, fun v hr => hf.keeps v (hv v hr)⟩

theorem Steady.push {frame : Frame} (h : Steady runtime w S) (hs : frame.Scoped)
    (hv : ∀ v ∈ frame.roots, v.Sound runtime w.heap) : Steady runtime w (frame :: S) :=
  ⟨h.1, List.forall_mem_cons.2 ⟨⟨hs, hv⟩, h.2⟩⟩

theorem Steady.state {c : Control} (h : Steady runtime w S) (hc : c.Fits)
    (hv : ∀ v ∈ c.roots, v.Sound runtime w.heap) : State.Sound runtime ⟨c, S, w⟩ :=
  ⟨h.1, hc, hv, h.2⟩

theorem giveValue_sound (h : Steady runtime w S) (hv : v.Sound runtime w.heap) :
    (giveValue S w v).Sound runtime :=
  h.state trivial (by simpa [Control.roots] using hv)

theorem raise_sound {e : Error} (h : Steady runtime w S) (he : e.Guest) :
    State.Sound runtime ⟨.raise e, S, w⟩ :=
  h.state he (by simp [Control.roots])

theorem ofResult_sound {r : Except Error Value} (h : Steady runtime w S)
    (hr : Yields (Value.Sound runtime w.heap) Error.Guest r) : (ofResult S w r).Sound runtime := by
  cases r with
  | ok v => exact giveValue_sound h hr
  | error e => exact raise_sound h hr

/-- A local that the code is scoped by is bound. -/
theorem local?_yields {name : String} (hn : name ∈ l.names) {Q : Error → Prop} :
    Yields (· ∈ l.values) Q (local? l name) := by
  obtain ⟨v, hv, hf⟩ := Locals.exists_find_of_mem hn
  simpa [local?, hf] using hv

theorem call_sound (h : Steady runtime w S) (hf : (Value.function f).Sound runtime w.heap)
    (ha : ∀ v ∈ args, v.Sound runtime w.heap) (hl : ∀ v ∈ l.values, v.Sound runtime w.heap)
    (position : CallPosition) : (call S w f args position l).Sound runtime := by
  cases position with
  | tail => exact h.state trivial (List.forall_mem_cons.2 ⟨hf, ha⟩)
  | head =>
    have hs : Steady runtime w (.settle l :: S) := h.push trivial hl
    exact hs.state trivial (by simpa [Control.roots, or_imp, forall_and] using ⟨ha, hf⟩)

theorem evalArgs_sound (h : Steady runtime w S) (hf : (Value.function f).Sound runtime w.heap)
    (hd : ∀ v ∈ done, v.Sound runtime w.heap) (hc : ∀ c ∈ codes, c.Scoped l.names)
    (hl : ∀ v ∈ l.values, v.Sound runtime w.heap) (position : CallPosition) :
    (evalArgs S w f done codes position l).Sound runtime := by
  cases codes with
  | nil => exact call_sound h hf (by simpa using hd) hl position
  | cons c codes =>
    obtain ⟨hc, hcs⟩ := List.forall_mem_cons.1 hc
    have hs : Steady runtime w (.args f done codes position l :: S) := by
      refine h.push hcs ?_
      simpa [Frame.roots, or_imp, forall_and] using ⟨hd, hf, hl⟩
    exact hs.state hc hl

theorem native_sound (hh : host.Sound runtime) (h : Steady runtime w S) (op : String)
    {held : List Value} (ha : ∀ v ∈ held ++ args, v.Sound runtime w.heap) :
    (ofResult S { w with heap := (host.native op held args w.heap).2 }
      (host.native op held args w.heap).1).Sound runtime := by
  obtain ⟨hk, hr⟩ := hh.native op held args w.heap ha
  exact ofResult_sound (h.follows (.withHeap h.1 hk)) hr

theorem evalInterop_sound (hh : host.Sound runtime) (h : Steady runtime w S) (op : String)
    (hd : ∀ v ∈ done, v.Sound runtime w.heap) (hc : ∀ c ∈ codes, c.Scoped l.names)
    (hl : ∀ v ∈ l.values, v.Sound runtime w.heap) :
    (evalInterop S w host op done codes l).Sound runtime := by
  cases codes with
  | nil => exact native_sound hh h op (by simpa using hd)
  | cons c codes =>
    obtain ⟨hc, hcs⟩ := List.forall_mem_cons.1 hc
    have hs : Steady runtime w (.interop op done codes l :: S) := by
      refine h.push hcs ?_
      simpa [Frame.roots, or_imp, forall_and] using ⟨hd, hl⟩
    exact hs.state hc hl

theorem poll_sound (hh : host.Sound runtime) (h : Steady runtime w S) (op : String)
    {held : List Value} (ha : ∀ v ∈ held ++ args, v.Sound runtime w.heap) :
    (poll S w host op held args).Sound runtime := by
  obtain ⟨hk, hr⟩ := hh.async op held args w.heap ha
  unfold poll
  split <;> rename_i he <;> rw [he] at hk hr
  · exact ofResult_sound (h.follows (.withHeap h.1 hk)) hr
  · refine (h.follows (.withHeap h.1 hk)).state trivial ?_
    simp only [List.mem_append, or_imp, forall_and] at ha
    simpa [Control.roots, or_imp, forall_and] using ⟨hr, fun v hv => hk v (ha.2 v hv)⟩

/-- A new closure captures sound values and is scoped by its parameters and what it captures. -/
theorem closure_sound (hw : w.Sound runtime) (name : String) (params : List String) {code : Code}
    (hc : code.Scoped (params ++ l.names)) (hl : ∀ v ∈ l.values, v.Sound runtime w.heap) :
    w.Follows runtime (closure w name params code l).2 ∧
      (Value.function (closure w name params code l).1).Sound runtime
        (closure w name params code l).2.heap := by
  have hfit : (Body.closure w.runtime params code l.visible).Fits runtime (some params.length) := by
    refine ⟨hw.runtime_eq, rfl, hc.mono ?_⟩
    intro name hn
    simp only [List.mem_append, Locals.mem_names_visible] at hn ⊢
    exact hn
  refine World.Follows.makeFunction hw name hfit fun v hv => ?_
  exact hl v (Locals.mem_values_of_visible hv)

theorem evalForm_sound (h : Steady runtime w S) (form : Value) :
    (evalForm S w form).Sound runtime := by
  have hy : Yields (Code.Scoped []) Error.Syntactic (w.compileForm form).1 := compile_yields _ form
  have hs : Steady runtime (w.compileForm form).2 S :=
    h.follows ((World.Follows.refl h.1).report _)
  unfold evalForm
  split <;> rename_i he <;> rw [he] at hy hs
  · refine raise_sound hs ?_
    rintro fault rfl
    exact hy
  · exact hs.state hy (by simp [Control.roots, Locals.values])

/-- Going on with the function that a value stands for. -/
theorem callable_sound {k : Function → State} (h : Steady runtime w S)
    (hv : v.Sound runtime w.heap)
    (hk : ∀ f, (Value.function f).Sound runtime w.heap → (k f).Sound runtime) :
    State.Sound runtime
      (match w.callable v with
      | .error e => ⟨.raise e, S, w⟩
      | .ok f => k f) := by
  have hy := w.callable_yields admits_guest v
  split <;> rename_i he <;> rw [he] at hy
  · exact raise_sound h hy
  · apply hk
    rcases hy with rfl | ⟨name, hn⟩
    · exact hv
    · exact h.1.function hn

theorem evalCode_sound (hh : host.Sound runtime) (h : Steady runtime w S) {code : Code}
    (hc : code.Scoped l.names) (hl : ∀ v ∈ l.values, v.Sound runtime w.heap) :
    (evalCode S w host code l).Sound runtime := by
  have hQ := admits_guest
  have part : ∀ {c : Code} {frame : Frame}, c.Scoped l.names → frame.Scoped →
      frame.roots = l.values → State.Sound runtime ⟨.eval c l, frame :: S, w⟩ := by
    intro c frame hc hs hr
    exact (h.push hs (hr ▸ hl)).state hc hl
  cases hc with
  | const literal => exact giveValue_sound h (by cases literal <;> simp [Literal.value])
  | «local» hn => exact ofResult_sound h ((local?_yields hn).imp hl)
  | all hc =>
    rename_i codes
    cases codes with
    | nil => exact giveValue_sound h (Value.sound_bool true)
    | cons c codes =>
      obtain ⟨hc, hcs⟩ := List.forall_mem_cons.1 hc
      exact part hc (.all hcs) rfl
  | any hc =>
    rename_i codes
    cases codes with
    | nil => exact giveValue_sound h (Value.sound_bool false)
    | cons c codes =>
      obtain ⟨hc, hcs⟩ := List.forall_mem_cons.1 hc
      exact part hc (.any hcs) rfl
  | branch ht hy hn => exact part ht ⟨hy, hn⟩ rfl
  | cond ht hc hd =>
    rename_i clauses default
    rcases clauses with _ | ⟨⟨test, consequent⟩, clauses⟩
    · cases default with
      | none => exact raise_sound h (hQ _ trivial)
      | some c => exact h.state (hd c rfl) hl
    · obtain ⟨ht, hts⟩ := List.forall_mem_cons.1 ht
      obtain ⟨hc, hcs⟩ := List.forall_mem_cons.1 hc
      exact part ht ⟨hc, .cond hts hcs hd⟩ rfl
  | letIn hv hb => exact part hv hb rfl
  | seq he hlast =>
    rename_i effects last
    cases effects with
    | nil => exact h.state hlast hl
    | cons c effects =>
      obtain ⟨hc, hcs⟩ := List.forall_mem_cons.1 he
      exact part hc (.seq hcs hlast) rfl
  | lambda name hb =>
    obtain ⟨hf, hv⟩ := closure_sound h.1 name [_] hb hl
    exact giveValue_sound (h.follows hf) hv
  | freeze name hb =>
    obtain ⟨hf, hv⟩ := closure_sound h.1 name [] hb hl
    exact giveValue_sound (h.follows hf) hv
  | trapBind position hb hi => exact part hb hi rfl
  | trapApply position hb hf => exact part hb hf rfl
  | defun name hb =>
    obtain ⟨hf, hv⟩ := closure_sound (l := []) h.1 name _ (by simpa [Locals.names] using hb)
      (by simp [Locals.values])
    exact giveValue_sound (h.follows (hf.define name hv)) (Value.sound_symbol name)
  | globalValue name => exact ofResult_sound h ((w.value?_yields hQ name).imp fun _ => h.1.value)
  | setGlobal name hv => exact part hv trivial rfl
  | callLocal position hn ha =>
    rename_i name args
    obtain ⟨v, hv, hf⟩ := Locals.exists_find_of_mem hn
    simp only [evalCode, local?, hf]
    exact callable_sound h (hl v hv) fun f hf => evalArgs_sound h hf (by simp) ha hl position
  | callGlobal name position ha =>
    have hy := w.function?_yields hQ name
    simp only [evalCode]
    split <;> rename_i he <;> rw [he] at hy
    · exact raise_sound h hy
    · exact evalArgs_sound h (h.1.function hy) (by simp) ha hl position
  | callComputed position hc ha => exact part hc ha rfl
  | interop name ha =>
    have hy := w.interop?_yields hQ name
    simp only [evalCode]
    split <;> rename_i he <;> rw [he] at hy
    · exact raise_sound h hy
    · exact evalInterop_sound hh h _ (by simp) ha hl

/-- A function is entered with the arguments it takes, or becomes one that waits for the rest. -/
theorem runFunction_sound (h : Steady runtime w S) (hf : (Value.function f).Sound runtime w.heap)
    (ha : ∀ v ∈ args, v.Sound runtime w.heap) : (runFunction S w f args).Sound runtime := by
  have roots : ∀ vs : List Value, (∀ v ∈ vs, v ∈ args) →
      ∀ v ∈ (Control.enter f vs).roots, v.Sound runtime w.heap := by
    intro vs hs v hv
    rcases List.mem_append.1 hv with hv | hv
    · exact ha v (hs v hv)
    · exact List.mem_singleton.1 hv ▸ hf
  unfold runFunction
  split
  · rename_i hn
    exact h.state (by simp [Control.Fits, hn]) (roots args fun _ hv => hv)
  · rename_i n hn
    split
    · exact giveValue_sound h hf
    · split
      · rename_i hl
        obtain ⟨hs, hg⟩ := World.Follows.partialApply h.1 hn hl hf ha
        exact giveValue_sound (h.follows hs) hg
      · split
        · rename_i hlt hgt
          have hs : Steady runtime w (.surplus f (args.drop n) :: S) := by
            refine h.push trivial (List.forall_mem_cons.2 ⟨hf, fun v hv => ?_⟩)
            exact ha v (List.mem_of_mem_drop hv)
          refine hs.state ?_ (roots _ fun v hv => List.mem_of_mem_take hv)
          intro m hm
          obtain rfl : n = m := by simpa [hn] using hm
          simp only [List.length_take]
          omega
        · refine h.state ?_ (roots args fun _ hv => hv)
          intro m hm
          obtain rfl : n = m := by simpa [hn] using hm
          omega

theorem names_bindParams {params : List String} (hn : args.length = params.length) :
    params ++ l.names ⊆ (bindParams params args l).names := by
  intro name hm
  have hz : ((params.zip args).reverse.map Prod.fst).reverse = params := by
    rw [List.map_reverse, List.reverse_reverse, List.map_fst_zip (by omega)]
  simp only [bindParams, Locals.names, List.map_append, List.mem_append] at hm ⊢
  refine hm.imp_left fun hm => ?_
  rw [← hz, List.mem_reverse] at hm
  exact Locals.mem_names_visible.2 hm

theorem values_bindParams {params : List String} (hv : v ∈ (bindParams params args l).values) :
    v ∈ args ∨ v ∈ l.values := by
  simp only [bindParams, Locals.values, List.map_append, List.mem_append] at hv ⊢
  refine hv.imp_left fun hv => ?_
  have := Locals.mem_values_of_visible hv
  simp only [Locals.values, List.mem_map, List.mem_reverse] at this
  obtain ⟨e, he, rfl⟩ := this
  exact (List.of_mem_zip he).2

theorem enterFunction_sound (hh : host.Sound runtime) (h : Steady runtime w S)
    (hf : (Value.function f).Sound runtime w.heap) (ha : ∀ v ∈ args, v.Sound runtime w.heap)
    (hn : ∀ n, f.arity = some n → args.length = n) :
    (enterFunction S w host f args).Sound runtime := by
  obtain ⟨hfit, hparts⟩ := Value.sound_function.1 hf
  have hrt := h.1.runtime_eq
  unfold enterFunction
  cases hb : w.heap.body f with
  | primitive r op =>
    rw [hb] at hfit
    obtain ⟨rfl, hop⟩ := hfit
    obtain ⟨hs, hr⟩ := Primitive.call_sound h.1 ha (hn _ hop)
    simp only [hrt, if_true]
    exact ofResult_sound (h.follows hs) hr
  | evaluator r =>
    rw [hb] at hfit
    obtain ⟨rfl, -⟩ := hfit
    have hv : (args.headD .empty).Sound r w.heap := by
      cases args with
      | nil => exact Value.sound_empty
      | cons a args => exact ha a (by simp)
    have hk : Steady r w (.keep [args.headD .empty] :: S) :=
      h.push trivial (List.forall_mem_singleton.2 hv)
    have hk : Steady r w (.settle [] :: .keep [args.headD .empty] :: S) :=
      hk.push trivial (by simp [Frame.roots, Locals.values])
    simp only [hrt, if_true]
    exact evalForm_sound hk _
  | closure r params code captured =>
    rw [hb] at hfit hparts
    obtain ⟨rfl, harity, hc⟩ := hfit
    simp only [hrt, if_true]
    refine h.state (hc.mono (names_bindParams (hn _ harity))) fun v hv => ?_
    rcases values_bindParams hv with hv | hv
    · exact ha v hv
    · exact hparts v hv
  | partialOf target bound =>
    rw [hb] at hparts
    obtain ⟨ht, hbound⟩ := List.forall_mem_cons.1 hparts
    refine h.state trivial ?_
    simpa [Control.roots, or_imp, forall_and] using ⟨hbound, ha, ht⟩
  | native op held =>
    rw [hb] at hparts
    exact native_sound hh h op (by simpa [or_imp, forall_and] using ⟨hparts, ha⟩)
  | async op held =>
    rw [hb] at hparts
    exact poll_sound hh h op (by simpa [or_imp, forall_and] using ⟨hparts, ha⟩)
  | missing =>
    rw [hb] at hfit
    exact hfit.elim

/-- Going on with a truth value. -/
theorem toBool_sound {yes no : State} (h : Steady runtime w S) (v : Value)
    (hy : yes.Sound runtime) (hn : no.Sound runtime) :
    State.Sound runtime
      (match v.toBool with
      | .error e => ⟨.raise e, S, w⟩
      | .ok true => yes
      | .ok false => no) := by
  have hb := v.toBool_yields admits_guest
  split <;> rename_i he <;> rw [he] at hb
  · exact raise_sound h hb
  · exact hy
  · exact hn

theorem resumeFrame_sound (hh : host.Sound runtime) (h : Steady runtime w S) {frame : Frame}
    (hf : frame.Sound runtime w.heap) (hv : v.Sound runtime w.heap) :
    (resumeFrame S w host frame v).Sound runtime := by
  obtain ⟨hs, hl⟩ := hf
  cases frame with
  | settle | trap | keep => exact giveValue_sound h hv
  | all rest l =>
    exact toBool_sound h v (h.state hs hl) (giveValue_sound h (Value.sound_bool false))
  | any rest l =>
    exact toBool_sound h v (giveValue_sound h (Value.sound_bool true)) (h.state hs hl)
  | branch yes no l => exact toBool_sound h v (h.state hs.1 hl) (h.state hs.2 hl)
  | cond consequent rest default l => exact toBool_sound h v (h.state hs.1 hl) (h.state hs.2 hl)
  | letIn name body l => exact h.state hs (List.forall_mem_cons.2 ⟨hv, hl⟩)
  | seq rest last l => exact h.state hs hl
  | handle caught position l =>
    obtain ⟨hc, hl⟩ := List.forall_mem_cons.1 hl
    exact callable_sound h hv fun f hf =>
      call_sound h hf (List.forall_mem_singleton.2 hc) hl position
  | setGlobal name l =>
    exact giveValue_sound (h.follows ⟨h.1.setValue name hv, .refl _⟩) hv
  | callee codes position l =>
    exact callable_sound h hv fun f hf => evalArgs_sound h hf (by simp) hs hl position
  | args f done codes position l =>
    simp only [Frame.roots, List.mem_append, List.mem_reverse, List.mem_cons, or_imp, forall_and,
      forall_eq] at hl
    exact evalArgs_sound h hl.2.1 (List.forall_mem_cons.2 ⟨hv, hl.1⟩) hs hl.2.2 position
  | interop op done codes l =>
    simp only [Frame.roots, List.mem_append, List.mem_reverse, or_imp, forall_and] at hl
    exact evalInterop_sound hh h op (List.forall_mem_cons.2 ⟨hv, hl.1⟩) hs hl.2
  | surplus f args =>
    obtain ⟨hf, ha⟩ := List.forall_mem_cons.1 hl
    cases v with
    | function g =>
      have hk : Steady runtime w (.keep [.function f] :: S) :=
        h.push trivial (List.forall_mem_singleton.2 hf)
      exact hk.state trivial (by simpa [Control.roots, or_imp, forall_and] using ⟨ha, hv⟩)
    | _ => exact raise_sound h (admits_guest _ trivial)
  | forms last rest =>
    cases rest with
    | nil => exact giveValue_sound h hv
    | cons form rest =>
      have hk : w.heap.Keeps runtime (form.build w.heap).2 := Form.keeps_build form w.heap
      have hs := h.follows (.withHeap h.1 hk)
      have hs : Steady runtime _ (.forms v rest :: S) :=
        hs.push trivial (List.forall_mem_singleton.2 (hk v hv))
      exact evalForm_sound hs _

theorem unwind_sound {e : Error} {frame : Frame} (h : Steady runtime w S) (he : e.Guest)
    (hf : frame.Sound runtime w.heap) : (unwind S w e frame).Sound runtime := by
  obtain ⟨hs, hl⟩ := hf
  cases frame with
  | trap handler position l =>
    have hk : w.heap.Keeps runtime (w.heap.error e.message).2 := Heap.keeps_of_eq rfl rfl
    have h' := h.follows (.withHeap h.1 hk)
    have hl' : ∀ v ∈ l.values, v.Sound runtime (w.heap.error e.message).2 :=
      fun v hv => hk v (hl v hv)
    have hc : (w.heap.error e.message).1.Sound runtime (w.heap.error e.message).2 :=
      Value.sound_error _ _
    cases handler with
    | bind param body => exact h'.state hs (List.forall_mem_cons.2 ⟨hc, hl'⟩)
    | apply function =>
      have hp : Steady runtime _ (.handle _ position l :: S) :=
        h'.push trivial (List.forall_mem_cons.2 ⟨hc, hl'⟩)
      exact hp.state hs hl'
  | _ => exact raise_sound h he

/-- Every move of a sound state leads to one. -/
theorem move_sound (hh : host.Sound runtime) {s : State} (hs : s.Sound runtime) :
    (move host s).Sound runtime := by
  obtain ⟨c, S, w⟩ := s
  obtain ⟨hw, hc, hv, hS⟩ := hs
  have h : Steady runtime w S := ⟨hw, hS⟩
  cases c with
  | eval code l => exact evalCode_sound hh h hc hv
  | run f args =>
    simp only [Control.roots, List.mem_append, List.mem_singleton, or_imp, forall_and,
      forall_eq] at hv
    exact runFunction_sound h hv.2 hv.1
  | enter f args =>
    simp only [Control.roots, List.mem_append, List.mem_singleton, or_imp, forall_and,
      forall_eq] at hv
    exact enterFunction_sound hh h hv.2 hv.1 hc
  | wait op held args => exact poll_sound hh h op hv
  | raise e =>
    cases S with
    | nil => exact ⟨hw, hc, hv, hS⟩
    | cons frame S =>
      obtain ⟨hf, hS⟩ := List.forall_mem_cons.1 hS
      exact unwind_sound ⟨hw, hS⟩ hc hf
  | give step =>
    cases S with
    | nil => cases step <;> exact ⟨hw, hc, hv, hS⟩
    | cons frame S =>
      obtain ⟨hf, hS'⟩ := List.forall_mem_cons.1 hS
      cases step with
      | done v => exact resumeFrame_sound hh ⟨hw, hS'⟩ hf (hv v (by simp [Control.roots]))
      | bounce f args =>
        have hr : ∀ v ∈ (Control.run f args).roots, v.Sound runtime w.heap := by
          intro v hm
          exact hv v (by simpa [Control.roots, or_comm] using hm)
        cases frame with
        | keep vs => exact ⟨hw, hc, hv, hS'⟩
        | _ => exact h.state trivial hr

theorem Runs.sound {mode : Mode} {n : Nat} {s t : State} {es : List Effect}
    (hh : host.Sound runtime) (hr : Runs host mode n s es t) (hs : s.Sound runtime) :
    t.Sound runtime := by
  induction hr with
  | refl => exact hs
  | move _ _ ih => exact ih (move_sound hh hs)

end Machine

/-- A sound world, and with it a sound value or an error that is no fault. -/
def Faultless (runtime : Nat) (r : Outcome Value × World) : Prop :=
  r.2.Sound runtime ∧
    match r.1 with
    | .ok v => v.Sound runtime r.2.heap
    | .error e => e.Guest
    | .exhausted => True

/-- The worlds of a live engine: a new one, and what becomes of it as the host adds functions and
values that are in order and as programs are run. -/
inductive World.Live (host : Host) (runtime : Nat) : World → Prop
  | create (heap : Heap) (options : Options) (now : Float) :
      Live host runtime (World.create heap options runtime now)
  | registerNative {w : World} (hw : Live host runtime w) (name : String) (arity : Option Nat)
      (op : String) : Live host runtime (w.registerNative name arity op)
  | registerAsync {w : World} (hw : Live host runtime w) (name : String) (arity : Option Nat)
      (op : String) : Live host runtime (w.registerAsync name arity op)
  | registerInterop {w : World} (hw : Live host runtime w) (name op : String) :
      Live host runtime (w.registerInterop name op)
  | setValue {w : World} (hw : Live host runtime w) (name : String) {v : Value}
      (hv : v.Sound runtime w.heap) : Live host runtime (w.setValue name v)
  | define {w : World} (hw : Live host runtime w) (name : String) {f : Function}
      (hf : (Value.function f).Sound runtime w.heap) : Live host runtime (w.define name f)
  | withHeap {w : World} (hw : Live host runtime w) {h : Heap} (hk : w.heap.Keeps runtime h) :
      Live host runtime { w with heap := h }
  | evalSource {w : World} (hw : Live host runtime w) (mode : Mode) (fuel : Nat)
      (source : String) : Live host runtime (w.evalSource host mode fuel source).2
  | evalForm {w : World} (hw : Live host runtime w) (mode : Mode) (fuel : Nat) (form : Value) :
      Live host runtime (w.evalForm host mode fuel form).2
  | apply {w : World} (hw : Live host runtime w) (mode : Mode) (fuel : Nat) {f : Value}
      {args : List Value} (ha : ∀ v ∈ f :: args, v.Sound runtime w.heap) :
      Live host runtime (w.apply host mode fuel f args).2

/-- The states that the evaluation of source text, of a form and of an application start from. -/
inductive World.Starts (runtime : Nat) (w : World) : State → Prop
  | source (forms : List Form) : Starts runtime w ⟨.give (.done .empty), [.forms .empty forms], w⟩
  | form {form : Value} {code : Code} (hc : (w.compileForm form).1 = .ok code) :
      Starts runtime w ⟨.eval code [], [.settle []], (w.compileForm form).2⟩
  | apply {v : Value} {f : Function} {args : List Value} (hf : w.callable v = .ok f)
      (ha : ∀ u ∈ v :: args, u.Sound runtime w.heap) :
      Starts runtime w ⟨.run f args, [.settle []], w⟩

variable {runtime : Nat} {host : Host} {w : World}

theorem World.Starts.sound {s : State} (hw : w.Sound runtime) (hs : w.Starts runtime s) :
    s.Sound runtime := by
  have settle : ∀ {w : World}, w.Sound runtime → Machine.Steady runtime w [.settle []] := by
    intro w hw
    exact ⟨hw, List.forall_mem_singleton.2 ⟨trivial, by simp [Frame.roots, Locals.values]⟩⟩
  cases hs with
  | source forms =>
    refine ⟨hw, trivial, by simp [Control.roots], ?_⟩
    exact List.forall_mem_singleton.2 ⟨trivial, by simp [Frame.roots]⟩
  | form hc =>
    rename_i form code
    have hy : Yields (Code.Scoped []) Error.Syntactic (w.compileForm form).1 :=
      compile_yields _ form
    rw [hc] at hy
    exact (settle (hw.report _)).state hy (by simp [Control.roots, Locals.values])
  | apply hf ha =>
    rename_i v f args
    obtain ⟨hv, ha⟩ := List.forall_mem_cons.1 ha
    have hy := w.callable_yields admits_guest v
    rw [hf] at hy
    have hg : (Value.function f).Sound runtime w.heap := by
      rcases hy with rfl | ⟨name, hn⟩
      · exact hv
      · exact hw.function hn
    exact (settle hw).state trivial (by simpa [Control.roots, or_imp, forall_and] using ⟨ha, hg⟩)

namespace Machine

theorem drive_faultless (hh : host.Sound runtime) (mode : Mode) (fuel : Nat) {s : State}
    (hs : s.Sound runtime) : Faultless runtime (valueOf (drive host mode fuel s)) := by
  induction fuel generalizing s with
  | zero => exact ⟨hs.world, trivial⟩
  | succ fuel ih =>
    cases hr : result? mode s with
    | none =>
      rw [drive_succ hr]
      exact ih (move_sound hh hs)
    | some o =>
      obtain ⟨c, S, w⟩ := s
      simp only [drive, hr]
      unfold result? at hr
      split at hr <;> cases hr
      · rename_i step hc _
        obtain rfl : c = .give step := hc
        cases step with
        | done v => exact ⟨hs.world, hs.values v (by simp [Control.roots])⟩
        | bounce f args => exact ⟨hs.world, hs.values _ (by simp [Control.roots])⟩
      · rename_i e hc _
        obtain rfl : c = .raise e := hc
        exact ⟨hs.world, hs.control⟩
      · exact ⟨hs.world, fun fault => by simp⟩

end Machine

namespace World

theorem admits_faultless {mode : Mode} {e : Error} (h : w.admits mode = .error e) : e.Guest := by
  unfold admits at h
  split at h
  · cases h
    simp [Error.Guest]
  · cases h

theorem evalSource_faultless (hh : host.Sound runtime) (hw : w.Sound runtime) (mode : Mode)
    (fuel : Nat) (source : String) : Faultless runtime (w.evalSource host mode fuel source) := by
  unfold evalSource
  split
  · exact ⟨hw, admits_faultless ‹_›⟩
  · split
    · exact ⟨hw, fun fault => by simp⟩
    · exact Machine.drive_faultless hh mode fuel (Starts.sound hw (.source _))

theorem evalForm_faultless (hh : host.Sound runtime) (hw : w.Sound runtime) (mode : Mode)
    (fuel : Nat) (form : Value) : Faultless runtime (w.evalForm host mode fuel form) := by
  have hy : Yields (Code.Scoped []) Error.Syntactic (w.compileForm form).1 := compile_yields _ form
  have hr : (w.compileForm form).2.Sound runtime := hw.report _
  unfold evalForm
  split
  · exact ⟨hw, admits_faultless ‹_›⟩
  · split <;> rename_i hc
    · rw [hc] at hy hr
      refine ⟨hr, ?_⟩
      rintro fault rfl
      exact hy
    · have hs : w.Starts runtime ⟨.eval _ [], [.settle []], (w.compileForm form).2⟩ :=
        .form (by rw [hc])
      rw [hc] at hs
      exact Machine.drive_faultless hh mode fuel (hs.sound hw)

theorem apply_faultless (hh : host.Sound runtime) (hw : w.Sound runtime) (mode : Mode)
    (fuel : Nat) {f : Value} {args : List Value} (ha : ∀ v ∈ f :: args, v.Sound runtime w.heap) :
    Faultless runtime (w.apply host mode fuel f args) := by
  have hy := w.callable_yields admits_guest f
  unfold apply
  split
  · exact ⟨hw, admits_faultless ‹_›⟩
  · split <;> rename_i hc
    · rw [hc] at hy
      exact ⟨hw, hy⟩
    · exact Machine.drive_faultless hh mode fuel (Starts.sound hw (.apply hc ha))

/-- A live engine is sound at any time. -/
theorem Live.sound (hh : host.Sound runtime) (hw : w.Live host runtime) : w.Sound runtime := by
  induction hw with
  | create heap options now => exact .create heap options runtime now
  | registerNative _ name arity op ih => exact ih.registerNative name arity op
  | registerAsync _ name arity op ih => exact ih.registerAsync name arity op
  | registerInterop _ name op ih => exact ⟨ih.runtime_eq, ih.functions, ih.values⟩
  | setValue _ name hv ih => exact ih.setValue name hv
  | define _ name hf ih => exact ih.define name hf
  | withHeap _ hk ih => exact ih.withHeap hk
  | evalSource _ mode fuel source ih => exact (evalSource_faultless hh ih mode fuel source).1
  | evalForm _ mode fuel form ih => exact (evalForm_faultless hh ih mode fuel form).1
  | apply _ mode fuel ha ih => exact (apply_faultless hh ih mode fuel ha).1

end World

/-- What every state of a live engine shows: no fault is raised, a local that is looked up is bound,
primitives and closures are entered with the arguments that they take, and every partial application
in reach waits for some more. -/
structure State.Orderly (s : State) : Prop where
  raised (fault : Fault) : s.control ≠ .raise (.internal fault)
  bound (name : String) (l : Locals) :
    (s.control = .eval (.local name) l ∨
      ∃ args position, s.control = .eval (.call (.local name) args position) l) →
    ∃ v, Table.find name l = some v
  primitive (f : Function) (args : List Value) (r : Nat) (op : Primitive) :
    s.control = .enter f args → s.world.heap.body f = .primitive r op → args.length = op.arity
  closure (f : Function) (args : List Value) (r : Nat) (params : List String) (code : Code)
    (captured : Locals) :
    s.control = .enter f args → s.world.heap.body f = .closure r params code captured →
    args.length = params.length
  waiting (v : Value) (f target : Function) (bound : List Value) :
    v ∈ s.roots → s.world.heap.Reaches v (.function f) →
    s.world.heap.body f = .partialOf target bound →
    ∃ n, target.arity = some n ∧ bound.length < n

theorem State.Sound.orderly {s : State} (hs : s.Sound runtime) : s.Orderly := by
  obtain ⟨c, S, w⟩ := s
  obtain ⟨hw, hc, hv, hS⟩ := hs
  have entered : ∀ f args, c = .enter f args → (w.heap.body f).Fits runtime f.arity := by
    rintro f args rfl
    exact hv (.function f) (by simp [Control.roots]) _ (.refl _)
  constructor
  · rintro fault rfl
    exact hc fault rfl
  · rintro name l (rfl | ⟨args, position, rfl⟩) <;> cases hc <;> rename_i hn
    · obtain ⟨v, -, hf⟩ := Locals.exists_find_of_mem hn
      exact ⟨v, hf⟩
    · obtain ⟨v, -, hf⟩ := Locals.exists_find_of_mem (by assumption)
      exact ⟨v, hf⟩
  · rintro f args r op rfl hb
    have hf := entered f args rfl
    rw [hb] at hf
    exact hc _ hf.2
  · rintro f args r params code captured rfl hb
    have hf := entered f args rfl
    rw [hb] at hf
    exact hc _ hf.2.1
  · intro v f target bound hm hr hb
    have hf : (Value.function f).Sane runtime w.heap := by
      simp only [State.roots, List.mem_append, List.mem_flatMap] at hm
      rcases hm with (hm | ⟨frame, hframe, hm⟩) | hm
      · exact hv v hm _ hr
      · exact (hS frame hframe).2 v hm _ hr
      · exact hw.roots hm _ hr
    simp only [Value.Sane, hb] at hf
    obtain ⟨n, hn, hl, -⟩ := hf
    exact ⟨n, hn, hl⟩

/-- In a live engine whose host is in order, no step of any evaluation raises an internal error,
trapped or not, and so none is ever the answer. -/
theorem internal_errors_unreachable (hh : host.Sound runtime) (hw : w.Live host runtime)
    (mode : Mode) :
    (∀ s, w.Starts runtime s → ∀ n es t, Machine.Runs host mode n s es t → t.Orderly) ∧
    (∀ fuel source fault, (w.evalSource host mode fuel source).1 ≠ .error (.internal fault)) ∧
    (∀ fuel form fault, (w.evalForm host mode fuel form).1 ≠ .error (.internal fault)) ∧
    ∀ fuel f args, (∀ v ∈ f :: args, v.Sound runtime w.heap) →
      ∀ fault, (w.apply host mode fuel f args).1 ≠ .error (.internal fault) := by
  have hs := hw.sound hh
  have guest : ∀ {r : Outcome Value × World} (fault : Fault), Faultless runtime r →
      r.1 ≠ .error (.internal fault) := by
    rintro ⟨o, w⟩ fault ⟨-, ho⟩ rfl
    exact ho fault rfl
  refine ⟨fun s hst n es t hr => ?_, ?_, ?_, ?_⟩
  · exact (hr.sound hh (hst.sound hs)).orderly
  · exact fun fuel source fault => guest fault (World.evalSource_faultless hh hs mode fuel source)
  · exact fun fuel form fault => guest fault (World.evalForm_faultless hh hs mode fuel form)
  · exact fun fuel f args ha fault => guest fault (World.apply_faultless hh hs mode fuel ha)

theorem Host.sound_echo (runtime : Nat) : Host.Sound runtime .echo where
  native op held args h ha := by
    refine ⟨.refl h, ?_⟩
    cases args with
    | nil => exact Value.sound_empty
    | cons a args => exact ha a (by simp)
  async op held args h ha := by
    simp only [Host.echo]
    split
    · refine ⟨.refl h, ?_⟩
      cases args with
      | nil => exact Value.sound_empty
      | cons a args => exact ha a (by simp)
    · exact ⟨.refl h, fun v hv => ha v (by simp [hv])⟩

/-- A new engine to which the host has added a function of two arguments. -/
theorem internal_errors_unreachable_echo :
    Host.Sound 0 .echo ∧
    World.Live .echo 0 ((World.create .empty {} 0 0).registerNative "f" (some 2) "first") ∧
    ∀ fuel source fault,
      (((World.create .empty {} 0 0).registerNative "f" (some 2) "first").evalSource Host.echo .sync
        fuel source).1 ≠ .error (.internal fault) := by
  have hh := Host.sound_echo 0
  have hw : World.Live .echo 0 ((World.create .empty {} 0 0).registerNative "f" (some 2) "first") :=
    .registerNative (.create .empty {} 0) "f" (some 2) "first"
  exact ⟨hh, hw, (internal_errors_unreachable hh hw .sync).2.1⟩

end KLambda
