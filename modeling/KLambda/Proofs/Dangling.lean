import KLambda.Proofs.Faultless
import KLambda.Proofs.Grounded

/-!
No function ever dangles. A new engine is grounded, and every move of a grounded state leads to one,
as long as the host hands in functions that are in the heap. Bodies are only ever added, so what is
grounded once stays so.
-/
namespace KLambda

/-- A world that a grounded one may become: grounded too, and with no fewer bodies. -/
structure World.Grows (w w' : World) : Prop where
  grounded : w'.Grounded
  le : w.heap.bodies.size ≤ w'.heap.bodies.size

/-- A host that hands in functions that are in the heap when it is given such. -/
structure Host.Grounded (host : Host) : Prop where
  native (op : String) (held args : List Value) {h : Heap} (hg : h.Grounded)
    (ha : ∀ v ∈ held ++ args, v.Grounded h.bodies.size) :
    (host.native op held args h).2.Grounded ∧
      h.bodies.size ≤ (host.native op held args h).2.bodies.size ∧
      ∀ v, (host.native op held args h).1 = .ok v →
        v.Grounded (host.native op held args h).2.bodies.size
  async (op : String) (held args : List Value) {h : Heap} (hg : h.Grounded)
    (ha : ∀ v ∈ held ++ args, v.Grounded h.bodies.size) :
    (host.async op held args h).2.Grounded ∧
      h.bodies.size ≤ (host.async op held args h).2.bodies.size ∧
      match (host.async op held args h).1 with
      | .ready r => ∀ v, r = .ok v → v.Grounded (host.async op held args h).2.bodies.size
      | .later _ kept => ∀ v ∈ kept, v.Grounded (host.async op held args h).2.bodies.size

namespace Heap.Grounded

variable {h h' : Heap}

theorem empty : Heap.empty.Grounded where
  bodies i v hv := by simp [Heap.empty, Body.parts] at hv
  vectors id v hv := by simp [Heap.empty, elements] at hv

/-- Marks, streams and files have no part in it. -/
theorem of_eq (hg : h.Grounded) (hb : h'.bodies = h.bodies) (hv : h'.vectors = h.vectors) :
    h'.Grounded where
  bodies i v hm := by
    rw [hb] at hm ⊢
    exact hg.bodies i v hm
  vectors id v hm := by
    rw [elements, hv] at hm
    rw [hb]
    exact hg.vectors id v hm

theorem function (hg : h.Grounded) (name : String) (arity : Option Nat) {b : Body}
    (hp : ∀ v ∈ b.parts, v.Grounded h.bodies.size) : (h.function name arity b).2.Grounded := by
  have hle : h.bodies.size ≤ (h.function name arity b).2.bodies.size := by
    simp [Heap.function]
  constructor
  · intro i v hv
    simp only [Heap.function, getD_push] at hv
    split at hv
    · exact (hp v hv).mono hle
    · exact (hg.bodies i v hv).mono hle
  · intro id v hv
    exact (hg.vectors id v hv).mono hle

theorem vector (hg : h.Grounded) {items : Array Value}
    (hi : ∀ v ∈ items, v.Grounded h.bodies.size) : (h.vector items).2.Grounded := by
  refine ⟨hg.bodies, fun id v hv => ?_⟩
  simp only [Heap.vector, elements, getD_push] at hv
  split at hv
  · exact hi v hv
  · exact hg.vectors id v hv

theorem setElement (hg : h.Grounded) (id index : Nat) {x : Value}
    (hx : x.Grounded h.bodies.size) : (h.setElement id index x).Grounded := by
  refine ⟨hg.bodies, fun i v hv => ?_⟩
  rw [elements_setElement] at hv
  split at hv
  · rcases Array.mem_or_eq_of_mem_setIfInBounds hv with hm | rfl
    · exact hg.vectors i v hm
    · exact hx
  · exact hg.vectors i v hv

end Heap.Grounded

variable {w w' : World} {f : Function} {v : Value}

theorem World.Grounded.function (hw : w.Grounded) {name : String}
    (hf : w.functions.get? name = some f) : w.Holds (.function f) := by
  obtain ⟨e, he, rfl⟩ := Table.mem_of_find hf
  exact hw.functions e he

theorem World.Grounded.value (hw : w.Grounded) {name : String} (hv : w.values.get? name = some v) :
    w.Holds v := by
  obtain ⟨e, he, rfl⟩ := Table.mem_of_find hv
  exact hw.values e he

namespace World.Grows

theorem refl (hw : w.Grounded) : w.Grows w := ⟨hw, Nat.le_refl _⟩

theorem trans {u : World} (h : w.Grows w') (h' : w'.Grows u) : w.Grows u :=
  ⟨h'.grounded, Nat.le_trans h.le h'.le⟩

theorem holds (h : w.Grows w') (hv : w.Holds v) : w'.Holds v := hv.mono h.le

theorem withHeap (hw : w.Grounded) {h : Heap} (hh : h.Grounded)
    (hle : w.heap.bodies.size ≤ h.bodies.size) : w.Grows { w with heap := h } where
  grounded := ⟨hh, fun e he => Nat.lt_of_lt_of_le (hw.functions e he) hle,
    fun e he => (hw.values e he).mono hle⟩
  le := hle

/-- Only bodies, vectors and globals matter. -/
theorem of_eq (hw : w.Grounded) (hb : w'.heap.bodies = w.heap.bodies)
    (hv : w'.heap.vectors = w.heap.vectors) (hf : w'.functions = w.functions)
    (hx : w'.values = w.values) : w.Grows w' where
  grounded := by
    refine ⟨hw.heap.of_eq hb hv, ?_, ?_⟩
    · rw [hf, hb]
      exact hw.functions
    · rw [hx, hb]
      exact hw.values
  le := Nat.le_of_eq (by rw [hb])

theorem of_touches (hw : w.Grounded) (h : w.Touches w') : w.Grows w' := by
  cases h with
  | intro heap reports hb hv => exact of_eq hw hb hv rfl rfl

theorem setValue (hw : w.Grounded) (name : String) (hv : w.Holds v) :
    w.Grows (w.setValue name v) := by
  refine ⟨⟨hw.heap, hw.functions, fun e he => ?_⟩, Nat.le_refl _⟩
  rcases Table.of_mem_put he with he | he
  · exact hw.values e he
  · exact he ▸ hv

theorem define (hw : w.Grounded) (name : String) (hf : w.Holds (.function f)) :
    w.Grows (w.define name f) := by
  refine ⟨⟨hw.heap, fun e he => ?_, hw.values⟩, Nat.le_refl _⟩
  rcases Table.of_mem_put he with he | he
  · exact hw.functions e he
  · exact he ▸ hf

theorem makeFunction (hw : w.Grounded) (name : String) (arity : Option Nat) {b : Body}
    (hp : ∀ v ∈ b.parts, w.Holds v) :
    w.Grows (w.makeFunction name arity b).2 ∧
      (w.makeFunction name arity b).2.Holds (.function (w.makeFunction name arity b).1) := by
  refine ⟨withHeap hw (hw.heap.function name arity hp) (by simp), ?_⟩
  simp [Value.Grounded, World.makeFunction, Heap.function]

theorem partialApply (hw : w.Grounded) (hf : w.Holds (.function f)) {bound : List Value}
    (hb : ∀ v ∈ bound, w.Holds v) :
    w.Grows (w.partialApply f bound).2 ∧
      (w.partialApply f bound).2.Holds (.function (w.partialApply f bound).1) := by
  have hr : w.Grows (w.report (.partialApplication f.name bound.length)) :=
    of_eq hw rfl rfl rfl rfl
  obtain ⟨hs, hg⟩ := makeFunction hr.grounded f.name (f.arity.map (· - bound.length))
    (b := .partialOf f bound) (List.forall_mem_cons.2 ⟨hf, hb⟩)
  exact ⟨hr.trans hs, hg⟩

end World.Grows

theorem guarded_grounded {h : Heap} (hg : h.Grounded) :
    Guarded h (Value.Grounded h.bodies.size) fun _ => True where
  admits _ _ := trivial
  atom v hv := by cases v <;> first | trivial | simp [Value.kind] at hv
  number _ _ := trivial
  cell _ _ _ hv := hv
  element id size i _ _ :=
    ⟨fun x hx => hg.vectors id x (Array.mem_of_getElem? hx), fun _ => trivial⟩

namespace Primitive

/-- A primitive that is given values of a grounded world leaves one, and answers with a value of
it. -/
theorem call_grounded (hw : w.Grounded) {args : List Value} (ha : ∀ v ∈ args, w.Holds v)
    (p : Primitive) :
    w.Grows (p.call args w).2 ∧
      Yields (p.call args w).2.Holds (fun _ => True) (p.call args w).1 := by
  have hQ : Admits fun _ => True := fun _ _ => trivial
  fun_cases Primitive.call p args w
  case case1 path mode =>
    refine ⟨World.Grows.of_touches hw (openFile_touches w path mode),
      (openFile_yields hQ w path mode).imp ?_⟩
    rintro _ ⟨s, rfl⟩
    trivial
  case case2 s =>
    refine ⟨World.Grows.of_touches hw (closeFile_touches w s), (closeFile_yields hQ w s).imp ?_⟩
    rintro _ rfl
    trivial
  case case3 s =>
    refine ⟨World.Grows.of_touches hw (readFrom_touches w s), (readFrom_yields hQ w s).imp ?_⟩
    rintro _ ⟨n, -, rfl⟩
    trivial
  case case4 b s =>
    have hg := World.Grows.of_touches hw (writeTo_touches w b s)
    refine ⟨hg, (writeTo_yields hQ w b s).imp ?_⟩
    rintro _ rfl
    exact hg.holds (ha _ (by simp))
  case case5 head tail v heap he =>
    cases he
    exact ⟨.of_eq hw rfl rfl rfl rfl, ha head (by simp), ha tail (by simp)⟩
  case case6 n =>
    unfold makeVector
    split
    · exact ⟨.refl hw, trivial⟩
    · refine ⟨.withHeap hw (hw.heap.vector ?_) (Nat.le_refl _), trivial⟩
      intro v hv
      obtain ⟨-, rfl⟩ := Array.mem_replicate.1 hv
      trivial
  case case7 v i x =>
    unfold storeElement
    split
    · exact ⟨.refl hw, trivial⟩
    · exact ⟨.withHeap hw (hw.heap.setElement _ _ (ha x (by simp))) (Nat.le_refl _),
        ha v (by simp)⟩
  case case8 => exact ⟨.refl hw, trivial⟩
  case case9 name v s _ => exact ⟨.setValue hw s (ha v (by simp)), ha v (by simp)⟩
  case case10 name =>
    refine ⟨.refl hw, (name.toSymbol_yields hQ).bind fun s _ => ?_⟩
    exact (w.value?_yields hQ s).imp fun _ => hw.value
  case case11 mode =>
    refine ⟨.refl hw, (time_yields hQ w mode).imp ?_⟩
    rintro _ (rfl | rfl) <;> trivial
  case case12 =>
    unfold computed
    split
    next hr => exact ⟨.refl hw, compute_yields (guarded_grounded hw.heap) ha hr⟩
    next => exact ⟨.refl hw, trivial⟩

end Primitive

/-- A grounded world that holds everything the state refers to. -/
structure State.Grounded (s : State) : Prop where
  world : s.world.Grounded
  control (v : Value) : v ∈ s.control.roots → s.world.Holds v
  stack (frame : Frame) : frame ∈ s.stack → ∀ v ∈ frame.roots, s.world.Holds v

namespace Machine

variable {host : Host} {S : List Frame} {l : Locals} {args done : List Value} {codes : List Code}

/-- A grounded world that holds everything the stack refers to. -/
def Anchored (w : World) (S : List Frame) : Prop :=
  w.Grounded ∧ ∀ frame ∈ S, ∀ v ∈ frame.roots, w.Holds v

theorem Anchored.grows (h : Anchored w S) (hg : w.Grows w') : Anchored w' S :=
  ⟨hg.grounded, fun frame hm v hv => hg.holds (h.2 frame hm v hv)⟩

theorem Anchored.push {frame : Frame} (h : Anchored w S) (hv : ∀ v ∈ frame.roots, w.Holds v) :
    Anchored w (frame :: S) :=
  ⟨h.1, List.forall_mem_cons.2 ⟨hv, h.2⟩⟩

theorem Anchored.state {c : Control} (h : Anchored w S) (hv : ∀ v ∈ c.roots, w.Holds v) :
    State.Grounded ⟨c, S, w⟩ :=
  ⟨h.1, hv, h.2⟩

theorem giveValue_grounded (h : Anchored w S) (hv : w.Holds v) : (giveValue S w v).Grounded :=
  h.state (by simpa [Control.roots] using hv)

theorem raise_grounded (h : Anchored w S) (e : Error) : State.Grounded ⟨.raise e, S, w⟩ :=
  h.state (by simp [Control.roots])

theorem ofResult_grounded {r : Except Error Value} (h : Anchored w S)
    (hr : ∀ v, r = .ok v → w.Holds v) : (ofResult S w r).Grounded := by
  cases r with
  | ok v => exact giveValue_grounded h (hr v rfl)
  | error e => exact raise_grounded h e

theorem local?_holds (hl : ∀ v ∈ l.values, w.Holds v) {name : String} (hv : local? l name = .ok v) :
    w.Holds v := by
  unfold local? at hv
  split at hv
  · rename_i u hu
    obtain ⟨e, he, rfl⟩ := Table.mem_of_find hu
    cases hv
    exact hl _ (List.mem_map_of_mem he)
  · cases hv

theorem call_grounded (h : Anchored w S) (hf : w.Holds (.function f)) (ha : ∀ v ∈ args, w.Holds v)
    (hl : ∀ v ∈ l.values, w.Holds v) (position : CallPosition) :
    (call S w f args position l).Grounded := by
  cases position with
  | tail => exact h.state (List.forall_mem_cons.2 ⟨hf, ha⟩)
  | head =>
    have hs : Anchored w (.settle l :: S) := h.push hl
    exact hs.state (by simpa [Control.roots, or_imp, forall_and] using ⟨ha, hf⟩)

theorem evalArgs_grounded (h : Anchored w S) (hf : w.Holds (.function f))
    (hd : ∀ v ∈ done, w.Holds v) (hl : ∀ v ∈ l.values, w.Holds v) (position : CallPosition) :
    (evalArgs S w f done codes position l).Grounded := by
  cases codes with
  | nil => exact call_grounded h hf (by simpa using hd) hl position
  | cons c codes =>
    have hs : Anchored w (.args f done codes position l :: S) := by
      refine h.push ?_
      simpa [Frame.roots, or_imp, forall_and] using ⟨hd, hf, hl⟩
    exact hs.state hl

theorem native_grounded (hh : host.Grounded) (h : Anchored w S) (op : String) {held : List Value}
    (ha : ∀ v ∈ held ++ args, w.Holds v) :
    (ofResult S { w with heap := (host.native op held args w.heap).2 }
      (host.native op held args w.heap).1).Grounded := by
  obtain ⟨hg, hle, hr⟩ := hh.native op held args h.1.heap ha
  exact ofResult_grounded (h.grows (.withHeap h.1 hg hle)) hr

theorem evalInterop_grounded (hh : host.Grounded) (h : Anchored w S) (op : String)
    (hd : ∀ v ∈ done, w.Holds v) (hl : ∀ v ∈ l.values, w.Holds v) :
    (evalInterop S w host op done codes l).Grounded := by
  cases codes with
  | nil => exact native_grounded hh h op (by simpa using hd)
  | cons c codes =>
    have hs : Anchored w (.interop op done codes l :: S) := by
      refine h.push ?_
      simpa [Frame.roots, or_imp, forall_and] using ⟨hd, hl⟩
    exact hs.state hl

theorem poll_grounded (hh : host.Grounded) (h : Anchored w S) (op : String) {held : List Value}
    (ha : ∀ v ∈ held ++ args, w.Holds v) : (poll S w host op held args).Grounded := by
  obtain ⟨hg, hle, hr⟩ := hh.async op held args h.1.heap ha
  unfold poll
  split <;> rename_i he <;> rw [he] at hg hle hr
  · exact ofResult_grounded (h.grows (.withHeap h.1 hg hle)) hr
  · refine (h.grows (.withHeap h.1 hg hle)).state ?_
    simp only [List.mem_append, or_imp, forall_and] at ha
    simpa [Control.roots, or_imp, forall_and] using ⟨hr, fun v hv => (ha.2 v hv).mono hle⟩

theorem closure_grounded (hw : w.Grounded) (name : String) (params : List String) (code : Code)
    (hl : ∀ v ∈ l.values, w.Holds v) :
    w.Grows (closure w name params code l).2 ∧
      (closure w name params code l).2.Holds (.function (closure w name params code l).1) :=
  World.Grows.makeFunction hw name _ fun v hv => hl v (Locals.mem_values_of_visible hv)

theorem evalForm_grounded (h : Anchored w S) (form : Value) : (evalForm S w form).Grounded := by
  have hs : Anchored (w.compileForm form).2 S := h.grows (.of_eq h.1 rfl rfl rfl rfl)
  unfold evalForm
  split <;> rename_i he <;> rw [he] at hs
  · exact raise_grounded hs _
  · exact hs.state (by simp [Control.roots, Locals.values])

theorem callable_holds (hw : w.Grounded) (hv : w.Holds v) (hf : w.callable v = .ok f) :
    w.Holds (.function f) := by
  have hy : Yields _ (fun _ => True) (w.callable v) := w.callable_yields (fun _ _ => trivial) v
  rw [hf] at hy
  rcases hy with rfl | ⟨name, hn⟩
  · exact hv
  · exact hw.function hn

theorem evalCode_grounded (hh : host.Grounded) (h : Anchored w S) (code : Code)
    (hl : ∀ v ∈ l.values, w.Holds v) : (evalCode S w host code l).Grounded := by
  have part : ∀ {c : Code} {frame : Frame}, frame.roots = l.values →
      State.Grounded ⟨.eval c l, frame :: S, w⟩ := by
    intro c frame hr
    exact (h.push (hr ▸ hl)).state hl
  cases code with
  | const literal => exact giveValue_grounded h (by cases literal <;> trivial)
  | «local» name => exact ofResult_grounded h fun v => local?_holds hl
  | all codes =>
    cases codes with
    | nil => exact giveValue_grounded h trivial
    | cons c codes => exact part rfl
  | any codes =>
    cases codes with
    | nil => exact giveValue_grounded h trivial
    | cons c codes => exact part rfl
  | branch test yes no => exact part rfl
  | cond clauses default =>
    rcases clauses with _ | ⟨⟨test, consequent⟩, rest⟩
    · cases default with
      | none => exact raise_grounded h _
      | some c => exact h.state hl
    · exact part rfl
  | letIn name value body => exact part rfl
  | seq codes last =>
    cases codes with
    | nil => exact h.state hl
    | cons c codes => exact part rfl
  | lambda name param body =>
    obtain ⟨hg, hf⟩ := closure_grounded h.1 name [param] body hl
    exact giveValue_grounded (h.grows hg) hf
  | freeze name body =>
    obtain ⟨hg, hf⟩ := closure_grounded h.1 name [] body hl
    exact giveValue_grounded (h.grows hg) hf
  | trap body handler position => exact part rfl
  | defun name params body =>
    obtain ⟨hg, hf⟩ := closure_grounded (l := []) h.1 name params body (by simp [Locals.values])
    exact giveValue_grounded (h.grows (hg.trans (.define hg.grounded name hf))) trivial
  | globalValue name =>
    refine ofResult_grounded h fun v hv => ?_
    have hy : Yields _ (fun _ => True) (w.value? name) := w.value?_yields (fun _ _ => trivial) name
    rw [hv] at hy
    exact h.1.value hy
  | setGlobal name value => exact part rfl
  | call callee args position =>
    cases callee with
    | computed head => exact part rfl
    | global name =>
      have hy : Yields _ (fun _ => True) (w.function? name) :=
        w.function?_yields (fun _ _ => trivial) name
      simp only [evalCode]
      split <;> rename_i he <;> rw [he] at hy
      · exact raise_grounded h _
      · exact evalArgs_grounded h (h.1.function hy) (by simp) hl position
    | «local» name =>
      simp only [evalCode]
      cases hv : local? l name with
      | error e => exact raise_grounded h e
      | ok v =>
        simp only [Except.bind]
        split <;> rename_i he
        · exact raise_grounded h _
        · have hf := callable_holds h.1 (local?_holds hl hv) he
          exact evalArgs_grounded h hf (by simp) hl position
  | interop name args =>
    simp only [evalCode]
    split
    · exact raise_grounded h _
    · exact evalInterop_grounded hh h _ (by simp) hl

theorem runFunction_grounded (h : Anchored w S) (hf : w.Holds (.function f))
    (ha : ∀ v ∈ args, w.Holds v) : (runFunction S w f args).Grounded := by
  have enter : ∀ {vs : List Value} {T : List Frame}, Anchored w T → (∀ v ∈ vs, v ∈ args) →
      State.Grounded ⟨.enter f vs, T, w⟩ := by
    intro vs T hT hs
    refine hT.state ?_
    simpa [Control.roots, or_imp, forall_and] using ⟨fun v hv => ha v (hs v hv), hf⟩
  unfold runFunction
  split
  · exact enter h fun _ hv => hv
  · split
    · exact giveValue_grounded h hf
    · split
      · obtain ⟨hg, hv⟩ := World.Grows.partialApply h.1 hf ha
        exact giveValue_grounded (h.grows hg) hv
      · split
        · rename_i n _ _ _ _
          have hs : Anchored w (.surplus f (args.drop n) :: S) := by
            refine h.push (List.forall_mem_cons.2 ⟨hf, fun v hv => ?_⟩)
            exact ha v (List.mem_of_mem_drop hv)
          exact enter hs fun v hv => List.mem_of_mem_take hv
        · exact enter h fun _ hv => hv

theorem enterFunction_grounded (hh : host.Grounded) (h : Anchored w S) (f : Function)
    (ha : ∀ v ∈ args, w.Holds v) : (enterFunction S w host f args).Grounded := by
  have hp : ∀ v ∈ (w.heap.body f).parts, w.Holds v := h.1.heap.bodies f.id
  unfold enterFunction
  cases hb : w.heap.body f with
  | primitive r op =>
    obtain ⟨hg, hr⟩ := Primitive.call_grounded h.1 ha op
    dsimp only
    split
    · refine ofResult_grounded (h.grows hg) fun v hv => ?_
      rwa [hv] at hr
    · exact raise_grounded h _
  | evaluator r =>
    have hv : w.Holds (args.headD .empty) := by
      cases args with
      | nil => trivial
      | cons a args => exact ha a (by simp)
    have hk : Anchored w (.keep [args.headD .empty] :: S) :=
      h.push (List.forall_mem_singleton.2 hv)
    have hk : Anchored w (.settle [] :: .keep [args.headD .empty] :: S) :=
      hk.push (by simp [Frame.roots, Locals.values])
    dsimp only
    split
    · exact evalForm_grounded hk _
    · exact raise_grounded h _
  | closure r params code captured =>
    rw [hb] at hp
    dsimp only
    split
    · refine h.state fun v hv => ?_
      rcases values_bindParams hv with hv | hv
      · exact ha v hv
      · exact hp v hv
    · exact raise_grounded h _
  | partialOf target bound =>
    rw [hb] at hp
    obtain ⟨ht, hbound⟩ := List.forall_mem_cons.1 hp
    refine h.state ?_
    simpa [Control.roots, or_imp, forall_and] using ⟨hbound, ha, ht⟩
  | native op held =>
    rw [hb] at hp
    exact native_grounded hh h op (by simpa [or_imp, forall_and] using ⟨hp, ha⟩)
  | async op held =>
    rw [hb] at hp
    exact poll_grounded hh h op (by simpa [or_imp, forall_and] using ⟨hp, ha⟩)
  | missing => exact raise_grounded h _

/-- Going on with a truth value. -/
theorem toBool_grounded {yes no : State} (h : Anchored w S) (v : Value) (hy : yes.Grounded)
    (hn : no.Grounded) :
    State.Grounded
      (match v.toBool with
      | .error e => ⟨.raise e, S, w⟩
      | .ok true => yes
      | .ok false => no) := by
  split
  · exact raise_grounded h _
  · exact hy
  · exact hn

/-- Going on with the function that a value stands for. -/
theorem callable_grounded {k : Function → State} (h : Anchored w S) (hv : w.Holds v)
    (hk : ∀ f, w.Holds (.function f) → (k f).Grounded) :
    State.Grounded
      (match w.callable v with
      | .error e => ⟨.raise e, S, w⟩
      | .ok f => k f) := by
  split <;> rename_i he
  · exact raise_grounded h _
  · exact hk _ (callable_holds h.1 hv he)

theorem resumeFrame_grounded (hh : host.Grounded) (h : Anchored w S) {frame : Frame}
    (hl : ∀ v ∈ frame.roots, w.Holds v) (hv : w.Holds v) :
    (resumeFrame S w host frame v).Grounded := by
  cases frame with
  | settle | trap | keep => exact giveValue_grounded h hv
  | all rest l => exact toBool_grounded h v (h.state hl) (giveValue_grounded h trivial)
  | any rest l => exact toBool_grounded h v (giveValue_grounded h trivial) (h.state hl)
  | branch yes no l => exact toBool_grounded h v (h.state hl) (h.state hl)
  | cond consequent rest default l => exact toBool_grounded h v (h.state hl) (h.state hl)
  | letIn name body l => exact h.state (List.forall_mem_cons.2 ⟨hv, hl⟩)
  | seq rest last l => exact h.state hl
  | handle caught position l =>
    obtain ⟨hc, hl⟩ := List.forall_mem_cons.1 hl
    exact callable_grounded h hv fun f hf =>
      call_grounded h hf (List.forall_mem_singleton.2 hc) hl position
  | setGlobal name l => exact giveValue_grounded (h.grows (.setValue h.1 name hv)) hv
  | callee codes position l =>
    exact callable_grounded h hv fun f hf => evalArgs_grounded h hf (by simp) hl position
  | args f done codes position l =>
    simp only [Frame.roots, List.mem_append, List.mem_reverse, List.mem_cons, or_imp, forall_and,
      forall_eq] at hl
    exact evalArgs_grounded h hl.2.1 (List.forall_mem_cons.2 ⟨hv, hl.1⟩) hl.2.2 position
  | interop op done codes l =>
    simp only [Frame.roots, List.mem_append, List.mem_reverse, or_imp, forall_and] at hl
    exact evalInterop_grounded hh h op (List.forall_mem_cons.2 ⟨hv, hl.1⟩) hl.2
  | surplus f args =>
    obtain ⟨hf, ha⟩ := List.forall_mem_cons.1 hl
    cases v with
    | function g =>
      have hk : Anchored w (.keep [.function f] :: S) := h.push (List.forall_mem_singleton.2 hf)
      exact hk.state (by simpa [Control.roots, or_imp, forall_and] using ⟨ha, hv⟩)
    | _ => exact raise_grounded h _
  | forms last rest =>
    cases rest with
    | nil => exact giveValue_grounded h hv
    | cons form rest =>
      have hg : w.Grows { w with heap := (form.build w.heap).2 } := by
        rw [Form.build_heap]
        exact .of_eq h.1 rfl rfl rfl rfl
      have hs : Anchored _ (.forms v rest :: S) :=
        (h.grows hg).push (List.forall_mem_singleton.2 (hg.holds hv))
      exact evalForm_grounded hs _

theorem unwind_grounded {frame : Frame} (h : Anchored w S) (e : Error)
    (hl : ∀ v ∈ frame.roots, w.Holds v) : (unwind S w e frame).Grounded := by
  cases frame with
  | trap handler position l =>
    have hg : w.Grows { w with heap := (w.heap.error e.message).2 } := .of_eq h.1 rfl rfl rfl rfl
    have hc : World.Holds { w with heap := (w.heap.error e.message).2 }
        (w.heap.error e.message).1 := trivial
    cases handler with
    | bind param body => exact (h.grows hg).state (List.forall_mem_cons.2 ⟨hc, hl⟩)
    | apply function =>
      have hp : Anchored _ (.handle _ position l :: S) :=
        (h.grows hg).push (List.forall_mem_cons.2 ⟨hc, hl⟩)
      exact hp.state hl
  | _ => exact raise_grounded h e

/-- Every move of a grounded state leads to one. -/
theorem move_grounded (hh : host.Grounded) {s : State} (hs : s.Grounded) :
    (move host s).Grounded := by
  obtain ⟨c, S, w⟩ := s
  obtain ⟨hw, hv, hS⟩ := hs
  have h : Anchored w S := ⟨hw, hS⟩
  cases c with
  | eval code l => exact evalCode_grounded hh h code hv
  | run f args =>
    simp only [Control.roots, List.mem_append, List.mem_singleton, or_imp, forall_and,
      forall_eq] at hv
    exact runFunction_grounded h hv.2 hv.1
  | enter f args =>
    simp only [Control.roots, List.mem_append, List.mem_singleton, or_imp, forall_and,
      forall_eq] at hv
    exact enterFunction_grounded hh h f hv.1
  | wait op held args => exact poll_grounded hh h op hv
  | raise e =>
    cases S with
    | nil => exact ⟨hw, hv, hS⟩
    | cons frame S =>
      obtain ⟨hf, hS⟩ := List.forall_mem_cons.1 hS
      exact unwind_grounded ⟨hw, hS⟩ e hf
  | give step =>
    cases S with
    | nil => cases step <;> exact ⟨hw, hv, hS⟩
    | cons frame S =>
      obtain ⟨hf, hS'⟩ := List.forall_mem_cons.1 hS
      cases step with
      | done v => exact resumeFrame_grounded hh ⟨hw, hS'⟩ hf (hv v (by simp [Control.roots]))
      | bounce f args =>
        have hr : ∀ v ∈ (Control.run f args).roots, w.Holds v := by
          intro v hm
          exact hv v (by simpa [Control.roots, or_comm] using hm)
        cases frame with
        | keep vs => exact ⟨hw, hv, hS'⟩
        | _ => exact h.state hr

/-- No function dangles in any state that a run comes to. -/
theorem Runs.grounded {mode : Mode} {n : Nat} {s t : State} {es : List Effect}
    (hh : host.Grounded) (hr : Runs host mode n s es t) (hs : s.Grounded) : t.Grounded := by
  induction hr with
  | refl => exact hs
  | move _ _ ih => exact ih (move_grounded hh hs)

/-- The value of a settled run is in reach of the state that it comes to. -/
theorem exists_runs_valueOf (host : Host) (mode : Mode) (fuel : Nat) (s : State) :
    ∃ n es t, Runs host mode n s es t ∧ (valueOf (drive host mode fuel s)).2 = t.world ∧
      ∀ v, (valueOf (drive host mode fuel s)).1 = .ok v → v ∈ t.control.roots := by
  obtain ⟨n, es, t, hr, hw, ho⟩ := exists_runs_drive host mode fuel s
  refine ⟨n, es, t, hr, by rw [valueOf_snd, hw], fun v hv => ?_⟩
  revert ho hv
  obtain ⟨o, w⟩ := drive host mode fuel s
  intro ho hv
  cases o with
  | ok step =>
    rcases ho with ho | ho
    · cases ho
    · rw [control_of_result ho]
      cases step <;> cases hv <;> simp [Control.roots]
  | _ => cases hv

end Machine

namespace World.Grounded

theorem defineNew (hw : w.Grounded) (name : String) (arity : Option Nat) {b : Body}
    (hb : b.parts = []) :
    ((w.makeFunction name arity b).2.define name (w.makeFunction name arity b).1).Grounded := by
  obtain ⟨hg, hf⟩ := World.Grows.makeFunction hw name arity (b := b) (by simp [hb])
  exact (World.Grows.define hg.grounded name hf).grounded

theorem registerNative (hw : w.Grounded) (name : String) (arity : Option Nat) (op : String) :
    (w.registerNative name arity op).Grounded :=
  hw.defineNew name arity rfl

theorem registerAsync (hw : w.Grounded) (name : String) (arity : Option Nat) (op : String) :
    (w.registerAsync name arity op).Grounded :=
  hw.defineNew name arity rfl

theorem setValue (hw : w.Grounded) (name : String) (hv : w.Holds v) :
    (w.setValue name v).Grounded :=
  (World.Grows.setValue hw name hv).grounded

/-- A new engine is grounded if the heap it is made on is. -/
theorem create {heap : Heap} (hh : heap.Grounded) (options : Options) (runtime : Nat)
    (now : Float) : (World.create heap options runtime now).Grounded := by
  refine World.create_induction ⟨hh, by simp [Table.empty], by simp [Table.empty]⟩
    (fun w p hw => hw.defineNew p.name (some p.arity) rfl)
    (fun w hw => hw.defineNew "eval-kl" (some 1) rfl) ?_
    (fun w w' ht hw => (World.Grows.of_touches hw ht).grounded)
  intro w name v hk hw
  have hv : w.Holds v := by
    cases v <;> trivial
  exact hw.setValue name hv

end World.Grounded
end KLambda
