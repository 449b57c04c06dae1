import KLambda.Proofs.Evolution
import KLambda.Proofs.Sound

/-!
Sound worlds. A world is sound if everything that its globals lead to is. A new engine is sound,
and so it stays when functions of the host are added to it, when a primitive is called, and when
the host is, as long as the host hands in nothing that is not sound.
-/
namespace KLambda

/-- Not a fault of the engine. -/
def Error.Guest (e : Error) : Prop := ∀ fault, e ≠ .internal fault

theorem admits_guest : Admits Error.Guest := by
  rintro e he fault rfl
  exact he

/-- The world of a live runtime, with everything in reach of the globals in order. -/
structure World.Sound (runtime : Nat) (w : World) : Prop where
  runtime_eq : w.runtime = runtime
  functions (e : String × Function) :
    e ∈ w.functions.entries → (Value.function e.2).Sound runtime w.heap
  values (e : String × Value) : e ∈ w.values.entries → e.2.Sound runtime w.heap

/-- A host that keeps what is sound, hands in sound values when it is given such, and gives no
internal errors. -/
structure Host.Sound (runtime : Nat) (host : Host) : Prop where
  native (op : String) (held args : List Value) (h : Heap)
    (ha : ∀ v ∈ held ++ args, v.Sound runtime h) :
    h.Keeps runtime (host.native op held args h).2 ∧
      Yields (Value.Sound runtime (host.native op held args h).2) Error.Guest
        (host.native op held args h).1
  async (op : String) (held args : List Value) (h : Heap)
    (ha : ∀ v ∈ held ++ args, v.Sound runtime h) :
    h.Keeps runtime (host.async op held args h).2 ∧
      match (host.async op held args h).1 with
      | .ready r => Yields (Value.Sound runtime (host.async op held args h).2) Error.Guest r
      | .later _ kept => ∀ v ∈ kept, v.Sound runtime (host.async op held args h).2

variable {runtime : Nat} {w : World} {h : Heap} {v : Value} {f : Function}

namespace Table

variable {α : Type}

theorem mem_of_find {name : String} {a : α} {es : List (String × α)} (h : find name es = some a) :
    ∃ e ∈ es, e.2 = a := by
  induction es with
  | nil => simp [find] at h
  | cons e es ih =>
    simp only [find] at h
    split at h
    · exact ⟨e, by simp, by simpa using h⟩
    · obtain ⟨e', he, ha⟩ := ih h
      exact ⟨e', by simp [he], ha⟩

theorem of_mem_put {name : String} {a : α} {es : List (String × α)} {e : String × α}
    (h : e ∈ put name a es) : e ∈ es ∨ e.2 = a := by
  induction es with
  | nil => simp_all [put]
  | cons d es ih =>
    simp only [put] at h
    split at h
    · rcases List.mem_cons.1 h with rfl | h
      · exact Or.inr rfl
      · exact Or.inl (by simp [h])
    · rcases List.mem_cons.1 h with rfl | h
      · exact Or.inl (by simp)
      · exact (ih h).imp (by simp +contextual) id

end Table

namespace World.Sound

theorem function (hw : w.Sound runtime) {name : String} (hf : w.functions.get? name = some f) :
    (Value.function f).Sound runtime w.heap := by
  obtain ⟨e, he, rfl⟩ := Table.mem_of_find hf
  exact hw.functions e he

theorem value (hw : w.Sound runtime) {name : String} (hv : w.values.get? name = some v) :
    v.Sound runtime w.heap := by
  obtain ⟨e, he, rfl⟩ := Table.mem_of_find hv
  exact hw.values e he

theorem roots (hw : w.Sound runtime) (hv : v ∈ w.roots) : v.Sound runtime w.heap := by
  simp only [World.roots, List.mem_append, List.mem_map, List.mem_filterMap] at hv
  rcases hv with (⟨e, he, rfl⟩ | ⟨e, he, rfl⟩) | ⟨o, -, ho⟩
  · exact hw.functions e he
  · exact hw.values e he
  · obtain ⟨s, -, rfl⟩ := Option.map_eq_some_iff.1 ho
    exact Value.sound_stream s

theorem withHeap (hw : w.Sound runtime) (hk : w.heap.Keeps runtime h) :
    World.Sound runtime { w with heap := h } where
  runtime_eq := hw.runtime_eq
  functions e he := hk _ (hw.functions e he)
  values e he := hk _ (hw.values e he)

theorem report (hw : w.Sound runtime) (r : Report) : (w.report r).Sound runtime where
  runtime_eq := hw.runtime_eq
  functions := hw.functions
  values := hw.values

theorem setValue (hw : w.Sound runtime) (name : String) (hv : v.Sound runtime w.heap) :
    (w.setValue name v).Sound runtime where
  runtime_eq := hw.runtime_eq
  functions := hw.functions
  values e he := by
    rcases Table.of_mem_put he with he | he
    · exact hw.values e he
    · exact he ▸ hv

theorem define (hw : w.Sound runtime) (name : String)
    (hf : (Value.function f).Sound runtime w.heap) : (w.define name f).Sound runtime := by
  apply World.Sound.report
  refine ⟨hw.runtime_eq, fun e he => ?_, hw.values⟩
  rcases Table.of_mem_put he with he | he
  · exact hw.functions e he
  · exact he ▸ hf

end World.Sound

/-- A world that a sound one may become: of the same runtime, sound too, and with everything sound
that was so before. -/
structure World.Follows (runtime : Nat) (w w' : World) : Prop where
  sound : w'.Sound runtime
  keeps : w.heap.Keeps runtime w'.heap

namespace World.Follows

variable {w' : World}

theorem refl (hw : w.Sound runtime) : w.Follows runtime w := ⟨hw, .refl _⟩

theorem withHeap (hw : w.Sound runtime) (hk : w.heap.Keeps runtime h) :
    w.Follows runtime { w with heap := h } := ⟨hw.withHeap hk, hk⟩

theorem of_touches (hw : w.Sound runtime) (h : w.Touches w') : w.Follows runtime w' := by
  cases h with
  | intro heap reports hb hv =>
    have hk : w.heap.Keeps runtime heap := Heap.keeps_of_eq hb hv
    obtain ⟨hr, hf, hx⟩ := hw.withHeap hk
    exact ⟨⟨hr, hf, hx⟩, hk⟩

theorem report (hf : w.Follows runtime w') (r : Report) : w.Follows runtime (w'.report r) :=
  ⟨hf.sound.report r, hf.keeps⟩

theorem define (hw : w.Follows runtime w') (name : String)
    (hf : (Value.function f).Sound runtime w'.heap) : w.Follows runtime (w'.define name f) :=
  ⟨hw.sound.define name hf, hw.keeps⟩

/-- A new function with a body that takes what its arity says and holds sound values. -/
theorem makeFunction (hw : w.Sound runtime) (name : String) {arity : Option Nat} {b : Body}
    (hf : b.Fits runtime arity) (hp : ∀ v ∈ b.parts, v.Sound runtime w.heap) :
    w.Follows runtime (w.makeFunction name arity b).2 ∧
      (Value.function (w.makeFunction name arity b).1).Sound runtime
        (w.makeFunction name arity b).2.heap :=
  ⟨withHeap hw (Heap.keeps_function name arity b), Heap.sound_function_new hf hp⟩

/-- A partial application that still waits for an argument. -/
theorem partialApply (hw : w.Sound runtime) {n : Nat} {bound : List Value} (hn : f.arity = some n)
    (hl : bound.length < n) (hf : (Value.function f).Sound runtime w.heap)
    (hb : ∀ v ∈ bound, v.Sound runtime w.heap) :
    w.Follows runtime (w.partialApply f bound).2 ∧
      (Value.function (w.partialApply f bound).1).Sound runtime
        (w.partialApply f bound).2.heap := by
  have hfit : (Body.partialOf f bound).Fits runtime (f.arity.map (· - bound.length)) :=
    ⟨n, hn, hl, by simp [hn]⟩
  obtain ⟨hs, hg⟩ := makeFunction (hw.report (.partialApplication f.name bound.length)) f.name hfit
    (List.forall_mem_cons.2 ⟨hf, hb⟩)
  exact ⟨⟨hs.sound, hs.keeps⟩, hg⟩

end World.Follows

namespace World.Sound

theorem definePrimitive (hw : w.Sound runtime) (p : Primitive) :
    (w.definePrimitive p).Sound runtime := by
  have hfit : (Body.primitive w.runtime p).Fits runtime (some p.arity) := ⟨hw.runtime_eq, rfl⟩
  obtain ⟨hs, hf⟩ := World.Follows.makeFunction hw p.name hfit (by simp [Body.parts])
  exact hs.sound.define p.name hf

theorem defineEvaluator (hw : w.Sound runtime) : w.defineEvaluator.Sound runtime := by
  have hfit : (Body.evaluator w.runtime).Fits runtime (some 1) := ⟨hw.runtime_eq, rfl⟩
  obtain ⟨hs, hf⟩ := World.Follows.makeFunction hw "eval-kl" hfit (by simp [Body.parts])
  exact hs.sound.define "eval-kl" hf

/-- A new engine is sound, whatever else there is on its heap. -/
theorem create (heap : Heap) (options : Options) (runtime : Nat) (now : Float) :
    (World.create heap options runtime now).Sound runtime := by
  refine World.create_induction ⟨rfl, by simp [Table.empty], by simp [Table.empty]⟩
    (fun w p hw => hw.definePrimitive p) (fun w hw => hw.defineEvaluator) ?_
    (fun w w' ht hw => (World.Follows.of_touches hw ht).sound)
  intro w name v hk hw
  have hv : v.kind ∉ [Kind.cons, .vector, .function] := by
    cases v <;> simp_all [Value.kind]
  exact hw.setValue name (Value.sound_atom hv)

theorem registerNative (hw : w.Sound runtime) (name : String) (arity : Option Nat) (op : String) :
    (w.registerNative name arity op).Sound runtime := by
  have hfit : (Body.native op []).Fits runtime arity := trivial
  obtain ⟨hs, hf⟩ := World.Follows.makeFunction hw name hfit (by simp [Body.parts])
  exact hs.sound.define name hf

theorem registerAsync (hw : w.Sound runtime) (name : String) (arity : Option Nat) (op : String) :
    (w.registerAsync name arity op).Sound runtime := by
  have hfit : (Body.async op []).Fits runtime arity := trivial
  obtain ⟨hs, hf⟩ := World.Follows.makeFunction hw name hfit (by simp [Body.parts])
  exact hs.sound.define name hf

end World.Sound

theorem guarded_sound (runtime : Nat) (h : Heap) :
    Guarded h (Value.Sound runtime h) Error.Guest where
  admits := admits_guest
  atom v hv := Value.sound_atom fun hm => hv (List.mem_cons_of_mem _ hm)
  number x _ := Value.sound_number x
  cell _ _ _ := Value.sound_cons.1
  element id size i hv hi := by
    obtain ⟨⟨-, hz⟩, hp⟩ := Value.sound_vector.1 hv
    constructor
    · intro x hx
      exact hp x (by simpa [Heap.parts] using Array.mem_of_getElem? hx)
    · intro hn
      simp [hz] at hn
      omega

namespace Primitive

theorem makeVector_sound (hw : w.Sound runtime) (size : Value) :
    w.Follows runtime (makeVector w size).2 ∧
      Yields (Value.Sound runtime (makeVector w size).2.heap) Error.Guest
        (makeVector w size).1 := by
  have hy := size.toSize_yields admits_guest
  unfold makeVector
  split
  · rename_i e he
    rw [he] at hy
    exact ⟨.refl hw, hy⟩
  · exact ⟨.withHeap hw (Heap.keeps_vector _), Heap.sound_vector_new (by simp)⟩

theorem storeElement_sound (hw : w.Sound runtime) {vector index x : Value}
    (hv : vector.Sound runtime w.heap) (hx : x.Sound runtime w.heap) :
    w.Follows runtime (storeElement w vector index x).2 ∧
      Yields (Value.Sound runtime (storeElement w vector index x).2.heap) Error.Guest
        (storeElement w vector index x).1 := by
  have hy := storeElement_yields admits_guest w vector index x
  revert hy
  fun_cases storeElement w vector index x <;> intro hy
  · exact ⟨.refl hw, hy⟩
  · exact ⟨.withHeap hw (Heap.keeps_setElement hx), Heap.keeps_setElement hx vector hv⟩

end Primitive

/-- A primitive that is given as many sound values as it takes. -/
theorem Primitive.call_sound (hw : w.Sound runtime) {p : Primitive} {args : List Value}
    (ha : ∀ v ∈ args, v.Sound runtime w.heap) (hn : args.length = p.arity) :
    w.Follows runtime (p.call args w).2 ∧
      Yields (Value.Sound runtime (p.call args w).2.heap) Error.Guest (p.call args w).1 := by
  have hQ := admits_guest
  have hy := Primitive.call_yields (guarded_sound runtime w.heap) ha (fun h => absurd hn h)
  revert hy
  fun_cases Primitive.call p args w <;> intro hy
  case case1 path mode =>
    refine ⟨World.Follows.of_touches hw (openFile_touches w path mode),
      (openFile_yields hQ w path mode).imp ?_⟩
    rintro _ ⟨s, rfl⟩
    exact Value.sound_stream s
  case case2 s =>
    refine ⟨World.Follows.of_touches hw (closeFile_touches w s), (closeFile_yields hQ w s).imp ?_⟩
    rintro _ rfl
    exact Value.sound_empty
  case case3 s =>
    refine ⟨World.Follows.of_touches hw (readFrom_touches w s), (readFrom_yields hQ w s).imp ?_⟩
    rintro _ ⟨n, -, rfl⟩
    exact Value.sound_number n
  case case4 b s =>
    have hf := World.Follows.of_touches hw (writeTo_touches w b s)
    refine ⟨hf, (writeTo_yields hQ w b s).imp ?_⟩
    rintro _ rfl
    exact hf.keeps _ (ha _ (by simp))
  case case5 head tail v heap he =>
    cases he
    have hk : w.heap.Keeps runtime (w.heap.cons head tail).2 := Heap.keeps_of_eq rfl rfl
    have hh := hk head (ha head (by simp))
    have ht := hk tail (ha tail (by simp))
    exact ⟨.withHeap hw hk, Value.sound_cons.2 ⟨hh, ht⟩⟩
  case case6 n => exact makeVector_sound hw n
  case case7 v i x => exact storeElement_sound hw (ha v (by simp)) (ha x (by simp))
  case case8 => exact ⟨.refl hw, hy⟩
  case case9 name v s _ =>
    have hv := ha v (by simp)
    exact ⟨⟨hw.setValue s hv, .refl _⟩, hv⟩
  case case10 name =>
    refine ⟨.refl hw, (name.toSymbol_yields hQ).bind fun s _ => ?_⟩
    exact (w.value?_yields hQ s).imp fun _ => hw.value
  case case11 mode =>
    refine ⟨.refl hw, (time_yields hQ w mode).imp ?_⟩
    rintro _ (rfl | rfl) <;> exact Value.sound_number _
  case case12 =>
    revert hy
    unfold computed
    split <;> intro hy
    next hr => exact ⟨.refl hw, compute_yields (guarded_sound runtime w.heap) ha hr⟩
    next => exact ⟨.refl hw, hy⟩

end KLambda
