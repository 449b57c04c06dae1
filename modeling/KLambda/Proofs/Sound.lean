import KLambda.Proofs.Reach
import KLambda.Proofs.Scoped

/-!
Sound values. A value is sound if everything that can be reached from it is in order: every function
has a body of this runtime that takes as many arguments as the function's arity says, every partial
application still waits for some, and every vector has the size that references to it carry. What is
sound stays sound as the heap grows and its vectors change.
-/
namespace KLambda

/-- The names that are bound. -/
def Locals.names (locals : Locals) : List String := locals.map (·.1)

/-- The values that a body refers to. -/
def Body.parts : Body → List Value
  | .closure _ _ _ captured => captured.values
  | .partialOf target bound => .function target :: bound
  | .native _ held | .async _ held => held
  | _ => []

theorem Heap.parts_body (h : Heap) (f : Function) : h.parts (.body f.id) = (h.body f).parts := by
  simp only [parts, body]
  cases h.bodies.getD f.id .missing <;> rfl

/-- A body belongs to a live runtime and takes as many arguments as a function with this arity is
given. The functions of the host take whatever they are given. -/
def Body.Fits (runtime : Nat) (arity : Option Nat) : Body → Prop
  | .primitive r op => r = runtime ∧ arity = some op.arity
  | .evaluator r => r = runtime ∧ arity = some 1
  | .closure r params code captured =>
    r = runtime ∧ arity = some params.length ∧ code.Scoped (params ++ captured.names)
  | .partialOf target bound =>
    ∃ n, target.arity = some n ∧ bound.length < n ∧ arity = some (n - bound.length)
  | .native .. | .async .. => True
  | .missing => False

namespace Value

/-- A value's own references are in order. -/
def Sane (runtime : Nat) (h : Heap) : Value → Prop
  | .function f => (h.body f).Fits runtime f.arity
  | .vector id size => id < h.vectors.size ∧ (h.elements id).size = size
  | _ => True

/-- Everything in reach of a value is in order. -/
def Sound (runtime : Nat) (h : Heap) (v : Value) : Prop := ∀ u, h.Reaches v u → u.Sane runtime h

end Value

/-- What was sound in one heap is sound in another. -/
def Heap.Keeps (runtime : Nat) (h h' : Heap) : Prop :=
  ∀ v : Value, v.Sound runtime h → v.Sound runtime h'

/-- A property of values that is in order itself and is handed on along every reference. -/
structure Heap.Inherited (runtime : Nat) (h : Heap) (P : Value → Prop) : Prop where
  sane (v : Value) : P v → v.Sane runtime h
  head (m : Nat) (a b : Value) : P (.cons m a b) → P a
  tail (m : Nat) (a b : Value) : P (.cons m a b) → P b
  element (id size : Nat) (v : Value) : P (.vector id size) → v ∈ h.parts (.vector id) → P v
  part (f : Function) (v : Value) : P (.function f) → v ∈ h.parts (.body f.id) → P v

variable {runtime : Nat} {h h' h'' : Heap} {v : Value}

namespace Heap

theorem Inherited.sound {P : Value → Prop} (hP : h.Inherited runtime P) (hv : P v) :
    v.Sound runtime h := by
  intro u hr
  induction hr with
  | refl v => exact hP.sane v hv
  | head _ ih => exact ih (hP.head _ _ _ hv)
  | tail _ ih => exact ih (hP.tail _ _ _ hv)
  | element hu _ ih => exact ih (hP.element _ _ _ hv hu)
  | part hu _ ih => exact ih (hP.part _ _ hv hu)

theorem inherited_sound (runtime : Nat) (h : Heap) :
    h.Inherited runtime (Value.Sound runtime h) where
  sane v hv := hv v (.refl v)
  head _ _ _ hv u hr := hv u (.head hr)
  tail _ _ _ hv u hr := hv u (.tail hr)
  element _ _ _ hv hm u hr := hv u (.element hm hr)
  part _ _ hv hm u hr := hv u (.part hm hr)

end Heap

namespace Value

theorem sound_cons {m : Nat} {a b : Value} :
    (cons m a b).Sound runtime h ↔ a.Sound runtime h ∧ b.Sound runtime h := by
  constructor
  · intro hv
    exact ⟨(h.inherited_sound runtime).head _ _ _ hv, (h.inherited_sound runtime).tail _ _ _ hv⟩
  · rintro ⟨ha, hb⟩ u hr
    cases hr with
    | refl => trivial
    | head hr => exact ha u hr
    | tail hr => exact hb u hr

theorem sound_function {f : Function} :
    (function f).Sound runtime h ↔
      (h.body f).Fits runtime f.arity ∧ ∀ v ∈ (h.body f).parts, v.Sound runtime h := by
  rw [← h.parts_body]
  constructor
  · intro hv
    exact ⟨(h.inherited_sound runtime).sane _ hv,
      fun v hm => (h.inherited_sound runtime).part _ _ hv hm⟩
  · rintro ⟨hf, hp⟩ u hr
    cases hr with
    | refl => exact hf
    | part hm hr => exact hp _ hm u hr

theorem sound_vector {id size : Nat} :
    (vector id size).Sound runtime h ↔
      (id < h.vectors.size ∧ (h.elements id).size = size) ∧
        ∀ v ∈ h.parts (.vector id), v.Sound runtime h := by
  constructor
  · intro hv
    exact ⟨(h.inherited_sound runtime).sane _ hv,
      fun v hm => (h.inherited_sound runtime).element _ _ _ hv hm⟩
  · rintro ⟨hs, hp⟩ u hr
    cases hr with
    | refl => exact hs
    | element hm hr => exact hp _ hm u hr

/-- A value without references is sound. -/
theorem sound_atom (hv : v.kind ∉ [Kind.cons, .vector, .function]) : v.Sound runtime h := by
  intro u hr
  cases hr with
  | refl => cases v <;> first | trivial | simp [kind] at hv
  | _ => simp [kind] at hv

@[simp]
theorem sound_empty : Value.empty.Sound runtime h := sound_atom (by simp [kind])

@[simp]
theorem sound_number (n : Float) : (number n).Sound runtime h := sound_atom (by simp [kind])

@[simp]
theorem sound_str (s : String) : (str s).Sound runtime h := sound_atom (by simp [kind])

@[simp]
theorem sound_symbol (s : String) : (symbol s).Sound runtime h := sound_atom (by simp [kind])

@[simp]
theorem sound_bool (b : Bool) : (bool b).Sound runtime h := sound_symbol _

@[simp]
theorem sound_error (m : Nat) (s : String) : (error m s).Sound runtime h :=
  sound_atom (by simp [kind])

@[simp]
theorem sound_stream (s : StreamHandle) : (stream s).Sound runtime h := sound_atom (by simp [kind])

end Value

namespace Heap

theorem Keeps.refl (h : Heap) : h.Keeps runtime h := fun _ hv => hv

/-- To keep what is sound, a heap has to keep every sound value in order and have only sound parts
below it. -/
theorem keeps_of_inherited
    (hf : ∀ f, (Value.function f).Sound runtime h →
      (h'.body f).Fits runtime f.arity ∧ ∀ v ∈ (h'.body f).parts, v.Sound runtime h)
    (hv : ∀ id size, (Value.vector id size).Sound runtime h →
      (id < h'.vectors.size ∧ (h'.elements id).size = size) ∧
        ∀ v ∈ h'.parts (.vector id), v.Sound runtime h) :
    h.Keeps runtime h' := by
  intro v hs
  apply Inherited.sound (P := Value.Sound runtime h) _ hs
  constructor
  · intro v hs
    cases v with
    | function f => exact (hf f hs).1
    | vector id size => exact (hv id size hs).1
    | _ => trivial
  · exact (h.inherited_sound runtime).head
  · exact (h.inherited_sound runtime).tail
  · exact fun id size v hs hm => (hv id size hs).2 v hm
  · exact fun f v hs hm => (hf f hs).2 v (h'.parts_body f ▸ hm)

/-- Marks, streams and files have no part in it. -/
theorem keeps_of_eq (hb : h'.bodies = h.bodies) (hv : h'.vectors = h.vectors) :
    h.Keeps runtime h' := by
  apply keeps_of_inherited
  · intro f hs
    simpa [body, hb] using Value.sound_function.1 hs
  · intro id size hs
    have := Value.sound_vector.1 hs
    simpa only [elements, parts, hv] using this

theorem id_lt_of_fits {f : Function} (hf : (h.body f).Fits runtime f.arity) :
    f.id < h.bodies.size := by
  by_cases hi : f.id < h.bodies.size
  · exact hi
  · simp [body, Array.getD, hi, Body.Fits] at hf

theorem keeps_function (name : String) (arity : Option Nat) (b : Body) :
    h.Keeps runtime (h.function name arity b).2 := by
  apply keeps_of_inherited
  · intro f hs
    obtain ⟨hf, hp⟩ := Value.sound_function.1 hs
    have hi := id_lt_of_fits hf
    have he : (h.bodies.push b).getD f.id .missing = h.bodies.getD f.id .missing := by
      simp [Array.getD, Array.getElem_push, hi, Nat.lt_succ_of_lt hi]
    simp only [function, body, he]
    exact ⟨hf, hp⟩
  · exact fun id size hs => Value.sound_vector.1 hs

theorem body_function (name : String) (arity : Option Nat) (b : Body) :
    (h.function name arity b).2.body (h.function name arity b).1 = b := by
  simp [function, body, Array.getD]

/-- A new function is sound if its body takes what its arity says and holds sound values. -/
theorem sound_function_new {name : String} {arity : Option Nat} {b : Body}
    (hf : b.Fits runtime arity) (hp : ∀ v ∈ b.parts, v.Sound runtime h) :
    (Value.function (h.function name arity b).1).Sound runtime (h.function name arity b).2 := by
  rw [Value.sound_function, body_function]
  exact ⟨hf, fun v hv => keeps_function name arity b v (hp v hv)⟩

theorem keeps_vector (items : Array Value) : h.Keeps runtime (h.vector items).2 := by
  apply keeps_of_inherited
  · exact fun f hs => Value.sound_function.1 hs
  · intro id size hs
    obtain ⟨⟨hi, hz⟩, hp⟩ := Value.sound_vector.1 hs
    have he : (h.vectors.push items).getD id #[] = h.vectors.getD id #[] := by
      simp [Array.getD, Array.getElem_push, hi, Nat.lt_succ_of_lt hi]
    simp only [vector, elements, parts, he, Array.size_push]
    exact ⟨⟨Nat.lt_succ_of_lt hi, hz⟩, hp⟩

theorem sound_vector_new {items : Array Value} (hp : ∀ v ∈ items, v.Sound runtime h) :
    (h.vector items).1.Sound runtime (h.vector items).2 := by
  have he : (h.vectors.push items).getD h.vectors.size #[] = items := by simp [Array.getD]
  refine Value.sound_vector.2 ⟨⟨?_, ?_⟩, fun v hv => ?_⟩
  · simp [vector]
  · simp [vector, elements]
  · simp only [vector, parts, elements, he] at hv
    exact keeps_vector items v (hp v (by simpa using hv))

theorem elements_setElement (id index : Nat) (x : Value) (other : Nat) :
    (h.setElement id index x).elements other =
      if id = other then (h.elements other).setIfInBounds index x else h.elements other := by
  by_cases hi : other < h.vectors.size
  · by_cases he : id = other <;>
      simp [setElement, elements, Array.getD, Array.getElem_modify, hi, he]
  · by_cases he : id = other <;> simp [setElement, elements, Array.getD, hi, he]

/-- Storing a sound value keeps everything sound, whoever else refers to the vector. -/
theorem keeps_setElement {id index : Nat} {x : Value} (hx : x.Sound runtime h) :
    h.Keeps runtime (h.setElement id index x) := by
  apply keeps_of_inherited
  · exact fun f hs => Value.sound_function.1 hs
  · intro other size hs
    obtain ⟨⟨hi, hz⟩, hp⟩ := Value.sound_vector.1 hs
    simp only [parts, elements_setElement]
    refine ⟨⟨by simpa [setElement] using hi, by split <;> simpa using hz⟩, fun v hv => ?_⟩
    split at hv
    · rcases List.mem_or_eq_of_mem_set (by simpa using hv) with hm | rfl
      · exact hp v (by simpa [parts] using hm)
      · exact hx
    · exact hp v hv

end Heap

mutual

/-- Making the cells of a form takes marks, and changes nothing else. -/
theorem Form.build_heap (form : Form) (h : Heap) :
    (form.build h).2 = { h with marks := (form.build h).2.marks } := by
  cases form with
  | number | str | symbol => rfl
  | list items => exact Form.buildList_heap items h

theorem Form.buildList_heap (forms : List Form) (h : Heap) :
    (Form.buildList forms h).2 = { h with marks := (Form.buildList forms h).2.marks } := by
  cases forms with
  | nil => rfl
  | cons form forms =>
    have hh := Form.build_heap form h
    have ht := Form.buildList_heap forms (form.build h).2
    simp only [Form.buildList, Heap.cons]
    rw [ht, hh]

end

theorem Form.keeps_build (form : Form) (h : Heap) : h.Keeps runtime (form.build h).2 := by
  rw [Form.build_heap]
  exact Heap.keeps_of_eq rfl rfl

end KLambda
