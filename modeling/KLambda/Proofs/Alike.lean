import KLambda.Engine
import KLambda.Proofs.Rename

/-!
Worlds that are alike up to the places of functions. The second heap may hold bodies that the first
one lacks, but nothing refers to them, and both make new functions at places that correspond.
Looking up names, making values, and calling primitives keeps worlds alike.
-/
namespace KLambda

variable {σ : Nat → Nat}

namespace Value

variable (σ) (v : Value)

@[simp]
theorem mismatch_rename {α : Type} (expected : String) :
    ((v.rename σ).mismatch expected : Except Error α) = v.mismatch expected := by
  simp [mismatch]

@[simp]
theorem toNumber_rename : (v.rename σ).toNumber = v.toNumber := by
  cases v <;> first | rfl | exact mismatch_rename σ _ _

@[simp]
theorem toStr_rename : (v.rename σ).toStr = v.toStr := by
  cases v <;> first | rfl | exact mismatch_rename σ _ _

@[simp]
theorem toSymbol_rename : (v.rename σ).toSymbol = v.toSymbol := by
  cases v <;> first | rfl | exact mismatch_rename σ _ _

@[simp]
theorem toBool_rename : (v.rename σ).toBool = v.toBool := by
  simp [toBool]

@[simp]
theorem toVector_rename : (v.rename σ).toVector = v.toVector := by
  cases v <;> first | rfl | exact mismatch_rename σ _ _

@[simp]
theorem toErrorMessage_rename : (v.rename σ).toErrorMessage = v.toErrorMessage := by
  cases v <;> first | rfl | exact mismatch_rename σ _ _

@[simp]
theorem toStream_rename : (v.rename σ).toStream = v.toStream := by
  cases v <;> first | rfl | exact mismatch_rename σ _ _

@[simp]
theorem toSize_rename : (v.rename σ).toSize = v.toSize := by
  cases v <;> first | rfl | exact mismatch_rename σ _ _

@[simp]
theorem toIndex_rename (length : Nat) : (v.rename σ).toIndex length = v.toIndex length := by
  cases v <;> first | rfl | exact mismatch_rename σ _ _

end Value

/-- The same bindings with renamed values. -/
def Locals.rename (σ : Nat → Nat) (l : Locals) : Locals := l.map fun e => (e.1, e.2.rename σ)

def Body.rename (σ : Nat → Nat) : Body → Body
  | .closure runtime params code captured => .closure runtime params code (captured.rename σ)
  | .partialOf target bound => .partialOf (target.rename σ) (bound.map (Value.rename σ))
  | .native op held => .native op (held.map (Value.rename σ))
  | .async op held => .async op (held.map (Value.rename σ))
  | b => b

/-- The same names with other things. -/
def Table.map {α β : Type} (f : α → β) (t : Table α) : Table β :=
  ⟨t.entries.map fun e => (e.1, f e.2)⟩

namespace Table

variable {α β : Type} (f : α → β)

theorem find_map (name : String) (es : List (String × α)) :
    find name (es.map fun e => (e.1, f e.2)) = (find name es).map f := by
  induction es with
  | nil => rfl
  | cons e es ih =>
    by_cases h : e.1 = name
    · simp [find, h]
    · simp [find, h, ih]

@[simp]
theorem get?_map (t : Table α) (name : String) : (t.map f).get? name = (t.get? name).map f :=
  find_map f name t.entries

@[simp]
theorem contains_map (t : Table α) : (t.map f).contains = t.contains := by
  funext name
  simp [contains]

theorem insert_map (t : Table α) (name : String) (a : α) :
    (t.map f).insert name (f a) = (t.insert name a).map f := by
  obtain ⟨es⟩ := t
  simp only [insert, map, mk.injEq]
  induction es with
  | nil => rfl
  | cons e es ih =>
    by_cases h : e.1 = name
    · simp [put, h]
    · simp [put, h, ih]

end Table

theorem getD_push {α : Type} (xs : Array α) (a d : α) (i : Nat) :
    (xs.push a).getD i d = if i = xs.size then a else xs.getD i d := by
  rcases Nat.lt_trichotomy i xs.size with hi | rfl | hi
  · simp [Array.getD, Array.getElem_push, hi, Nat.lt_succ_of_lt hi, Nat.ne_of_lt hi]
  · simp [Array.getD]
  · have h₁ : ¬ i < xs.size + 1 := by omega
    have h₂ : ¬ i < xs.size := by omega
    simp [Array.getD, h₁, h₂, Nat.ne_of_gt hi]

/-- Heaps with the same contents, but for the places of bodies and for bodies of the second that are
no renamed body of the first. -/
structure Heap.Like (σ : Nat → Nat) (h h' : Heap) : Prop where
  injective (i j : Nat) : σ i = σ j → i = j
  next (i : Nat) : σ (h.bodies.size + i) = h'.bodies.size + i
  bodies (i : Nat) : h'.bodies.getD (σ i) .missing = (h.bodies.getD i .missing).rename σ
  vectors : h'.vectors = h.vectors.map (Array.map (Value.rename σ))
  streams : h'.streams = h.streams
  disk : h'.disk = h.disk
  marks : h'.marks = h.marks

theorem Body.rename_id (b : Body) : b.rename id = b := by
  cases b <;> simp [Body.rename, Locals.rename, Function.rename]

theorem Heap.Like.refl (h : Heap) : Heap.Like id h h where
  injective _ _ h := h
  next _ := rfl
  bodies i := (Body.rename_id _).symm
  vectors := by simp
  streams := rfl
  disk := rfl
  marks := rfl

namespace Heap.Like

variable {h h' : Heap} (hl : Heap.Like σ h h')

include hl

theorem body (f : Function) : h'.body (f.rename σ) = (h.body f).rename σ := hl.bodies f.id

theorem elements (id : Nat) : h'.elements id = (h.elements id).map (Value.rename σ) := by
  simp only [Heap.elements, hl.vectors]
  by_cases hi : id < h.vectors.size <;> simp [Array.getD, hi]

theorem cons (a b : Value) :
    (h'.cons (a.rename σ) (b.rename σ)).1 = (h.cons a b).1.rename σ ∧
      Heap.Like σ (h.cons a b).2 (h'.cons (a.rename σ) (b.rename σ)).2 := by
  refine ⟨by simp [Heap.cons, hl.marks], ?_⟩
  exact { hl with marks := congrArg (· + 1) hl.marks }

theorem error (message : String) :
    (h'.error message).1 = (h.error message).1.rename σ ∧
      Heap.Like σ (h.error message).2 (h'.error message).2 := by
  refine ⟨by simp [Heap.error, hl.marks, Value.rename], ?_⟩
  exact { hl with marks := congrArg (· + 1) hl.marks }

/-- Both heaps put a new function at places that correspond. -/
theorem function (name : String) (arity : Option Nat) (b : Body) :
    (h'.function name arity (b.rename σ)).1 = (h.function name arity b).1.rename σ ∧
      Heap.Like σ (h.function name arity b).2 (h'.function name arity (b.rename σ)).2 := by
  have hn := hl.next 0
  refine ⟨by simpa [Heap.function, Function.rename] using hn.symm, ?_⟩
  refine { hl with next := fun i => ?_, bodies := fun i => ?_ }
  · have := hl.next (i + 1)
    simp only [Heap.function, Array.size_push]
    rw [Nat.add_assoc, Nat.add_comm 1 i, this]
    omega
  · have hi : σ i = h'.bodies.size ↔ i = h.bodies.size := by
      constructor
      · intro he
        exact hl.injective i _ (he.trans hn.symm)
      · rintro rfl
        exact hn
    simp only [Heap.function, getD_push, hi]
    split
    · rfl
    · exact hl.bodies i

theorem vector (items : Array Value) :
    (h'.vector (items.map (Value.rename σ))).1 = (h.vector items).1.rename σ ∧
      Heap.Like σ (h.vector items).2 (h'.vector (items.map (Value.rename σ))).2 := by
  refine ⟨by simp [Heap.vector, hl.vectors, Value.rename], ?_⟩
  exact { hl with vectors := by simp [Heap.vector, hl.vectors] }

theorem setElement (id index : Nat) (x : Value) :
    Heap.Like σ (h.setElement id index x) (h'.setElement id index (x.rename σ)) := by
  refine { hl with vectors := ?_ }
  simp only [Heap.setElement, hl.vectors]
  apply Array.ext
  · simp
  · intro i hi hi'
    by_cases he : id = i
    · simp [Array.getElem_modify, he, Array.map_setIfInBounds]
    · simp [Array.getElem_modify, he]

theorem stream (s : Stream) :
    (h'.stream s).1 = (h.stream s).1 ∧ Heap.Like σ (h.stream s).2 (h'.stream s).2 := by
  refine ⟨by simp [Heap.stream, hl.streams], ?_⟩
  exact { hl with streams := by simp [Heap.stream, hl.streams] }

theorem readByte (s : StreamHandle) :
    (h'.readByte s).1 = (h.readByte s).1 ∧ Heap.Like σ (h.readByte s).2 (h'.readByte s).2 := by
  have he : h'.getStream s = h.getStream s := by simp [Heap.getStream, hl.streams]
  simp only [Heap.readByte, he, hl.disk]
  refine ⟨trivial, { hl with streams := ?_ }⟩
  simp [Heap.setStream, hl.streams]

theorem writeByte (s : StreamHandle) (b : UInt8) :
    (h'.writeByte s b).1 = (h.writeByte s b).1 ∧
      Heap.Like σ (h.writeByte s b).2 (h'.writeByte s b).2 := by
  have he : h'.getStream s = h.getStream s := by simp [Heap.getStream, hl.streams]
  simp only [Heap.writeByte, he, hl.disk]
  refine ⟨trivial, { hl with streams := ?_, disk := rfl }⟩
  simp [Heap.setStream, hl.streams]

theorem closeStream (s : StreamHandle) :
    (h'.closeStream s).1 = (h.closeStream s).1 ∧
      Heap.Like σ (h.closeStream s).2 (h'.closeStream s).2 := by
  have he : h'.getStream s = h.getStream s := by simp [Heap.getStream, hl.streams]
  simp only [Heap.closeStream, he, hl.disk]
  refine ⟨trivial, { hl with streams := ?_, disk := rfl }⟩
  simp [Heap.setStream, hl.streams]

end Heap.Like

theorem Value.equateWith_rename (hσ : ∀ i j, σ i = σ j → i = j) {below below' : Nat → Nat → Bool}
    (hb : ∀ i j, below' i j = below i j) (u v : Value) :
    equateWith below' (u.rename σ) (v.rename σ) = equateWith below u v := by
  have hf : ∀ f g : Function, ((f.rename σ).id == (g.rename σ).id) = (f.id == g.id) := by
    intro f g
    rw [Bool.eq_iff_iff, beq_iff_eq, beq_iff_eq]
    exact ⟨hσ f.id g.id, congrArg σ⟩
  induction u generalizing v with
  | cons m a b iha ihb =>
    cases v with
    | cons n c d => simp [equateWith, iha, ihb]
    | _ => rfl
  | function f =>
    cases v with
    | function g => exact hf f g
    | _ => rfl
  | vector i m =>
    cases v with
    | vector j n => simp [rename, equateWith, hb]
    | _ => rfl
  | _ => cases v <;> rfl

namespace Heap

theorem allPairs_map {p p' : Value → Value → Bool} {g : Value → Value}
    (h : ∀ u v, p' (g u) (g v) = p u v) (us vs : List Value) :
    allPairs p' (us.map g) (vs.map g) = allPairs p us vs := by
  induction us generalizing vs with
  | nil => cases vs <;> rfl
  | cons u us ih =>
    cases vs with
    | nil => rfl
    | cons v vs => simp [allPairs, h, ih]

variable {h h' : Heap} (hl : Heap.Like σ h h')

include hl

/-- Values are equal in one heap exactly when they are so in the other: renaming keeps different
functions different. -/
theorem Like.equate (u v : Value) : h'.equate (u.rename σ) (v.rename σ) = h.equate u v := by
  have hs : h'.vectors.size = h.vectors.size := by simp [hl.vectors]
  rw [Heap.equate, Heap.equate, hs]
  generalize h.vectors.size = depth
  induction depth generalizing u v with
  | zero => exact Value.equateWith_rename hl.injective (fun _ _ => rfl) u v
  | succ depth ih =>
    refine Value.equateWith_rename hl.injective (fun i j => ?_) u v
    simp only [hl.elements, Array.toList_map]
    exact allPairs_map ih _ _

end Heap

/-- Whether a report is about a partial application. How many of them are made on the way to a call
depends on how its arguments are supplied. -/
def Report.isPartial : Report → Bool
  | .partialApplication .. => true
  | _ => false

/-- Worlds with heaps that are alike and with the same globals, that reported the same but for
partial applications. -/
structure World.Like (σ : Nat → Nat) (w w' : World) : Prop where
  heap : Heap.Like σ w.heap w'.heap
  functions : w'.functions = w.functions.map (Function.rename σ)
  values : w'.values = w.values.map (Value.rename σ)
  interop : w'.interop = w.interop
  options : w'.options = w.options
  runtime : w'.runtime = w.runtime
  started : w'.started = w.started
  now : w'.now = w.now
  reports : w'.reports.toList.filter (!·.isPartial) = w.reports.toList.filter (!·.isPartial)

theorem World.Like.refl (w : World) : World.Like id w w where
  heap := .refl w.heap
  functions := by simp [Table.map, Function.rename]
  values := by simp [Table.map]
  interop := rfl
  options := rfl
  runtime := rfl
  started := rfl
  now := rfl
  reports := rfl

/-- The same answer, in worlds that are alike. -/
def Answers (σ : Nat → Nat) (r r' : Except Error Value × World) : Prop :=
  r'.1 = r.1.map (Value.rename σ) ∧ World.Like σ r.2 r'.2

namespace World.Like

variable {w w' : World} (hl : World.Like σ w w')

include hl

theorem withHeap {h h' : Heap} (hh : Heap.Like σ h h') :
    World.Like σ { w with heap := h } { w' with heap := h' } :=
  { hl with heap := hh }

theorem report (r : Report) : World.Like σ (w.report r) (w'.report r) := by
  refine { hl with reports := ?_ }
  simp [World.report, hl.reports]

theorem function? (name : String) :
    w'.function? name = (w.function? name).map (Function.rename σ) := by
  simp only [World.function?, hl.functions, Table.get?_map]
  cases w.functions.get? name <;> rfl

theorem value? (name : String) : w'.value? name = (w.value? name).map (Value.rename σ) := by
  simp only [World.value?, hl.values, Table.get?_map]
  cases w.values.get? name <;> rfl

theorem interop? (name : String) : w'.interop? name = w.interop? name := by
  simp [World.interop?, hl.interop]

theorem callable (v : Value) :
    w'.callable (v.rename σ) = (w.callable v).map (Function.rename σ) := by
  cases v with
  | function f => rfl
  | symbol name => exact hl.function? name
  | cons m a b => exact congrArg (Except.error ∘ Error.notCallable) (Value.text_rename σ _)
  | _ => rfl

theorem setValue (name : String) (v : Value) :
    World.Like σ (w.setValue name v) (w'.setValue name (v.rename σ)) := by
  refine { hl with values := ?_ }
  simp [World.setValue, hl.values, Table.insert_map]

theorem define (name : String) (f : Function) :
    World.Like σ (w.define name f) (w'.define name (f.rename σ)) := by
  have hk : w'.functions.contains name = w.functions.contains name := by simp [hl.functions]
  simp only [World.define, hk]
  apply World.Like.report
  refine { hl with functions := ?_ }
  simp [hl.functions, Table.insert_map]

theorem makeFunction (name : String) (arity : Option Nat) (b : Body) :
    (w'.makeFunction name arity (b.rename σ)).1 = (w.makeFunction name arity b).1.rename σ ∧
      World.Like σ (w.makeFunction name arity b).2 (w'.makeFunction name arity (b.rename σ)).2 := by
  obtain ⟨hf, hh⟩ := hl.heap.function name arity b
  exact ⟨hf, hl.withHeap hh⟩

theorem partialApply (f : Function) (bound : List Value) :
    (w'.partialApply (f.rename σ) (bound.map (Value.rename σ))).1 =
        (w.partialApply f bound).1.rename σ ∧
      World.Like σ (w.partialApply f bound).2
        (w'.partialApply (f.rename σ) (bound.map (Value.rename σ))).2 := by
  simp only [World.partialApply, List.length_map]
  exact (hl.report _).makeFunction f.name _ (.partialOf f bound)

theorem compileForm (form : Value) :
    (w'.compileForm (form.rename σ)).1 = (w.compileForm form).1 ∧
      World.Like σ (w.compileForm form).2 (w'.compileForm (form.rename σ)).2 := by
  refine ⟨?_, ?_⟩
  · simp [World.compileForm, hl.values, compile_rename]
  · simpa [World.compileForm] using hl.report (.compiling form.text)

theorem miss (path : String) : World.Like σ (w.miss path) (w'.miss path) := by
  refine hl.withHeap { hl.heap with disk := ?_ }
  simp [hl.heap.disk]

theorem stream (s : Stream) :
    (.ok (w'.heap.stream s).1 : Except Error StreamHandle) = .ok (w.heap.stream s).1 ∧
      World.Like σ { w with heap := (w.heap.stream s).2 }
        { w' with heap := (w'.heap.stream s).2 } := by
  obtain ⟨hs, hh⟩ := hl.heap.stream s
  exact ⟨congrArg Except.ok hs, hl.withHeap hh⟩

theorem openForReading (path : String) :
    (w'.openForReading path).1 = (w.openForReading path).1 ∧
      World.Like σ (w.openForReading path).2 (w'.openForReading path).2 := by
  have ho : w'.options.openRead = w.options.openRead := by rw [hl.options]
  simp only [World.openForReading, ho, hl.heap.disk]
  rcases w.options.openRead with _ | files | _
  · exact ⟨rfl, hl.report _⟩
  · dsimp only
    cases files.get? path with
    | none => exact ⟨rfl, hl⟩
    | some bytes => exact hl.stream _
  · dsimp only
    rcases w.heap.disk.open? path with e | found
    · exact ⟨rfl, hl.miss path⟩
    · cases found <;> exact hl.stream _

theorem openForWriting (path : String) :
    (w'.openForWriting path).1 = (w.openForWriting path).1 ∧
      World.Like σ (w.openForWriting path).2 (w'.openForWriting path).2 := by
  have ho : w'.options.openWrite = w.options.openWrite := by rw [hl.options]
  simp only [World.openForWriting, ho, hl.heap.disk]
  rcases w.options.openWrite with _ | _ | _
  · exact ⟨rfl, hl.report _⟩
  · exact hl.stream _
  · dsimp only
    rcases w.heap.disk.create path with e | ⟨name, disk⟩
    · exact ⟨rfl, hl.miss path⟩
    · have hd : Heap.Like σ { w.heap with disk } { w'.heap with disk } :=
        { hl.heap with disk := rfl }
      exact (hl.withHeap hd).stream _

end World.Like
end KLambda
