import KLambda.Primitive.Call
import KLambda.Proofs.Doubles
import KLambda.Proofs.Scoped

/-!
Errors that programs can cause. Compiling a form, looking up a name and calling a primitive give
ordinary errors, but for the internal ones that stand behind checks made before. What holds of
every ordinary error, and of these as far as they can come up, holds of every error that a
primitive gives.
-/
namespace KLambda

/-- Neither a fault of the engine nor the refusal of a way to drive it. -/
def Error.Ordinary : Error → Prop
  | .internal _ | .unsupported .suspension | .unsupported .synchronousEvaluation => False
  | _ => True

/-- A property of errors that every ordinary one has. -/
def Admits (Q : Error → Prop) : Prop := ∀ e : Error, e.Ordinary → Q e

variable {Q : Error → Prop}

namespace Value

variable (hQ : Admits Q) (v : Value)

include hQ

theorem mismatch_yields {α : Type} {P : α → Prop} (expected : String) :
    Yields P Q (v.mismatch expected) :=
  hQ _ trivial

theorem toNumber_yields : Yields (fun _ => True) Q v.toNumber := by
  cases v <;> first | trivial | exact hQ _ trivial

theorem toStr_yields : Yields (fun _ => True) Q v.toStr := by
  cases v <;> first | trivial | exact hQ _ trivial

theorem toSymbol_yields : Yields (fun _ => True) Q v.toSymbol := by
  cases v <;> first | trivial | exact hQ _ trivial

theorem toBool_yields : Yields (fun _ => True) Q v.toBool := by
  unfold toBool
  split
  · trivial
  · exact v.mismatch_yields hQ _

theorem toVector_yields : Yields (fun p => v = .vector p.1 p.2) Q v.toVector := by
  cases v <;> first | exact hQ _ trivial | rfl

theorem toErrorMessage_yields : Yields (fun _ => True) Q v.toErrorMessage := by
  cases v <;> first | trivial | exact hQ _ trivial

theorem toStream_yields : Yields (fun _ => True) Q v.toStream := by
  cases v <;> first | trivial | exact hQ _ trivial

theorem toSize_yields : Yields (fun _ => True) Q v.toSize := by
  unfold toSize
  split
  · split
    · trivial
    · exact mismatch_yields hQ _ _
  · exact mismatch_yields hQ _ _

/-- An index that was checked is below the length. -/
theorem toIndex_yields (length : Nat) : Yields (· < length) Q (v.toIndex length) := by
  unfold toIndex
  split
  · split
    · exact mismatch_yields hQ _ _
    · rename_i i _
      split
      · rename_i hi
        simp only [Yields.ok_iff]
        omega
      · exact hQ _ trivial
  · exact mismatch_yields hQ _ _

end Value

namespace World

variable (hQ : Admits Q) (w : World)

include hQ

theorem function?_yields (name : String) :
    Yields (fun f => w.functions.get? name = some f) Q (w.function? name) := by
  unfold function?
  split
  · assumption
  · exact hQ _ trivial

theorem value?_yields (name : String) :
    Yields (fun v => w.values.get? name = some v) Q (w.value? name) := by
  unfold value?
  split
  · assumption
  · exact hQ _ trivial

theorem interop?_yields (name : String) : Yields (fun _ => True) Q (w.interop? name) := by
  unfold interop?
  split
  · trivial
  · exact hQ _ trivial

/-- A value is called as the function that it is or that it names. -/
theorem callable_yields (v : Value) :
    Yields (fun f => v = .function f ∨ ∃ name, w.functions.get? name = some f) Q
      (w.callable v) := by
  cases v with
  | function f => exact Or.inl rfl
  | symbol name => exact (w.function?_yields hQ name).imp fun f hf => Or.inr ⟨name, hf⟩
  | _ => exact hQ _ trivial

end World

/-- A property of values and one of errors that primitives cannot leave by looking at a heap: every
finite number has it, what stands in a cell or a vector has it too, and so has the error of an
element that is not there. -/
structure Guarded (h : Heap) (P : Value → Prop) (Q : Error → Prop) : Prop where
  admits : Admits Q
  atom (v : Value) : v.kind ∉ [Kind.number, .cons, .vector, .function] → P v
  number (x : Float) : x.isFinite = true → P (.number x)
  cell (m : Nat) (a b : Value) : P (.cons m a b) → P a ∧ P b
  element (id size i : Nat) : P (.vector id size) → i < size →
    (∀ x, (h.elements id)[i]? = some x → P x) ∧
      ((h.elements id)[i]? = none → Q (.internal (.recheck "vector")))

namespace Primitive

variable {h : Heap} {P : Value → Prop} (hg : Guarded h P Q)

include hg

theorem finite_yields (p : Primitive) (x : Float) : Yields P Q (p.finite x) := by
  unfold finite
  split
  · rename_i hx
    exact hg.number x hx
  · exact hg.admits _ trivial

omit hg in
theorem isFinite_code (c : Char) : (Float.ofNat c.toNat).isFinite = true := by
  have hc := c.val.toNat_lt
  exact Number.isFinite_ofNat (Nat.lt_trans hc (by decide))

omit hg in
theorem numbers_yields (hQ : Admits Q) (x y : Value) : Yields (fun _ => True) Q (numbers x y) :=
  (x.toNumber_yields hQ).bind fun _ _ => (y.toNumber_yields hQ).bind fun _ _ => trivial

theorem arithmetic_yields (p : Primitive) (f : Float → Float → Float) (x y : Value) :
    Yields P Q (p.arithmetic f x y) :=
  (numbers_yields hg.admits x y).bind fun _ _ => finite_yields hg p _

theorem quotient_yields (x y : Value) : Yields P Q (quotient x y) := by
  refine (numbers_yields hg.admits x y).bind fun p _ => ?_
  simp only
  split
  · exact hg.admits _ trivial
  · exact finite_yields hg _ _

theorem comparison_yields (f : Float → Float → Bool) (x y : Value) :
    Yields P Q (comparison f x y) :=
  (numbers_yields hg.admits x y).bind fun _ _ => hg.atom _ (by simp [Value.bool, Value.kind])

omit hg in
theorem nonEmpty_yields (hQ : Admits Q) (v : Value) : Yields (fun _ => True) Q (nonEmpty v) := by
  refine (v.toStr_yields hQ).bind fun s _ => ?_
  split
  · exact v.mismatch_yields hQ _
  · trivial

theorem characterOf_yields (v : Value) : Yields P Q (characterOf v) := by
  refine (v.toSize_yields hg.admits).bind fun n _ => ?_
  split
  · exact hg.atom _ (by simp [character, Value.kind])
  · exact v.mismatch_yields hg.admits _

/-- The character at an index that was checked is there. -/
theorem characterAt_yields (s i : Value) : Yields P Q (characterAt s i) := by
  refine (s.toStr_yields hg.admits).bind fun text _ =>
    (i.toIndex_yields hg.admits text.toList.length).bind fun index hi => ?_
  rw [List.getElem?_eq_getElem hi]
  exact hg.atom _ (by simp [character, Value.kind])

theorem vectorGet_yields {v : Value} (i : Value) (hv : P v) :
    Yields P Q (do
      let (id, size) ← v.toVector
      let index ← i.toIndex size
      match (h.elements id)[index]? with
      | some x => .ok x
      | none => .error (.internal (.recheck "vector"))) := by
  refine (v.toVector_yields hg.admits).bind fun p hp => ?_
  obtain ⟨id, size⟩ := p
  subst hp
  refine (i.toIndex_yields hg.admits size).bind fun index hi => ?_
  obtain ⟨hs, hn⟩ := hg.element id size index hv hi
  cases he : (h.elements id)[index]? with
  | some x => exact hs x he
  | none => exact hn he

theorem compute_yields {p : Primitive} {args : List Value} {r : Except Error Value}
    (ha : ∀ v ∈ args, P v) (hr : compute h p args = some r) : Yields P Q r := by
  have hb : ∀ b, P (.bool b) := fun b => hg.atom _ (by simp [Value.bool, Value.kind])
  have hs : ∀ s, P (.str s) := fun s => hg.atom _ (by simp [Value.kind])
  have hQ := hg.admits
  revert hr
  fun_cases compute h p args <;> intro hr <;> cases hr <;>
    simp only [List.forall_mem_cons, List.not_mem_nil, false_imp_iff, forall_const, and_true] at ha
  case case1 test yes no =>
    refine (test.toBool_yields hQ).bind fun b _ => ?_
    cases b with
    | true => exact ha.2.1
    | false => exact ha.2.2
  case case2 x y =>
    refine (x.toBool_yields hQ).bind fun b _ => ?_
    cases b with
    | true => exact (y.toBool_yields hQ).bind fun _ _ => hb _
    | false => exact hb _
  case case3 x y =>
    refine (x.toBool_yields hQ).bind fun b _ => ?_
    cases b with
    | true => exact hb _
    | false => exact (y.toBool_yields hQ).bind fun _ _ => hb _
  case case10 => exact (hg.cell _ _ _ ha).1
  case case12 => exact (hg.cell _ _ _ ha).2
  case case11 v _ | case13 v _ => exact v.mismatch_yields hQ _
  case case14 s => exact (nonEmpty_yields hQ s).bind fun _ _ => hs _
  case case15 s t =>
    exact (s.toStr_yields hQ).bind fun _ _ => (t.toStr_yields hQ).bind fun _ _ => hs _
  case case16 s => exact (nonEmpty_yields hQ s).bind fun p _ => hg.number _ (isFinite_code p.1)
  case case17 n => exact characterOf_yields hg n
  case case18 s i => exact characterAt_yields hg s i
  case case19 => exact hs _
  case case20 v i => exact vectorGet_yields hg i ha.1
  case case21 | case22 | case23 => exact arithmetic_yields hg _ _ _ _
  case case24 => exact quotient_yields hg _ _
  case case25 | case26 | case27 | case28 => exact comparison_yields hg _ _ _
  case case29 name =>
    exact (name.toStr_yields hQ).bind fun _ _ => hg.atom _ (by simp [Value.kind])
  case case30 => exact ha.1
  case case31 message => exact (message.toStr_yields hQ).bind fun _ _ => hQ _ trivial
  case case32 e => exact (e.toErrorMessage_yields hQ).bind fun _ _ => hs _
  all_goals exact hb _

omit hg in
/-- A primitive that only computes does so whenever it is given as many arguments as it takes. -/
theorem compute_ne_none {p : Primitive} {args : List Value} (hn : args.length = p.arity)
    (hp : p ∉ [openStream, close, readByte, writeByte, cons, vector, vectorSet, set, value,
      getTime]) :
    compute h p args ≠ none := by
  rcases args with _ | ⟨a, _ | ⟨b, _ | ⟨c, _ | ⟨d, rest⟩⟩⟩⟩ <;>
    cases p <;> simp [arity] at hn hp <;> first
      | exact Option.some_ne_none _
      | (cases a <;> exact Option.some_ne_none _)

end Primitive

section

variable (hQ : Admits Q) (w : World)

include hQ

theorem World.openForReading_yields (path : String) :
    Yields (fun _ => True) Q (w.openForReading path).1 := by
  fun_cases World.openForReading w path <;> first | trivial | exact hQ _ trivial

theorem World.openForWriting_yields (path : String) :
    Yields (fun _ => True) Q (w.openForWriting path).1 := by
  fun_cases World.openForWriting w path <;> first | trivial | exact hQ _ trivial

namespace Primitive

theorem time_yields (mode : Value) :
    Yields (fun v => v = .number (w.options.clock.getD w.now) ∨ v = .number (w.now - w.started)) Q
      (time w mode) := by
  refine (mode.toSymbol_yields hQ).bind fun s _ => ?_
  split
  · exact Or.inl rfl
  · split
    · exact Or.inr rfl
    · exact mode.mismatch_yields hQ _

theorem openFile_yields (path mode : Value) :
    Yields (∃ s, · = .stream s) Q (openFile w path mode).1 := by
  have hc : Yields (fun _ => True) Q
      (do return (← path.toStr, ← mode.toSymbol) : Except Error (String × String)) :=
    (path.toStr_yields hQ).bind fun _ _ => (mode.toSymbol_yields hQ).bind fun _ _ => trivial
  unfold openFile
  split
  · rename_i e he
    rwa [he] at hc
  · split
    · exact (w.openForReading_yields hQ _).map fun s _ => ⟨s, rfl⟩
    · split
      · exact (w.openForWriting_yields hQ _).map fun s _ => ⟨s, rfl⟩
      · exact mode.mismatch_yields hQ _

theorem closeFile_yields (stream : Value) : Yields (· = .empty) Q (closeFile w stream).1 := by
  have hc := stream.toStream_yields hQ
  fun_cases closeFile w stream <;> simp_all
  exact hQ _ trivial

theorem readFrom_yields (stream : Value) :
    Yields (fun v => ∃ n : Float, n.isFinite = true ∧ v = .number n) Q (readFrom w stream).1 := by
  have hc := stream.toStream_yields hQ
  unfold readFrom
  split
  · rename_i he
    rwa [he] at hc
  · split
    · rename_i b _ _
      exact ⟨_, Number.isFinite_ofNat (Nat.lt_trans b.toNat_lt (by decide)), rfl⟩
    · exact ⟨-1, by decide +kernel, rfl⟩
    · exact hQ _ trivial

theorem writeTo_yields (byte stream : Value) :
    Yields (· = byte) Q (writeTo w byte stream).1 := by
  have hb : Yields (fun _ => True) Q (byteOf byte) := by
    refine (byte.toSize_yields hQ).bind fun n _ => ?_
    split
    · trivial
    · exact byte.mismatch_yields hQ _
  have hc : Yields (fun _ => True) Q
      (do return (← byteOf byte, ← stream.toStream) : Except Error (UInt8 × StreamHandle)) :=
    hb.bind fun _ _ => (stream.toStream_yields hQ).bind fun _ _ => trivial
  unfold writeTo
  split
  · rename_i e he
    rwa [he] at hc
  · split
    · rfl
    · exact hQ _ trivial

theorem makeVector_yields (size : Value) : Yields (fun _ => True) Q (makeVector w size).1 := by
  have hc := size.toSize_yields hQ
  fun_cases makeVector w size <;> simp_all

theorem storeElement_yields (vector index x : Value) :
    Yields (· = vector) Q (storeElement w vector index x).1 := by
  have hc : Yields (fun _ => True) Q (do
      let (id, size) ← vector.toVector
      return (id, ← index.toIndex size) : Except Error (Nat × Nat)) :=
    (vector.toVector_yields hQ).bind fun p _ =>
      (index.toIndex_yields hQ p.2).bind fun _ _ => trivial
  unfold storeElement
  split
  · rename_i e he
    rwa [he] at hc
  · rfl

end Primitive
end

/-- The errors of a call, given that a wrong number of arguments is answered by an error that is
allowed too. -/
theorem Primitive.call_yields {w : World} {P : Value → Prop} (hg : Guarded w.heap P Q)
    {p : Primitive} {args : List Value} (ha : ∀ v ∈ args, P v)
    (hn : args.length ≠ p.arity → Q (.internal (.argumentCount p.name args.length p.arity))) :
    Yields (fun _ => True) Q (p.call args w).1 := by
  have hQ := hg.admits
  fun_cases Primitive.call p args w
  case case1 => exact (openFile_yields hQ w _ _).imp fun _ _ => trivial
  case case2 => exact (closeFile_yields hQ w _).imp fun _ _ => trivial
  case case3 => exact (readFrom_yields hQ w _).imp fun _ _ => trivial
  case case4 => exact (writeTo_yields hQ w _ _).imp fun _ _ => trivial
  case case5 => trivial
  case case6 => exact makeVector_yields hQ w _
  case case7 => exact (storeElement_yields hQ w _ _ _).imp fun _ _ => trivial
  case case8 name v e he =>
    have := name.toSymbol_yields hQ
    rwa [he] at this
  case case9 => trivial
  case case10 name =>
    exact (name.toSymbol_yields hQ).bind fun s _ => (w.value?_yields hQ s).imp fun _ _ => trivial
  case case11 => exact (time_yields hQ w _).imp fun _ _ => trivial
  case case12 =>
    unfold computed
    split
    next hr => exact (compute_yields hg ha hr).imp fun _ _ => trivial
    next hc =>
      apply hn
      intro hl
      refine compute_ne_none hl ?_ hc
      intro hp
      -- one of the ten that change something: with this many arguments it was taken care of above
      simp only [List.mem_cons, List.not_mem_nil, or_false] at hp
      rcases hp with rfl | rfl | rfl | rfl | rfl | rfl | rfl | rfl | rfl | rfl <;>
        rcases args with _ | ⟨a, _ | ⟨b, _ | ⟨c, _ | ⟨d, rest⟩⟩⟩⟩ <;>
        simp_all [Primitive.arity]

end KLambda
