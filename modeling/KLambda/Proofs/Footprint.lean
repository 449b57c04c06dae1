import KLambda.Machine.Release
import KLambda.Proofs.Evolution
import KLambda.Proofs.Sound
import KLambda.Proofs.StreamLife

/-!
What a primitive changes. Arguments are checked before anything is changed, so an error leaves the
world as it was, unless it is an error of the port that a stream is on. A call that succeeds changes
one thing at most: a global value, a cell of a vector, the supply of vectors or of marks, or the
stream that it was given.
-/
namespace KLambda

/-- The cell that a vector and an index stand for, if both are what they should be. -/
def Value.cell (v index : Value) : Except Error (Nat × Nat) := do
  let (id, size) ← v.toVector
  return (id, ← index.toIndex size)

namespace World

variable (w w' : World)

end World

namespace Disk

variable {d : Disk}

theorem files_writeAt {name other : String} (h : other ≠ name) (offset : Nat)
    (bytes : Array UInt8) :
    (d.writeAt name offset bytes).files.get? other = d.files.get? other := by
  simp [writeAt, Ne.symm h]

end Disk

namespace Device

/-- The file that a device writes to. -/
def sinkFile? : Device → Option String
  | .sink file _ _ => some file
  | _ => none

/-- Only the file that a device writes to differs. -/
structure Leaves (p : Device) (d d' : Disk) : Prop where
  disk : d' = { d with files := d'.files }
  file (name : String) (h : p.sinkFile? ≠ some name) : d'.files.get? name = d.files.get? name

variable {p : Device} {d : Disk}

theorem Leaves.refl (p : Device) (d : Disk) : p.Leaves d d := ⟨rfl, fun _ _ => rfl⟩

theorem leaves_writeAt (file : String) (offset : Nat) (bytes : Array UInt8) {p : Device}
    (hp : p.sinkFile? = some file) : p.Leaves d (d.writeAt file offset bytes) := by
  refine ⟨rfl, fun name hn => Disk.files_writeAt ?_ offset bytes⟩
  rintro rfl
  exact hn hp

theorem leaves_flush (p : Device) (d : Disk) : p.Leaves d (p.flush d).2.2 := by
  fun_cases flush p d <;> first | exact .refl _ _ | exact leaves_writeAt _ _ _ rfl

theorem sinkFile?_push (p : Device) (d : Disk) (b : UInt8) :
    (p.push d b).2.1.sinkFile? = p.sinkFile? := by
  fun_cases push p d b <;> rfl

end Device

namespace Exchange

def error? : Exchange → Option StreamError
  | .read (.error e) | .write _ (.error e) | .close (.error e) => some e
  | _ => none

end Exchange

/-- The only errors that a port gives are those of its device. -/
theorem Request.error?_ask {π : Type} [Port π] {name : String} {p : π} {d : Disk} {r : Request}
    {e : StreamError} (h : (r.ask name p d).1.error? = some e) : ∃ cause, e = .io name cause := by
  cases r with
  | read =>
    rcases hr : Port.read p d with ⟨cause | b, q⟩ <;>
      simp only [ask, hr, Except.mapError, Exchange.error?, Option.some.injEq, reduceCtorEq] at h
    exact ⟨cause, h.symm⟩
  | write b =>
    rcases hr : Port.write p d b with ⟨cause | u, q⟩ <;>
      simp only [ask, hr, Except.mapError, Exchange.error?, Option.some.injEq, reduceCtorEq] at h
    exact ⟨cause, h.symm⟩
  | close =>
    rcases hr : Port.close p d with ⟨cause | u, q⟩ <;>
      simp only [ask, hr, Except.mapError, Exchange.error?, Option.some.injEq, reduceCtorEq] at h
    exact ⟨cause, h.symm⟩

namespace Heap

variable (h : Heap) (s : StreamHandle) (r : Request)

theorem setStream_getStream : h.setStream s.id (h.getStream s) = h := by
  have hs : h.streams.setIfInBounds s.id (h.getStream s) = h.streams := by
    apply Array.ext_getElem?
    intro i
    by_cases hi : i = s.id
    · subst hi
      by_cases hlt : s.id < h.streams.size <;>
        simp [getStream, Array.getD, hlt]
    · simp [Ne.symm hi]
  rw [setStream, hs]

/-- A request through a handle fails and leaves the heap as it was, or its port answers, whose
only errors are its own. -/
theorem perform_cases : (∃ e, h.perform s r = (r.failed e, h)) ∨
    ∀ e, (h.perform s r).1.error? = some e → ∃ cause, e = .io (h.getStream s).name cause := by
  rw [perform_eq]
  rcases StreamOf.perform_cases (h.getStream s) h.disk r with ⟨e, he⟩ | ⟨p, hl, hr⟩
  · refine Or.inl ⟨e, ?_⟩
    rw [he]
    dsimp only
    rw [setStream_getStream]
  · rw [StreamOf.perform_live hl hr]
    exact Or.inr fun e (he : (r.ask _ p h.disk).1.error? = some e) => Request.error?_ask he

end Heap

namespace Primitive

variable {w : World} {p : Primitive} {args : List Value}

end Primitive

end KLambda
