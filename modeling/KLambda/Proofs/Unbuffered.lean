import KLambda.Proofs.Footprint
import KLambda.Proofs.Lossless

/-!
Worlds in which nothing is held back. Where no stream is on a file that is written, and none can be
opened that is, there is nothing to lose, whatever goes out of reach.
-/
namespace KLambda

theorem Device.sinkFile?_read (p : Device) (d : Disk) :
    (p.read d).2.sinkFile? = p.sinkFile? := by
  fun_cases read p d <;> rfl

theorem Device.sinkFile?_flush (p : Device) (d : Disk) :
    (p.flush d).2.1.sinkFile? = p.sinkFile? := by
  fun_cases flush p d <;> rfl

theorem Device.sinkFile?_write (p : Device) (d : Disk) (b : UInt8) :
    (p.write d b).2.1.sinkFile? = p.sinkFile? := by
  have hp := sinkFile?_push p d b
  unfold write
  split <;> rename_i he <;> rw [he] at hp
  · exact hp
  · split
    · exact (sinkFile?_flush _ _).trans hp
    · exact hp

theorem Request.sinkFile?_ask (name : String) (p : Device) (d : Disk) (r : Request) :
    (r.ask name p d).2.1.sinkFile? = p.sinkFile? := by
  cases r with
  | read => exact p.sinkFile?_read d
  | write b => exact p.sinkFile?_write d b
  | close => exact p.sinkFile?_flush d

/-- A stream that writes no file, and never did. -/
def Stream.Unbuffered (s : Stream) : Prop := ∀ p, s.port? = some p → p.sinkFile? = none

namespace Stream.Unbuffered

variable {s : Stream}

theorem perform (h : s.Unbuffered) (d : Disk) (r : Request) :
    Stream.Unbuffered (s.perform d r).2.1 := by
  rcases s.perform_cases d r with ⟨e, he⟩ | ⟨p, hl, hr⟩
  · rw [he]
    exact h
  · have hp : p.sinkFile? = none := h p (by simp [StreamOf.port?, hl])
    have ha := (r.sinkFile?_ask s.name p d).trans hp
    rw [StreamOf.perform_live hl hr]
    intro q hq
    simp only [StreamOf.relay, StreamOf.port?] at hq
    split at hq <;> rename_i hc <;> split at hc <;> cases hc <;> cases hq <;> exact ha

theorem holdsBack (h : s.Unbuffered) : s.holdsBack = false := by
  obtain ⟨name, direction, link⟩ := s
  cases link with
  | live p =>
    have hp := h p rfl
    cases p with
    | sink => cases hp
    | _ => rfl
  | _ => rfl

end Stream.Unbuffered

/-- All streams write no file. -/
def Heap.Unbuffered (h : Heap) : Prop := ∀ s ∈ h.streams, s.Unbuffered

/-- The functions of the host open no file to write to it. -/
structure Host.Unbuffered (host : Host) : Prop where
  native (op : String) (held args : List Value) {h : Heap} (hh : h.Unbuffered) :
    (host.native op held args h).2.Unbuffered
  async (op : String) (held args : List Value) {h : Heap} (hh : h.Unbuffered) :
    (host.async op held args h).2.Unbuffered

theorem Host.unbuffered_echo : Host.Unbuffered .echo where
  native _ _ _ _ hh := hh
  async op _ _ _ hh := by by_cases h : op = "resumed" <;> simpa [Host.echo, h] using hh

/-- No stream writes a file, and none can be opened that does. -/
structure World.Unbuffered (w : World) : Prop where
  heap : w.heap.Unbuffered
  options : w.options.openWrite ≠ some .disk

namespace Heap.Unbuffered

variable {h h' : Heap}

theorem of_streams (hh : h.Unbuffered) (hs : h'.streams = h.streams) : h'.Unbuffered := by
  rwa [Heap.Unbuffered, hs]

theorem flushed (hh : h.Unbuffered) : h.Flushed := fun s hs => (hh s hs).holdsBack

theorem perform (hh : h.Unbuffered) (s : StreamHandle) (r : Request) :
    (h.perform s r).2.Unbuffered := by
  have hs : (h.getStream s).Unbuffered := by
    unfold getStream Array.getD
    split
    · exact hh _ (Array.getElem_mem _)
    · intro p hp
      cases hp
  intro t ht
  rw [streams_perform] at ht
  rcases Array.mem_or_eq_of_mem_setIfInBounds ht with ht | rfl
  · exact hh t ht
  · exact hs.perform h.disk r

theorem stream (hh : h.Unbuffered) {s : Stream} (hs : s.Unbuffered) :
    (h.stream s).2.Unbuffered := by
  intro t ht
  rcases Array.mem_push.1 ht with ht | rfl
  · exact hh t ht
  · exact hs

end Heap.Unbuffered

namespace World.Unbuffered

variable {host : Host} {w w' : World} {e : Option Effect}

theorem openForReading (hw : w.Unbuffered) (path : String) :
    (w.openForReading path).2.heap.Unbuffered := by
  fun_cases World.openForReading w path <;>
    first | exact hw.heap | exact hw.heap.stream fun p hp => by cases hp; rfl

theorem openForWriting (hw : w.Unbuffered) (path : String) :
    (w.openForWriting path).2.heap.Unbuffered := by
  unfold World.openForWriting
  split
  · exact hw.heap
  · exact hw.heap.stream fun p hp => by cases hp; rfl
  · rename_i ho
    exact absurd ho hw.options

theorem openFile (hw : w.Unbuffered) (path mode : Value) :
    (Primitive.openFile w path mode).2.heap.Unbuffered := by
  unfold Primitive.openFile
  split
  · exact hw.heap
  · split
    · exact hw.openForReading _
    · split
      · exact hw.openForWriting _
      · exact hw.heap

theorem closeFile (hw : w.Unbuffered) (v : Value) :
    (Primitive.closeFile w v).2.heap.Unbuffered := by
  unfold Primitive.closeFile
  split
  · exact hw.heap
  · rename_i s _
    have hs : (w.heap.closeStream s).2.Unbuffered := hw.heap.perform s .close
    split <;> rename_i he <;> rwa [he] at hs

theorem readFrom (hw : w.Unbuffered) (v : Value) :
    (Primitive.readFrom w v).2.heap.Unbuffered := by
  unfold Primitive.readFrom
  split
  · exact hw.heap
  · rename_i s _
    have hs : (w.heap.readByte s).2.Unbuffered := hw.heap.perform s .read
    split <;> rename_i he <;> rwa [he] at hs

theorem writeTo (hw : w.Unbuffered) (b v : Value) :
    (Primitive.writeTo w b v).2.heap.Unbuffered := by
  unfold Primitive.writeTo
  split
  · exact hw.heap
  · rename_i b s _
    have hs : (w.heap.writeByte s b).2.Unbuffered := hw.heap.perform s (.write b)
    split <;> rename_i he <;> rwa [he] at hs

theorem call (hw : w.Unbuffered) (p : Primitive) (args : List Value) :
    (p.call args w).2.heap.Unbuffered := by
  fun_cases Primitive.call p args w
  case case1 path mode => exact hw.openFile path mode
  case case2 s => exact hw.closeFile s
  case case3 s => exact hw.readFrom s
  case case4 b s => exact hw.writeTo b s
  case case5 head tail v h hc =>
    exact hw.heap.of_streams (congrArg (fun r => r.2.streams) hc).symm
  case case6 n =>
    unfold Primitive.makeVector
    split <;> exact hw.heap
  case case7 v i x =>
    unfold Primitive.storeElement
    split <;> exact hw.heap
  case case12 =>
    unfold Primitive.computed
    split <;> exact hw.heap
  all_goals exact hw.heap

/-- Nothing that a move does opens a file to write to it. -/
theorem becomes (hw : w.Unbuffered) (hh : host.Unbuffered) (h : w.Becomes host e w') :
    w'.Unbuffered := by
  refine ⟨?_, h.evolves.options ▸ hw.options⟩
  cases h with
  | read form =>
    have hb : (form.build w.heap).2.streams = w.heap.streams := by rw [Form.build_heap]
    exact hw.heap.of_streams hb
  | primitive p args => exact hw.call p args
  | native op held args => exact hh.native op held args hw.heap
  | async op held args => exact hh.async op held args hw.heap
  | _ => exact hw.heap

end World.Unbuffered

namespace Machine

variable {host : Host} {mode : Mode} {s : State}

theorem Runs.unbuffered {n : Nat} {es : List Effect} {t : State} (hh : host.Unbuffered)
    (hr : Runs host mode n s es t) (hw : s.world.Unbuffered) : t.world.Unbuffered := by
  induction hr with
  | refl => exact hw
  | move _ _ ih => exact ih (hw.becomes hh (move_becomes host _))

theorem Ends.unbuffered {es : List Effect} {r : Outcome Step × World} (hh : host.Unbuffered)
    (he : Ends host mode s es r) (hw : s.world.Unbuffered) : r.2.Unbuffered := by
  obtain ⟨n, t, hr, -, ht⟩ := he
  exact ht ▸ hr.unbuffered hh hw

theorem drive_unbuffered (hh : host.Unbuffered) (hw : s.world.Unbuffered) (fuel : Nat) :
    (drive host mode fuel s).2.Unbuffered := by
  obtain ⟨n, es, t, hr, ht, -⟩ := exists_runs_drive host mode fuel s
  rw [ht]
  exact hr.unbuffered hh hw

theorem lossless_of_unbuffered (hh : host.Unbuffered) (hw : s.world.Unbuffered) (mode : Mode) :
    Lossless host mode s :=
  fun _ _ _ hr => (hr.unbuffered hh hw).heap.flushed.quiet _

end Machine

/-- A new engine that opens no files to write to them. -/
theorem World.Unbuffered.create {heap : Heap} {options : Options} (hh : heap.Unbuffered)
    (ho : options.openWrite ≠ some .disk) (runtime : Nat) (now : Float) :
    (World.create heap options runtime now).Unbuffered := by
  have same : ∀ {w w' : World}, w.Unbuffered → w'.heap.streams = w.heap.streams →
      w'.options = w.options → w'.Unbuffered :=
    fun hw hs ho => ⟨hw.heap.of_streams hs, ho ▸ hw.options⟩
  have assign : ∀ w name v, w.Unbuffered → (setValue w name v).Unbuffered :=
    fun w name v hw => same hw rfl rfl
  have primitive : ∀ w p, w.Unbuffered → (definePrimitive w p).Unbuffered :=
    fun w p hw => same hw rfl rfl
  have evaluator : ∀ w, w.Unbuffered → (defineEvaluator w).Unbuffered :=
    fun w hw => same hw rfl rfl
  have stream : ∀ w entry, w.Unbuffered → (setStandardStream w entry).Unbuffered := by
    rintro w ⟨_ | s, name, capability⟩ hw
    · exact ⟨hw.heap.stream (by rintro p ⟨⟩), hw.options⟩
    · exact assign w _ _ hw
  have report : ∀ w r, w.Unbuffered → (World.report w r).Unbuffered :=
    fun w r hw => same hw rfl rfl
  refine report _ _ (List.foldlRecOn _ _ ?_ fun w hw entry _ => stream w entry hw)
  refine List.foldlRecOn _ _ ?_ fun w hw entry _ => assign w entry.1 _ hw
  refine assign _ _ _ (evaluator _ ?_)
  exact List.foldlRecOn _ _ ⟨hh, ho⟩ fun w hw p _ => primitive w p hw

theorem World.Unbuffered.create_empty (runtime : Nat) (now : Float) :
    (World.create .empty {} runtime now).Unbuffered :=
  .create (fun s hs => by simp [Heap.empty] at hs) (by simp) runtime now

end KLambda
