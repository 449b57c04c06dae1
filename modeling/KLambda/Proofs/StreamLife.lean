import KLambda.Heap
import Mathlib

/-!
The life of a stream. A stream answers a request by the first of four things that applies: what it
stands for is not supported, its direction does not permit the request, it is closed, or else
whatever its port answers. Only a close that succeeds closes it, and from then on its port is out of
reach for good. Handles with the same number share one such life, and on a buffer it delivers the
input byte by byte and collects the output.
-/
namespace KLambda

/-- What a stream is asked to do. -/
inductive Request where
  | read
  | write (b : UInt8)
  | close

/-- A request with its answer. -/
inductive Exchange where
  | read (answer : Except StreamError (Option UInt8))
  | write (b : UInt8) (answer : Except StreamError Unit)
  | close (answer : Except StreamError Unit)

namespace Request

def failed (e : StreamError) : Request → Exchange
  | .read => .read (.error e)
  | .write b => .write b (.error e)
  | .close => .close (.error e)

/-- Why a direction does not permit a request. -/
def refusal? (direction : Direction) (name : String) : Request → Option StreamError
  | .read => if direction.readable then none else some (.notReadable name)
  | .write _ => if direction.writable then none else some (.notWritable name)
  | .close => none

/-- What a port makes of a request, its failures told as those of the stream. -/
def ask {π : Type} [Port π] (name : String) (p : π) (d : Disk) : Request → Exchange × π × Disk
  | .read =>
    let (answer, p) := Port.read p d
    (.read (answer.mapError (.io name)), p, d)
  | .write b =>
    let (answer, p, d) := Port.write p d b
    (.write b (answer.mapError (.io name)), p, d)
  | .close =>
    let (answer, p, d) := Port.close p d
    (.close (answer.mapError (.io name)), p, d)

end Request

namespace Exchange

/-- A close that succeeded. -/
def closes : Exchange → Bool
  | .close (.ok ()) => true
  | _ => false

theorem closes_iff {x : Exchange} : x.closes = true ↔ x = .close (.ok ()) := by
  rcases x with a | ⟨b, a⟩ | ⟨_ | ⟨⟨⟩⟩⟩ <;> simp [closes]

/-- The answers of the reads that succeeded. -/
def received (xs : List Exchange) : List (Option UInt8) :=
  xs.filterMap fun
    | .read (.ok b) => some b
    | _ => none

/-- The bytes of the writes that succeeded. -/
def sent (xs : List Exchange) : List UInt8 :=
  xs.filterMap fun
    | .write b (.ok ()) => some b
    | _ => none

end Exchange

namespace StreamOf

variable {π : Type} [Port π] {s t u : StreamOf π} {xs ys : List Exchange} {d : Disk} {r : Request}

def perform (s : StreamOf π) (d : Disk) : Request → Exchange × StreamOf π × Disk
  | .read =>
    let (answer, s) := s.read d
    (.read answer, s, d)
  | .write b =>
    let (answer, s, d) := s.write d b
    (.write b answer, s, d)
  | .close =>
    let (answer, s, d) := s.close d
    (.close answer, s, d)

/-- What an open stream does with a request that its direction permits: its port answers, and if
that was a close and it succeeded, the port is out of reach from then on. -/
def relay (s : StreamOf π) (p : π) (d : Disk) (r : Request) : Exchange × StreamOf π × Disk :=
  let (x, p, d) := r.ask s.name p d
  (x, { s with link := if x.closes then .closed p else .live p }, d)

/-- Requests one after the other, with the files in any state at each of them. -/
inductive Runs : StreamOf π → List Exchange → StreamOf π → Prop
  | refl (s : StreamOf π) : Runs s [] s
  | step {s t : StreamOf π} {xs : List Exchange} (d : Disk) (r : Request)
      (h : Runs (s.perform d r).2.1 xs t) : Runs s ((s.perform d r).1 :: xs) t

theorem perform_unsupported {c : String} (h : s.link = .unsupported c) :
    s.perform d r = (r.failed (.unsupported c), s, d) := by
  cases r <;> simp [perform, read, write, close, h, Request.failed]

theorem perform_refused {e : StreamError} (h : ∀ c, s.link ≠ .unsupported c)
    (he : r.refusal? s.direction s.name = some e) : s.perform d r = (r.failed e, s, d) := by
  cases hl : s.link with
  | unsupported c => exact absurd hl (h c)
  | live p | closed p =>
    cases r with
    | read =>
      obtain ⟨hr, rfl⟩ : s.direction.readable = false ∧ .notReadable s.name = e := by
        simpa [Request.refusal?] using he
      simp [perform, read, hl, hr, Request.failed]
    | write b =>
      obtain ⟨hw, rfl⟩ : s.direction.writable = false ∧ .notWritable s.name = e := by
        simpa [Request.refusal?] using he
      simp [perform, write, hl, hw, Request.failed]
    | close => cases he

theorem perform_closed {p : π} (h : s.link = .closed p)
    (he : r.refusal? s.direction s.name = none) :
    s.perform d r = (r.failed (.closed s.name), s, d) := by
  cases r with
  | read =>
    have hr : s.direction.readable = true := by simpa [Request.refusal?] using he
    simp [perform, read, h, hr, Request.failed]
  | write b =>
    have hw : s.direction.writable = true := by simpa [Request.refusal?] using he
    simp [perform, write, h, hw, Request.failed]
  | close => simp [perform, close, h, Request.failed]

theorem perform_live {p : π} (h : s.link = .live p)
    (he : r.refusal? s.direction s.name = none) : s.perform d r = s.relay p d r := by
  cases r with
  | read =>
    have hr : s.direction.readable = true := by simpa [Request.refusal?] using he
    rcases hp : Port.read p d with ⟨a | a, p'⟩ <;>
      simp [perform, read, relay, h, hr, hp, Request.ask, Exchange.closes, Except.mapError,
        ioError, withPort]
  | write b =>
    have hw : s.direction.writable = true := by simpa [Request.refusal?] using he
    rcases hp : Port.write p d b with ⟨a | a, p', d'⟩ <;>
      simp [perform, write, relay, h, hw, hp, Request.ask, Exchange.closes, Except.mapError,
        ioError, withPort]
  | close =>
    rcases hp : Port.close p d with ⟨a | a, p', d'⟩ <;>
      simp [perform, close, relay, h, hp, Request.ask, Exchange.closes, Except.mapError, ioError,
        withPort]

/-- A request fails and leaves everything as it was, or it is the port of an open stream that
answers it. -/
theorem perform_cases (s : StreamOf π) (d : Disk) (r : Request) :
    (∃ e, s.perform d r = (r.failed e, s, d)) ∨
      ∃ p, s.link = .live p ∧ r.refusal? s.direction s.name = none := by
  cases hl : s.link with
  | unsupported c => exact Or.inl ⟨_, perform_unsupported hl⟩
  | closed p =>
    cases he : r.refusal? s.direction s.name with
    | none => exact Or.inl ⟨_, perform_closed hl he⟩
    | some e => exact Or.inl ⟨e, perform_refused (by simp [hl]) he⟩
  | live p =>
    cases he : r.refusal? s.direction s.name with
    | none => exact Or.inr ⟨p, rfl, rfl⟩
    | some e => exact Or.inl ⟨e, perform_refused (by simp [hl]) he⟩

theorem name_perform : (s.perform d r).2.1.name = s.name := by
  obtain ⟨e, h⟩ | ⟨p, hl, he⟩ := s.perform_cases d r
  · rw [h]
  · rw [perform_live hl he, relay]

theorem direction_perform : (s.perform d r).2.1.direction = s.direction := by
  obtain ⟨e, h⟩ | ⟨p, hl, he⟩ := s.perform_cases d r
  · rw [h]
  · rw [perform_live hl he, relay]

theorem supported_perform (h : ∀ c, s.link ≠ .unsupported c) :
    ∀ c, (s.perform d r).2.1.link ≠ .unsupported c := by
  intro c
  obtain ⟨e, hp⟩ | ⟨p, hl, he⟩ := s.perform_cases d r
  · rw [hp]
    exact h c
  · simp only [perform_live hl he, relay]
    split <;> simp

/-- Only a close that succeeds closes a stream. -/
theorem isClosed_perform : (s.perform d r).2.1.isClosed = true ↔
    s.isClosed = true ∨ (s.perform d r).1 = .close (.ok ()) := by
  obtain ⟨e, h⟩ | ⟨p, hl, he⟩ := s.perform_cases d r
  · rw [h]
    cases r <;> simp [Request.failed]
  · have ho : s.isClosed = false := by simp [isClosed, hl]
    rw [perform_live hl he, ho, ← Exchange.closes_iff]
    by_cases hc : (r.ask s.name p d).1.closes = true <;> simp [relay, isClosed, hc]

namespace Runs

theorem name_eq (h : s.Runs xs u) : u.name = s.name := by
  induction h with
  | refl s => rfl
  | step d r _ ih => rw [ih, name_perform]

theorem direction_eq (h : s.Runs xs u) : u.direction = s.direction := by
  induction h with
  | refl s => rfl
  | step d r _ ih => rw [ih, direction_perform]

theorem unsupported {c : String} (h : s.Runs xs u) (hc : s.link = .unsupported c) : u = s := by
  induction h with
  | refl s => rfl
  | step d r _ ih =>
    rw [perform_unsupported hc] at ih
    exact ih hc

theorem supported (h : s.Runs xs u) (hs : ∀ c, s.link ≠ .unsupported c) :
    ∀ c, u.link ≠ .unsupported c := by
  induction h with
  | refl s => exact hs
  | step d r _ ih => exact ih (supported_perform hs)

theorem isClosed_iff (h : s.Runs xs u) :
    u.isClosed = true ↔ s.isClosed = true ∨ .close (.ok ()) ∈ xs := by
  induction h with
  | refl s => simp
  | step d r _ ih =>
    rw [ih, isClosed_perform, List.mem_cons, or_assoc, @eq_comm _ _ (Exchange.close _)]

end Runs

omit [Port π] in
theorem exists_closed (h : s.isClosed = true) : ∃ p, s.link = .closed p := by
  cases hl : s.link with
  | closed p => exact ⟨p, rfl⟩
  | unsupported c | live p => simp [isClosed, hl] at h

theorem perform_of_isClosed (h : s.isClosed = true) : (s.perform d r).2 = (s, d) := by
  obtain ⟨p, hl⟩ := exists_closed h
  obtain ⟨e, he⟩ | ⟨p', hl', -⟩ := s.perform_cases d r
  · rw [he]
  · rw [hl] at hl'
    cases hl'

theorem Runs.of_isClosed (h : s.Runs xs u) (hc : s.isClosed = true) : u = s := by
  induction h with
  | refl s => rfl
  | step d r _ ih =>
    rw [perform_of_isClosed hc] at ih
    exact ih hc

end StreamOf

namespace Heap

variable {h k : Heap} {xs : List (StreamHandle × Exchange)}

def perform (h : Heap) (s : StreamHandle) : Request → Exchange × Heap
  | .read =>
    let (answer, h) := h.readByte s
    (.read answer, h)
  | .write b =>
    let (answer, h) := h.writeByte s b
    (.write b answer, h)
  | .close =>
    let (answer, h) := h.closeStream s
    (.close answer, h)

/-- Requests one after the other, each through some handle. -/
inductive Runs : Heap → List (StreamHandle × Exchange) → Heap → Prop
  | refl (h : Heap) : Runs h [] h
  | step {h k : Heap} {xs : List (StreamHandle × Exchange)} (s : StreamHandle) (r : Request)
      (hr : Runs (h.perform s r).2 xs k) : Runs h ((s, (h.perform s r).1) :: xs) k

/-- What passed through the handles with a number. -/
def through (id : Nat) (xs : List (StreamHandle × Exchange)) : List Exchange :=
  (xs.filter (·.1.id == id)).map Prod.snd

theorem perform_eq (h : Heap) (s : StreamHandle) (r : Request) :
    h.perform s r = (((h.getStream s).perform h.disk r).1,
      { h.setStream s.id ((h.getStream s).perform h.disk r).2.1 with
        disk := ((h.getStream s).perform h.disk r).2.2 }) := by
  cases r <;> rfl

theorem streams_perform (h : Heap) (s : StreamHandle) (r : Request) :
    (h.perform s r).2.streams =
      h.streams.setIfInBounds s.id ((h.getStream s).perform h.disk r).2.1 := by
  rw [perform_eq]
  rfl

theorem getStream_perform {s s' : StreamHandle} (hs : s.id < h.streams.size) (r : Request) :
    (h.perform s' r).2.getStream s =
      if s'.id = s.id then ((h.getStream s').perform h.disk r).2.1 else h.getStream s := by
  by_cases hi : s'.id = s.id
  · simp [getStream, streams_perform, Array.getD_eq_getD_getElem?, hi, hs]
  · simp [getStream, streams_perform, Array.getD_eq_getD_getElem?, hi]

theorem getStream_eq {s s' : StreamHandle} (hs : s.id < h.streams.size) (hi : s'.id = s.id) :
    h.getStream s' = h.getStream s := by
  simp [getStream, hi, hs]

/-- All handles with one number are handles of one stream, and the others leave it alone. -/
theorem Runs.stream (hr : h.Runs xs k) (s : StreamHandle) (hs : s.id < h.streams.size) :
    (h.getStream s).Runs (through s.id xs) (k.getStream s) := by
  induction hr with
  | refl h => exact .refl _
  | @step h k xs s' r _ ih =>
    have hs' : s.id < (h.perform s' r).2.streams.size := by
      rw [streams_perform, Array.size_setIfInBounds]
      exact hs
    have hu := ih hs'
    rw [getStream_perform hs] at hu
    by_cases hi : s'.id = s.id
    · rw [if_pos hi, getStream_eq hs hi] at hu
      have hx : (h.perform s' r).1 = ((h.getStream s).perform h.disk r).1 := by
        rw [perform_eq, getStream_eq hs hi]
      simp only [through, List.filter_cons, hi, BEq.rfl, if_true, List.map_cons, hx]
      exact .step h.disk r hu
    · rw [if_neg hi] at hu
      simpa [through, List.filter_cons, hi] using hu

end Heap

namespace Exchange

theorem received_cons (x : Exchange) (xs : List Exchange) :
    received (x :: xs) = received [x] ++ received xs := by
  simp only [received, ← List.filterMap_append, List.singleton_append]

theorem sent_cons (x : Exchange) (xs : List Exchange) : sent (x :: xs) = sent [x] ++ sent xs := by
  simp only [sent, ← List.filterMap_append, List.singleton_append]

theorem received_failed (r : Request) (e : StreamError) : received [r.failed e] = [] := by
  cases r <;> rfl

theorem sent_failed (r : Request) (e : StreamError) : sent [r.failed e] = [] := by
  cases r <;> rfl

end Exchange

open Exchange

theorem Device.write_buffer (input : List UInt8) (output : Array UInt8) (d : Disk) (b : UInt8) :
    (Device.buffer input output).write d b = (.ok (), .buffer input (output.push b), d) := by
  simp only [Device.write, Device.push, Device.flush]
  split <;> rfl

/-- A request takes at most the first byte of the input, and adds what it writes to the output. -/
theorem Stream.perform_buffer {s : Stream} {input : List UInt8} {output : Array UInt8}
    (h : s.device? = some (.buffer input output)) (d : Disk) (r : Request) :
    (received [(s.perform d r).1] = [] ∨ received [(s.perform d r).1] = [input.head?]) ∧
    Stream.device? (s.perform d r).2.1 =
      some (.buffer (input.drop (received [(s.perform d r).1]).length)
        (output ++ (sent [(s.perform d r).1]).toArray)) := by
  obtain ⟨e, he⟩ | ⟨p, hl, he⟩ := s.perform_cases d r
  · simp [he, received_failed, sent_failed, h]
  · obtain rfl : p = .buffer input output := by simpa [device?, StreamOf.port?, hl] using h
    rw [StreamOf.perform_live hl he]
    cases r with
    | read =>
      cases input <;>
        simp [StreamOf.relay, Request.ask, Port.read, Device.read, received, sent, closes,
          Except.mapError, device?, StreamOf.port?]
    | write b =>
      simp [StreamOf.relay, Request.ask, Port.write, Device.write_buffer, received, sent, closes,
        Except.mapError, device?, StreamOf.port?]
    | close =>
      simp [StreamOf.relay, Request.ask, Port.close, Device.flush, received, sent, closes,
        Except.mapError, device?, StreamOf.port?]

/-- The reads that succeed deliver the input from its start, and none once there is no more. -/
theorem Stream.device?_of_runs {s u : Stream} {xs : List Exchange} (hr : s.Runs xs u)
    {input : List UInt8} {output : Array UInt8} (h : s.device? = some (.buffer input output)) :
    received xs = (List.range (received xs).length).map (input[·]?) ∧
    u.device? = some (.buffer (input.drop (received xs).length) (output ++ (sent xs).toArray)) := by
  induction hr generalizing input output with
  | refl s => simp [received, sent, h]
  | @step s u xs d r _ ih =>
    obtain ⟨hx, hu⟩ := perform_buffer h d r
    obtain ⟨hr, hd⟩ := ih hu
    rw [received_cons, sent_cons]
    rcases hx with hx | hx
    · simp only [hx, List.nil_append, List.length_nil, List.drop_zero] at hr hd ⊢
      refine ⟨hr, ?_⟩
      simp [hd]
    · simp only [hx, List.singleton_append, List.length_cons, List.length_nil] at hr hd ⊢
      constructor
      · rw [List.range_succ_eq_map, List.map_cons, List.map_map]
        have hi : (input[·]?) ∘ Nat.succ = ((input.drop (0 + 1))[·]?) := by
          funext i
          simp
        rw [hi, ← hr, List.head?_eq_getElem?]
      · simp [hd, Nat.add_comm]

/-- A stream on any port, at any time of any run: if what it stands for is not supported, every
request fails for that and it never counts as closed. Otherwise it is closed exactly if a close has
succeeded; a request that its direction does not permit fails for that, open or closed, and one that
is permitted fails on a closed stream, all of these without anything changing; a permitted request
to an open stream is answered by its port, so that a close that fails leaves it open. All handles
with one number share such a run. On a buffer, the reads that succeed deliver the input, and the
output is what the writes that succeed have written. -/
theorem stream_life :
    (∀ (π : Type) [Port π] (s u : StreamOf π) (xs : List Exchange), s.Runs xs u →
      (∀ c, s.link = .unsupported c → u.isClosed = false ∧
        ∀ d r, u.perform d r = (r.failed (.unsupported c), u, d)) ∧
      ((∀ c, s.link ≠ .unsupported c) →
        (u.isClosed = true ↔ s.isClosed = true ∨ .close (.ok ()) ∈ xs) ∧
        (∀ d r e, r.refusal? s.direction s.name = some e → u.perform d r = (r.failed e, u, d)) ∧
        (u.isClosed = true →
          (∀ d r, r.refusal? s.direction s.name = none →
            u.perform d r = (r.failed (.closed s.name), u, d)) ∧
          ∀ ys t, u.Runs ys t → t = u) ∧
        (u.isClosed = false → ∃ p, u.link = .live p ∧
          ∀ d r, r.refusal? s.direction s.name = none → u.perform d r = u.relay p d r))) ∧
    (∀ (h k : Heap) (xs : List (StreamHandle × Exchange)), h.Runs xs k →
      ∀ s : StreamHandle, s.id < h.streams.size →
        (h.getStream s).Runs (Heap.through s.id xs) (k.getStream s)) ∧
    ∀ (s u : Stream) (xs : List Exchange) (input : List UInt8) (output : Array UInt8),
      s.Runs xs u → s.device? = some (.buffer input output) →
        received xs = (List.range (received xs).length).map (input[·]?) ∧
        u.device? =
          some (.buffer (input.drop (received xs).length) (output ++ (sent xs).toArray)) := by
  refine ⟨?_, fun h k xs hr s hs => hr.stream s hs,
    fun s u xs input output hr h => Stream.device?_of_runs hr h⟩
  intro π _ s u xs hr
  constructor
  · intro c hc
    obtain rfl := hr.unsupported hc
    exact ⟨by simp [StreamOf.isClosed, hc], fun d r => StreamOf.perform_unsupported hc⟩
  · intro hs
    have hu := hr.supported hs
    rw [← hr.name_eq, ← hr.direction_eq]
    refine ⟨hr.isClosed_iff, fun d r e he => StreamOf.perform_refused hu he, ?_, ?_⟩
    · intro hc
      obtain ⟨p, hl⟩ := StreamOf.exists_closed hc
      exact ⟨fun d r he => StreamOf.perform_closed hl he, fun ys t ht => ht.of_isClosed hc⟩
    · intro hc
      cases hl : u.link with
      | unsupported c => exact absurd hl (hu c)
      | closed p => simp [StreamOf.isClosed, hl] at hc
      | live p => exact ⟨p, rfl, fun d r he => StreamOf.perform_live hl he⟩

/-- Two handles of a buffer: after a read through one and a close through the other, a read through
the first one fails. -/
theorem stream_life_shared :
    let s : Stream := ⟨"b", .both, .live (.buffer [97, 98] #[])⟩
    let h : Heap := { Heap.empty with streams := #[s] }
    let b : StreamHandle := ⟨0, "b", .both⟩
    let xs := [(b, .read (.ok (some 97))), ({ b with name := "c" }, .close (.ok ()))]
    ∃ k : Heap, h.Runs xs k ∧ s.Runs (Heap.through 0 xs) (k.getStream b) ∧
      (k.getStream b).isClosed = true ∧
      (k.getStream b).perform k.disk .read =
        (.read (.error (.closed "b")), k.getStream b, k.disk) ∧
      (k.getStream b).device? = some (.buffer [98] #[]) := by
  intro s h b xs
  let k := ((h.perform b .read).2.perform { b with name := "c" } .close).2
  have hr : h.Runs xs k := .step b .read (.step _ .close (.refl k))
  have hs : s.Runs (Heap.through 0 xs) (k.getStream b) :=
    stream_life.2.1 h k xs hr b (by decide)
  obtain ⟨hc, -, hf, -⟩ := (stream_life.1 Device s _ _ hs).2 (by simp [s])
  have hd := (stream_life.2.2 s _ _ [97, 98] #[] hs rfl).2
  have hk : (k.getStream b).isClosed = true := hc.2 (Or.inr (by simp [xs, Heap.through, b]))
  exact ⟨k, hr, hs, hk, (hf hk).1 k.disk .read rfl, hd⟩

end KLambda
