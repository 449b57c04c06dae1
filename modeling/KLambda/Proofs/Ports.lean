import KLambda.Device

/-!
What passes through a port. A reader's answers come out of its port in order and once each, but for
interruptions, after which it is asked again. A writer is offered a byte until it takes or refuses
it, and is flushed after a newline that it took. So the bytes that it has taken are those of the
calls that succeeded, and the newlines of the calls that failed when the writer was flushed.
-/
namespace KLambda

/-- What an event of a reader is an answer of; an interruption is none. -/
def ReadEvent.answer? : ReadEvent → Option (Except String (Option UInt8))
  | .byte b => some (.ok (some b))
  | .ended => some (.ok none)
  | .failed cause => some (.error cause)
  | .interrupted => none

namespace Device

/-- The answers of reads one after the other. -/
def reads (d : Disk) : Nat → Device → List (Except String (Option UInt8))
  | 0, _ => []
  | n + 1, p => (p.read d).1 :: reads d n (p.read d).2

theorem reads_ended (d : Disk) (n : Nat) :
    reads d n (.reader []) = List.replicate n (.ok none) := by
  induction n with
  | zero => rfl
  | succ n ih => exact congrArg (_ :: ·) ih

theorem reads_interrupted (d : Disk) (n : Nat) (script : List ReadEvent) :
    reads d n (.reader (.interrupted :: script)) = reads d n (.reader script) := by
  cases n <;> rfl

theorem reads_answer {e : ReadEvent} {answer : Except String (Option UInt8)}
    (he : e.answer? = some answer) (d : Disk) (n : Nat) (script : List ReadEvent) :
    reads d (n + 1) (.reader (e :: script)) = answer :: reads d n (.reader script) := by
  cases e <;> cases he <;> rfl

/-- The answers of a reader, and then that it has ended for as long as it is asked. -/
theorem reads_reader (script : List ReadEvent) {n k : Nat} (h : n ≤ k) (d : Disk) :
    reads d n (.reader script) =
      (script.filterMap ReadEvent.answer? ++ List.replicate k (Except.ok none)).take n := by
  induction script generalizing n with
  | nil => simp [reads_ended, List.take_replicate, Nat.min_eq_left h]
  | cons e script ih =>
    cases he : e.answer? with
    | none =>
      obtain rfl : e = .interrupted := by cases e <;> simp [ReadEvent.answer?] at he ⊢
      rw [reads_interrupted, ih h]
      rfl
    | some answer =>
      cases n with
      | zero => rfl
      | succ n =>
        rw [reads_answer he, ih (Nat.le_of_succ_le h), List.filterMap_cons_some he]
        rfl

end Device

/-- What a writer is asked and what it answers: to take one byte, or to flush. -/
inductive Access where
  | offer (b : UInt8) (e : WriteEvent)
  | flush (answer : Except String Unit)

namespace Access

/-- The byte that was taken. -/
def taken? : Access → Option UInt8
  | .offer b .accepted => some b
  | _ => none

def failsToFlush : Access → Bool
  | .flush (.error _) => true
  | _ => false

end Access

/-- A byte that was written through a port: what its writer was asked meanwhile, and the answer. -/
structure Call where
  byte : UInt8
  accesses : List Access
  answer : Except String Unit

namespace Call

def succeeds (c : Call) : Bool :=
  match c.answer with
  | .ok () => true
  | .error _ => false

/-- The byte is a newline, and the flush after it failed. -/
def unflushed (c : Call) : Bool := c.byte == 10 && c.accesses.any Access.failsToFlush

/-- A writer is asked again after an interruption. A byte that it takes is not offered again, and is
flushed if it is a newline; any other answer fails the call. -/
inductive Made : Call → Prop
  | again {b : UInt8} {as : List Access} {answer : Except String Unit} (h : Made ⟨b, as, answer⟩) :
      Made ⟨b, .offer b .interrupted :: as, answer⟩
  | nothing (b : UInt8) : Made ⟨b, [.offer b .nothing], .error "failed to write whole buffer"⟩
  | failed (b : UInt8) (cause : String) : Made ⟨b, [.offer b (.failed cause)], .error cause⟩
  | taken {b : UInt8} (hb : b ≠ 10) : Made ⟨b, [.offer b .accepted], .ok ()⟩
  | newline (answer : Except String Unit) :
      Made ⟨10, [.offer 10 .accepted, .flush answer], answer⟩

variable {c : Call} {cs : List Call}

/-- A call has its byte taken once if it succeeds or fails in the flush only, and never
otherwise. -/
theorem Made.taken_eq (h : c.Made) : c.accesses.filterMap Access.taken? =
    if c.succeeds || c.unflushed then [c.byte] else [] := by
  induction h with
  | again h ih => exact ih
  | nothing | failed => simp [succeeds, unflushed, Access.taken?, Access.failsToFlush]
  | taken => rfl
  | newline answer => rcases answer with cause | ⟨⟨⟩⟩ <;> rfl

theorem Made.flushed (h : c.Made) (hb : c.byte = 10) (hs : c.succeeds = true) :
    ∃ pre, c.accesses = pre ++ [.offer 10 .accepted, .flush (.ok ())] := by
  induction h with
  | @again b as answer h ih =>
    obtain ⟨pre, hp⟩ := ih hb hs
    exact ⟨.offer b .interrupted :: pre, congrArg (_ :: ·) hp⟩
  | nothing | failed => cases hs
  | taken hn => exact absurd hb hn
  | newline answer =>
    rcases answer with cause | ⟨⟨⟩⟩
    · cases hs
    · exact ⟨[], rfl⟩

theorem taken_eq (h : ∀ c ∈ cs, c.Made) : (cs.flatMap accesses).filterMap Access.taken? =
    (cs.filter fun c => c.succeeds || c.unflushed).map byte := by
  induction cs with
  | nil => rfl
  | cons c cs ih =>
    obtain ⟨hc, hs⟩ := List.forall_mem_cons.1 h
    rw [List.flatMap_cons, List.filterMap_append, hc.taken_eq, ih hs, List.filter_cons]
    split <;> rfl

end Call

namespace Device

variable {p q r : Device} {as as' : List Access}

/-- The next answer of a writer that is offered a byte; it takes what it is offered once its script
has run out. -/
def nextEvent : List WriteEvent → WriteEvent × List WriteEvent
  | [] => (.accepted, [])
  | e :: script => (e, script)

/-- A writer answers by its scripts, keeps the bytes that it takes in order and counts the flushes
that succeed. -/
inductive Serves : Device → List Access → Device → Prop
  | refl (p : Device) : Serves p [] p
  | offer {script : List WriteEvent} {flushing : FlushScript} {written : Array UInt8}
      {flushes : Nat} {as : List Access} {q : Device} (b : UInt8)
      (h : Serves (.writer (nextEvent script).2 flushing
        (if (nextEvent script).1 = .accepted then written.push b else written) flushes) as q) :
      Serves (.writer script flushing written flushes) (.offer b (nextEvent script).1 :: as) q
  | flush {script : List WriteEvent} {flushing : FlushScript} {written : Array UInt8}
      {flushes : Nat} {as : List Access} {q : Device}
      (h : Serves (.writer script flushing.next.2 written
        (if flushing.next.1.isOk then flushes + 1 else flushes)) as q) :
      Serves (.writer script flushing written flushes) (.flush flushing.next.1 :: as) q

theorem Serves.append (h : Serves p as q) (h' : Serves q as' r) : Serves p (as ++ as') r := by
  induction h with
  | refl p => exact h'
  | offer b _ ih => exact .offer b (ih h')
  | flush _ ih => exact .flush (ih h')

/-- The bytes that a writer has taken are those of its answers. -/
theorem Serves.written (h : Serves p as q) {script : List WriteEvent} {flushing : FlushScript}
    {written : Array UInt8} {flushes : Nat} (hp : p = .writer script flushing written flushes) :
    ∃ script' flushing' flushes', q = .writer script' flushing'
      (written ++ (as.filterMap Access.taken?).toArray) flushes' := by
  induction h generalizing script flushing written flushes with
  | refl p => exact ⟨script, flushing, flushes, by simp [hp]⟩
  | @offer script _ _ _ _ _ b _ ih =>
    cases hp
    obtain ⟨script', flushing', flushes', hq⟩ := ih rfl
    refine ⟨script', flushing', flushes', hq.trans ?_⟩
    generalize (nextEvent script).1 = e
    cases e <;> simp [List.filterMap_cons, Access.taken?]
  | flush _ ih =>
    cases hp
    exact ih rfl

/-- Bytes written one after the other, with the answers. -/
def writes : List UInt8 → Device → Disk → List (Except String Unit) × Device × Disk
  | [], p, d => ([], p, d)
  | b :: bs, p, d =>
    let (answer, p, d) := p.write d b
    let (answers, p, d) := writes bs p d
    (answer :: answers, p, d)

variable {script : List WriteEvent} {flushing : FlushScript} {written : Array UInt8}
  {flushes : Nat}

/-- A byte that is taken at once. -/
theorem write_taken (h : offer script = (.ok (), (nextEvent script).2))
    (he : (nextEvent script).1 = .accepted) (d : Disk) (b : UInt8) :
    ∃ as answer q, (Device.writer script flushing written flushes).write d b = (answer, q, d) ∧
      Serves (.writer script flushing written flushes) as q ∧ Call.Made ⟨b, as, answer⟩ := by
  by_cases hb : b = 10
  · subst hb
    have hs : Serves (.writer script flushing written flushes)
        [.offer 10 (nextEvent script).1, .flush flushing.next.1] _ := .offer 10 (.flush (.refl _))
    rw [he] at hs
    refine ⟨_, _, _, ?_, hs, .newline _⟩
    rcases hf : flushing.next with ⟨cause | ⟨⟨⟩⟩, rest⟩ <;>
      simp [write, push, flush, h, hf, Except.isOk, Except.toBool]
  · have hs : Serves (.writer script flushing written flushes) [.offer b (nextEvent script).1] _ :=
      .offer b (.refl _)
    rw [he] at hs
    refine ⟨_, _, _, ?_, hs, .taken hb⟩
    simp [write, push, h, hb]

theorem write_made (script : List WriteEvent) (flushing : FlushScript) (written : Array UInt8)
    (flushes : Nat) (d : Disk) (b : UInt8) :
    ∃ as answer q, (Device.writer script flushing written flushes).write d b = (answer, q, d) ∧
      Serves (.writer script flushing written flushes) as q ∧ Call.Made ⟨b, as, answer⟩ := by
  induction script with
  | nil => exact write_taken rfl rfl d b
  | cons e script ih =>
    cases e with
    | accepted => exact write_taken rfl rfl d b
    | interrupted =>
      obtain ⟨as, answer, q, hw, hs, hm⟩ := ih
      exact ⟨_, answer, q, hw, .offer b hs, .again hm⟩
    | nothing => exact ⟨_, _, _, rfl, .offer b (.refl _), .nothing b⟩
    | failed cause => exact ⟨_, _, _, rfl, .offer b (.refl _), .failed b cause⟩

theorem writes_made (bs : List UInt8) (script : List WriteEvent) (flushing : FlushScript)
    (written : Array UInt8) (flushes : Nat) (d : Disk) :
    ∃ cs : List Call, ∃ q, cs.map Call.byte = bs ∧
      writes bs (.writer script flushing written flushes) d = (cs.map Call.answer, q, d) ∧
      Serves (.writer script flushing written flushes) (cs.flatMap Call.accesses) q ∧
      ∀ c ∈ cs, c.Made := by
  induction bs generalizing script flushing written flushes with
  | nil => exact ⟨[], _, rfl, rfl, .refl _, by simp⟩
  | cons b bs ih =>
    obtain ⟨as, answer, q, hw, hs, hm⟩ := write_made script flushing written flushes d b
    obtain ⟨script', flushing', flushes', hq⟩ := hs.written rfl
    subst hq
    obtain ⟨cs, q, hb, hws, hss, hms⟩ := ih script' flushing' _ flushes'
    refine ⟨⟨b, as, answer⟩ :: cs, q, ?_, ?_, hs.append hss, List.forall_mem_cons.2 ⟨hm, hms⟩⟩
    · rw [List.map_cons, hb]
    · simp only [writes, hw, hws, List.map_cons]

end Device

/-- Successive reads through a port answer as its reader does, each answer once, in order and
without the interruptions, and then that the reader has ended. Bytes that are written through a port
are calls of its writer, one for each in order, which answers by its scripts: it is asked again
after an interruption only, and flushed after a newline that it took. The bytes that it has taken
are those of the calls that succeeded and of the newlines whose call failed in the flush, in order
and once each, and a newline that was written is flushed. -/
theorem ports_exact (d : Disk) :
    (∀ script n, Device.reads d n (.reader script) =
      (script.filterMap ReadEvent.answer? ++ List.replicate n (Except.ok none)).take n) ∧
    ∀ bs script flushing written flushes, ∃ cs : List Call, ∃ script' flushing' written' flushes',
      cs.map Call.byte = bs ∧
      Device.writes bs (.writer script flushing written flushes) d =
        (cs.map Call.answer, .writer script' flushing' written' flushes', d) ∧
      Device.Serves (.writer script flushing written flushes) (cs.flatMap Call.accesses)
        (.writer script' flushing' written' flushes') ∧
      (∀ c ∈ cs, c.Made) ∧
      (cs.flatMap Call.accesses).filterMap Access.taken? =
        (cs.filter fun c => c.succeeds || c.unflushed).map Call.byte ∧
      written' =
        written ++ ((cs.filter fun c => c.succeeds || c.unflushed).map Call.byte).toArray ∧
      ∀ c ∈ cs, c.byte = 10 → c.succeeds = true →
        ∃ pre, c.accesses = pre ++ [.offer 10 .accepted, .flush (.ok ())] := by
  refine ⟨fun script n => Device.reads_reader script (Nat.le_refl n) d, ?_⟩
  intro bs script flushing written flushes
  obtain ⟨cs, q, hb, hw, hs, hm⟩ := Device.writes_made bs script flushing written flushes d
  obtain ⟨script', flushing', flushes', rfl⟩ := hs.written rfl
  have ht := Call.taken_eq hm
  exact ⟨cs, script', flushing', _, flushes', hb, hw, hs, hm, ht, by rw [ht],
    fun c hc => (hm c hc).flushed⟩

/-- A newline is taken after an interruption, and its call fails in the flush. -/
example : Device.writes [10, 97] (.writer [.interrupted, .accepted] ⟨[.error "full"], false⟩ #[] 0)
    .empty = ([.error "full", .ok ()], .writer [] ⟨[], false⟩ #[10, 97] 0, .empty) := rfl

end KLambda
