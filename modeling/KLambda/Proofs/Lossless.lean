import KLambda.Machine.Release
import KLambda.Proofs.Correspondence
import KLambda.Proofs.Reach

/-!
Machines that own what they refer to. Such a machine flushes and closes the streams that it no
longer refers to, which can be told from what is in their files. It takes the steps of the machine
that keeps everything for as long as no stream that goes out of reach holds bytes back.
-/
namespace KLambda

namespace Heap

variable {h : Heap} {refs roots roots' : List Value}

/-- No stream out of reach of `roots` holds bytes back. -/
def Quiet (h : Heap) (roots : List Value) : Prop :=
  ∀ id s, h.streams[id]? = some s → s.holdsBack = true → h.InReach roots (.stream id)

/-- No stream holds bytes back at all. -/
def Flushed (h : Heap) : Prop := ∀ s ∈ h.streams, s.holdsBack = false

theorem Flushed.quiet (hf : h.Flushed) (roots : List Value) : h.Quiet roots := by
  intro id s hs hb
  simp [hf s (Array.mem_of_getElem? hs)] at hb

theorem Quiet.mono (hq : h.Quiet roots) (hr : ∀ v ∈ roots, v ∈ roots') : h.Quiet roots' :=
  fun id s hs hb => (hq id s hs hb).mono hr

theorem losesBytes_iff : h.losesBytes roots = true ↔ ¬ h.Quiet roots := by
  have hc : ∀ {id s}, h.streams[id]? = some s → h.Contains (.stream id) := fun hs =>
    (Array.getElem?_eq_some_iff.1 hs).1
  simp only [losesBytes, Quiet, Bool.and_eq_true, List.any_eq_true, Prod.exists,
    List.mk_mem_zipIdx_iff_getElem?, Bool.not_eq_true', Array.getElem?_toList]
  constructor
  · rintro ⟨-, s, id, hs, hb, hk⟩ hq
    rw [(reachable_has_iff (hc hs)).2 (hq id s hs hb)] at hk
    cases hk
  · intro hq
    simp only [not_forall] at hq
    obtain ⟨id, s, hs, hb, hr⟩ := hq
    refine ⟨⟨s, Array.mem_toList_iff.2 (Array.mem_of_getElem? hs), hb⟩, s, id, hs, hb, ?_⟩
    rwa [← reachable_has_iff (hc hs), Bool.not_eq_true] at hr

/-- What is lost without bytes is lost without a trace. -/
theorem Quiet.release (hq : h.Quiet roots) (refs : List Value) : h.release refs roots = h := by
  rw [Heap.release, if_neg fun hl => losesBytes_iff.1 hl hq]

end Heap

/-- Nothing that a state no longer refers to holds bytes back. What is given up counts as that. -/
def State.Quiet (mode : Mode) (s : State) : Prop :=
  s.world.heap.Quiet (if s.isGivenUp mode then s.world.roots else s.roots)

namespace Machine

variable {host : Host} {mode : Mode} {s t : State} {es : List Effect} {n : Nat}
  {r : Outcome Step × World}

theorem shed_eq_move (h : (move host s).Quiet mode) : shed host mode s = move host s := by
  have hroots : (move host s).world.heap.Quiet (move host s).roots := by
    unfold State.Quiet at h
    split at h
    · exact h.mono fun v hv => List.mem_append_right _ hv
    · exact h
  have hgo : s.letGo (move host s) = move host s := by
    simp only [State.letGo, State.release, hroots.release]
  simp only [shed, hgo]
  split
  · rename_i hg
    rw [State.Quiet, if_pos hg] at h
    simp only [State.abandon, State.release, h.release]
  · rfl

/-- On its way from here the machine that keeps everything never comes to a state in which bytes
would be lost that a stream holds back. -/
def Lossless (host : Host) (mode : Mode) (s : State) : Prop :=
  ∀ n es t, Runs host mode n s es t → t.Quiet mode

theorem Lossless.of_runs (h : Lossless host mode s) (hr : Runs host mode n s es t) :
    Lossless host mode t := fun _ _ _ hr' => h _ _ _ (hr.trans hr')

theorem Lossless.shed_eq (h : Lossless host mode s) (hs : result? mode s = none) :
    shed host mode s = move host s :=
  shed_eq_move (h _ _ _ (Runs.one hs))

/-- Both machines take the same moves. -/
theorem Lossless.runs_iff (h : Lossless host mode s) :
    Runs (shed host mode) mode n s es t ↔ Runs host mode n s es t := by
  constructor
  · intro hr
    induction hr with
    | refl s => exact .refl s
    | move hs _ ih =>
      rw [h.shed_eq hs] at ih
      exact .move hs (ih (h.of_runs (Runs.one hs)))
  · intro hr
    induction hr with
    | refl s => exact .refl s
    | move hs _ ih =>
      have hn := ih (h.of_runs (Runs.one hs))
      rw [← h.shed_eq hs] at hn
      exact .move hs hn

theorem Lossless.ends_iff (h : Lossless host mode s) :
    Ends (shed host mode) mode s es r ↔ Ends host mode s es r := by
  simp only [Ends, h.runs_iff]

theorem Lossless.emits_iff (h : Lossless host mode s) :
    Emits (shed host mode) mode s es ↔ Emits host mode s es := by
  simp only [Emits, h.runs_iff]

/-- The machine that owns what it refers to does what the one that keeps everything does. -/
theorem Lossless.drive_eq (h : Lossless host mode s) (fuel : Nat) :
    drive (shed host mode) mode fuel s = drive host mode fuel s := by
  induction fuel generalizing s with
  | zero => rfl
  | succ fuel ih =>
    cases hs : result? mode s with
    | none =>
      rw [drive_succ hs, drive_succ hs, h.shed_eq hs]
      exact ih (h.of_runs (Runs.one hs))
    | some o => simp only [drive, hs]

theorem SameRuns.shed (h : SameRuns host mode s t) (hs : Lossless host mode s)
    (ht : Lossless host mode t) : SameRuns (shed host mode) mode s t := by
  simpa only [SameRuns, hs.ends_iff, ht.ends_iff, hs.emits_iff, ht.emits_iff] using h

end Machine

/-- A byte that has been written to a file and has not reached it: the first stream holds it back,
and the second one reads the file. -/
def World.withheld (values : List (String × Value)) : World where
  heap := { Heap.empty with
    bodies := #[.primitive 0 .readByte]
    streams := #[⟨"t", .output, .live (.sink "t" 0 #[65])⟩, ⟨"t", .input, .live (.source "t" 0 [])⟩]
    disk := ⟨⟨[("t", #[])]⟩, [], []⟩ }
  functions := ⟨[("read-byte", ⟨0, "read-byte", some 1⟩)]⟩
  values := ⟨values⟩
  interop := .empty
  options := {}
  runtime := 0
  reports := #[]
  started := 0
  now := 0

namespace Value

/-- The stream that holds the byte back. -/
def writer : Value := .stream ⟨0, "t", .output⟩

/-- The stream that reads the file. -/
def reader : Value := .stream ⟨1, "t", .input⟩

end Value

/-- The value of an outcome, if it is one. -/
def Outcome.value? {α : Type} : Outcome α → Option α
  | .ok a => some a
  | _ => none

theorem Outcome.eq_of_value? {α : Type} {r : Outcome α × World} {a : α}
    (h : r.1.value? = some a) : r = (.ok a, r.2) := by
  obtain ⟨o, w⟩ := r
  cases o <;> simp_all [value?]

/-- Is a number what the end of a file reads as? -/
def Outcome.atEnd? : Outcome Value → Option Bool
  | .ok (.number x) => some (x == -1)
  | _ => none

theorem Outcome.ne_exhausted_of_atEnd? {o : Outcome Value} {b : Bool} (h : o.atEnd? = some b) :
    o ≠ .exhausted := by
  rintro rfl
  cases h

/-- What has been read does not depend on the fuel. -/
theorem Machine.atEnd?_unique {next : State → State} {mode : Mode} {s : State} {m n : Nat}
    {a b : Bool} (hm : (valueOf (drive next mode m s)).1.atEnd? = some a)
    (hn : (valueOf (drive next mode n s)).1.atEnd? = some b) : a = b := by
  rw [valueOf_drive_unique (Outcome.ne_exhausted_of_atEnd? hm) (Outcome.ne_exhausted_of_atEnd? hn),
    hn] at hm
  exact (Option.some.inj hm).symm

end KLambda
