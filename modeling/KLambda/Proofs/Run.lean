import KLambda.Machine.Drive
import Mathlib.Data.List.Forall2
import Mathlib.Order.Basic

/-!
Runs of the machine, move by move, with the effects that they have in order. Two runs that keep
pace with each other end alike and have their effects in the same order, whichever of them is known
to end.
-/
namespace KLambda

/-- What a move does that can be told from outside: it calls a built-in function or one of the host,
defines a function or assigns a global value. -/
inductive Effect where
  | primitive (op : Primitive) (args : List Value)
  | evaluate (form : Value)
  | host (op : String) (held args : List Value)
  | define (name : String) (params : List String)
  | assign (name : String) (v : Value)

/-- A host whose functions answer with their first argument, the asynchronous ones after one
suspension. -/
def Host.echo : Host where
  native _ _ args h := (.ok (args.headD .empty), h)
  async op held args h :=
    if op = "resumed" then (.ready (.ok (args.headD .empty)), h) else (.later "resumed" held, h)

namespace Machine

/-- The effect of going into a piece of code. -/
def codeEffect? (w : World) : Code → Option Effect
  | .defun name params _ => some (.define name params)
  | .interop name [] => (w.interop.get? name).map (.host · [] [])
  | _ => none

/-- The effect of going into a function. -/
def entryEffect? (w : World) (f : Function) (args : List Value) : Option Effect :=
  match w.heap.body f with
  | .primitive runtime op => if runtime = w.runtime then some (.primitive op args) else none
  | .evaluator runtime =>
    if runtime = w.runtime then some (.evaluate (args.headD .empty)) else none
  | .native op held | .async op held => some (.host op held args)
  | _ => none

/-- The effect of going on with the value that a frame was waiting for. -/
def frameEffect? (v : Value) : Frame → Option Effect
  | .setGlobal name _ => some (.assign name v)
  | .interop op done [] _ => some (.host op [] (v :: done).reverse)
  | _ => none

/-- The effect of the next move. Every try at a suspended call is an effect of its own. -/
def effect? (s : State) : Option Effect :=
  match s.control with
  | .eval code _ => codeEffect? s.world code
  | .enter f args => entryEffect? s.world f args
  | .give (.done v) => s.stack.head?.bind (frameEffect? v)
  | .wait op held args => some (.host op held args)
  | _ => none

/-- `n` moves lead from one state to another, with these effects, and do not go past the end. -/
inductive Runs (next : State → State) (mode : Mode) : Nat → State → List Effect → State → Prop
  | refl (s : State) : Runs next mode 0 s [] s
  | move {n : Nat} {s t : State} {es : List Effect} (h : result? mode s = none)
      (hr : Runs next mode n (next s) es t) :
      Runs next mode (n + 1) s ((effect? s).toList ++ es) t

/-- A run comes to an end, with these effects on the way. -/
def Ends (next : State → State) (mode : Mode) (s : State) (es : List Effect)
    (r : Outcome Step × World) : Prop :=
  ∃ n t, Runs next mode n s es t ∧ result? mode t = some r.1 ∧ t.world = r.2

/-- A run has these effects before any others, whether or not it comes to an end. -/
def Emits (next : State → State) (mode : Mode) (s : State) (es : List Effect) : Prop :=
  ∃ n t, Runs next mode n s es t

variable {next : State → State} {mode : Mode} {s t u : State} {es fs : List Effect} {m n : Nat}
  {r : Outcome Step × World}

theorem Runs.one (h : result? mode s = none) :
    Runs next mode 1 s (effect? s).toList (next s) := by
  simpa using Runs.move h (.refl _)

/-- A move without an effect. -/
theorem Runs.silent (h : result? mode s = none) (he : effect? s = none)
    (hr : Runs next mode n (next s) es t) : Runs next mode (n + 1) s es t := by
  simpa [he] using Runs.move h hr

theorem Runs.trans (h : Runs next mode m s es t) (h' : Runs next mode n t fs u) :
    Runs next mode (m + n) s (es ++ fs) u := by
  induction h with
  | refl => simpa using h'
  | @move m s t es hs _ ih =>
    have := Runs.move hs (ih h')
    rwa [← List.append_assoc, Nat.add_right_comm] at this

theorem Runs.ends (h : Runs next mode n s es t) (he : Ends next mode t fs r) :
    Ends next mode s (es ++ fs) r := by
  obtain ⟨k, u, hu, hr⟩ := he
  exact ⟨n + k, u, h.trans hu, hr⟩

theorem Runs.emits (h : Runs next mode n s es t) (he : Emits next mode t fs) :
    Emits next mode s (es ++ fs) := by
  obtain ⟨k, u, hu⟩ := he
  exact ⟨n + k, u, h.trans hu⟩

theorem result?_ne_exhausted (mode : Mode) (s : State) : result? mode s ≠ some .exhausted := by
  unfold result?
  split <;> simp

/-- There is only one way to go, so a longer run goes on from where a shorter one arrived. -/
theorem Runs.rest (h : Runs next mode m s es t) (h' : Runs next mode (m + n) s fs u) :
    ∃ gs, fs = es ++ gs ∧ Runs next mode n t gs u := by
  induction h generalizing fs with
  | refl => exact ⟨fs, rfl, by simpa using h'⟩
  | @move m s t es hs _ ih =>
    rw [Nat.add_right_comm] at h'
    cases h' with
    | move _ h' =>
      obtain ⟨gs, rfl, hg⟩ := ih h'
      exact ⟨gs, by simp, hg⟩

/-- No run goes past the end of another. -/
theorem Runs.le_of_result (h : Runs next mode m s es t) (h' : Runs next mode n s fs u)
    {o : Outcome Step} (ho : result? mode u = some o) : m ≤ n := by
  induction h generalizing n fs with
  | refl => exact Nat.zero_le n
  | move hs _ ih =>
    cases h' with
    | refl => simp [hs] at ho
    | move _ h' => exact Nat.succ_le_succ (ih h')

theorem Ends.unique {q : Outcome Step × World} (h : Ends next mode s es r)
    (h' : Ends next mode s fs q) : es = fs ∧ r = q := by
  obtain ⟨m, t, ht, hr, hw⟩ := h
  obtain ⟨n, u, hu, hq, hv⟩ := h'
  obtain rfl : m = n := Nat.le_antisymm (ht.le_of_result hu hq) (hu.le_of_result ht hr)
  obtain ⟨gs, rfl, hz⟩ := Runs.rest (n := 0) ht hu
  cases hz
  refine ⟨by simp, Prod.ext ?_ (hw.symm.trans hv)⟩
  exact Option.some.inj (hr.symm.trans hq)

/-- A run can be left after any of its effects. -/
theorem Emits.of_append (h : Emits next mode s (es ++ fs)) : Emits next mode s es := by
  obtain ⟨n, t, h⟩ := h
  generalize hg : es ++ fs = gs at h
  induction h generalizing es with
  | refl s => exact ⟨0, s, by simp_all [Runs.refl]⟩
  | @move n s t gs hs hr ih =>
    rcases List.append_eq_append_iff.1 hg with ⟨a, ha, -⟩ | ⟨c, rfl, hc⟩
    · cases he : effect? s with
      | none =>
        obtain ⟨rfl, rfl⟩ : es = [] ∧ a = [] := by simpa [he] using ha
        exact ⟨0, s, .refl s⟩
      | some e =>
        rcases es with _ | ⟨x, xs⟩
        · exact ⟨0, s, .refl s⟩
        · obtain ⟨rfl, rfl, rfl⟩ : e = x ∧ xs = [] ∧ a = [] := by simpa [he] using ha
          have h₁ : Runs next mode 1 s _ _ := Runs.one hs
          exact ⟨1, _, by simpa [he] using h₁⟩
    · obtain ⟨k, u, hu⟩ := ih hc.symm
      exact ⟨k + 1, u, .move hs hu⟩

theorem drive_succ (hs : result? mode s = none) (n : Nat) :
    drive next mode (n + 1) s = drive next mode n (next s) := by
  simp [drive, hs]

theorem Runs.drive (h : Runs next mode n s es t) (k : Nat) :
    drive next mode (n + k) s = drive next mode k t := by
  induction h with
  | refl => simp
  | @move n s t es hs _ ih => rw [Nat.add_right_comm, drive_succ hs, ih]

/-- However far a state is driven, it is run, and if the fuel suffices, to its end. -/
theorem exists_runs_drive (next : State → State) (mode : Mode) (fuel : Nat) (s : State) :
    ∃ n es t, Runs next mode n s es t ∧ (Machine.drive next mode fuel s).2 = t.world ∧
      ((Machine.drive next mode fuel s).1 = .exhausted ∨
        result? mode t = some (Machine.drive next mode fuel s).1) := by
  induction fuel generalizing s with
  | zero => exact ⟨0, [], s, .refl s, rfl, Or.inl rfl⟩
  | succ fuel ih =>
    cases hs : result? mode s with
    | none =>
      obtain ⟨n, es, t, hr, ht⟩ := ih (next s)
      rw [drive_succ hs]
      exact ⟨n + 1, _, t, .move hs hr, ht⟩
    | some o =>
      have hd : Machine.drive next mode (fuel + 1) s = (o, s.world) := by
        simp only [Machine.drive, hs]
      rw [hd]
      exact ⟨0, [], s, .refl s, rfl, Or.inr hs⟩

theorem control_of_result {step : Step} (h : result? mode s = some (.ok step)) :
    s.control = .give step := by
  unfold result? at h
  split at h <;> simp_all

/-- Driving with enough fuel is running to the end. -/
theorem exists_drive_eq_iff :
    (∃ fuel, drive next mode fuel s = r ∧ r.1 ≠ .exhausted) ↔ ∃ es, Ends next mode s es r := by
  constructor
  · rintro ⟨fuel, h, hr⟩
    induction fuel generalizing s with
    | zero =>
      subst h
      exact absurd rfl hr
    | succ fuel ih =>
      cases hs : result? mode s with
      | none =>
        obtain ⟨es, he⟩ := ih (by rwa [drive_succ hs] at h)
        exact ⟨_, (Runs.one hs).ends he⟩
      | some o =>
        simp only [Machine.drive, hs] at h
        subst h
        exact ⟨[], 0, s, .refl s, hs, rfl⟩
  · rintro ⟨es, n, t, h, hr, hw⟩
    refine ⟨n + 1, ?_, ?_⟩
    · rw [h.drive 1]
      simp [Machine.drive, hr, hw]
    · intro he
      exact result?_ne_exhausted mode t (he ▸ hr)

end Machine
end KLambda
