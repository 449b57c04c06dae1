import KLambda.Proofs.Dangling
import KLambda.Proofs.Trampoline

/-!
Supplying arguments in parts. Until a function has all of its arguments every call makes a partial
application and nothing is entered. The call that completes them unwinds the partial applications
down to the function itself, which is entered with the arguments that one call would have given it,
in a world that differs by the partial applications alone.
-/
namespace KLambda

/-- What a function becomes when it is given too few arguments. -/
def World.supply (w : World) (f : Function) (args : List Value) : Function × World :=
  if args.isEmpty then (f, w) else w.partialApply f args

/-- What it becomes when it is given one list of arguments after the other. -/
def World.supplyAll (w : World) (f : Function) : List (List Value) → Function × World
  | [] => (f, w)
  | c :: cs => (w.supply f c).2.supplyAll (w.supply f c).1 cs

namespace World

variable {w u : World} {f : Function} {n : Nat}

theorem supply_name (w : World) (f : Function) (c : List Value) :
    (w.supply f c).1.name = f.name := by
  unfold supply
  split <;> rfl

theorem supply_arity (w : World) (hf : f.arity = some n) (c : List Value) :
    (w.supply f c).1.arity = some (n - c.length) := by
  unfold supply
  split
  · simp_all
  · simp [partialApply, makeFunction, Heap.function, hf]

theorem Extends.supply (h : w.Extends u) (f : Function) (c : List Value) :
    w.Extends (u.supply f c).2 := by
  unfold World.supply
  split
  · exact h
  · exact h.partialApply f c

theorem Extends.supplyAll (h : w.Extends u) (f : Function) (cs : List (List Value)) :
    w.Extends (u.supplyAll f cs).2 := by
  induction cs generalizing u f with
  | nil => exact h
  | cons c cs ih => exact ih (h.supply f c) _

end World

/-- The second function is the first one with these arguments collected in partial applications. -/
inductive Heap.Collects (h : Heap) : Function → List Value → Function → Prop
  | refl (f : Function) : Collects h f [] f
  | part {f g k : Function} {n : Nat} {c bound : List Value} (hf : f.arity = some n)
      (hg : g.arity = some (n - c.length)) (hb : h.body g = .partialOf f c)
      (hr : Collects h g bound k) : Collects h f (c ++ bound) k

namespace Heap.Collects

variable {h : Heap} {f g k : Function} {bound more : List Value}

theorem trans (hf : h.Collects f bound g) (hg : h.Collects g more k) :
    h.Collects f (bound ++ more) k := by
  induction hf with
  | refl => exact hg
  | part ha hc hb _ ih =>
    rw [List.append_assoc]
    exact .part ha hc hb (ih hg)

/-- What was collected is not lost when bodies are added. -/
theorem mono {w u : World} (hw : w.Extends u) (hc : w.heap.Collects f bound g) :
    u.heap.Collects f bound g := by
  induction hc with
  | refl => exact .refl _
  | @part f g k n c bound ha hg hb _ ih =>
    have hi : g.id < w.heap.bodies.size := by
      by_contra hi
      simp [Heap.body, Array.getD, hi] at hb
    exact .part ha hg ((hw.body hi).trans hb) ih

end Heap.Collects

namespace Machine

/-- The arguments that are left over wait for the result. -/
def leftOver (f : Function) (n : Nat) (args : List Value) : List Frame :=
  if n < args.length then [.surplus f (args.drop n)] else []

/-- Running `f` with these arguments and settling gives the function `g`, without effects and
without going into any function. -/
structure Supplies (next : State → State) (mode : Mode) (f : Function) (w : World)
    (args : List Value) (g : Function) (u : World) : Prop where
  ends : Ends next mode ⟨.run f args, [.settle []], w⟩ [] (.ok (.done (.function g)), u)
  enters_none {n : Nat} {es : List Effect} {t : State} {k : Function} {vs : List Value} :
    Runs next mode n ⟨.run f args, [.settle []], w⟩ es t → t.control ≠ .enter k vs

/-- Supplying one list of arguments after the other. Every result on the way has the name of the
function before it, and an arity that is less by the arguments supplied and still not zero. -/
inductive Curries (next : State → State) (mode : Mode) :
    Function → World → List (List Value) → Function → World → Prop
  | nil (f : Function) (w : World) : Curries next mode f w [] f w
  | cons {f g k : Function} {w u v : World} {n : Nat} {c : List Value} {cs : List (List Value)}
      (hf : f.arity = some n) (hc : c.length < n) (hs : Supplies next mode f w c g u)
      (hn : g.name = f.name) (hg : g.arity = some (n - c.length))
      (hr : Curries next mode g u cs k v) : Curries next mode f w (c :: cs) k v

/-- As long as no more than functions is added to a world, these are the moves of the host. -/
def Obeys (next : State → State) (host : Host) (w : World) : Prop :=
  ∀ s, w.Extends (move host s).world → next s = move host s

variable {next : State → State} {host : Host} {mode : Mode} {S : List Frame} {w u : World}
  {f g : Function} {n : Nat} {args : List Value}

theorem Obeys.mono (h : Obeys next host w) (hu : w.Extends u) : Obeys next host u :=
  fun s hs => h s (hu.trans hs)

theorem obeys_move (host : Host) (w : World) : Obeys host host w := fun _ _ => rfl

/-- A machine that owns what it refers to obeys the host where only what the globals refer to holds
bytes back. -/
theorem obeys_shed (hq : w.heap.Quiet w.roots) : Obeys (shed host mode) host w := by
  intro s hs
  have hq' := hs.quiet hq
  apply shed_eq_move
  unfold State.Quiet
  split
  · exact hq'
  · exact hq'.mono fun v hv => List.mem_append_right _ hv

theorem move_run_of_lt (hf : f.arity = some n) (ha : args.length < n) :
    move host ⟨.run f args, S, w⟩ =
      ⟨.give (.done (.function (w.supply f args).1)), S, (w.supply f args).2⟩ := by
  have hn : 0 < n := by omega
  cases args with
  | nil => simp [move, step, runFunction, giveValue, hf, hn, World.supply]
  | cons a args =>
    rw [List.length_cons] at ha
    have hl : ¬ n ≤ args.length + 1 := by omega
    simp [move, step, runFunction, giveValue, hf, hl, World.supply]

theorem move_run_of_le (hf : f.arity = some n) (ha : n ≤ args.length) :
    move host ⟨.run f args, S, w⟩ = ⟨.enter f (args.take n), leftOver f n args ++ S, w⟩ := by
  have he : ¬ (args.isEmpty = true ∧ 0 < n) := by
    rintro ⟨he, hn⟩
    simp_all
  have hl : ¬ args.length < n := by omega
  simp only [move, step, runFunction, hf, Bool.and_eq_true, decide_eq_true_eq, if_neg he, if_neg hl,
    leftOver]
  split
  · rfl
  · rw [List.take_of_length_le (by omega)]
    rfl

theorem supplies_of_lt (ho : Obeys next host w) (hf : f.arity = some n) (ha : args.length < n) :
    Supplies next mode f w args (w.supply f args).1 (w.supply f args).2 := by
  have hext : w.Extends (w.supply f args).2 := (World.Extends.refl w).supply f args
  have hrun : next ⟨.run f args, [.settle []], w⟩ =
      ⟨.give (.done (.function (w.supply f args).1)), [.settle []], (w.supply f args).2⟩ := by
    rw [ho _ (by rwa [move_run_of_lt hf ha]), move_run_of_lt hf ha]
  have hgive : next
      ⟨.give (.done (.function (w.supply f args).1)), [.settle []], (w.supply f args).2⟩ =
      ⟨.give (.done (.function (w.supply f args).1)), [], (w.supply f args).2⟩ := ho _ hext
  constructor
  · refine ⟨2, ⟨.give (.done (.function (w.supply f args).1)), [], (w.supply f args).2⟩, ?_, rfl,
      rfl⟩
    refine .silent rfl rfl ?_
    rw [hrun]
    refine .silent rfl rfl ?_
    rw [hgive]
    exact .refl _
  · intro k es t g vs hr
    cases hr with
    | refl => simp
    | move _ hr =>
      rw [hrun] at hr
      cases hr with
      | refl => simp
      | move _ hr =>
        rw [hgive] at hr
        cases hr with
        | refl => simp
        | move hs _ => simp [result?] at hs

end Machine

namespace World

variable {next : State → State} {host : Host} {mode : Mode} {w : World} {f : Function} {n : Nat}
  {c : List Value}

theorem supplyAll_append (w : World) (f : Function) (cs ds : List (List Value)) :
    w.supplyAll f (cs ++ ds) = (w.supplyAll f cs).2.supplyAll (w.supplyAll f cs).1 ds := by
  induction cs generalizing w f with
  | nil => rfl
  | cons c cs ih => exact ih _ _

theorem supplyAll_curries {cs : List (List Value)} (ho : Machine.Obeys next host w)
    (hf : f.arity = some n) (hc : cs.flatten.length < n) :
    Machine.Curries next mode f w cs (w.supplyAll f cs).1 (w.supplyAll f cs).2 := by
  induction cs generalizing w f n with
  | nil => exact .nil f w
  | cons c cs ih =>
    simp only [List.flatten_cons, List.length_append] at hc
    have hl : c.length < n := by omega
    refine .cons hf hl (Machine.supplies_of_lt ho hf hl) (w.supply_name f c)
      (w.supply_arity hf c) ?_
    exact ih (ho.mono ((Extends.refl w).supply f c)) (w.supply_arity hf c) (by omega)

theorem partialApply_body (w : World) (f : Function) (bound : List Value) :
    (w.partialApply f bound).1.id < (w.partialApply f bound).2.heap.bodies.size ∧
      (w.partialApply f bound).2.heap.body (w.partialApply f bound).1 = .partialOf f bound := by
  simp [partialApply, makeFunction, report, Heap.function, Heap.body, Array.getD]

theorem supplyAll_arity (w : World) {cs : List (List Value)} (hf : f.arity = some n) :
    (w.supplyAll f cs).1.arity = some (n - cs.flatten.length) := by
  induction cs generalizing w f n with
  | nil => simpa [supplyAll] using hf
  | cons c cs ih =>
    have hc := ih (w.supply f c).2 (w.supply_arity hf c)
    rwa [Nat.sub_sub, ← List.length_append, ← List.flatten_cons] at hc

theorem supplyAll_name (w : World) (f : Function) (cs : List (List Value)) :
    (w.supplyAll f cs).1.name = f.name := by
  induction cs generalizing w f with
  | nil => rfl
  | cons c cs ih => exact (ih _ _).trans (w.supply_name f c)

/-- The partial applications that are made on the way stay in the heap. -/
theorem supplyAll_collects (w : World) (hf : f.arity = some n) (cs : List (List Value)) :
    (w.supplyAll f cs).2.heap.Collects f cs.flatten (w.supplyAll f cs).1 := by
  induction cs generalizing w f n with
  | nil => exact .refl f
  | cons c cs ih =>
    cases c with
    | nil => exact ih w hf
    | cons a c =>
      obtain ⟨hi, hb⟩ := w.partialApply_body f (a :: c)
      have he := (Extends.refl (w.partialApply f (a :: c)).2).supplyAll
        (w.partialApply f (a :: c)).1 cs
      have hg : (w.partialApply f (a :: c)).1.arity = _ := w.supply_arity hf (a :: c)
      exact .part hf hg ((he.body hi).trans hb) (ih _ hg)

end World

namespace Machine

variable {next : State → State} {host : Host} {mode : Mode} {S : List Frame} {w u : World}
  {f g : Function} {n : Nat} {args bound c : List Value}

theorem next_run_of_le (ho : Obeys next host w) (hf : f.arity = some n) (ha : n ≤ args.length) :
    next ⟨.run f args, S, w⟩ = ⟨.enter f (args.take n), leftOver f n args ++ S, w⟩ := by
  have hm := @move_run_of_le host S w f n args hf ha
  rw [ho _ (by rw [hm]; exact .refl w), hm]

/-- Going into a function that has collected arguments, with exactly the rest of them, goes into the
function that they were collected for. -/
theorem runs_unwind (ho : Obeys next host w) (h : w.heap.Collects f bound g) (hf : f.arity = some n)
    (ha : bound.length + args.length = n) :
    ∃ k, Runs next mode k ⟨.enter g args, S, w⟩ [] ⟨.enter f (bound ++ args), S, w⟩ := by
  induction h generalizing n with
  | refl f => exact ⟨0, .refl _⟩
  | @part f g k m c bound hf' hg hb _ ih =>
    obtain rfl := Option.some.inj (hf'.symm.trans hf)
    rw [List.length_append] at ha
    obtain ⟨j, hj⟩ := ih hg (by omega)
    have hl : m = (c ++ (bound ++ args)).length := by
      simp only [List.length_append]
      omega
    have hm : move host ⟨.enter g (bound ++ args), S, w⟩ =
        ⟨.run f (c ++ (bound ++ args)), S, w⟩ := by
      simp [move, step, enterFunction, hb]
    have he : entryEffect? w g (bound ++ args) = none := by simp [entryEffect?, hb]
    have hr : next ⟨.run f (c ++ (bound ++ args)), S, w⟩ =
        ⟨.enter f (c ++ (bound ++ args)), S, w⟩ := by
      rw [next_run_of_le ho hf (Nat.le_of_eq hl), leftOver, if_neg (by omega),
        List.take_of_length_le (by omega)]
      rfl
    have hs : Runs next mode 2 ⟨.enter g (bound ++ args), S, w⟩ []
        ⟨.enter f (c ++ (bound ++ args)), S, w⟩ := by
      refine .silent rfl he ?_
      rw [ho _ (by rw [hm]; exact .refl w), hm]
      refine .silent rfl rfl ?_
      rw [hr]
      exact .refl _
    rw [List.append_assoc]
    exact ⟨j + 2, hj.trans hs⟩

/-- The call that completes the arguments goes into the function with as many as it takes. -/
theorem runs_enter (ho : Obeys next host w) (h : w.heap.Collects f bound g) (hf : f.arity = some n)
    (hg : g.arity = some (n - bound.length)) (hb : bound.length < n)
    (ha : n ≤ (bound ++ c).length) :
    ∃ k, Runs next mode k ⟨.run g c, S, w⟩ []
      ⟨.enter f ((bound ++ c).take n), leftOver g n (bound ++ c) ++ S, w⟩ := by
  rw [List.length_append] at ha
  obtain ⟨k, hk⟩ : ∃ k, Runs next mode k
      ⟨.enter g (c.take (n - bound.length)), leftOver g n (bound ++ c) ++ S, w⟩ []
      ⟨.enter f (bound ++ c.take (n - bound.length)), leftOver g n (bound ++ c) ++ S, w⟩ := by
    refine runs_unwind ho h hf ?_
    rw [List.length_take]
    omega
  have ht : (bound ++ c).take n = bound ++ c.take (n - bound.length) := by
    rw [List.take_append, List.take_of_length_le (by omega)]
  have hl : leftOver g (n - bound.length) c = leftOver g n (bound ++ c) := by
    have hi : n - bound.length < c.length ↔ n < (bound ++ c).length := by
      rw [List.length_append]
      omega
    have hd : (bound ++ c).drop n = c.drop (n - bound.length) := by
      rw [List.drop_append, List.drop_of_length_le (by omega), List.nil_append]
    simp only [leftOver, hi, hd]
  refine ⟨k + 1, .silent rfl rfl ?_⟩
  rw [next_run_of_le ho hg (by omega), hl, ht]
  exact hk

/-- Where a run would have been settled its result meets the arguments that are left over. An error
passes them by. -/
theorem ends_onto_surplus {s : State} {es : List Effect} {r : Outcome Step × World}
    (h : Ends host mode (s.onto [.settle []]) es r) :
    (∃ v k, r.1 = .ok (.done v) ∧
      Runs host mode k (s.onto [.surplus g args, .settle []]) es
        ⟨.give (.done v), [.surplus g args, .settle []], r.2⟩) ∨
    ∃ e, r.1 = .error e ∧ Ends host mode (s.onto [.surplus g args, .settle []]) es r := by
  obtain ⟨n, t, hr, ho, hw⟩ := h
  have same : ∀ s : State, result? mode (s.onto [.settle []]) =
      result? mode (s.onto [.surplus g args, .settle []]) :=
    fun s => result?_onto_cons s _ _ _ _
  induction n generalizing s es with
  | zero =>
    cases hr
    have hx : ∃ e, r.1 = .error e := by
      obtain ⟨c, S, w⟩ := s
      cases S <;> cases c <;> cases mode <;> simp [result?] at ho <;> exact ⟨_, ho.symm⟩
    obtain ⟨e, he⟩ := hx
    exact Or.inr ⟨e, he, 0, _, .refl _, (same s).symm.trans ho, hw⟩
  | succ n ih =>
    generalize hx : s.onto [.settle []] = x at hr
    cases hr with
    | @move _ _ _ es hs hr =>
      subst hx
      cases ha : result? .async s with
      | none =>
        rw [move_onto _ ha] at hr
        rw [effect?_onto _ ha, ← effect?_onto [.surplus g args, .settle []] ha]
        have hs' := (same s).symm.trans hs
        rcases ih hr with ⟨v, k, hv, hk⟩ | ⟨e, he, hk⟩
        · rw [← move_onto _ ha] at hk
          exact Or.inl ⟨v, k + 1, hv, .move hs' hk⟩
        · rw [← move_onto _ ha] at hk
          exact Or.inr ⟨e, he, (Runs.one hs').ends hk⟩
      | some o =>
        obtain ⟨c, S, w⟩ := s
        rcases S with _ | ⟨frame, S⟩
        · cases c with
          | give step =>
            cases step with
            | done v =>
              cases hr with
              | refl => exact Or.inl ⟨v, 0, (Option.some.inj ho).symm, hw ▸ .refl _⟩
              | move hs' _ => simp [move, step, resumeFrame, giveValue, result?] at hs'
            | bounce k vs =>
              have hb : Runs host mode n (State.onto ⟨.run k vs, [], w⟩ [.settle []]) es t := hr
              rcases ih hb with ⟨v, j, hv, hj⟩ | ⟨e, he, hj⟩
              · exact Or.inl ⟨v, j + 1, hv, .silent rfl rfl hj⟩
              · exact Or.inr ⟨e, he, (Runs.one rfl).ends hj⟩
          | raise e =>
            cases hr with
            | refl =>
              refine Or.inr ⟨e, (Option.some.inj ho).symm, 2, ⟨.raise e, [], w⟩, ?_, ho, hw⟩
              exact .silent rfl rfl (.silent rfl rfl (.refl _))
            | move hs' _ => simp [move, step, unwind, result?] at hs'
          | _ => simp [result?] at ha
        · cases c <;> simp [result?] at ha

/-- What a function comes to is run on the arguments that it does not take: with an error these are
not looked at, and a result that is no function is an error. -/
structure RunsRest (host : Host) (mode : Mode) (f : Function) (n : Nat) (args : List Value)
    (s : State) : Prop where
  surplus {es : List Effect} {k : Function} {w : World} :
    Ends (shed host mode) mode ⟨.enter f (args.take n), [.settle []], s.world⟩ es
      (.ok (.done (.function k)), w) →
    ∃ m t, Runs (shed host mode) mode m s es t ∧
      (Lossless host mode ⟨.run k (args.drop n), [.settle []], w⟩ →
        SameRuns (shed host mode) mode t ⟨.run k (args.drop n), [.settle []], w⟩)
  rejects {es : List Effect} {v : Value} {w : World} : (∀ k, v ≠ .function k) →
    Ends (shed host mode) mode ⟨.enter f (args.take n), [.settle []], s.world⟩ es
      (.ok (.done v), w) →
    Ends (shed host mode) mode s es (.error (.notCallable v.text), w)
  fails {es : List Effect} {e : Error} {w : World} :
    Ends (shed host mode) mode ⟨.enter f (args.take n), [.settle []], s.world⟩ es (.error e, w) →
    Ends (shed host mode) mode s es (.error e, w)

/-- From a state on, `f` is entered with the first `n` of the arguments, and what is left over is
run on the result, unless bytes are lost that a stream holds back. -/
structure Invokes (host : Host) (mode : Mode) (f : Function) (n : Nat) (args : List Value)
    (s : State) : Prop where
  enters : ∃ k rest, Runs (shed host mode) mode k s []
    ⟨.enter f (args.take n), rest ++ [.settle []], s.world⟩
  complete : args.length = n →
    SameRuns (shed host mode) mode s ⟨.enter f args, [.settle []], s.world⟩
  rest : n < args.length → Lossless host mode s →
    Lossless host mode ⟨.enter f (args.take n), [.settle []], s.world⟩ →
    RunsRest host mode f n args s

/-- A frame that keeps something does not matter. -/
theorem sameRuns_keep (c : Control) (vs : List Value) (w : World) :
    SameRuns host mode ⟨c, [.keep vs, .settle []], w⟩ ⟨c, [.settle []], w⟩ :=
  (inPlace host mode).swap.sameRuns (fun _ _ h => h.symm) (fun _ _ h => h.symm)
    (.same c (.keep vs (.bottom [] [])) w)

theorem runsRest_of_runs {s : State} {k : Nat} (hn : n < args.length)
    (h : Runs host mode k s []
      ⟨.enter f (args.take n), leftOver g n args ++ [.settle []], s.world⟩)
    (hs : Lossless host mode s)
    (hf : Lossless host mode ⟨.enter f (args.take n), [.settle []], s.world⟩) :
    RunsRest host mode f n args s := by
  have entered : Runs host mode k s [] (State.onto ⟨.enter f (args.take n), [], s.world⟩
      [.surplus g (args.drop n), .settle []]) := by
    simpa [leftOver, hn] using h
  have met : ∀ {es v w},
      Ends (shed host mode) mode ⟨.enter f (args.take n), [.settle []], s.world⟩ es
        (.ok (.done v), w) →
      ∃ m, Runs host mode m s es
        ⟨.give (.done v), [.surplus g (args.drop n), .settle []], w⟩ := by
    intro es v w he
    rcases ends_onto_surplus (s := ⟨.enter f (args.take n), [], s.world⟩) (hf.ends_iff.1 he) with
      ⟨v', m, hv, hm⟩ | ⟨e, he, -⟩
    · cases hv
      exact ⟨k + m, entered.trans hm⟩
    · cases he
  constructor
  · intro es q w he
    obtain ⟨m, hm⟩ := met he
    have hq : Runs host mode 1
        ⟨.give (.done (.function q)), [.surplus g (args.drop n), .settle []], w⟩ []
        ⟨.run q (args.drop n), [.keep [.function g], .settle []], w⟩ :=
      .silent rfl rfl (.refl _)
    have hr := hm.trans hq
    rw [List.append_nil] at hr
    exact ⟨m + 1, _, hs.runs_iff.2 hr, (sameRuns_keep _ _ w).shed (hs.of_runs hr)⟩
  · intro es v w hv he
    obtain ⟨m, hm⟩ := met he
    have hq : Runs host mode 2 ⟨.give (.done v), [.surplus g (args.drop n), .settle []], w⟩ []
        ⟨.raise (.notCallable v.text), [], w⟩ := by
      cases v with
      | function k => exact absurd rfl (hv k)
      | _ => exact .silent rfl rfl (.silent rfl rfl (.refl _))
    have hr := hm.trans hq
    rw [List.append_nil] at hr
    exact hs.ends_iff.2 ⟨m + 2, _, hr, rfl, rfl⟩
  · intro es e w he
    rcases ends_onto_surplus (s := ⟨.enter f (args.take n), [], s.world⟩) (hf.ends_iff.1 he) with
      ⟨v, m, hv, -⟩ | ⟨e', -, hm⟩
    · cases hv
    · exact hs.ends_iff.2 (entered.ends hm)

theorem invokes_of_runs {s : State} {k : Nat}
    (h : Runs (shed host mode) mode k s []
      ⟨.enter f (args.take n), leftOver g n args ++ [.settle []], s.world⟩) :
    Invokes host mode f n args s where
  enters := ⟨k, leftOver g n args, h⟩
  complete := by
    rintro rfl
    simpa [leftOver] using h.sameRuns
  rest hn hs hf := runsRest_of_runs hn (hs.runs_iff.1 h) hs hf

/-- The second run has the outcome of the first, up to the places of functions that are made after
the first `b`. -/
def SameOutcome (next : State → State) (mode : Mode) (b : Nat) (s t : State) : Prop :=
  ∃ σ, (∀ i < b, σ i = i) ∧ (∀ i j, σ i = σ j → i = j) ∧ Mirrors next mode σ s t

/-- The same outcome, unless one of the runs loses bytes that a stream holds back. -/
def SameUnlessLost (host : Host) (mode : Mode) (b : Nat) (s t : State) : Prop :=
  Lossless host mode s → Lossless host mode t → SameOutcome (shed host mode) mode b s t

theorem SameOutcome.unlessLost {b : Nat} {s t : State} (h : SameOutcome host mode b s t) :
    SameUnlessLost host mode b s t := by
  obtain ⟨σ, hσ, hi, hm⟩ := h
  exact fun hs ht => ⟨σ, hσ, hi, hm.shed hs ht⟩

/-- What has been read is no function, and so it is the same in both runs. -/
theorem SameOutcome.atEnd?_eq {b j k : Nat} {s t : State} {x y : Bool}
    (h : SameOutcome next mode b s t) (hs : (valueOf (drive next mode j s)).1.atEnd? = some x)
    (ht : (valueOf (drive next mode k t)).1.atEnd? = some y) : x = y := by
  obtain ⟨σ, -, -, hm⟩ := h
  have hns := Outcome.ne_exhausted_of_atEnd? hs
  have hnt := Outcome.ne_exhausted_of_atEnd? ht
  obtain ⟨es, ⟨o, w⟩, he, hr⟩ := (exists_valueOf_drive_iff hns).1 ⟨j, rfl⟩
  obtain ⟨fs, q, hf, hq⟩ := (exists_valueOf_drive_iff hnt).1 ⟨k, rfl⟩
  obtain ⟨⟨o', w'⟩, he', rfl, -⟩ := hm.ends he
  obtain ⟨-, rfl⟩ := he'.unique hf
  rw [← hr] at hs
  rw [← hq] at ht
  match o with
  | .ok (.done (.number z)) => exact Option.some.inj (hs.symm.trans ht)

/-- The function `g` of the world `u` goes on where `f` in the world `w` was given too few
arguments: it takes more of them in any number of calls, and the call that completes them has the
outcome of the one call of `f` with all of them. -/
def Continues (host : Host) (mode : Mode) (f : Function) (n : Nat) (w : World) (args : List Value)
    (g : Function) (u : World) : Prop :=
  ∀ (ds : List (List Value)) (d : List Value),
    (∀ v ∈ ds.flatten ++ d, w.Holds v) → (args ++ ds.flatten).length < n →
    ∃ k v, Curries (shed host mode) mode g u ds k v ∧
      (n ≤ (args ++ ds.flatten ++ d).length →
        SameUnlessLost host mode w.heap.bodies.size
          ⟨.run f (args ++ ds.flatten ++ d), [.settle []], w⟩ ⟨.run k d, [.settle []], v⟩)

/-- Two functions of one world that have the same name and arity, and the same outcome on all
further arguments, however these are supplied. -/
def Interchangeable (host : Host) (mode : Mode) (n : Nat) (w : World) (g₁ g₂ : Function) : Prop :=
  g₁.name = g₂.name ∧ g₁.arity = some n ∧ g₂.arity = some n ∧
    ∀ (ds : List (List Value)) (d : List Value), ds.flatten.length < n →
      ∃ k₁ v₁ k₂ v₂, Curries (shed host mode) mode g₁ w ds k₁ v₁ ∧
        Curries (shed host mode) mode g₂ v₁ ds k₂ v₂ ∧
        (n ≤ (ds.flatten ++ d).length →
          SameUnlessLost host mode v₂.heap.bodies.size ⟨.run k₁ d, [.settle []], v₂⟩
            ⟨.run k₂ d, [.settle []], v₂⟩)

theorem runs_enter_at_once (ho : Obeys next host w) (hf : f.arity = some n)
    (ha : n ≤ args.length) :
    Runs next mode 1 ⟨.run f args, S, w⟩ []
      ⟨.enter f (args.take n), leftOver f n args ++ S, w⟩ := by
  refine .silent rfl rfl ?_
  rw [next_run_of_le ho hf ha]
  exact .refl _

/-- Runs that go into a function with the same arguments in worlds that are alike have the same
outcome, whichever functions the arguments that are left over belong to. -/
theorem sameOutcome_of_runs {σ : Nat → Nat} {b j k : Nat} {s t : State} {g₁ g₂ : Function}
    (hh : host.Natural) (hl : World.Like σ w u) (hσ : ∀ i < b, σ i = i) (hf : f.rename σ = f)
    (ha : args.map (Value.rename σ) = args)
    (hs : Runs host mode j s [] ⟨.enter f (args.take n), leftOver g₁ n args ++ [.settle []], w⟩)
    (ht : Runs host mode k t [] ⟨.enter f (args.take n), leftOver g₂ n args ++ [.settle []], u⟩) :
    SameOutcome host mode b s t := by
  have hsettle : List.Forall₂ (Frame.Like σ) [.settle []] [.settle []] :=
    .cons (.same (.settle [])) .nil
  have hstack : List.Forall₂ (Frame.Like σ) (leftOver g₁ n args ++ [.settle []])
      (leftOver g₂ n args ++ [.settle []]) := by
    simp only [leftOver]
    split
    · have hd : (args.drop n).map (Value.rename σ) = args.drop n := by rw [List.map_drop, ha]
      have hk : Frame.Like σ (.surplus g₁ (args.drop n))
          (.surplus g₂ ((args.drop n).map (Value.rename σ))) := .surplus g₁ g₂ _
      rw [hd] at hk
      exact .cons hk hsettle
    · exact hsettle
  have entered : Mirrors host mode σ
      ⟨.enter f (args.take n), leftOver g₁ n args ++ [.settle []], w⟩
      ⟨.enter f (args.take n), leftOver g₂ n args ++ [.settle []], u⟩ := by
    refine mirrors_of_like hh ⟨?_, hstack, hl⟩
    simp only [Control.rename, hf, List.map_take, ha]
  exact ⟨σ, hσ, hl.heap.injective, entered.congr hs.sameRuns ht.sameRuns⟩

/-- The call that completes the arguments goes into the function with as many as it takes. -/
theorem supplyAll_enters (ho : Obeys next host w) (hf : f.arity = some n) {cs : List (List Value)}
    (hs : cs.flatten ++ c = args) (hc : cs.flatten.length < n) (hn : n ≤ args.length) :
    ∃ k, Runs next mode k ⟨.run (w.supplyAll f cs).1 c, [.settle []], (w.supplyAll f cs).2⟩ []
      ⟨.enter f (args.take n), leftOver (w.supplyAll f cs).1 n args ++ [.settle []],
        (w.supplyAll f cs).2⟩ := by
  subst hs
  exact runs_enter (ho.mono ((World.Extends.refl w).supplyAll f cs)) (w.supplyAll_collects hf cs) hf
    (w.supplyAll_arity hf) hc hn

/-- It has the outcome of the one call with all of them. -/
theorem supplyAll_completes (hh : host.Natural) (hw : w.Grounded) (hf : f.arity = some n)
    (hp : w.Holds (.function f)) {cs : List (List Value)} (hs : cs.flatten ++ c = args)
    (ha : ∀ v ∈ args, w.Holds v) (hc : cs.flatten.length < n) (hn : n ≤ args.length) :
    SameOutcome host mode w.heap.bodies.size ⟨.run f args, [.settle []], w⟩
      ⟨.run (w.supplyAll f cs).1 c, [.settle []], (w.supplyAll f cs).2⟩ := by
  obtain ⟨k, hk⟩ : ∃ k, Runs host mode k _ [] _ :=
    supplyAll_enters (obeys_move host w) hf hs hc hn
  obtain ⟨m, hl⟩ := ((World.Extends.refl w).supplyAll f cs).like hw
  have hσ : ∀ i < w.heap.bodies.size, shift w.heap.bodies.size m i = i := fun i => shift_of_lt m
  exact sameOutcome_of_runs hh hl hσ (Function.rename_of_grounded hσ hp)
    (Value.map_rename_of_grounded hσ ha) (runs_enter_at_once (obeys_move host w) hf hn) hk

/-- However the first arguments were supplied, the function that came of it goes on with the
rest. -/
theorem supplyAll_continues (hh : host.Natural) (hw : w.Grounded) (hq : w.heap.Quiet w.roots)
    (hf : f.arity = some n) (hp : w.Holds (.function f)) {cs : List (List Value)}
    (hs : cs.flatten = args) (ha : ∀ v ∈ args, w.Holds v) :
    Continues host mode f n w args (w.supplyAll f cs).1 (w.supplyAll f cs).2 := by
  subst hs
  intro ds d hd hl
  have hf' : (w.supplyAll f cs).1.arity = some (n - cs.flatten.length) := w.supplyAll_arity hf
  have ho : Obeys (shed host mode) host (w.supplyAll f cs).2 :=
    (obeys_shed hq).mono ((World.Extends.refl w).supplyAll f cs)
  rw [List.length_append] at hl
  refine ⟨_, _, World.supplyAll_curries ho hf' (by omega), fun hn => ?_⟩
  rw [← World.supplyAll_append]
  refine (supplyAll_completes hh hw hf hp (by simp) ?_ (by simpa using hl) hn).unlessLost
  intro v hv
  rw [List.append_assoc, List.mem_append] at hv
  exact hv.elim (ha v) (hd v)

/-- Functions that have collected the same arguments for one function are interchangeable. -/
theorem interchangeable_of_collects {g₁ g₂ : Function} (hh : host.Natural)
    (hq : w.heap.Quiet w.roots) (h₁ : w.heap.Collects f bound g₁)
    (h₂ : w.heap.Collects f bound g₂) (hf : f.arity = some n) (hb : bound.length < n) (hn : g₁.name = g₂.name) (hg₁ : g₁.arity = some (n - bound.length))
    (hg₂ : g₂.arity = some (n - bound.length)) :
    Interchangeable host mode (n - bound.length) w g₁ g₂ := by
  refine ⟨hn, hg₁, hg₂, fun ds d hd => ?_⟩
  have hw := (World.Extends.refl w).supplyAll g₁ ds
  have hv := (World.Extends.refl (w.supplyAll g₁ ds).2).supplyAll g₂ ds
  have ho : Obeys (shed host mode) host w := obeys_shed hq
  refine ⟨_, _, _, _, World.supplyAll_curries ho hg₁ hd,
    World.supplyAll_curries (ho.mono hw) hg₂ hd, ?_⟩
  intro hl
  have hl' : n ≤ ((bound ++ ds.flatten) ++ d).length := by
    simp only [List.length_append] at hl ⊢
    omega
  have hd' : (bound ++ ds.flatten).length < n := by
    rw [List.length_append]
    omega
  have entered : ∀ {v : World} {g k : Function}, v.heap.Collects f bound g →
      v.heap.Collects g ds.flatten k → k.arity = some (n - bound.length - ds.flatten.length) →
      ∃ j, Runs host mode j ⟨.run k d, [.settle []], v⟩ []
        ⟨.enter f ((bound ++ ds.flatten ++ d).take n),
          leftOver k n (bound ++ ds.flatten ++ d) ++ [.settle []], v⟩ := by
    intro v g k hg hk ha
    rw [Nat.sub_sub, ← List.length_append] at ha
    exact runs_enter (obeys_move host v) (hg.trans hk) hf ha hd' hl'
  obtain ⟨j, hj⟩ := entered ((h₁.mono hw).mono hv)
    ((w.supplyAll_collects hg₁ ds).mono hv) (w.supplyAll_arity hg₁)
  obtain ⟨k, hk⟩ := entered ((h₂.mono hw).mono hv)
    (World.supplyAll_collects _ hg₂ ds) (World.supplyAll_arity _ hg₂)
  exact (sameOutcome_of_runs hh (.refl _) (fun _ _ => rfl) rfl (by simp) hj hk).unlessLost

end Machine

theorem Machine.Curries.unbuffered {host : Host} {mode : Mode} {f g : Function} {w u : World}
    {cs : List (List Value)} (hh : host.Unbuffered)
    (h : Curries (shed host mode) mode f w cs g u) (hw : w.Unbuffered) : u.Unbuffered := by
  induction h with
  | nil => exact hw
  | @cons f g k w u v n c cs hf hc hs _ _ _ ih =>
    have hl : Lossless host mode ⟨.run f c, [.settle []], w⟩ := lossless_of_unbuffered hh hw mode
    exact ih ((hl.ends_iff.1 hs.ends).unbuffered hh hw)

open Machine in
/-- Supplying a function's arguments in parts, all but the last of them too few, gives functions of
the same name that wait for the rest, and goes into nothing. The part that completes the arguments
has the outcome of one call with all of them, and both go into the function with as many arguments
as it takes and run what is left over on the result. If there are too few arguments in all, one
call and many give functions of the same name and arity that have the same outcome on all further
arguments, whether each is looked at in a world of its own or both in one. All of this holds where
only streams that the globals refer to hold bytes back, of calls that lose no such bytes. -/
theorem currying_split_invariant {host : Host} (hh : host.Natural) (mode : Mode) {w : World}
    (hw : w.Grounded) (hq : w.heap.Quiet w.roots) {f : Function} {n : Nat} (hf : f.arity = some n)
    (hp : w.Holds (.function f)) {args : List Value}
    (ha : ∀ v ∈ args, w.Holds v) (cs : List (List Value)) (c : List Value)
    (hs : cs.flatten ++ c = args) (hc : cs.flatten.length < n) :
    ∃ g u, Curries (shed host mode) mode f w cs g u ∧
      (n ≤ args.length →
        SameUnlessLost host mode w.heap.bodies.size ⟨.run f args, [.settle []], w⟩
          ⟨.run g c, [.settle []], u⟩ ∧
        Invokes host mode f n args ⟨.run f args, [.settle []], w⟩ ∧
        Invokes host mode f n args ⟨.run g c, [.settle []], u⟩) ∧
      (args.length < n → ∃ g₁ w₁ g₂ w₂,
        Supplies (shed host mode) mode f w args g₁ w₁ ∧
        Supplies (shed host mode) mode g u c g₂ w₂ ∧
        g₁.name = f.name ∧ g₁.arity = some (n - args.length) ∧
        g₂.name = f.name ∧ g₂.arity = some (n - args.length) ∧
        Continues host mode f n w args g₁ w₁ ∧
        Continues host mode f n w args g₂ w₂ ∧
        ∃ g₃ w₃, Curries (shed host mode) mode f w₁ (cs ++ [c]) g₃ w₃ ∧
          Interchangeable host mode (n - args.length) w₃ g₁ g₃) := by
  have ho : Obeys (shed host mode) host w := obeys_shed hq
  refine ⟨_, _, World.supplyAll_curries ho hf hc, fun hn => ?_, fun hn => ?_⟩
  · obtain ⟨k, hk⟩ : ∃ k, Runs (shed host mode) mode k _ [] _ := supplyAll_enters ho hf hs hc hn
    exact ⟨(supplyAll_completes hh hw hf hp hs ha hc hn).unlessLost,
      invokes_of_runs (runs_enter_at_once ho hf hn), invokes_of_runs hk⟩
  · have hone : [args].flatten = args := by simp
    have hall : (cs ++ [c]).flatten = args := by simpa using hs
    have hl : cs.flatten.length + c.length = args.length := by rw [← hs, List.length_append]
    have hu := (World.Extends.refl w).supplyAll f cs
    have hw₁ := (World.Extends.refl w).supply f args
    have hlast : w.supplyAll f (cs ++ [c]) = (w.supplyAll f cs).2.supply (w.supplyAll f cs).1 c :=
      w.supplyAll_append f cs [c]
    have arity : ∀ (v : World) {ds : List (List Value)}, ds.flatten = args →
        (v.supplyAll f ds).1.arity = some (n - args.length) := by
      rintro v ds rfl
      exact v.supplyAll_arity hf
    have continues : ∀ {ds : List (List Value)}, ds.flatten = args →
        Continues host mode f n w args (w.supplyAll f ds).1 (w.supplyAll f ds).2 :=
      fun hd => supplyAll_continues hh hw hq hf hp hd ha
    have hg : Supplies (shed host mode) mode (w.supplyAll f cs).1 (w.supplyAll f cs).2 c
        (w.supplyAll f (cs ++ [c])).1 (w.supplyAll f (cs ++ [c])).2 := by
      rw [hlast]
      exact supplies_of_lt (ho.mono hu) (w.supplyAll_arity hf) (by omega)
    refine ⟨_, _, _, _, supplies_of_lt ho hf hn, hg, w.supply_name f args, arity w hone,
      w.supplyAll_name f _, arity w hall, continues hone, continues hall, ?_⟩
    refine ⟨_, _, World.supplyAll_curries (ho.mono hw₁) hf (by rwa [hall]), ?_⟩
    have hone' := w.supplyAll_collects hf [args]
    have hall' := (w.supply f args).2.supplyAll_collects hf (cs ++ [c])
    rw [hone] at hone'
    rw [hall] at hall'
    have hext := (World.Extends.refl (w.supply f args).2).supplyAll f (cs ++ [c])
    refine interchangeable_of_collects hh ((hw₁.trans hext).quiet hq) (hone'.mono hext) hall' hf hn
      ?_ (arity w hone) (arity _ hall)
    rw [World.supplyAll_name]
    exact w.supply_name f args

theorem Host.natural_echo : Host.Natural .echo where
  native hl op held args := by
    refine ⟨?_, hl⟩
    cases args <;> rfl
  async hl op held args := by
    simp only [Host.echo]
    split
    · refine ⟨?_, hl⟩
      cases args <;> rfl
    · exact ⟨rfl, hl⟩

theorem World.Unbuffered.registerAsync {w : World} (h : w.Unbuffered) (name : String)
    (arity : Option Nat) (op : String) : (w.registerAsync name arity op).Unbuffered :=
  ⟨h.heap.of_streams rfl, h.options⟩

/-- A function of the host that takes two arguments and suspends is given them one by one in a new
engine, in which nothing can be lost. -/
theorem currying_split_invariant_echo :
    Host.Natural .echo ∧
    ((World.create .empty {} 0 0).registerAsync "f" (some 2) "first").Grounded ∧
    ((World.create .empty {} 0 0).registerAsync "f" (some 2) "first").heap.Flushed ∧
    ((World.create .empty {} 0 0).registerAsync "f" (some 2) "first").Holds
      (.function ((World.create .empty {} 0 0).makeFunction "f" (some 2) (.async "first" [])).1) ∧
    ∃ g u,
      Machine.Curries (Machine.shed .echo .async) .async
        ((World.create .empty {} 0 0).makeFunction "f" (some 2) (.async "first" [])).1
        ((World.create .empty {} 0 0).registerAsync "f" (some 2) "first") [[.symbol "a"]] g u ∧
      Machine.SameOutcome (Machine.shed .echo .async) .async
        ((World.create .empty {} 0 0).registerAsync "f" (some 2) "first").heap.bodies.size
        ⟨.run ((World.create .empty {} 0 0).makeFunction "f" (some 2) (.async "first" [])).1
          [.symbol "a", .symbol "b"], [.settle []],
          (World.create .empty {} 0 0).registerAsync "f" (some 2) "first"⟩
        ⟨.run g [.symbol "b"], [.settle []], u⟩ := by
  have hw : (World.create .empty {} 0 0).Grounded := .create .empty {} 0 0
  have hw' := hw.registerAsync "f" (some 2) "first"
  have hu' := (World.Unbuffered.create_empty 0 0).registerAsync "f" (some 2) "first"
  have hf := (World.Grows.makeFunction hw "f" (some 2) (b := .async "first" [])
    (by simp [Body.parts])).2
  have ha : ∀ v ∈ [Value.symbol "a", .symbol "b"],
      ((World.create .empty {} 0 0).registerAsync "f" (some 2) "first").Holds v := by
    simp [Value.Grounded]
  obtain ⟨g, u, hc, ho, -⟩ := currying_split_invariant Host.natural_echo .async hw'
    (hu'.heap.flushed.quiet _) (n := 2) rfl hf ha [[.symbol "a"]] [.symbol "b"] rfl (by decide)
  refine ⟨Host.natural_echo, hw', hu'.heap.flushed, hf, g, u, hc, (ho (by decide)).1 ?_ ?_⟩
  · exact Machine.lossless_of_unbuffered Host.unbuffered_echo hu' .async
  · exact Machine.lossless_of_unbuffered Host.unbuffered_echo
      (hc.unbuffered Host.unbuffered_echo hu') .async

/-- `(defun f (S X) (value h))`, where `h` is a function of one argument that reads the file. -/
def World.handing : World :=
  { World.withheld [("h", .function ⟨2, "h", some 1⟩), ("r", .reader)] with
    heap.bodies := #[.primitive 0 .readByte, .closure 0 ["S", "X"] (.globalValue "h") [],
      .closure 0 ["Y"] (.call (.global "read-byte") [.globalValue "r"] .head) []] }

theorem World.grounded_handing : World.handing.Grounded where
  heap := by
    refine ⟨fun i v hv => ?_, fun id v hv => ?_⟩
    · rcases i with _ | _ | _ | i <;> simp [handing, Body.parts, Locals.values] at hv
    · simp [handing, withheld, Heap.empty, Heap.elements] at hv
  functions := by simp [handing, withheld]
  values := by simp [handing, withheld, Value.reader, Value.Grounded]

/-- The function that an outcome is, if it is one. -/
def Outcome.function? : Outcome Value → Option Function
  | .ok (.function f) => some f
  | _ => none

theorem Outcome.eq_of_function? {r : Outcome Value × World} {f : Function}
    (h : r.1.function? = some f) : r = (.ok (.function f), r.2) := by
  unfold function? at h
  split at h
  · rename_i g hg
    exact Prod.ext (by simp_all) rfl
  · cases h

/-- A partial application keeps its arguments while the surplus is run on the result, and one call
with all arguments does not. -/
theorem not_currying_split_invariant :
    ¬ ∀ (w : World) (f g : Function) (n fuel : Nat) (c c' : List Value) (u : World),
      w.Grounded → f.arity = some n → w.Holds (.function f) → (∀ v ∈ c ++ c', w.Holds v) →
      c.length < n → n ≤ (c ++ c').length →
      Machine.settle (Console.next .sync) .sync fuel (.run f c) w = (.ok (.function g), u) →
      Machine.SameOutcome (Console.next .sync) .sync w.heap.bodies.size
        ⟨.run f (c ++ c'), [.settle []], w⟩ ⟨.run g c', [.settle []], u⟩ := by
  intro h
  have once : (Machine.settle (Console.next .sync) .sync 40
      (.run ⟨1, "f", some 2⟩ [.writer, .empty, .empty]) .handing).1.atEnd? = some false := by
    decide +kernel
  let first := Machine.settle (Console.next .sync) .sync 40 (.run ⟨1, "f", some 2⟩ [.writer])
    .handing
  have curried : first.1.function? = some ⟨3, "f", some 1⟩ := by decide +kernel
  have parts : (Machine.settle (Console.next .sync) .sync 40
      (.run ⟨3, "f", some 1⟩ [.empty, .empty]) first.2).1.atEnd? = some true := by
    decide +kernel
  have hf : World.handing.Holds (.function ⟨1, "f", some 2⟩) := by
    simp [Value.Grounded, World.handing]
  have same := h .handing _ ⟨3, "f", some 1⟩ 2 40 [.writer] [.empty, .empty] first.2
    World.grounded_handing rfl hf (by simp [Value.writer, Value.Grounded]) (by decide) (by decide)
    (Outcome.eq_of_function? curried)
  cases same.atEnd?_eq once parts

end KLambda
