import KLambda.Console
import KLambda.Proofs.Frames
import KLambda.Proofs.HeadPosition
import KLambda.Proofs.Unbuffered

/-!
Deferring a call is never distinguishable from settling it on the spot. One run has calls in tail
position, which are handed down the stack until a frame performs them; the other has them in head
position, each under a frame of its own that settles it. The two stacks differ by such frames, which
let values and errors through.
-/
namespace KLambda

/-- A frame whose code is moved to head position. -/
def Frame.inHead : Frame → Frame
  | .branch yes no locals => .branch yes.inHead no.inHead locals
  | .cond consequent rest default locals =>
    .cond consequent.inHead (Code.clausesInHead rest) (Code.defaultInHead default) locals
  | .letIn name body locals => .letIn name body.inHead locals
  | .seq rest last locals => .seq rest last.inHead locals
  | .trap handler _ locals => .trap handler.inHead .head locals
  | .handle caught _ locals => .handle caught .head locals
  | .callee codes _ locals => .callee codes .head locals
  | .args f done rest _ locals => .args f done rest .head locals
  | frame => frame

/-- A frame that lets values and errors through. -/
def Frame.Transparent : Frame → Prop
  | .settle _ | .keep _ => True
  | _ => False

namespace Machine

/-- The second stack is the first one with calls settled in place: its frames may be moved to head
position, and there may be frames on it that settle or keep something. Both end in a frame that
settles. -/
inductive Settled : List Frame → List Frame → Prop
  | bottom (l l' : Locals) : Settled [.settle l] [.settle l']
  | same (frame : Frame) {S T : List Frame} (h : Settled S T) : Settled (frame :: S) (frame :: T)
  | head (frame : Frame) {S T : List Frame} (h : Settled S T) :
      Settled (frame :: S) (frame.inHead :: T)
  | settle (l : Locals) {S T : List Frame} (h : Settled S T) : Settled S (.settle l :: T)
  | keep (vs : List Value) {S T : List Frame} (h : Settled S T) : Settled S (.keep vs :: T)

/-- The same control over stacks that differ so, or code and the same code in head position. -/
inductive InPlace : State → State → Prop
  | same (c : Control) {S T : List Frame} (h : Settled S T) (w : World) :
      InPlace ⟨c, S, w⟩ ⟨c, T, w⟩
  | head (code : Code) (l : Locals) {S T : List Frame} (h : Settled S T) (w : World) :
      InPlace ⟨.eval code l, S, w⟩ ⟨.eval code.inHead l, T, w⟩

/-- The stack that a bounce is performed on: the frames that keep something are let go. -/
def unkept : List Frame → List Frame
  | .keep _ :: S => unkept S
  | S => S

variable {host : Host} {mode : Mode} {S T : List Frame} {w : World} {v : Value} {e : Error}
  {f : Function} {args : List Value}

namespace Settled

theorem append (pre : List Frame) (h : Settled S T) : Settled (pre ++ S) (pre ++ T) := by
  induction pre with
  | nil => exact h
  | cons frame pre ih => exact .same frame ih

theorem ne_nil_left (h : Settled S T) : S ≠ [] := by
  induction h with
  | settle _ _ ih | keep _ _ ih => exact ih
  | _ => simp

theorem ne_nil_right (h : Settled S T) : T ≠ [] := by
  cases h <;> simp

theorem unkept_left (h : Settled S T) : Settled (unkept S) T := by
  induction h with
  | bottom l l' => exact .bottom l l'
  | same frame h ih =>
    cases frame with
    | keep vs => exact .keep vs ih
    | _ => exact .same _ h
  | head frame h ih =>
    cases frame with
    | keep vs => exact .keep vs ih
    | _ => exact .head _ h
  | settle l h ih => exact .settle l ih
  | keep vs h ih => exact .keep vs ih

theorem unkept_both (h : Settled S T) : Settled (unkept S) (unkept T) := by
  induction h with
  | bottom l l' => exact .bottom l l'
  | same frame h ih =>
    cases frame with
    | keep vs => exact ih
    | _ => exact .same _ h
  | head frame h ih =>
    cases frame with
    | keep vs => exact ih
    | _ => exact .head _ h
  | settle l h => exact .settle l h.unkept_left
  | keep vs h ih => exact ih

/-- Above the frame that answers to the first one there are only frames that settle or keep. -/
theorem cases_top (h : Settled S T) :
    ∃ pre T', T = pre ++ T' ∧ (∀ frame ∈ pre, frame.Transparent) ∧
      ((∃ l l', S = [.settle l] ∧ T' = [.settle l']) ∨
        ∃ frame S' T'', S = frame :: S' ∧ (T' = frame :: T'' ∨ T' = frame.inHead :: T'') ∧
          Settled S' T'') := by
  induction h with
  | bottom l l' => exact ⟨[], _, rfl, by simp, Or.inl ⟨l, l', rfl, rfl⟩⟩
  | same frame h => exact ⟨[], _, rfl, by simp, Or.inr ⟨frame, _, _, rfl, Or.inl rfl, h⟩⟩
  | head frame h => exact ⟨[], _, rfl, by simp, Or.inr ⟨frame, _, _, rfl, Or.inr rfl, h⟩⟩
  | settle l h ih =>
    obtain ⟨pre, T', rfl, hp, ht⟩ := ih
    exact ⟨.settle l :: pre, T', rfl, by simpa [Frame.Transparent] using hp, ht⟩
  | keep vs h ih =>
    obtain ⟨pre, T', rfl, hp, ht⟩ := ih
    exact ⟨.keep vs :: pre, T', rfl, by simpa [Frame.Transparent] using hp, ht⟩

end Settled

theorem runs_give_transparent {pre : List Frame} (hp : ∀ frame ∈ pre, frame.Transparent) :
    Runs host mode pre.length ⟨.give (.done v), pre ++ T, w⟩ [] ⟨.give (.done v), T, w⟩ := by
  induction pre with
  | nil => exact .refl _
  | cons frame pre ih =>
    have ht := hp frame (by simp)
    have hr := ih fun g hg => hp g (by simp [hg])
    cases frame <;> simp only [Frame.Transparent] at ht
    all_goals exact .silent rfl rfl hr

theorem runs_raise_transparent {pre : List Frame} (hp : ∀ frame ∈ pre, frame.Transparent) :
    Runs host mode pre.length ⟨.raise e, pre ++ T, w⟩ [] ⟨.raise e, T, w⟩ := by
  induction pre with
  | nil => exact .refl _
  | cons frame pre ih =>
    have ht := hp frame (by simp)
    have hr := ih fun g hg => hp g (by simp [hg])
    cases frame <;> simp only [Frame.Transparent] at ht
    all_goals exact .silent rfl rfl hr

/-- A bounce is performed by the first frame that does more than keep something. -/
theorem runs_bounce (hS : unkept S ≠ []) :
    ∃ n, Runs host mode (n + 1) ⟨.give (.bounce f args), S, w⟩ [] ⟨.run f args, unkept S, w⟩ := by
  induction S with
  | nil => exact absurd rfl hS
  | cons frame S ih =>
    cases frame with
    | keep vs =>
      obtain ⟨n, hn⟩ := ih hS
      exact ⟨n + 1, .silent rfl rfl hn⟩
    | _ => exact ⟨0, .silent rfl rfl (.refl _)⟩

/-- The first run comes to correspond to the second after moves without effects. -/
def Soon (host : Host) (mode : Mode) (s t : State) : Prop :=
  ∃ n s', Runs host mode n s [] s' ∧ InPlace s' t

theorem InPlace.soon {s t : State} (h : InPlace s t) : Soon host mode s t := ⟨0, s, .refl s, h⟩

theorem soon_onto (h : Settled S T) (s : State) : Soon host mode (s.onto S) (s.onto T) :=
  InPlace.soon (.same s.control (h.append s.stack) s.world)

theorem soon_call (h : Settled S T) (position : CallPosition) (l : Locals) :
    Soon host mode (call S w f args position l) (call T w f args .head l) := by
  cases position with
  | head => exact InPlace.soon (.same _ (.same _ h) w)
  | tail =>
    obtain ⟨n, hn⟩ := runs_bounce h.unkept_left.ne_nil_left
    exact ⟨n + 1, _, hn, .same _ (.settle l h.unkept_left) w⟩

theorem soon_evalArgs (h : Settled S T) (done : List Value) (codes : List Code)
    (position : CallPosition) (l : Locals) :
    Soon host mode (evalArgs S w f done codes position l) (evalArgs T w f done codes .head l) := by
  cases codes with
  | nil => exact soon_call h position l
  | cons c codes => exact InPlace.soon (.same _ (.head _ h) w)

/-- Code that does not end in a call goes the same way on both stacks. -/
theorem soon_evalCode_same (h : Settled S T) (code : Code) (l : Locals) :
    Soon host mode (evalCode S w host code l) (evalCode T w host code l) := by
  rw [← List.nil_append S, ← List.nil_append T, evalCode_onto, evalCode_onto]
  exact soon_onto h _

theorem soon_evalCode (h : Settled S T) (code : Code) (l : Locals) :
    Soon host mode (evalCode S w host code l) (evalCode T w host code.inHead l) := by
  cases code with
  | branch test yes no => exact InPlace.soon (.same _ (.head (.branch yes no l) h) w)
  | cond clauses default =>
    rcases clauses with _ | ⟨⟨test, consequent⟩, rest⟩
    · cases default with
      | none => exact InPlace.soon (.same _ h w)
      | some consequent => exact InPlace.soon (.head consequent l h w)
    · exact InPlace.soon (.same _ (.head (.cond consequent rest default l) h) w)
  | letIn name value body => exact InPlace.soon (.same _ (.head (.letIn name body l) h) w)
  | seq effects last =>
    cases effects with
    | nil => exact InPlace.soon (.head last l h w)
    | cons c rest => exact InPlace.soon (.same _ (.head (.seq rest last l) h) w)
  | trap body handler position =>
    exact InPlace.soon (.same _ (.head (.trap handler position l) h) w)
  | call callee args position =>
    cases callee with
    | computed head => exact InPlace.soon (.same _ (.head (.callee args position l) h) w)
    | global name =>
      simp only [Code.inHead, evalCode]
      cases w.function? name with
      | error e => exact InPlace.soon (.same _ h w)
      | ok f => exact soon_evalArgs h [] args position l
    | «local» name =>
      simp only [Code.inHead, evalCode]
      cases (local? l name).bind w.callable with
      | error e => exact InPlace.soon (.same _ h w)
      | ok f => exact soon_evalArgs h [] args position l
  | _ => exact soon_evalCode_same h _ l

theorem soon_resumeFrame_same (h : Settled S T) (frame : Frame) (v : Value) :
    Soon host mode (resumeFrame S w host frame v) (resumeFrame T w host frame v) := by
  rw [← List.nil_append S, ← List.nil_append T, resumeFrame_onto, resumeFrame_onto]
  exact soon_onto h _

theorem soon_resumeFrame (h : Settled S T) (frame : Frame) (v : Value) :
    Soon host mode (resumeFrame S w host frame v) (resumeFrame T w host frame.inHead v) := by
  cases frame with
  | branch yes no l =>
    simp only [Frame.inHead, resumeFrame]
    rcases v.toBool with e | ⟨⟨⟩ | ⟨⟩⟩
    · exact InPlace.soon (.same _ h w)
    · exact InPlace.soon (.head no l h w)
    · exact InPlace.soon (.head yes l h w)
  | cond consequent rest default l =>
    simp only [Frame.inHead, resumeFrame]
    rcases v.toBool with e | ⟨⟨⟩ | ⟨⟩⟩
    · exact InPlace.soon (.same _ h w)
    · exact InPlace.soon (.head (.cond rest default) l h w)
    · exact InPlace.soon (.head consequent l h w)
  | letIn name body l => exact InPlace.soon (.head body ((name, v) :: l) h w)
  | seq rest last l => exact InPlace.soon (.head (.seq rest last) l h w)
  | trap handler position l => exact InPlace.soon (.same _ h w)
  | handle caught position l =>
    simp only [Frame.inHead, resumeFrame]
    cases w.callable v with
    | error e => exact InPlace.soon (.same _ h w)
    | ok f => exact soon_call h position l
  | callee codes position l =>
    simp only [Frame.inHead, resumeFrame]
    cases w.callable v with
    | error e => exact InPlace.soon (.same _ h w)
    | ok f => exact soon_evalArgs h [] codes position l
  | args f done rest position l => exact soon_evalArgs h (v :: done) rest position l
  | _ => exact soon_resumeFrame_same h _ v

theorem soon_unwind_same (h : Settled S T) (e : Error) (frame : Frame) :
    Soon host mode (unwind S w e frame) (unwind T w e frame) := by
  rw [← List.nil_append S, ← List.nil_append T, unwind_onto, unwind_onto]
  exact soon_onto h _

theorem soon_unwind (h : Settled S T) (e : Error) (frame : Frame) :
    Soon host mode (unwind S w e frame) (unwind T w e frame.inHead) := by
  cases frame with
  | trap handler position l =>
    cases handler with
    | bind param body => exact InPlace.soon (.head body _ h _)
    | apply function => exact InPlace.soon (.same _ (.head (.handle _ position l) h) _)
  | _ => exact soon_unwind_same h e _

/-- What both runs have to offer from here: the same end, or the same effects and states that
correspond again. -/
def KeepPace (host : Host) (mode : Mode) (s t : State) : Prop :=
  (∃ es r, Ends host mode s es r ∧ Ends host mode t es r) ∨
    ∃ m n es s' t', Runs host mode (m + 1) s es s' ∧ Runs host mode (n + 1) t es t' ∧ InPlace s' t'

theorem keepPace_of_move {s t : State} (hs : result? mode s = none) (ht : result? mode t = none)
    (he : effect? s = effect? t) (h : Soon host mode (move host s) (move host t)) :
    KeepPace host mode s t := by
  obtain ⟨n, s', hr, hi⟩ := h
  refine Or.inr ⟨n, 0, (effect? s).toList, s', move host t, ?_, ?_, hi⟩
  · simpa using Runs.move hs hr
  · rw [he]
    exact Runs.one ht

/-- Moves of the second run alone change nothing. -/
theorem KeepPace.of_runs {s t u : State} {k : Nat} (hr : Runs host mode k t [] u)
    (h : KeepPace host mode s u) : KeepPace host mode s t := by
  rcases h with ⟨es, r, hs, ht⟩ | ⟨m, n, es, s', t', hs, ht, hi⟩
  · exact Or.inl ⟨es, r, hs, hr.ends ht⟩
  · exact Or.inr ⟨m, k + n, es, s', t', hs, hr.trans ht, hi⟩

theorem keepPace_control {c : Control} (h : Settled S T) (hc : result? mode ⟨c, [], w⟩ = none) :
    KeepPace host mode ⟨c, S, w⟩ ⟨c, T, w⟩ := by
  have ha := result?_async_of_none hc
  apply keepPace_of_move (result?_onto S hc) (result?_onto T hc)
  · exact (effect?_onto S ha).trans (effect?_onto T ha).symm
  · rw [move_onto S ha, move_onto T ha]
    exact soon_onto h _

theorem keepPace_give (h : Settled S T) :
    KeepPace host mode ⟨.give (.done v), S, w⟩ ⟨.give (.done v), T, w⟩ := by
  obtain ⟨pre, T', rfl, hp, ht⟩ := h.cases_top
  apply KeepPace.of_runs (runs_give_transparent hp)
  rcases ht with ⟨l, l', rfl, rfl⟩ | ⟨frame, S', T'', rfl, rfl | rfl, h'⟩
  · refine Or.inl ⟨[], (.ok (.done v), w), ⟨1, _, .silent rfl rfl (.refl _), rfl, rfl⟩, ?_⟩
    exact ⟨1, _, .silent rfl rfl (.refl _), rfl, rfl⟩
  · exact keepPace_of_move rfl rfl rfl (soon_resumeFrame_same h' frame v)
  · apply keepPace_of_move rfl rfl _ (soon_resumeFrame h' frame v)
    cases frame <;> rfl

theorem keepPace_raise (h : Settled S T) :
    KeepPace host mode ⟨.raise e, S, w⟩ ⟨.raise e, T, w⟩ := by
  obtain ⟨pre, T', rfl, hp, ht⟩ := h.cases_top
  apply KeepPace.of_runs (runs_raise_transparent hp)
  rcases ht with ⟨l, l', rfl, rfl⟩ | ⟨frame, S', T'', rfl, rfl | rfl, h'⟩
  · refine Or.inl ⟨[], (.error e, w), ⟨1, _, .silent rfl rfl (.refl _), rfl, rfl⟩, ?_⟩
    exact ⟨1, _, .silent rfl rfl (.refl _), rfl, rfl⟩
  · exact keepPace_of_move rfl rfl rfl (soon_unwind_same h' e frame)
  · exact keepPace_of_move rfl rfl rfl (soon_unwind h' e frame)

theorem keepPace_bounce (h : Settled S T) :
    KeepPace host mode ⟨.give (.bounce f args), S, w⟩ ⟨.give (.bounce f args), T, w⟩ := by
  obtain ⟨m, hm⟩ := runs_bounce h.unkept_both.ne_nil_left
  obtain ⟨n, hn⟩ := runs_bounce h.unkept_both.ne_nil_right
  exact Or.inr ⟨m, n, [], _, _, hm, hn, .same _ h.unkept_both w⟩

/-- A suspension ends both runs or neither. -/
theorem keepPace_wait (h : Settled S T) (op : String) (held : List Value) :
    KeepPace host mode ⟨.wait op held args, S, w⟩ ⟨.wait op held args, T, w⟩ := by
  cases mode with
  | async => exact keepPace_control h rfl
  | sync =>
    have hw : ∀ stack, Ends host .sync ⟨.wait op held args, stack, w⟩ []
        (.error (.unsupported .suspension), w) := by
      intro stack
      exact ⟨0, _, .refl _, by cases stack <;> rfl, rfl⟩
    exact Or.inl ⟨[], _, hw S, hw T⟩

theorem InPlace.keepPace {s t : State} (h : InPlace s t) : KeepPace host mode s t := by
  cases h with
  | same c h w =>
    cases c with
    | eval | run | enter => exact keepPace_control h rfl
    | give step =>
      cases step with
      | done v => exact keepPace_give h
      | bounce f args => exact keepPace_bounce h
    | raise e => exact keepPace_raise h
    | wait op held args => exact keepPace_wait h op held
  | head code l h w =>
    apply keepPace_of_move rfl rfl _ (soon_evalCode h code l)
    cases code <;> rfl

/-- Settling calls in place, as a correspondence. -/
def inPlace (host : Host) (mode : Mode) : Correspondence host mode where
  states := InPlace
  effects := Eq
  results := Eq
  progress h := by
    rcases h.keepPace with ⟨es, r, hs, ht⟩ | ⟨m, n, es, s', t', hs, ht, hi⟩
    · exact Or.inl ⟨es, es, r, r, hs, ht, List.forall₂_refl es, rfl⟩
    · exact Or.inr ⟨m, n, es, es, s', t', hs, ht, List.forall₂_refl es, hi⟩

/-- Deferring calls has the same runs as settling them in place. -/
theorem sameRuns_inHead (code : Code) (l : Locals) (h : Settled S T) (w : World) :
    SameRuns host mode ⟨.eval code l, S, w⟩ ⟨.eval code.inHead l, T, w⟩ :=
  (inPlace host mode).sameRuns (fun _ _ h => h) (fun _ _ h => h) (.head code l h w)

end Machine

open Machine in
/-- A form that is compiled in tail position and the same form compiled in head position fail to
compile with the same error, or their codes, driven from the same world with the same locals, come
to the same end in the same world, if one of them does, and have the same effects in the same
order, as long as neither loses bytes that a stream holds back. -/
theorem settle_tail_iff_settle_head (host : Host) (mode : Mode) (defined : String → Bool)
    (s : Scope) (form : Value) (hs : s.statement = false) :
    (∀ e, compile defined s form = .error e ↔ compile defined s.inHead form = .error e) ∧
    ∀ tail head, compile defined s form = .ok tail → compile defined s.inHead form = .ok head →
      ∀ (locals : Locals) (w : World),
        Lossless host mode ⟨.eval tail locals, [.settle []], w⟩ →
        Lossless host mode ⟨.eval head locals, [.settle []], w⟩ →
        (∀ r : Outcome Value × World, r.1 ≠ .exhausted →
          ((∃ fuel, settle (shed host mode) mode fuel (.eval tail locals) w = r) ↔
            ∃ fuel, settle (shed host mode) mode fuel (.eval head locals) w = r)) ∧
        (∀ es r, Ends (shed host mode) mode ⟨.eval tail locals, [.settle []], w⟩ es r ↔
          Ends (shed host mode) mode ⟨.eval head locals, [.settle []], w⟩ es r) ∧
        ∀ es, Emits (shed host mode) mode ⟨.eval tail locals, [.settle []], w⟩ es ↔
          Emits (shed host mode) mode ⟨.eval head locals, [.settle []], w⟩ es := by
  have hc := compile_inHead defined s form hs
  constructor
  · intro e
    rw [hc]
    cases compile defined s form <;> simp [Except.map]
  · intro tail head ht hh locals w htail hhead
    obtain rfl : tail.inHead = head := by
      rw [hc, ht] at hh
      exact Except.ok.inj hh
    have hkeep : SameRuns host mode ⟨.eval tail locals, [.settle []], w⟩
        ⟨.eval tail.inHead locals, [.settle []], w⟩ :=
      sameRuns_inHead tail locals (.bottom [] []) w
    have hr := hkeep.shed htail hhead
    exact ⟨fun r hx => hr.settle hx, hr.1, hr.2⟩

/-- Two functions, the first of which ends in a call of the second. -/
def World.calling : World where
  heap := { Heap.empty with
    bodies := #[.closure 0 [] (.call (.global "g") [] .tail) [],
      .closure 0 [] (.const (.symbol "a")) []] }
  functions := ⟨[("f", ⟨0, "f", some 0⟩), ("g", ⟨1, "g", some 0⟩)]⟩
  values := .empty
  interop := .empty
  options := {}
  runtime := 0
  reports := #[]
  started := 0
  now := 0

/-- In tail position `(f)` hands its call down and in head position it makes it, and the body of `f`
hands down another one. -/
theorem settle_tail_iff_settle_head_call :
    compile (fun _ => false) .toplevel (.cons 0 (.symbol "f") .empty) =
      .ok (.call (.global "f") [] .tail) ∧
    compile (fun _ => false) Scope.toplevel.inHead (.cons 0 (.symbol "f") .empty) =
      .ok (.call (.global "f") [] .head) ∧
    (Machine.settle (Machine.shed .echo .async) .async 20
      (.eval (.call (.global "f") [] .tail) []) .calling).1 = .ok (.symbol "a") ∧
    ∃ fuel, Machine.settle (Machine.shed .echo .async) .async fuel
        (.eval (.call (.global "f") [] .head) []) .calling =
      Machine.settle (Machine.shed .echo .async) .async 20
        (.eval (.call (.global "f") [] .tail) []) .calling := by
  have ht : compile (fun _ => false) .toplevel (.cons 0 (.symbol "f") .empty) =
      .ok (.call (.global "f") [] .tail) := by cbv
  have hh : compile (fun _ => false) Scope.toplevel.inHead (.cons 0 (.symbol "f") .empty) =
      .ok (.call (.global "f") [] .head) := by cbv
  have hv : (Machine.settle (Machine.shed .echo .async) .async 20
      (.eval (.call (.global "f") [] .tail) []) .calling).1 = .ok (.symbol "a") := by rfl
  have hw : World.calling.Unbuffered := by
    refine ⟨fun s hs => ?_, by simp [World.calling]⟩
    simp [World.calling, Heap.empty] at hs
  have lossless : ∀ c, Machine.Lossless .echo .async ⟨.eval c [], [.settle []], .calling⟩ :=
    fun c => Machine.lossless_of_unbuffered Host.unbuffered_echo hw .async
  have h := settle_tail_iff_settle_head .echo .async (fun _ => false) .toplevel
    (.cons 0 (.symbol "f") .empty) rfl
  have hr := (h.2 _ _ ht hh [] .calling (lossless _) (lossless _)).1 _ (by rw [hv]; simp)
  exact ⟨ht, hh, hv, hr.1 ⟨20, rfl⟩⟩

/-- A call that is handed down lets go of the locals before it is made, so a byte that one of them
held back can be read from its file. -/
theorem not_settle_tail_iff_settle_head :
    ¬ ∀ (defined : String → Bool) (s : Scope) (form : Value) (tail head : Code) (locals : Locals)
      (w : World) (r : Outcome Value × World), s.statement = false →
      compile defined s form = .ok tail → compile defined s.inHead form = .ok head →
      s.locals ⊆ locals.names → r.1 ≠ .exhausted →
      ((∃ fuel, Machine.settle (Console.next .async) .async fuel (.eval tail locals) w = r) ↔
        ∃ fuel, Machine.settle (Console.next .async) .async fuel (.eval head locals) w = r) := by
  intro h
  have ht : compile (fun _ => false) ⟨["S", "X"], .tail, false, none⟩
      (.cons 0 (.symbol "read-byte") (.cons 1 (.symbol "S") .empty)) =
      .ok (.call (.global "read-byte") [.local "S"] .tail) := by cbv
  have hh : compile (fun _ => false) (Scope.inHead ⟨["S", "X"], .tail, false, none⟩)
      (.cons 0 (.symbol "read-byte") (.cons 1 (.symbol "S") .empty)) =
      .ok (.call (.global "read-byte") [.local "S"] .head) := by cbv
  have tail : (Machine.settle (Console.next .async) .async 20
      (.eval (.call (.global "read-byte") [.local "S"] .tail) [("S", .reader), ("X", .writer)])
      (.withheld [])).1.atEnd? = some false := by decide +kernel
  have head : (Machine.settle (Console.next .async) .async 20
      (.eval (.call (.global "read-byte") [.local "S"] .head) [("S", .reader), ("X", .writer)])
      (.withheld [])).1.atEnd? = some true := by decide +kernel
  obtain ⟨fuel, hf⟩ := (h _ _ _ _ _ [("S", .reader), ("X", .writer)] _ _ rfl ht hh
    (List.Subset.refl _) (Outcome.ne_exhausted_of_atEnd? tail)).1 ⟨20, rfl⟩
  rw [← hf] at tail
  cases Machine.atEnd?_unique tail head

end KLambda
