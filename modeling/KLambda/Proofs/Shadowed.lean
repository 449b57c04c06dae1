import KLambda.Proofs.Correspondence
import KLambda.Proofs.Frames

/-!
Shadowed bindings. A lookup finds the innermost binding of a name, and a closure captures only
what it could look up, so a state with the hidden bindings taken out of its locals runs as it did
before. A move looks at no more than the topmost frame, so it is enough to consider what the control
and this frame lead to over an empty stack.
-/
namespace KLambda

namespace Locals

theorem filter_visible (x : String) (l : Locals) :
    visible (l.filter (·.1 != x)) = l.visible.filter (·.1 != x) := by
  induction l with
  | nil => rfl
  | cons e l ih =>
    obtain ⟨y, v⟩ := e
    by_cases hy : y = x
    · subst hy
      simp [visible, ih]
    · simp [visible, hy, ih, List.filter_filter, Bool.and_comm]

/-- What is visible stays visible. -/
@[simp]
theorem visible_visible (l : Locals) : l.visible.visible = l.visible := by
  induction l with
  | nil => rfl
  | cons e l ih =>
    obtain ⟨x, v⟩ := e
    simp [visible, filter_visible, ih, List.filter_filter]

@[simp]
theorem visible_cons_visible (x : String) (v : Value) (l : Locals) :
    visible ((x, v) :: l.visible) = visible ((x, v) :: l) := by
  simp [visible]

end Locals

/-- The frame with the hidden bindings taken out of its locals. -/
def Frame.visible : Frame → Frame
  | .settle l => .settle l.visible
  | .all rest l => .all rest l.visible
  | .any rest l => .any rest l.visible
  | .branch yes no l => .branch yes no l.visible
  | .cond consequent rest default l => .cond consequent rest default l.visible
  | .letIn name body l => .letIn name body l.visible
  | .seq rest last l => .seq rest last l.visible
  | .trap handler position l => .trap handler position l.visible
  | .handle caught position l => .handle caught position l.visible
  | .setGlobal name l => .setGlobal name l.visible
  | .callee codes position l => .callee codes position l.visible
  | .args f done rest position l => .args f done rest position l.visible
  | .interop op done rest l => .interop op done rest l.visible
  | frame => frame

def Control.visible : Control → Control
  | .eval code l => .eval code l.visible
  | c => c

/-- The state with the hidden bindings taken out. -/
def State.visible (s : State) : State :=
  ⟨s.control.visible, s.stack.map Frame.visible, s.world⟩

@[simp]
theorem State.visible_mk (c : Control) (S : List Frame) (w : World) :
    State.visible ⟨c, S, w⟩ = ⟨c.visible, S.map Frame.visible, w⟩ := rfl

@[simp]
theorem Frame.visible_visible (frame : Frame) : frame.visible.visible = frame.visible := by
  cases frame <;> simp [visible]

@[simp]
theorem Control.visible_visible (c : Control) : c.visible.visible = c.visible := by
  cases c <;> simp [visible]

theorem State.visible_visible (s : State) : s.visible.visible = s.visible := by
  simp [visible, Function.comp_def]

theorem State.visible_onto_visible {s t : State} (h : s.visible = t.visible) (S : List Frame) :
    (s.onto (S.map Frame.visible)).visible = (t.onto S).visible := by
  simp_all [visible, onto]

namespace Machine

variable (host : Host) (w : World)

theorem local?_visible (l : Locals) (name : String) : local? l.visible name = local? l name := by
  simp [local?, Locals.find_visible]

theorem closure_visible (name : String) (params : List String) (code : Code) (l : Locals) :
    closure w name params code l.visible = closure w name params code l := by
  simp [closure]

theorem call_visible (f : Function) (vs : List Value) (position : CallPosition) (l : Locals) :
    (call [] w f vs position l.visible).visible = (call [] w f vs position l).visible := by
  cases position <;> simp [call, Frame.visible]

theorem evalArgs_visible (f : Function) (done : List Value) (codes : List Code)
    (position : CallPosition) (l : Locals) :
    (evalArgs [] w f done codes position l.visible).visible =
      (evalArgs [] w f done codes position l).visible := by
  cases codes with
  | nil => exact call_visible w f done.reverse position l
  | cons => simp [evalArgs, Control.visible, Frame.visible]

theorem evalInterop_visible (op : String) (done : List Value) (codes : List Code) (l : Locals) :
    (evalInterop [] w host op done codes l.visible).visible =
      (evalInterop [] w host op done codes l).visible := by
  cases codes with
  | nil => rfl
  | cons => simp [evalInterop, Control.visible, Frame.visible]

theorem evalCode_visible (code : Code) (l : Locals) :
    (evalCode [] w host code l.visible).visible = (evalCode [] w host code l).visible := by
  cases code with
  | all codes | any codes => cases codes <;> simp [evalCode, Control.visible, Frame.visible]
  | seq effects last => cases effects <;> simp [evalCode, Control.visible, Frame.visible]
  | cond clauses default =>
    cases clauses with
    | nil => cases default <;> simp [evalCode, Control.visible]
    | cons => simp [evalCode, Control.visible, Frame.visible]
  | «local» name => simp only [evalCode, local?_visible]
  | lambda | freeze => simp only [evalCode, closure_visible]
  | call callee args position =>
    cases callee with
    | global name =>
      simp only [evalCode]
      split
      · rfl
      · exact evalArgs_visible w _ [] args position l
    | «local» name =>
      simp only [evalCode, local?_visible]
      split
      · rfl
      · exact evalArgs_visible w _ [] args position l
    | computed head => simp [evalCode, Control.visible, Frame.visible]
  | interop name args =>
    simp only [evalCode]
    split
    · rfl
    · exact evalInterop_visible host w _ [] args l
  | _ => simp [evalCode, Control.visible, Frame.visible]

theorem resumeFrame_visible (frame : Frame) (v : Value) :
    (resumeFrame [] w host frame.visible v).visible = (resumeFrame [] w host frame v).visible := by
  cases frame with
  | all | any | branch | cond =>
    simp only [Frame.visible, resumeFrame]
    split <;> simp [Control.visible]
  | letIn | seq => simp [Frame.visible, resumeFrame, Control.visible]
  | handle caught position l =>
    simp only [Frame.visible, resumeFrame]
    split
    · rfl
    · exact call_visible w _ [caught] position l
  | callee args position l =>
    simp only [Frame.visible, resumeFrame]
    split
    · rfl
    · exact evalArgs_visible w _ [] args position l
  | args f done rest position l => exact evalArgs_visible w f (v :: done) rest position l
  | interop op done rest l => exact evalInterop_visible host w op (v :: done) rest l
  | _ => rfl

theorem unwind_visible (e : Error) (frame : Frame) :
    (unwind [] w e frame.visible).visible = (unwind [] w e frame).visible := by
  cases frame with
  | trap handler position l =>
    cases handler <;> simp [Frame.visible, unwind, Control.visible]
  | _ => rfl

variable {host} {mode : Mode} {s t : State}

theorem result?_visible (s : State) : result? mode s.visible = result? mode s := by
  obtain ⟨c, S, w⟩ := s
  cases c <;> cases S <;> cases mode <;> rfl

theorem effect?_visible (s : State) : effect? s.visible = effect? s := by
  obtain ⟨c, S, w⟩ := s
  cases c with
  | give step =>
    cases step with
    | bounce => rfl
    | done v =>
      cases S with
      | nil => rfl
      | cons frame S =>
        cases frame with
        | interop op done rest l => cases rest <;> rfl
        | _ => rfl
  | _ => rfl

/-- Hidden bindings do not matter to a move. -/
theorem move_visible (s : State) : (move host s.visible).visible = (move host s).visible := by
  obtain ⟨c, S, w⟩ := s
  have above {s t : State} {T : List Frame} {u : State}
      (hu : u = t.onto T) (hs : move host (State.visible ⟨c, S, w⟩) = s.onto (T.map Frame.visible))
      (h : s.visible = t.visible) : (move host (State.visible ⟨c, S, w⟩)).visible = u.visible := by
    rw [hu, hs, State.visible_onto_visible h]
  cases c with
  | eval code l =>
    exact above (evalCode_onto host [] S w code l) (evalCode_onto host [] _ w code l.visible)
      (evalCode_visible host w code l)
  | run f args =>
    exact above (runFunction_onto [] S w f args) (runFunction_onto [] _ w f args) rfl
  | enter f args =>
    exact above (enterFunction_onto host [] S w f args) (enterFunction_onto host [] _ w f args) rfl
  | wait op held args =>
    exact above (poll_onto host [] S w op held args) (poll_onto host [] _ w op held args) rfl
  | raise e =>
    cases S with
    | nil => rfl
    | cons frame S =>
      exact above (unwind_onto [] S w e frame) (unwind_onto [] _ w e frame.visible)
        (unwind_visible w e frame)
  | give step =>
    cases S with
    | nil => rfl
    | cons frame S =>
      cases step with
      | done v =>
        exact above (resumeFrame_onto host [] S w frame v)
          (resumeFrame_onto host [] _ w frame.visible v) (resumeFrame_visible host w frame v)
      | bounce f args =>
        have hm : move host (State.visible ⟨.give (.bounce f args), frame :: S, w⟩) =
            (move host ⟨.give (.bounce f args), frame :: S, w⟩).visible := by
          cases frame <;> rfl
        rw [hm, State.visible_visible]

/-- Being the same but for hidden bindings, as a correspondence. -/
def sameVisible (host : Host) (mode : Mode) : Correspondence host mode where
  states s t := s.visible = t.visible
  effects := Eq
  results := Eq
  progress {s t} h := by
    have hr : result? mode s = result? mode t := by rw [← result?_visible, h, result?_visible]
    have he : effect? s = effect? t := by rw [← effect?_visible, h, effect?_visible]
    have hw : s.visible.world = t.visible.world := congrArg State.world h
    cases hs : result? mode s with
    | some o =>
      exact Or.inl ⟨[], [], (o, s.world), (o, t.world), ⟨0, s, .refl s, hs, rfl⟩,
        ⟨0, t, .refl t, hr ▸ hs, rfl⟩, .nil, congrArg (Prod.mk o) hw⟩
    | none =>
      refine Or.inr ⟨0, 0, _, _, _, _, Runs.one hs, Runs.one (hr ▸ hs), ?_, ?_⟩
      · rw [he, List.forall₂_eq_eq_eq]
      · rw [← move_visible, h, move_visible]

theorem sameRuns_of_visible (h : s.visible = t.visible) : SameRuns host mode s t :=
  (sameVisible host mode).sameRuns (fun _ _ he => he) (fun _ _ hr => hr) h

end Machine
end KLambda
