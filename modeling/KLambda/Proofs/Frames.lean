import KLambda.Proofs.Run

/-!
Frames below. What a move does depends on the control, the world and the topmost frame alone, so it
is the same whatever frames lie below.
-/
namespace KLambda

/-- The same state with more frames at the bottom of its stack. -/
def State.onto (s : State) (rest : List Frame) : State :=
  ⟨s.control, s.stack ++ rest, s.world⟩

@[simp]
theorem State.onto_mk (c : Control) (stack : List Frame) (w : World) (rest : List Frame) :
    State.onto ⟨c, stack, w⟩ rest = ⟨c, stack ++ rest, w⟩ := rfl

namespace Machine

variable (host : Host) (stack rest : List Frame) (w : World)

@[simp]
theorem giveValue_onto (v : Value) :
    giveValue (stack ++ rest) w v = (giveValue stack w v).onto rest := rfl

@[simp]
theorem ofResult_onto (r : Except Error Value) :
    ofResult (stack ++ rest) w r = (ofResult stack w r).onto rest := by
  cases r <;> rfl

theorem call_onto (f : Function) (args : List Value) (position : CallPosition) (locals : Locals) :
    call (stack ++ rest) w f args position locals =
      (call stack w f args position locals).onto rest := by
  cases position <;> rfl

theorem evalArgs_onto (f : Function) (done : List Value) (codes : List Code)
    (position : CallPosition) (locals : Locals) :
    evalArgs (stack ++ rest) w f done codes position locals =
      (evalArgs stack w f done codes position locals).onto rest := by
  cases codes with
  | nil => exact call_onto stack rest w f done.reverse position locals
  | cons => rfl

theorem evalInterop_onto (op : String) (done : List Value) (codes : List Code) (locals : Locals) :
    evalInterop (stack ++ rest) w host op done codes locals =
      (evalInterop stack w host op done codes locals).onto rest := by
  cases codes with
  | nil => exact ofResult_onto stack rest _ _
  | cons => rfl

theorem evalForm_onto (form : Value) :
    evalForm (stack ++ rest) w form = (evalForm stack w form).onto rest := by
  unfold evalForm
  split <;> rfl

theorem evalCode_onto (code : Code) (locals : Locals) :
    evalCode (stack ++ rest) w host code locals =
      (evalCode stack w host code locals).onto rest := by
  fun_cases evalCode stack w host code locals <;>
    simp_all [evalCode, evalArgs_onto, evalInterop_onto]

theorem runFunction_onto (f : Function) (args : List Value) :
    runFunction (stack ++ rest) w f args = (runFunction stack w f args).onto rest := by
  unfold runFunction
  repeat' split
  all_goals rfl

theorem poll_onto (op : String) (held args : List Value) :
    poll (stack ++ rest) w host op held args = (poll stack w host op held args).onto rest := by
  unfold poll
  split
  · exact ofResult_onto stack rest _ _
  · rfl

theorem enterFunction_onto (f : Function) (args : List Value) :
    enterFunction (stack ++ rest) w host f args =
      (enterFunction stack w host f args).onto rest := by
  unfold enterFunction
  split
  · split
    · exact ofResult_onto stack rest _ _
    · rfl
  · split
    · exact evalForm_onto (_ :: _ :: stack) rest w _
    · rfl
  · split <;> rfl
  · rfl
  · exact ofResult_onto stack rest _ _
  · exact poll_onto host stack rest w _ _ args
  · rfl

theorem resumeFrame_onto (frame : Frame) (v : Value) :
    resumeFrame (stack ++ rest) w host frame v =
      (resumeFrame stack w host frame v).onto rest := by
  fun_cases resumeFrame stack w host frame v <;>
    simp_all [resumeFrame, call_onto, evalArgs_onto, evalInterop_onto]
  exact evalForm_onto (_ :: stack) rest _ _

theorem unwind_onto (e : Error) (frame : Frame) :
    unwind (stack ++ rest) w e frame = (unwind stack w e frame).onto rest := by
  cases frame with
  | trap handler => cases handler <;> rfl
  | _ => rfl

variable {host} {mode : Mode} {s : State}

/-- A state that has not come to its end does not look below its stack. -/
theorem move_onto (hs : result? .async s = none) :
    move host (s.onto rest) = (move host s).onto rest := by
  obtain ⟨control, stack, w⟩ := s
  cases control with
  | eval code locals => exact evalCode_onto host stack rest w code locals
  | run f args => exact runFunction_onto stack rest w f args
  | enter f args => exact enterFunction_onto host stack rest w f args
  | wait op held args => exact poll_onto host stack rest w op held args
  | raise e =>
    cases stack with
    | nil => simp [result?] at hs
    | cons frame stack => exact unwind_onto stack rest w e frame
  | give step =>
    cases stack with
    | nil => simp [result?] at hs
    | cons frame stack =>
      cases step with
      | done v => exact resumeFrame_onto host stack rest w frame v
      | bounce f args => cases frame <;> rfl

theorem effect?_onto (hs : result? .async s = none) : effect? (s.onto rest) = effect? s := by
  obtain ⟨control, stack, w⟩ := s
  cases stack with
  | nil => cases control <;> first | rfl | simp [result?] at hs
  | cons frame stack => cases control <;> rfl

theorem result?_async_of_none (hs : result? mode s = none) : result? .async s = none := by
  unfold result? at hs ⊢
  split at hs <;> simp_all

theorem result?_onto (hs : result? mode s = none) : result? mode (s.onto rest) = none := by
  obtain ⟨control, stack, w⟩ := s
  cases stack <;> cases control <;> cases mode <;> simp_all [result?]

/-- Whether a state is at its end depends on the lowest frames only through their being there. -/
theorem result?_onto_cons (s : State) (a b : Frame) (R R' : List Frame) :
    result? mode (s.onto (a :: R)) = result? mode (s.onto (b :: R')) := by
  obtain ⟨c, S, w⟩ := s
  cases S <;> cases c <;> cases mode <;> rfl

end Machine
end KLambda
