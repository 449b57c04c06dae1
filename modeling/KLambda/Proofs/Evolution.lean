import KLambda.Engine
import KLambda.Proofs.Raised
import KLambda.Proofs.Run

/-!
What becomes of a world. A move changes it in one of a few ways, which its effect tells apart. So
whatever the machine does, the options, the runtime and the functions for interop stay as they are,
and a global value that is set stays set, though it may be changed.
-/
namespace KLambda

/-- A world that may follow another. -/
structure World.Evolves (w w' : World) : Prop where
  options : w'.options = w.options
  runtime : w'.runtime = w.runtime
  interop : w'.interop = w.interop
  values (name : String) : w.values.contains name = true → w'.values.contains name = true

/-- A world that may follow another without a definition. -/
structure World.Retains (w w' : World) : Prop extends w.Evolves w' where
  functions : w'.functions = w.functions

/-- A world that differs in streams, files, marks and reports only. -/
inductive World.Touches (w : World) : World → Prop
  | intro (heap : Heap) (reports : Array Report) (hb : heap.bodies = w.heap.bodies)
      (hv : heap.vectors = w.heap.vectors) : Touches w { w with heap, reports }

variable {w w' : World}

namespace World

namespace Touches

theorem refl (w : World) : w.Touches w := .intro w.heap w.reports rfl rfl

theorem openForReading (w : World) (path : String) : w.Touches (w.openForReading path).2 := by
  fun_cases World.openForReading w path <;> exact .intro _ _ rfl rfl

theorem openForWriting (w : World) (path : String) : w.Touches (w.openForWriting path).2 := by
  unfold World.openForWriting
  split
  · exact .intro _ _ rfl rfl
  · exact .intro _ _ rfl rfl
  · split <;> exact .intro _ _ rfl rfl

theorem report (w : World) (r : Report) : w.Touches (w.report r) := .intro w.heap _ rfl rfl

end Touches

/-- A new engine has what a world without any globals has, as long as that is kept when the
functions of the language are defined, when texts and streams are assigned, and when only streams
change. -/
theorem create_induction {C : World → Prop} {heap : Heap} {options : Options} {runtime : Nat}
    {now : Float} (bare : C ⟨heap, .empty, .empty, .empty, options, runtime, #[], now, now⟩)
    (primitive : ∀ w p, C w → C (definePrimitive w p))
    (evaluator : ∀ w, C w → C (defineEvaluator w))
    (assign : ∀ w name v, v.kind ∈ [Kind.string, .stream] → C w → C (setValue w name v))
    (touch : ∀ w w', w.Touches w' → C w → C w') : C (create heap options runtime now) := by
  have fold : ∀ {α : Type} (step : World → α → World), (∀ w a, C w → C (step w a)) →
      ∀ (as : List α) w, C w → C (as.foldl step w) := by
    intro α step hstep as
    induction as with
    | nil => exact fun w hw => hw
    | cons a as ih => exact fun w hw => ih _ (hstep w a hw)
  have stream : ∀ w entry, C w → C (setStandardStream w entry) := by
    rintro w ⟨_ | s, name, capability⟩ hw
    · exact assign _ _ _ (by simp [Value.kind]) (touch w _ (.intro _ _ rfl rfl) hw)
    · exact assign _ _ _ (by simp [Value.kind]) hw
  have hw := evaluator _ (fold definePrimitive primitive Primitive.all _ bare)
  have hw := assign _ "*language*" (.str "Rust") (by simp [Value.kind]) hw
  have text : ∀ w entry, C w → C (setText w entry) :=
    fun w entry => assign w entry.1 (.str entry.2) (by simp [Value.kind])
  have hw := fold setText text options.texts _ hw
  have hw := fold setStandardStream stream options.streams _ hw
  exact touch _ _ (.report _ _) hw

theorem Evolves.refl (w : World) : w.Evolves w := ⟨rfl, rfl, rfl, fun _ => id⟩

theorem Evolves.trans {u : World} (h : w.Evolves w') (h' : w'.Evolves u) : w.Evolves u :=
  ⟨h'.options.trans h.options, h'.runtime.trans h.runtime, h'.interop.trans h.interop,
    fun name hn => h'.values name (h.values name hn)⟩

namespace Retains

/-- The heap and the reports have no part in it. -/
theorem withHeap (w : World) (heap : Heap) (reports : Array Report) :
    w.Retains { w with heap, reports } :=
  ⟨⟨rfl, rfl, rfl, fun _ => id⟩, rfl⟩

theorem refl (w : World) : w.Retains w := withHeap w w.heap w.reports

theorem of_touches (h : w.Touches w') : w.Retains w' := by
  cases h with
  | intro heap reports => exact withHeap w heap reports

theorem setValue (w : World) (name : String) (v : Value) : w.Retains (w.setValue name v) := by
  refine ⟨⟨rfl, rfl, rfl, fun n hn => ?_⟩, rfl⟩
  simp only [World.setValue, Table.contains, Table.get?_insert]
  split
  · rfl
  · exact hn

end Retains

end World

namespace Primitive

theorem openFile_touches (w : World) (path mode : Value) : w.Touches (openFile w path mode).2 := by
  unfold openFile
  split
  · exact .refl w
  · split
    · exact .openForReading w _
    · split
      · exact .openForWriting w _
      · exact .refl w

theorem closeFile_touches (w : World) (stream : Value) : w.Touches (closeFile w stream).2 := by
  unfold closeFile
  split
  · exact .refl w
  · rename_i s _
    have hs : w.Touches { w with heap := (w.heap.closeStream s).2 } := .intro _ _ rfl rfl
    split <;> rename_i he <;> rwa [he] at hs

theorem readFrom_touches (w : World) (stream : Value) : w.Touches (readFrom w stream).2 := by
  unfold readFrom
  split
  · exact .refl w
  · rename_i s _
    have hs : w.Touches { w with heap := (w.heap.readByte s).2 } := .intro _ _ rfl rfl
    split <;> rename_i he <;> rwa [he] at hs

theorem writeTo_touches (w : World) (byte stream : Value) :
    w.Touches (writeTo w byte stream).2 := by
  unfold writeTo
  split
  · exact .refl w
  · rename_i b s _
    have hs : w.Touches { w with heap := (w.heap.writeByte s b).2 } := .intro _ _ rfl rfl
    split <;> rename_i he <;> rwa [he] at hs

theorem call_retains (p : Primitive) (args : List Value) (w : World) :
    w.Retains (p.call args w).2 := by
  fun_cases Primitive.call p args w
  case case1 path mode => exact .of_touches (openFile_touches w path mode)
  case case2 s => exact .of_touches (closeFile_touches w s)
  case case3 s => exact .of_touches (readFrom_touches w s)
  case case4 b s => exact .of_touches (writeTo_touches w b s)
  case case5 => exact .withHeap w _ _
  case case6 n =>
    unfold makeVector
    split
    · exact .refl w
    · exact .withHeap w _ _
  case case7 v i x =>
    unfold storeElement
    split
    · exact .refl w
    · exact .withHeap w _ _
  case case8 => exact .refl w
  case case9 name v s _ => exact .setValue w s v
  case case10 => exact .refl w
  case case11 => exact .refl w
  case case12 =>
    unfold computed
    split <;> exact .refl w

end Primitive

/-- What a move can make of a world, by the effect that it has. -/
inductive World.Becomes (host : Host) (w : World) : Option Effect → World → Prop
  | stay : Becomes host w none w
  | closure (name : String) (params : List String) (code : Code) (l : Locals) :
      Becomes host w none (Machine.closure w name params code l).2
  | partialApply (f : Function) (bound : List Value) :
      Becomes host w none (w.partialApply f bound).2
  | caught (message : String) :
      Becomes host w none { w with heap := (w.heap.error message).2 }
  | read (form : Form) :
      Becomes host w none
        ({ w with heap := (form.build w.heap).2 }.compileForm (form.build w.heap).1).2
  | evaluate (form : Value) : Becomes host w (some (.evaluate form)) (w.compileForm form).2
  | primitive (p : Primitive) (args : List Value) :
      Becomes host w (some (.primitive p args)) (p.call args w).2
  | native (op : String) (held args : List Value) :
      Becomes host w (some (.host op held args))
        { w with heap := (host.native op held args w.heap).2 }
  | async (op : String) (held args : List Value) :
      Becomes host w (some (.host op held args))
        { w with heap := (host.async op held args w.heap).2 }
  | define (name : String) (params : List String) (code : Code) :
      Becomes host w (some (.define name params))
        ((Machine.closure w name params code []).2.define name
          (Machine.closure w name params code []).1)
  | assign (name : String) (v : Value) :
      Becomes host w (some (.assign name v)) (w.setValue name v)

namespace Machine

variable {host : Host} {mode : Mode} {S : List Frame} {l : Locals} {s t : State} {n : Nat}
  {es : List Effect}

theorem ofResult_world (r : Except Error Value) : (ofResult S w r).world = w := by
  cases r <;> rfl

theorem call_world (f : Function) (args : List Value) (position : CallPosition) :
    (call S w f args position l).world = w := by
  cases position <;> rfl

theorem evalArgs_world (f : Function) (done : List Value) (codes : List Code)
    (position : CallPosition) : (evalArgs S w f done codes position l).world = w := by
  cases codes with
  | nil => exact call_world f done.reverse position
  | cons => rfl

theorem evalForm_world (form : Value) : (evalForm S w form).world = (w.compileForm form).2 := by
  unfold evalForm
  split <;> rename_i he <;> rw [he]

theorem poll_becomes (op : String) (held args : List Value) :
    w.Becomes host (some (.host op held args)) (poll S w host op held args).world := by
  have ha := @World.Becomes.async host w op held args
  unfold poll
  split <;> rename_i he <;> rw [he] at ha
  · rw [ofResult_world]
    exact ha
  · exact ha

theorem native_becomes (op : String) (held args : List Value) :
    w.Becomes host (some (.host op held args))
      (ofResult S { w with heap := (host.native op held args w.heap).2 }
        (host.native op held args w.heap).1).world := by
  rw [ofResult_world]
  exact .native op held args

theorem evalCode_becomes (code : Code) :
    w.Becomes host (codeEffect? w code) (evalCode S w host code l).world := by
  cases code with
  | const k => exact .stay
  | «local» name | globalValue name =>
    simp only [evalCode, ofResult_world]
    exact .stay
  | all codes | any codes => cases codes <;> exact .stay
  | seq effects last => cases effects <;> exact .stay
  | cond clauses default =>
    cases clauses with
    | nil => cases default <;> exact .stay
    | cons => exact .stay
  | lambda name param body => exact .closure name [param] body l
  | freeze name body => exact .closure name [] body l
  | defun name params body => exact .define name params body
  | call callee args position =>
    cases callee with
    | computed head => exact .stay
    | global name | «local» name =>
      simp only [evalCode]
      split
      · exact .stay
      · rw [evalArgs_world]
        exact .stay
  | interop name args =>
    cases args with
    | nil =>
      simp only [evalCode, codeEffect?, World.interop?]
      cases w.interop.get? name with
      | none => exact .stay
      | some op => exact native_becomes op [] []
    | cons c cs =>
      simp only [evalCode, codeEffect?]
      split <;> exact .stay
  | _ => exact .stay

theorem runFunction_becomes (f : Function) (args : List Value) :
    w.Becomes host none (runFunction S w f args).world := by
  unfold runFunction
  split
  · exact .stay
  · split
    · exact .stay
    · split
      · exact .partialApply f args
      · split <;> exact .stay

theorem enterFunction_becomes (f : Function) (args : List Value) :
    w.Becomes host (entryEffect? w f args) (enterFunction S w host f args).world := by
  unfold enterFunction entryEffect?
  cases w.heap.body f with
  | primitive r op =>
    dsimp only
    split
    · rw [ofResult_world]
      exact .primitive op args
    · exact .stay
  | evaluator r =>
    dsimp only
    split
    · rw [evalForm_world]
      exact .evaluate _
    · exact .stay
  | closure r params code captured =>
    dsimp only
    split <;> exact .stay
  | native op held => exact native_becomes op held args
  | async op held => exact poll_becomes op held args
  | partialOf | missing => exact .stay

theorem resumeFrame_becomes (frame : Frame) (v : Value) :
    w.Becomes host (frameEffect? v frame) (resumeFrame S w host frame v).world := by
  cases frame with
  | all | any | branch | cond =>
    simp only [resumeFrame]
    split <;> exact .stay
  | handle caught position l =>
    simp only [resumeFrame]
    split
    · exact .stay
    · rw [call_world]
      exact .stay
  | callee args position l =>
    simp only [resumeFrame]
    split
    · exact .stay
    · rw [evalArgs_world]
      exact .stay
  | args f done rest position l =>
    simp only [resumeFrame, evalArgs_world]
    exact .stay
  | interop op done rest l =>
    cases rest with
    | nil => exact native_becomes op [] (v :: done).reverse
    | cons => exact .stay
  | setGlobal name l => exact .assign name v
  | surplus f args => cases v <;> exact .stay
  | forms last rest =>
    cases rest with
    | nil => exact .stay
    | cons form rest =>
      simp only [resumeFrame, evalForm_world]
      exact .read form
  | _ => exact .stay

/-- The effect of a move tells what becomes of the world, up to what it makes in the heap. -/
theorem move_becomes (host : Host) (s : State) :
    s.world.Becomes host (effect? s) (move host s).world := by
  obtain ⟨control, stack, w⟩ := s
  cases control with
  | eval code l => exact evalCode_becomes code
  | run f args => exact runFunction_becomes f args
  | enter f args => exact enterFunction_becomes f args
  | wait op held args => exact poll_becomes op held args
  | raise e =>
    cases stack with
    | nil => exact .stay
    | cons frame stack =>
      cases frame with
      | trap handler => cases handler <;> exact .caught e.message
      | _ => exact .stay
  | give step =>
    cases stack with
    | nil => cases step <;> exact .stay
    | cons frame stack =>
      cases step with
      | done v => exact resumeFrame_becomes frame v
      | bounce f args => cases frame <;> exact .stay

end Machine

namespace World.Becomes

variable {host : Host} {e : Option Effect}

/-- Functions are defined by nothing but definitions. -/
theorem retains (h : w.Becomes host e w') (he : ∀ name params, e ≠ some (.define name params)) :
    w.Retains w' := by
  cases h with
  | primitive p args => exact Primitive.call_retains p args w
  | assign name v => exact .setValue w name v
  | define name params => exact absurd rfl (he name params)
  | _ => exact .withHeap w _ _

theorem evolves (h : w.Becomes host e w') : w.Evolves w' := by
  by_cases he : ∃ name params, e = some (.define name params)
  · obtain ⟨name, params, rfl⟩ := he
    cases h
    exact ⟨rfl, rfl, rfl, fun _ => id⟩
  · exact (h.retains fun name params hd => he ⟨name, params, hd⟩).toEvolves

end World.Becomes

namespace Machine

variable {host : Host} {mode : Mode} {s t : State} {n : Nat} {es : List Effect}

theorem move_evolves (host : Host) (s : State) : s.world.Evolves (move host s).world :=
  (move_becomes host s).evolves

theorem Runs.evolves (h : Runs host mode n s es t) : s.world.Evolves t.world := by
  induction h with
  | refl s => exact .refl s.world
  | move _ _ ih => exact (move_evolves host _).trans ih

theorem drive_evolves (host : Host) (mode : Mode) (fuel : Nat) (s : State) :
    s.world.Evolves (drive host mode fuel s).2 := by
  obtain ⟨n, es, t, hr, hw, -⟩ := exists_runs_drive host mode fuel s
  rw [hw]
  exact hr.evolves

theorem valueOf_snd (r : Outcome Step × World) : (valueOf r).2 = r.2 := by
  unfold valueOf
  split <;> rfl

end Machine

theorem World.Evolves.admits (h : w.Evolves w') (mode : Mode) : w'.admits mode = w.admits mode := by
  simp only [World.admits, h.options]

end KLambda
