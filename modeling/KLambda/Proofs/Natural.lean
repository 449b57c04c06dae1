import KLambda.Proofs.Alike
import KLambda.Proofs.Lossless

/-!
Nothing that is evaluated depends on the places of functions. From states that are alike up to these
places every move leads to states that are alike again, with the same effects, and so whole runs end
in the same way.
-/
namespace KLambda

variable {σ : Nat → Nat}

namespace Primitive

theorem finite_rename (p : Primitive) (x : Float) :
    p.finite x = (p.finite x).map (Value.rename σ) := by
  unfold finite
  split <;> rfl

/-- What comes after a view is renamed if all of its results are. -/
theorem bind_rename {α : Type} {x : Except Error α} {k k' : α → Except Error Value}
    (h : ∀ a, k' a = (k a).map (Value.rename σ)) : x.bind k' = (x.bind k).map (Value.rename σ) := by
  cases x with
  | error e => rfl
  | ok a => exact h a

theorem arithmetic_rename (p : Primitive) (f : Float → Float → Float) (x y : Value) :
    p.arithmetic f (x.rename σ) (y.rename σ) = (p.arithmetic f x y).map (Value.rename σ) := by
  simp only [arithmetic, numbers, Value.toNumber_rename]
  exact bind_rename fun _ => finite_rename p _

theorem quotient_rename (x y : Value) :
    quotient (x.rename σ) (y.rename σ) = (quotient x y).map (Value.rename σ) := by
  simp only [quotient, numbers, Value.toNumber_rename]
  refine bind_rename fun _ => ?_
  split
  · rfl
  · exact finite_rename .div _

theorem comparison_rename (f : Float → Float → Bool) (x y : Value) :
    comparison f (x.rename σ) (y.rename σ) = (comparison f x y).map (Value.rename σ) := by
  simp only [comparison, numbers, Value.toNumber_rename]
  exact bind_rename fun _ => rfl

@[simp]
theorem nonEmpty_rename (v : Value) : nonEmpty (v.rename σ) = nonEmpty v := by
  simp [nonEmpty]

theorem characterOf_rename (v : Value) :
    characterOf (v.rename σ) = (characterOf v).map (Value.rename σ) := by
  simp only [characterOf, Value.toSize_rename, Value.mismatch_rename]
  refine bind_rename fun n => ?_
  split <;> rfl

theorem characterAt_rename (s i : Value) :
    characterAt (s.rename σ) (i.rename σ) = (characterAt s i).map (Value.rename σ) := by
  simp only [characterAt, Value.toStr_rename, Value.toIndex_rename]
  refine bind_rename fun text => bind_rename fun index => ?_
  cases text.toList[index]? <;> rfl

section

variable {h h' : Heap} (hl : Heap.Like σ h h')

include hl

theorem vectorGet_rename (v i : Value) :
    compute h' .vectorGet [v.rename σ, i.rename σ] =
      (compute h .vectorGet [v, i]).map (Except.map (Value.rename σ)) := by
  simp only [compute, Value.toVector_rename, Value.toIndex_rename, Option.map_some]
  refine congrArg some (bind_rename fun p => bind_rename fun index => ?_)
  simp only [hl.elements, Array.getElem?_map]
  cases (h.elements p.1)[index]? <;> rfl

theorem compute_rename (p : Primitive) (args : List Value) :
    compute h' p (args.map (Value.rename σ)) =
      (compute h p args).map (Except.map (Value.rename σ)) := by
  rcases args with _ | ⟨a, _ | ⟨b, _ | ⟨c, _ | ⟨d, rest⟩⟩⟩⟩ <;> cases p <;> try rfl
  case cons.nil.hd | cons.nil.tl =>
    cases a <;> rfl
  case cons.nil.isNumber | cons.nil.isString | cons.nil.isSymbol | cons.nil.isVector |
      cons.nil.isCons =>
    simp [compute, Except.map]
  case cons.nil.str => simp [compute, Except.map]
  case cons.nil.nToString => exact congrArg some (characterOf_rename a)
  case cons.nil.tlstr | cons.nil.stringToN | cons.nil.intern | cons.nil.simpleError |
      cons.nil.errorToString =>
    simp only [compute, List.map_cons, List.map_nil, nonEmpty_rename, Value.toStr_rename,
      Value.toErrorMessage_rename, Option.map_some]
    exact congrArg some (bind_rename fun _ => rfl)
  case cons.cons.nil.and | cons.cons.nil.or =>
    simp only [compute, List.map_cons, List.map_nil, Value.toBool_rename, Option.map_some]
    refine congrArg some (bind_rename fun x => ?_)
    cases x <;> first | rfl | exact bind_rename fun _ => rfl
  case cons.cons.nil.cn =>
    simp only [compute, List.map_cons, List.map_nil, Value.toStr_rename, Option.map_some]
    exact congrArg some (bind_rename fun _ => bind_rename fun _ => rfl)
  case cons.cons.nil.equal => simp [compute, Except.map, hl.equate]
  case cons.cons.nil.pos => exact congrArg some (characterAt_rename a b)
  case cons.cons.nil.vectorGet => exact vectorGet_rename hl a b
  case cons.cons.nil.add | cons.cons.nil.sub | cons.cons.nil.mul =>
    exact congrArg some (arithmetic_rename _ _ a b)
  case cons.cons.nil.div => exact congrArg some (quotient_rename a b)
  case cons.cons.nil.gt | cons.cons.nil.lt | cons.cons.nil.ge | cons.cons.nil.le =>
    exact congrArg some (comparison_rename _ a b)
  case cons.cons.cons.nil.choose =>
    simp only [compute, List.map_cons, List.map_nil, Value.toBool_rename, Option.map_some]
    refine congrArg some (bind_rename fun x => ?_)
    cases x <;> rfl
  -- `hd` and `tl` look at their first argument before they count the others
  all_goals cases a <;> rfl

end
end Primitive

namespace Primitive

variable {w w' : World} (hl : World.Like σ w w')

include hl

theorem error_answers (e : Error) : Answers σ (.error e, w) (.error e, w') := ⟨rfl, hl⟩

theorem time_rename (mode : Value) :
    time w' (mode.rename σ) = (time w mode).map (Value.rename σ) := by
  simp only [time, Value.toSymbol_rename, Value.mismatch_rename, hl.options, hl.now, hl.started]
  refine bind_rename fun s => ?_
  split
  · rfl
  · split <;> rfl

theorem openFile_answers (path mode : Value) :
    Answers σ (openFile w path mode) (openFile w' (path.rename σ) (mode.rename σ)) := by
  simp only [openFile, Value.toStr_rename, Value.toSymbol_rename, Value.mismatch_rename]
  split
  · exact error_answers hl _
  · rename_i path direction _
    have opened : ∀ {r r' : Except Error StreamHandle × World}, r'.1 = r.1 → World.Like σ r.2 r'.2 →
        Answers σ (r.1.map .stream, r.2) (r'.1.map .stream, r'.2) := by
      intro r r' hr hw
      refine ⟨?_, hw⟩
      rw [hr]
      cases r.1 <;> rfl
    split
    · exact opened (hl.openForReading path).1 (hl.openForReading path).2
    · split
      · exact opened (hl.openForWriting path).1 (hl.openForWriting path).2
      · exact ⟨rfl, hl⟩

theorem writeTo_answers (byte stream : Value) :
    Answers σ (writeTo w byte stream) (writeTo w' (byte.rename σ) (stream.rename σ)) := by
  simp only [writeTo, byteOf, Value.toSize_rename, Value.toStream_rename, Value.mismatch_rename]
  split
  · exact error_answers hl _
  · rename_i b s _
    obtain ⟨hr, hh⟩ := hl.heap.writeByte s b
    rcases he : w.heap.writeByte s b with ⟨r, h⟩
    rcases he' : w'.heap.writeByte s b with ⟨_, h'⟩
    rw [he, he'] at hr hh
    obtain rfl : r = _ := hr.symm
    rcases r with e | _ <;> exact ⟨rfl, hl.withHeap hh⟩

theorem readFrom_answers (stream : Value) :
    Answers σ (readFrom w stream) (readFrom w' (stream.rename σ)) := by
  simp only [readFrom, Value.toStream_rename]
  split
  · exact error_answers hl _
  · rename_i s _
    obtain ⟨hr, hh⟩ := hl.heap.readByte s
    rcases he : w.heap.readByte s with ⟨r, h⟩
    rcases he' : w'.heap.readByte s with ⟨_, h'⟩
    rw [he, he'] at hr hh
    obtain rfl : r = _ := hr.symm
    rcases r with e | _ | b <;> exact ⟨rfl, hl.withHeap hh⟩

theorem closeFile_answers (stream : Value) :
    Answers σ (closeFile w stream) (closeFile w' (stream.rename σ)) := by
  simp only [closeFile, Value.toStream_rename]
  split
  · exact error_answers hl _
  · rename_i s _
    obtain ⟨hr, hh⟩ := hl.heap.closeStream s
    rcases he : w.heap.closeStream s with ⟨r, h⟩
    rcases he' : w'.heap.closeStream s with ⟨_, h'⟩
    rw [he, he'] at hr hh
    obtain rfl : r = _ := hr.symm
    rcases r with e | _ <;> exact ⟨rfl, hl.withHeap hh⟩

theorem makeVector_answers (size : Value) :
    Answers σ (makeVector w size) (makeVector w' (size.rename σ)) := by
  simp only [makeVector, Value.toSize_rename]
  split
  · exact error_answers hl _
  · rename_i n _
    obtain ⟨hv, hh⟩ := hl.heap.vector (Array.replicate n .empty)
    rw [Array.map_replicate, Value.rename_empty] at hv hh
    exact ⟨congrArg Except.ok hv, hl.withHeap hh⟩

theorem storeElement_answers (vector index x : Value) :
    Answers σ (storeElement w vector index x)
      (storeElement w' (vector.rename σ) (index.rename σ) (x.rename σ)) := by
  simp only [storeElement, Value.toVector_rename, Value.toIndex_rename]
  split
  · exact error_answers hl _
  · rename_i id i _
    exact ⟨rfl, hl.withHeap (hl.heap.setElement id i x)⟩

theorem computed_answers (p : Primitive) (args : List Value) :
    Answers σ (p.computed args w) (p.computed (args.map (Value.rename σ)) w') := by
  unfold computed
  rw [compute_rename hl.heap, List.length_map]
  cases compute w.heap p args with
  | none => exact error_answers hl _
  | some r => exact ⟨rfl, hl⟩

/-- A primitive that is called with renamed arguments gives the renamed answer. -/
theorem call_answers (p : Primitive) (args : List Value) :
    Answers σ (p.call args w) (p.call (args.map (Value.rename σ)) w') := by
  have computed := computed_answers hl p args
  rcases args with _ | ⟨a, _ | ⟨b, _ | ⟨c, _ | ⟨d, rest⟩⟩⟩⟩
  · cases p <;> exact computed
  · cases p with
    | close => exact closeFile_answers hl a
    | readByte => exact readFrom_answers hl a
    | vector => exact makeVector_answers hl a
    | value =>
      refine ⟨?_, hl⟩
      simp only [call, List.map_cons, List.map_nil, Value.toSymbol_rename]
      exact bind_rename hl.value?
    | getTime => exact ⟨time_rename hl a, hl⟩
    | _ => exact computed
  · cases p with
    | openStream => exact openFile_answers hl a b
    | writeByte => exact writeTo_answers hl a b
    | cons =>
      obtain ⟨hv, hh⟩ := hl.heap.cons a b
      exact ⟨congrArg Except.ok hv, hl.withHeap hh⟩
    | set =>
      simp only [call, List.map_cons, List.map_nil, Value.toSymbol_rename]
      split
      · exact error_answers hl _
      · exact ⟨rfl, hl.setValue _ b⟩
    | _ => exact computed
  · cases p with
    | vectorSet => exact storeElement_answers hl a b c
    | _ => exact computed
  · cases p <;> exact computed

end Primitive

mutual

/-- The cells of a form are made alike. -/
theorem Heap.Like.build {h h' : Heap} (hl : Heap.Like σ h h') (form : Form) :
    (form.build h').1 = (form.build h).1.rename σ ∧
      Heap.Like σ (form.build h).2 (form.build h').2 := by
  cases form with
  | number | str | symbol => exact ⟨rfl, hl⟩
  | list items => exact hl.buildList items

theorem Heap.Like.buildList {h h' : Heap} (hl : Heap.Like σ h h') (forms : List Form) :
    (Form.buildList forms h').1 = (Form.buildList forms h).1.rename σ ∧
      Heap.Like σ (Form.buildList forms h).2 (Form.buildList forms h').2 := by
  cases forms with
  | nil => exact ⟨rfl, hl⟩
  | cons form forms =>
    obtain ⟨hv, hh⟩ := hl.build form
    obtain ⟨hvs, hhs⟩ := hh.buildList forms
    simp only [Form.buildList, hv, hvs]
    exact hhs.cons _ _

end

def Step.rename (σ : Nat → Nat) : Step → Step
  | .done v => .done (v.rename σ)
  | .bounce f args => .bounce (f.rename σ) (args.map (Value.rename σ))

def Reply.rename (σ : Nat → Nat) : Reply → Reply
  | .ready r => .ready (r.map (Value.rename σ))
  | .later op held => .later op (held.map (Value.rename σ))

def Frame.rename (σ : Nat → Nat) : Frame → Frame
  | .settle l => .settle (l.rename σ)
  | .all rest l => .all rest (l.rename σ)
  | .any rest l => .any rest (l.rename σ)
  | .branch yes no l => .branch yes no (l.rename σ)
  | .cond consequent rest default l => .cond consequent rest default (l.rename σ)
  | .letIn name body l => .letIn name body (l.rename σ)
  | .seq rest last l => .seq rest last (l.rename σ)
  | .trap handler position l => .trap handler position (l.rename σ)
  | .handle caught position l => .handle (caught.rename σ) position (l.rename σ)
  | .setGlobal name l => .setGlobal name (l.rename σ)
  | .callee codes position l => .callee codes position (l.rename σ)
  | .args f done rest position l =>
    .args (f.rename σ) (done.map (Value.rename σ)) rest position (l.rename σ)
  | .interop op done rest l => .interop op (done.map (Value.rename σ)) rest (l.rename σ)
  | .surplus f rest => .surplus (f.rename σ) (rest.map (Value.rename σ))
  | .keep values => .keep (values.map (Value.rename σ))
  | .forms last rest => .forms (last.rename σ) rest

def Control.rename (σ : Nat → Nat) : Control → Control
  | .eval code l => .eval code (l.rename σ)
  | .run f args => .run (f.rename σ) (args.map (Value.rename σ))
  | .enter f args => .enter (f.rename σ) (args.map (Value.rename σ))
  | .give step => .give (step.rename σ)
  | .raise e => .raise e
  | .wait op held args => .wait op (held.map (Value.rename σ)) (args.map (Value.rename σ))

def Effect.rename (σ : Nat → Nat) : Effect → Effect
  | .primitive op args => .primitive op (args.map (Value.rename σ))
  | .evaluate form => .evaluate (form.rename σ)
  | .host op held args => .host op (held.map (Value.rename σ)) (args.map (Value.rename σ))
  | .define name params => .define name params
  | .assign name v => .assign name (v.rename σ)

/-- A renamed frame. What a frame only keeps alive does not matter: the values of a frame that
keeps, and the function whose surplus arguments wait. -/
inductive Frame.Like (σ : Nat → Nat) : Frame → Frame → Prop
  | same (frame : Frame) : Frame.Like σ frame (frame.rename σ)
  | surplus (f g : Function) (args : List Value) :
      Frame.Like σ (.surplus f args) (.surplus g (args.map (Value.rename σ)))
  | keep (vs vs' : List Value) : Frame.Like σ (.keep vs) (.keep vs')

/-- The same state up to the places of functions. -/
structure State.Like (σ : Nat → Nat) (s s' : State) : Prop where
  control : s'.control = s.control.rename σ
  stack : List.Forall₂ (Frame.Like σ) s.stack s'.stack
  world : World.Like σ s.world s'.world

/-- A host that cannot see the places of functions: in heaps that are alike it gives renamed answers
to renamed arguments, and leaves heaps that are alike. -/
structure Host.Natural (host : Host) : Prop where
  native {σ : Nat → Nat} {h h' : Heap} (hl : Heap.Like σ h h') (op : String)
    (held args : List Value) :
    (host.native op (held.map (Value.rename σ)) (args.map (Value.rename σ)) h').1 =
        (host.native op held args h).1.map (Value.rename σ) ∧
      Heap.Like σ (host.native op held args h).2
        (host.native op (held.map (Value.rename σ)) (args.map (Value.rename σ)) h').2
  async {σ : Nat → Nat} {h h' : Heap} (hl : Heap.Like σ h h') (op : String)
    (held args : List Value) :
    (host.async op (held.map (Value.rename σ)) (args.map (Value.rename σ)) h').1 =
        (host.async op held args h).1.rename σ ∧
      Heap.Like σ (host.async op held args h).2
        (host.async op (held.map (Value.rename σ)) (args.map (Value.rename σ)) h').2

namespace Locals

theorem find_rename (name : String) (l : Locals) :
    Table.find name (l.rename σ) = (Table.find name l).map (Value.rename σ) :=
  Table.find_map (Value.rename σ) name l

theorem visible_rename (l : Locals) : (l.rename σ).visible = l.visible.rename σ := by
  induction l with
  | nil => rfl
  | cons e l ih =>
    simp only [rename, List.map_cons, visible, List.cons.injEq, true_and]
    rw [← rename, ih, rename, List.filter_map]
    rfl

end Locals

namespace Machine

variable {host : Host} {S S' : List Frame} {w w' : World}

theorem local?_rename (l : Locals) (name : String) :
    local? (l.rename σ) name = (local? l name).map (Value.rename σ) := by
  rw [local?, local?, Locals.find_rename]
  cases Table.find name l <;> rfl

theorem bindParams_rename (params : List String) (args : List Value) (captured : Locals) :
    bindParams params (args.map (Value.rename σ)) (captured.rename σ) =
      (bindParams params args captured).rename σ := by
  have hz : (params.zip (args.map (Value.rename σ))).reverse =
      Locals.rename σ (params.zip args).reverse := by
    rw [List.zip_map_right, Locals.rename, List.map_reverse]
    rfl
  rw [bindParams, bindParams, hz, Locals.visible_rename]
  simp [Locals.rename]

variable (hS : List.Forall₂ (Frame.Like σ) S S') (hl : World.Like σ w w')

include hS hl

theorem ofResult_like {r r' : Except Error Value} (hr : r' = r.map (Value.rename σ)) :
    State.Like σ (ofResult S w r) (ofResult S' w' r') := by
  subst hr
  cases r <;> exact ⟨rfl, hS, hl⟩

omit hl in
theorem answers_like {r r' : Except Error Value × World} (hr : Answers σ r r') :
    State.Like σ (ofResult S r.2 r.1) (ofResult S' r'.2 r'.1) :=
  ofResult_like hS hr.2 hr.1

theorem call_like (f : Function) (args : List Value) (position : CallPosition) (l : Locals) :
    State.Like σ (call S w f args position l)
      (call S' w' (f.rename σ) (args.map (Value.rename σ)) position (l.rename σ)) := by
  cases position with
  | tail => exact ⟨rfl, hS, hl⟩
  | head => exact ⟨rfl, .cons (.same (.settle l)) hS, hl⟩

theorem evalArgs_like (f : Function) (done : List Value) (codes : List Code)
    (position : CallPosition) (l : Locals) :
    State.Like σ (evalArgs S w f done codes position l)
      (evalArgs S' w' (f.rename σ) (done.map (Value.rename σ)) codes position (l.rename σ)) := by
  cases codes with
  | nil =>
    simp only [evalArgs, ← List.map_reverse]
    exact call_like hS hl f done.reverse position l
  | cons c codes => exact ⟨rfl, .cons (.same (.args f done codes position l)) hS, hl⟩

theorem evalForm_like (form : Value) :
    State.Like σ (evalForm S w form) (evalForm S' w' (form.rename σ)) := by
  obtain ⟨hc, hw⟩ := hl.compileForm form
  rcases he : w.compileForm form with ⟨r, u⟩
  rcases he' : w'.compileForm (form.rename σ) with ⟨r', u'⟩
  rw [he, he'] at hc hw
  obtain rfl : r = r' := hc.symm
  simp only [evalForm, he, he']
  cases r <;> exact ⟨rfl, hS, hw⟩

omit hS in
theorem closure_like (name : String) (params : List String) (code : Code) (l : Locals) :
    (closure w' name params code (l.rename σ)).1 = (closure w name params code l).1.rename σ ∧
      World.Like σ (closure w name params code l).2
        (closure w' name params code (l.rename σ)).2 := by
  simp only [closure, Locals.visible_rename, hl.runtime]
  exact hl.makeFunction name _ (.closure w.runtime params code l.visible)

theorem runFunction_like (f : Function) (args : List Value) :
    State.Like σ (runFunction S w f args)
      (runFunction S' w' (f.rename σ) (args.map (Value.rename σ))) := by
  have ha : (f.rename σ).arity = f.arity := rfl
  have he : (args.map (Value.rename σ)).isEmpty = args.isEmpty := by cases args <;> rfl
  simp only [runFunction, ha, he, List.length_map]
  cases f.arity with
  | none => exact ⟨rfl, hS, hl⟩
  | some n =>
    dsimp only
    split
    · exact ⟨rfl, hS, hl⟩
    · split
      · obtain ⟨hg, hw⟩ := hl.partialApply f args
        refine ⟨?_, hS, hw⟩
        simp [giveValue, hg, Control.rename, Step.rename]
      · split
        · refine ⟨by simp [Control.rename], .cons ?_ hS, hl⟩
          rw [← List.map_drop]
          exact .same (.surplus f (args.drop n))
        · exact ⟨rfl, hS, hl⟩

variable (hh : host.Natural)

include hh

theorem evalInterop_like (op : String) (done : List Value) (codes : List Code) (l : Locals) :
    State.Like σ (evalInterop S w host op done codes l)
      (evalInterop S' w' host op (done.map (Value.rename σ)) codes (l.rename σ)) := by
  cases codes with
  | nil =>
    obtain ⟨hr, hn⟩ := hh.native hl.heap op [] done.reverse
    simp only [evalInterop, ← List.map_reverse]
    exact ofResult_like hS (hl.withHeap hn) hr
  | cons c codes => exact ⟨rfl, .cons (.same (.interop op done codes l)) hS, hl⟩

theorem poll_like (op : String) (held args : List Value) :
    State.Like σ (poll S w host op held args)
      (poll S' w' host op (held.map (Value.rename σ)) (args.map (Value.rename σ))) := by
  obtain ⟨hr, hn⟩ := hh.async hl.heap op held args
  rcases he : host.async op held args w.heap with ⟨r, h⟩
  rcases he' : host.async op (held.map (Value.rename σ)) (args.map (Value.rename σ)) w'.heap
    with ⟨r', h'⟩
  rw [he, he'] at hr hn
  obtain rfl : r' = r.rename σ := hr
  simp only [poll, he, he']
  cases r with
  | ready r => exact ofResult_like hS (hl.withHeap hn) rfl
  | later op held => exact ⟨rfl, hS, hl.withHeap hn⟩

theorem evalCode_like (code : Code) (l : Locals) :
    State.Like σ (evalCode S w host code l) (evalCode S' w' host code (l.rename σ)) := by
  have give : ∀ v, State.Like σ (giveValue S w v) (giveValue S' w' (v.rename σ)) :=
    fun v => ⟨rfl, hS, hl⟩
  cases code with
  | const literal => cases literal <;> exact give _
  | «local» name => exact ofResult_like hS hl (local?_rename l name)
  | all codes =>
    cases codes with
    | nil => exact give _
    | cons c codes => exact ⟨rfl, .cons (.same (.all codes l)) hS, hl⟩
  | any codes =>
    cases codes with
    | nil => exact give _
    | cons c codes => exact ⟨rfl, .cons (.same (.any codes l)) hS, hl⟩
  | branch test yes no => exact ⟨rfl, .cons (.same (.branch yes no l)) hS, hl⟩
  | cond clauses default =>
    rcases clauses with _ | ⟨⟨test, consequent⟩, rest⟩
    · cases default <;> exact ⟨rfl, hS, hl⟩
    · exact ⟨rfl, .cons (.same (.cond consequent rest default l)) hS, hl⟩
  | letIn name value body => exact ⟨rfl, .cons (.same (.letIn name body l)) hS, hl⟩
  | seq codes last =>
    cases codes with
    | nil => exact ⟨rfl, hS, hl⟩
    | cons c codes => exact ⟨rfl, .cons (.same (.seq codes last l)) hS, hl⟩
  | lambda name param body =>
    obtain ⟨hf, hw⟩ := closure_like hl name [param] body l
    refine ⟨?_, hS, hw⟩
    simp [evalCode, giveValue, hf, Control.rename, Step.rename]
  | freeze name body =>
    obtain ⟨hf, hw⟩ := closure_like hl name [] body l
    refine ⟨?_, hS, hw⟩
    simp [evalCode, giveValue, hf, Control.rename, Step.rename]
  | trap body handler position => exact ⟨rfl, .cons (.same (.trap handler position l)) hS, hl⟩
  | defun name params body =>
    obtain ⟨hf, hw⟩ := closure_like hl name params body []
    refine ⟨rfl, hS, ?_⟩
    have hd := hw.define name (closure w name params body []).1
    rwa [← hf] at hd
  | globalValue name => exact ofResult_like hS hl (hl.value? name)
  | setGlobal name value => exact ⟨rfl, .cons (.same (.setGlobal name l)) hS, hl⟩
  | call callee args position =>
    cases callee with
    | computed head => exact ⟨rfl, .cons (.same (.callee args position l)) hS, hl⟩
    | global name =>
      simp only [evalCode, hl.function?]
      cases w.function? name with
      | error e => exact ⟨rfl, hS, hl⟩
      | ok f => exact evalArgs_like hS hl f [] args position l
    | «local» name =>
      have hc : (local? (l.rename σ) name).bind w'.callable =
          ((local? l name).bind w.callable).map (Function.rename σ) := by
        rw [local?_rename]
        cases local? l name with
        | error e => rfl
        | ok v => exact hl.callable v
      simp only [evalCode, hc]
      cases (local? l name).bind w.callable with
      | error e => exact ⟨rfl, hS, hl⟩
      | ok f => exact evalArgs_like hS hl f [] args position l
  | interop name args =>
    simp only [evalCode, hl.interop?]
    cases w.interop? name with
    | error e => exact ⟨rfl, hS, hl⟩
    | ok op => exact evalInterop_like hS hl hh op [] args l

theorem enterFunction_like (f : Function) (args : List Value) :
    State.Like σ (enterFunction S w host f args)
      (enterFunction S' w' host (f.rename σ) (args.map (Value.rename σ))) := by
  have dead : State.Like σ ⟨.raise (.internal .deadRuntime), S, w⟩
      ⟨.raise (.internal .deadRuntime), S', w'⟩ := ⟨rfl, hS, hl⟩
  have first : (args.map (Value.rename σ)).headD .empty = (args.headD .empty).rename σ := by
    cases args <;> rfl
  simp only [enterFunction, hl.heap.body]
  cases w.heap.body f with
  | primitive runtime op =>
    simp only [Body.rename, hl.runtime]
    split
    · exact answers_like hS (Primitive.call_answers hl op args)
    · exact dead
  | evaluator runtime =>
    simp only [Body.rename, hl.runtime]
    split
    · rw [first]
      have hk : List.Forall₂ (Frame.Like σ) (.settle [] :: .keep [args.headD .empty] :: S)
          (.settle [] :: .keep [(args.headD .empty).rename σ] :: S') :=
        .cons (.same (.settle [])) (.cons (.keep _ _) hS)
      exact evalForm_like hk hl (args.headD .empty)
    · exact dead
  | closure runtime params code captured =>
    simp only [Body.rename, hl.runtime]
    split
    · refine ⟨?_, hS, hl⟩
      simp [Control.rename, bindParams_rename]
    · exact dead
  | partialOf target bound =>
    refine ⟨?_, hS, hl⟩
    simp [Body.rename, Control.rename]
  | native op held =>
    obtain ⟨hr, hn⟩ := hh.native hl.heap op held args
    exact ofResult_like hS (hl.withHeap hn) hr
  | async op held => exact poll_like hS hl hh op held args
  | missing => exact ⟨rfl, hS, hl⟩

omit hh in
theorem surplus_like (f g : Function) (args : List Value) (v : Value) :
    State.Like σ (resumeFrame S w host (.surplus f args) v)
      (resumeFrame S' w' host (.surplus g (args.map (Value.rename σ))) (v.rename σ)) := by
  cases v with
  | function k => exact ⟨rfl, .cons (.keep _ _) hS, hl⟩
  | cons m a b =>
    refine ⟨?_, hS, hl⟩
    exact congrArg (Control.raise ∘ Error.notCallable) (Value.text_rename σ (.cons m a b))
  | _ => exact ⟨rfl, hS, hl⟩

theorem resumeFrame_like {frame frame' : Frame} (hf : Frame.Like σ frame frame') (v : Value) :
    State.Like σ (resumeFrame S w host frame v) (resumeFrame S' w' host frame' (v.rename σ)) := by
  have give : ∀ v, State.Like σ (giveValue S w v) (giveValue S' w' (v.rename σ)) :=
    fun v => ⟨rfl, hS, hl⟩
  have raise : ∀ e, State.Like σ ⟨.raise e, S, w⟩ ⟨.raise e, S', w'⟩ := fun e => ⟨rfl, hS, hl⟩
  have eval : ∀ code l, State.Like σ ⟨.eval code l, S, w⟩ ⟨.eval code (l.rename σ), S', w'⟩ :=
    fun code l => ⟨rfl, hS, hl⟩
  cases hf with
  | surplus f g args => exact surplus_like hS hl f g args v
  | keep vs vs' => exact give v
  | same frame =>
    cases frame with
    | settle l | trap handler position l | keep vs => exact give v
    | all rest l | any rest l | branch yes no l | cond consequent rest default l =>
      simp only [Frame.rename, resumeFrame, Value.toBool_rename]
      rcases v.toBool with e | ⟨⟨⟩ | ⟨⟩⟩ <;> first | exact raise _ | exact eval _ l | exact give _
    | letIn name body l => exact eval body ((name, v) :: l)
    | seq rest last l => exact eval _ l
    | handle caught position l =>
      simp only [Frame.rename, resumeFrame, hl.callable]
      cases w.callable v with
      | error e => exact raise e
      | ok f => exact call_like hS hl f [caught] position l
    | setGlobal name l => exact ⟨rfl, hS, hl.setValue name v⟩
    | callee codes position l =>
      simp only [Frame.rename, resumeFrame, hl.callable]
      cases w.callable v with
      | error e => exact raise e
      | ok f => exact evalArgs_like hS hl f [] codes position l
    | args f done rest position l => exact evalArgs_like hS hl f (v :: done) rest position l
    | interop op done rest l => exact evalInterop_like hS hl hh op (v :: done) rest l
    | surplus f args => exact surplus_like hS hl f (f.rename σ) args v
    | forms last rest =>
      cases rest with
      | nil => exact give v
      | cons form rest =>
        obtain ⟨hv, hb⟩ := hl.heap.build form
        simp only [Frame.rename, resumeFrame, hv]
        exact evalForm_like (.cons (.same (.forms v rest)) hS) (hl.withHeap hb) _

omit hh in
theorem unwind_like {frame frame' : Frame} (hf : Frame.Like σ frame frame') (e : Error) :
    State.Like σ (unwind S w e frame) (unwind S' w' e frame') := by
  cases hf with
  | surplus | keep => exact ⟨rfl, hS, hl⟩
  | same frame =>
    cases frame with
    | trap handler position l =>
      obtain ⟨hv, hb⟩ := hl.heap.error e.message
      cases handler with
      | bind param body =>
        refine ⟨?_, hS, hl.withHeap hb⟩
        simp [unwind, Frame.rename, hv, Control.rename, Locals.rename]
      | apply function =>
        have hk : Frame.Like σ (.handle (w.heap.error e.message).1 position l)
            (.handle (w'.heap.error e.message).1 position (l.rename σ)) := by
          rw [hv]
          exact .same (.handle _ position l)
        exact ⟨rfl, .cons hk hS, hl.withHeap hb⟩
    | _ => exact ⟨rfl, hS, hl⟩

omit hS hl

variable {s s' : State} {mode : Mode}

/-- One move leads from states that are alike to states that are alike. -/
theorem move_like (h : State.Like σ s s') : State.Like σ (move host s) (move host s') := by
  obtain ⟨c, S, w⟩ := s
  obtain ⟨c', S', w'⟩ := s'
  obtain ⟨rfl, hS, hl⟩ := h
  simp only at hS hl
  cases c with
  | eval code l => exact evalCode_like hS hl hh code l
  | run f args => exact runFunction_like hS hl f args
  | enter f args => exact enterFunction_like hS hl hh f args
  | wait op held args => exact poll_like hS hl hh op held args
  | raise e =>
    cases hS with
    | nil => exact ⟨rfl, .nil, hl⟩
    | cons hf hS => exact unwind_like hS hl hf e
  | give step =>
    cases hS with
    | nil => cases step <;> exact ⟨rfl, .nil, hl⟩
    | @cons frame frame' S S' hf hS =>
      cases step with
      | done v => exact resumeFrame_like hS hl hh hf v
      | bounce f args =>
        cases hf with
        | surplus g k rest => exact ⟨rfl, .cons (.surplus g k rest) hS, hl⟩
        | keep => exact ⟨rfl, hS, hl⟩
        | same =>
          cases frame with
          | keep => exact ⟨rfl, hS, hl⟩
          | _ => exact ⟨rfl, .cons (.same _) hS, hl⟩

omit hh

theorem result?_like (h : State.Like σ s s') :
    result? mode s' = (result? mode s).map (Outcome.map (Step.rename σ)) := by
  obtain ⟨c, S, w⟩ := s
  obtain ⟨c', S', w'⟩ := s'
  obtain ⟨rfl, hS, hl⟩ := h
  simp only at hS
  cases hS <;> cases c <;> cases mode <;> rfl

theorem effect?_like (h : State.Like σ s s') :
    effect? s' = (effect? s).map (Effect.rename σ) := by
  obtain ⟨c, S, w⟩ := s
  obtain ⟨c', S', w'⟩ := s'
  obtain ⟨rfl, hS, hl⟩ := h
  simp only at hS hl
  cases c with
  | run | raise | wait => rfl
  | eval code l =>
    simp only [effect?, Control.rename]
    cases code with
    | interop name args =>
      cases args with
      | nil =>
        simp only [codeEffect?, hl.interop]
        cases w.interop.get? name <;> rfl
      | cons => rfl
    | _ => rfl
  | enter f args =>
    have first : (args.map (Value.rename σ)).headD .empty = (args.headD .empty).rename σ := by
      cases args <;> rfl
    simp only [effect?, Control.rename, entryEffect?, hl.heap.body, hl.runtime, first]
    cases w.heap.body f with
    | primitive | evaluator =>
      simp only [Body.rename]
      split <;> rfl
    | _ => rfl
  | give step =>
    cases step with
    | bounce => rfl
    | done v =>
      cases hS with
      | nil => rfl
      | @cons frame frame' S S' hf _ =>
        cases hf with
        | surplus | keep => rfl
        | same =>
          cases frame with
          | interop op done rest l =>
            cases rest with
            | nil =>
              simp [effect?, Control.rename, Step.rename, Frame.rename, frameEffect?, Effect.rename]
            | cons => rfl
          | _ => rfl

/-- The same end, up to the places of functions. -/
def SameEnd (σ : Nat → Nat) (r r' : Outcome Step × World) : Prop :=
  r'.1 = r.1.map (Step.rename σ) ∧ World.Like σ r.2 r'.2

/-- Being alike, as a correspondence: the two runs take their moves together. -/
def alike (hh : host.Natural) (mode : Mode) (σ : Nat → Nat) : Correspondence host mode where
  states := State.Like σ
  effects e e' := e.rename σ = e'
  results := SameEnd σ
  progress {s t} h := by
    have he : List.Forall₂ (fun e e' => Effect.rename σ e = e') (effect? s).toList
        (effect? t).toList := by
      rw [effect?_like h]
      cases effect? s with
      | none => exact .nil
      | some e => exact .cons rfl .nil
    have hr : result? mode t = (result? mode s).map (Outcome.map (Step.rename σ)) := result?_like h
    cases hs : result? mode s with
    | some o =>
      rw [hs] at hr
      refine Or.inl ⟨[], [], (o, s.world), (o.map (Step.rename σ), t.world), ?_⟩
      exact ⟨⟨0, s, .refl s, hs, rfl⟩, ⟨0, t, .refl t, hr, rfl⟩, .nil, rfl, h.world⟩
    | none =>
      rw [hs] at hr
      exact Or.inr ⟨0, 0, _, _, _, _, Runs.one hs, Runs.one hr, he, move_like hh h⟩

/-- The second run is the first one up to the places of functions: if one of them ends so does the
other, in the same way, and they have the same effects in the same order whether they end or not. -/
structure Mirrors (next : State → State) (mode : Mode) (σ : Nat → Nat) (s t : State) : Prop where
  ends {es : List Effect} {r : Outcome Step × World} :
    Ends next mode s es r → ∃ r', Ends next mode t (es.map (Effect.rename σ)) r' ∧ SameEnd σ r r'
  ends_inv {es' : List Effect} {r' : Outcome Step × World} :
    Ends next mode t es' r' →
      ∃ es r, Ends next mode s es r ∧ es.map (Effect.rename σ) = es' ∧ SameEnd σ r r'
  emits {es : List Effect} : Emits next mode s es → Emits next mode t (es.map (Effect.rename σ))
  emits_inv {es' : List Effect} :
    Emits next mode t es' → ∃ es, Emits next mode s es ∧ es.map (Effect.rename σ) = es'

theorem map_eq_of_forall₂ {es es' : List Effect}
    (h : List.Forall₂ (fun e e' => Effect.rename σ e = e') es es') :
    es.map (Effect.rename σ) = es' := by
  rwa [← List.forall₂_eq_eq_eq, List.forall₂_map_left_iff]

theorem mirrors_of_like (hh : host.Natural) (h : State.Like σ s s') :
    Mirrors host mode σ s s' where
  ends he := by
    obtain ⟨es', r', ht, hes, hr⟩ := (alike hh mode σ).ends h he
    obtain rfl := map_eq_of_forall₂ hes
    exact ⟨r', ht, hr⟩
  ends_inv he := by
    obtain ⟨es, r, hs, hes, hr⟩ := (alike hh mode σ).swap.ends h he
    exact ⟨es, r, hs, map_eq_of_forall₂ hes.flip, hr⟩
  emits he := by
    obtain ⟨es', ht, hes⟩ := (alike hh mode σ).emits h he
    obtain rfl := map_eq_of_forall₂ hes
    exact ht
  emits_inv he := by
    obtain ⟨es, hs, hes⟩ := (alike hh mode σ).swap.emits h he
    exact ⟨es, hs, map_eq_of_forall₂ hes.flip⟩

/-- Only what the two states come to matters. -/
theorem Mirrors.congr {u u' : State} (h : Mirrors host mode σ s s') (hs : SameRuns host mode u s)
    (hs' : SameRuns host mode u' s') : Mirrors host mode σ u u' where
  ends he := by
    obtain ⟨r', he', hr⟩ := h.ends ((hs.1 _ _).1 he)
    exact ⟨r', (hs'.1 _ _).2 he', hr⟩
  ends_inv he := by
    obtain ⟨es, r, he', hes, hr⟩ := h.ends_inv ((hs'.1 _ _).1 he)
    exact ⟨es, r, (hs.1 _ _).2 he', hes, hr⟩
  emits he := (hs'.2 _).2 (h.emits ((hs.2 _).1 he))
  emits_inv he := by
    obtain ⟨es, he', hes⟩ := h.emits_inv ((hs'.2 _).1 he)
    exact ⟨es, (hs.2 _).2 he', hes⟩

theorem Mirrors.shed (h : Mirrors host mode σ s s') (hs : Lossless host mode s)
    (hs' : Lossless host mode s') : Mirrors (Machine.shed host mode) mode σ s s' where
  ends he := by
    obtain ⟨r', he', hr⟩ := h.ends (hs.ends_iff.1 he)
    exact ⟨r', hs'.ends_iff.2 he', hr⟩
  ends_inv he := by
    obtain ⟨es, r, he', hes, hr⟩ := h.ends_inv (hs'.ends_iff.1 he)
    exact ⟨es, r, hs.ends_iff.2 he', hes, hr⟩
  emits he := hs'.emits_iff.2 (h.emits (hs.emits_iff.1 he))
  emits_inv he := by
    obtain ⟨es, he', hes⟩ := h.emits_inv (hs'.emits_iff.1 he)
    exact ⟨es, hs.emits_iff.2 he', hes⟩

end Machine
end KLambda
