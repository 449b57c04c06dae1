import KLambda.Proofs.Alike
import KLambda.Proofs.Correspondence

/-!
States that are akin. Two runs keep pace if their states differ in the code that is left to do and
in the code and the captured values of closures only, as long as related code has related parts. The
relation between codes is given; nothing but evaluation itself looks into closures, so everything
else is the same on both sides.
-/
namespace KLambda

def Heap.withBodies (h : Heap) (bs : Array Body) : Heap := { h with bodies := bs }

/-- The same world with other function bodies. -/
def World.withBodies (w : World) (bs : Array Body) : World :=
  { w with heap := w.heap.withBodies bs }

theorem Heap.equate_withBodies (h : Heap) (bs : Array Body) :
    (h.withBodies bs).equate = h.equate := by
  have hd : ∀ depth, (h.withBodies bs).equateTo depth = h.equateTo depth := by
    intro depth
    induction depth with
    | zero => rfl
    | succ depth ih =>
      simp only [equateTo, ih]
      rfl
  funext u v
  exact congrFun (congrFun (hd h.vectors.size) u) v

namespace World

variable (w : World) (bs : Array Body)

theorem openForReading_withBodies (path : String) :
    (w.withBodies bs).openForReading path =
      ((w.openForReading path).1, (w.openForReading path).2.withBodies bs) := by
  have ho : (w.withBodies bs).options.openRead = w.options.openRead := rfl
  have hd : (w.withBodies bs).heap.disk = w.heap.disk := rfl
  simp only [openForReading, ho, hd]
  rcases w.options.openRead with _ | files | _
  · rfl
  · dsimp only
    cases files.get? path <;> rfl
  · dsimp only
    rcases w.heap.disk.open? path with e | found
    · rfl
    · cases found <;> rfl

theorem openForWriting_withBodies (path : String) :
    (w.withBodies bs).openForWriting path =
      ((w.openForWriting path).1, (w.openForWriting path).2.withBodies bs) := by
  have ho : (w.withBodies bs).options.openWrite = w.options.openWrite := rfl
  have hd : (w.withBodies bs).heap.disk = w.heap.disk := rfl
  simp only [openForWriting, ho, hd]
  rcases w.options.openWrite with _ | _ | _
  · rfl
  · rfl
  · dsimp only
    rcases w.heap.disk.create path with e | created <;> rfl

end World

namespace Primitive

variable (w : World) (bs : Array Body)

theorem compute_withBodies (h : Heap) (p : Primitive) (args : List Value) :
    compute (h.withBodies bs) p args = compute h p args := by
  unfold compute
  rw [h.equate_withBodies bs]
  rfl

theorem openFile_withBodies (path mode : Value) :
    openFile (w.withBodies bs) path mode =
      ((openFile w path mode).1, (openFile w path mode).2.withBodies bs) := by
  unfold openFile
  split
  · rfl
  · split
    · rw [w.openForReading_withBodies bs]
    · split
      · rw [w.openForWriting_withBodies bs]
      · rfl

theorem closeFile_withBodies (stream : Value) :
    closeFile (w.withBodies bs) stream =
      ((closeFile w stream).1, (closeFile w stream).2.withBodies bs) := by
  unfold closeFile
  split
  · rfl
  · rename_i s _
    have hs : (w.withBodies bs).heap.closeStream s =
        ((w.heap.closeStream s).1, (w.heap.closeStream s).2.withBodies bs) := rfl
    rw [hs]
    rcases w.heap.closeStream s with ⟨_ | _, h⟩ <;> rfl

theorem readFrom_withBodies (stream : Value) :
    readFrom (w.withBodies bs) stream =
      ((readFrom w stream).1, (readFrom w stream).2.withBodies bs) := by
  unfold readFrom
  split
  · rfl
  · rename_i s _
    have hs : (w.withBodies bs).heap.readByte s =
        ((w.heap.readByte s).1, (w.heap.readByte s).2.withBodies bs) := rfl
    rw [hs]
    rcases w.heap.readByte s with ⟨_ | _ | _, h⟩ <;> rfl

theorem writeTo_withBodies (byte stream : Value) :
    writeTo (w.withBodies bs) byte stream =
      ((writeTo w byte stream).1, (writeTo w byte stream).2.withBodies bs) := by
  unfold writeTo
  split
  · rfl
  · rename_i b s _
    have hs : (w.withBodies bs).heap.writeByte s b =
        ((w.heap.writeByte s b).1, (w.heap.writeByte s b).2.withBodies bs) := rfl
    rw [hs]
    rcases w.heap.writeByte s b with ⟨_ | _, h⟩ <;> rfl

theorem computed_withBodies (p : Primitive) (args : List Value) :
    p.computed args (w.withBodies bs) =
      ((p.computed args w).1, (p.computed args w).2.withBodies bs) := by
  have hc : compute (w.withBodies bs).heap p args = compute w.heap p args :=
    compute_withBodies bs w.heap p args
  unfold computed
  rw [hc]
  cases compute w.heap p args <;> rfl

/-- No primitive looks into a body or changes one. -/
theorem call_withBodies (p : Primitive) (args : List Value) :
    p.call args (w.withBodies bs) = ((p.call args w).1, (p.call args w).2.withBodies bs) := by
  have computed := computed_withBodies w bs p args
  rcases args with _ | ⟨a, _ | ⟨b, _ | ⟨c, _ | ⟨d, rest⟩⟩⟩⟩
  · cases p <;> exact computed
  · cases p with
    | close => exact closeFile_withBodies w bs a
    | readByte => exact readFrom_withBodies w bs a
    | vector =>
      simp only [call, makeVector]
      split <;> rfl
    | value | getTime => rfl
    | _ => exact computed
  · cases p with
    | openStream => exact openFile_withBodies w bs a b
    | writeByte => exact writeTo_withBodies w bs a b
    | cons => rfl
    | set =>
      simp only [call]
      split <;> rfl
    | _ => exact computed
  · cases p with
    | vectorSet =>
      simp only [call, storeElement]
      split <;> rfl
    | _ => exact computed
  · cases p <;> exact computed

theorem bodies_call (p : Primitive) (args : List Value) :
    (p.call args w).2.heap.bodies = w.heap.bodies :=
  congrArg (fun r => r.2.heap.bodies) (call_withBodies w w.heap.bodies p args)

end Primitive

mutual

theorem Form.build_withBodies (f : Form) (h : Heap) (bs : Array Body) :
    f.build (h.withBodies bs) = ((f.build h).1, (f.build h).2.withBodies bs) := by
  cases f with
  | number | str | symbol => rfl
  | list items => exact Form.buildList_withBodies items h bs

theorem Form.buildList_withBodies (fs : List Form) (h : Heap) (bs : Array Body) :
    Form.buildList fs (h.withBodies bs) =
      ((Form.buildList fs h).1, (Form.buildList fs h).2.withBodies bs) := by
  cases fs with
  | nil => rfl
  | cons f fs =>
    simp only [Form.buildList, Form.build_withBodies f h bs, Form.buildList_withBodies fs _ bs]
    rfl

end

theorem Form.bodies_build (f : Form) (h : Heap) : (f.build h).2.bodies = h.bodies :=
  congrArg (fun r => r.2.bodies) (f.build_withBodies h h.bodies)

/-- A relation between codes with their locals, and one between the codes of closures with the
parameters they bind and the values they capture. -/
structure Kinship where
  code : Code → Locals → Code → Locals → Prop
  closure : List String → Code → Locals → Code → Locals → Prop
  code_refl (c : Code) (l : Locals) : code c l c l
  closure_refl (params : List String) (c : Code) (l : Locals) : closure params c l c l

/-- A host whose functions may add bodies, but look into none: they do the same whatever bodies
there are. -/
structure Host.Opaque (host : Host) : Prop where
  native (op : String) (held args : List Value) (h : Heap) :
    ∃ new : List Body, ∀ bs : Array Body, bs.size = h.bodies.size →
      host.native op held args (h.withBodies bs) = ((host.native op held args h).1,
        (host.native op held args h).2.withBodies (bs ++ new.toArray))
  async (op : String) (held args : List Value) (h : Heap) :
    ∃ new : List Body, ∀ bs : Array Body, bs.size = h.bodies.size →
      host.async op held args (h.withBodies bs) = ((host.async op held args h).1,
        (host.async op held args h).2.withBodies (bs ++ new.toArray))

theorem Host.opaque_echo : Host.Opaque .echo where
  native op held args h := ⟨[], fun bs _ => by simp [Host.echo]⟩
  async op held args h := by
    refine ⟨[], fun bs _ => ?_⟩
    by_cases ho : op = "resumed" <;> simp [Host.echo, ho]

namespace Kinship

open Machine

/-- Bodies that are the same, but for the code and the captured values of a closure. -/
inductive Bodied (K : Kinship) : Body → Body → Prop
  | same (b : Body) : Bodied K b b
  | closure (runtime : Nat) {params : List String} {c c' : Code} {l l' : Locals}
      (h : K.closure params c l c' l') :
      Bodied K (.closure runtime params c l) (.closure runtime params c' l')

structure Bodies (K : Kinship) (as bs : Array Body) : Prop where
  size : bs.size = as.size
  body (i : Nat) : K.Bodied (as.getD i .missing) (bs.getD i .missing)

/-- Worlds that are the same, but for the code and the captured values of closures. -/
def Worlds (K : Kinship) (w w' : World) : Prop :=
  ∃ bs, w' = w.withBodies bs ∧ K.Bodies w.heap.bodies bs

/-- Codes that do the same with parts that are related. -/
inductive Parts (K : Kinship) : Code → Locals → Code → Locals → Prop
  | const (k : Literal) (l l' : Locals) : Parts K (.const k) l (.const k) l'
  | local {name : String} {l l' : Locals} (h : Table.find name l = Table.find name l') :
      Parts K (.local name) l (.local name) l'
  | allNil (l l' : Locals) : Parts K (.all []) l (.all []) l'
  | allCons {c c' : Code} {cs cs' : List Code} {l l' : Locals} (hc : K.code c l c' l')
      (hs : K.code (.all cs) l (.all cs') l') : Parts K (.all (c :: cs)) l (.all (c' :: cs')) l'
  | anyNil (l l' : Locals) : Parts K (.any []) l (.any []) l'
  | anyCons {c c' : Code} {cs cs' : List Code} {l l' : Locals} (hc : K.code c l c' l')
      (hs : K.code (.any cs) l (.any cs') l') : Parts K (.any (c :: cs)) l (.any (c' :: cs')) l'
  | branch {test test' yes yes' no no' : Code} {l l' : Locals} (ht : K.code test l test' l')
      (hy : K.code yes l yes' l') (hn : K.code no l no' l') :
      Parts K (.branch test yes no) l (.branch test' yes' no') l'
  | condNone (l l' : Locals) : Parts K (.cond [] none) l (.cond [] none) l'
  | condSome {c c' : Code} {l l' : Locals} (h : K.code c l c' l') :
      Parts K (.cond [] (some c)) l (.cond [] (some c')) l'
  | condCons {test test' c c' : Code} {rest rest' : List (Code × Code)} {d d' : Option Code}
      {l l' : Locals} (ht : K.code test l test' l') (hc : K.code c l c' l')
      (hr : K.code (.cond rest d) l (.cond rest' d') l') :
      Parts K (.cond ((test, c) :: rest) d) l (.cond ((test', c') :: rest') d') l'
  | letIn (name : String) {value value' body body' : Code} {l l' : Locals}
      (hv : K.code value l value' l')
      (hb : ∀ v, K.code body ((name, v) :: l) body' ((name, v) :: l')) :
      Parts K (.letIn name value body) l (.letIn name value' body') l'
  | seqNil {c c' : Code} {l l' : Locals} (h : K.code c l c' l') :
      Parts K (.seq [] c) l (.seq [] c') l'
  | seqCons {c c' d d' : Code} {cs cs' : List Code} {l l' : Locals} (hc : K.code c l c' l')
      (hs : K.code (.seq cs d) l (.seq cs' d') l') :
      Parts K (.seq (c :: cs) d) l (.seq (c' :: cs') d') l'
  | lambda (name param : String) {c c' : Code} {l l' : Locals}
      (h : K.closure [param] c l.visible c' l'.visible) :
      Parts K (.lambda name param c) l (.lambda name param c') l'
  | freeze (name : String) {c c' : Code} {l l' : Locals}
      (h : K.closure [] c l.visible c' l'.visible) :
      Parts K (.freeze name c) l (.freeze name c') l'
  | trapBind (param : String) (position : CallPosition) {c c' body body' : Code} {l l' : Locals}
      (hc : K.code c l c' l') (hb : ∀ v, K.code body ((param, v) :: l) body' ((param, v) :: l')) :
      Parts K (.trap c (.bind param body) position) l (.trap c' (.bind param body') position) l'
  | trapApply (position : CallPosition) {c c' f f' : Code} {l l' : Locals}
      (hc : K.code c l c' l') (hf : K.code f l f' l') :
      Parts K (.trap c (.apply f) position) l (.trap c' (.apply f') position) l'
  | defun (name : String) (params : List String) {c c' : Code} {l l' : Locals}
      (h : K.closure params c [] c' []) :
      Parts K (.defun name params c) l (.defun name params c') l'
  | globalValue (name : String) (l l' : Locals) :
      Parts K (.globalValue name) l (.globalValue name) l'
  | setGlobal (name : String) {c c' : Code} {l l' : Locals} (h : K.code c l c' l') :
      Parts K (.setGlobal name c) l (.setGlobal name c') l'
  | callGlobal (name : String) (position : CallPosition) {cs cs' : List Code} {l l' : Locals}
      (h : List.Forall₂ (fun c c' => K.code c l c' l') cs cs') :
      Parts K (.call (.global name) cs position) l (.call (.global name) cs' position) l'
  | callLocal {name : String} (position : CallPosition) {cs cs' : List Code} {l l' : Locals}
      (hn : Table.find name l = Table.find name l')
      (h : List.Forall₂ (fun c c' => K.code c l c' l') cs cs') :
      Parts K (.call (.local name) cs position) l (.call (.local name) cs' position) l'
  | callComputed (position : CallPosition) {c c' : Code} {cs cs' : List Code} {l l' : Locals}
      (hc : K.code c l c' l') (h : List.Forall₂ (fun c c' => K.code c l c' l') cs cs') :
      Parts K (.call (.computed c) cs position) l (.call (.computed c') cs' position) l'
  | interop (name : String) {cs cs' : List Code} {l l' : Locals}
      (h : List.Forall₂ (fun c c' => K.code c l c' l') cs cs') :
      Parts K (.interop name cs) l (.interop name cs') l'

/-- Frames that do the same with code that is related. The locals of a frame that evaluates nothing
do not matter. -/
inductive Frames (K : Kinship) : Frame → Frame → Prop
  | settle (l l' : Locals) : Frames K (.settle l) (.settle l')
  | all {cs cs' : List Code} {l l' : Locals} (h : K.code (.all cs) l (.all cs') l') :
      Frames K (.all cs l) (.all cs' l')
  | any {cs cs' : List Code} {l l' : Locals} (h : K.code (.any cs) l (.any cs') l') :
      Frames K (.any cs l) (.any cs' l')
  | branch {yes yes' no no' : Code} {l l' : Locals} (hy : K.code yes l yes' l')
      (hn : K.code no l no' l') : Frames K (.branch yes no l) (.branch yes' no' l')
  | cond {c c' : Code} {rest rest' : List (Code × Code)} {d d' : Option Code} {l l' : Locals}
      (hc : K.code c l c' l') (hr : K.code (.cond rest d) l (.cond rest' d') l') :
      Frames K (.cond c rest d l) (.cond c' rest' d' l')
  | letIn (name : String) {c c' : Code} {l l' : Locals}
      (h : ∀ v, K.code c ((name, v) :: l) c' ((name, v) :: l')) :
      Frames K (.letIn name c l) (.letIn name c' l')
  | seq {cs cs' : List Code} {d d' : Code} {l l' : Locals}
      (h : K.code (.seq cs d) l (.seq cs' d') l') : Frames K (.seq cs d l) (.seq cs' d' l')
  | trapBind (param : String) (position : CallPosition) {c c' : Code} {l l' : Locals}
      (h : ∀ v, K.code c ((param, v) :: l) c' ((param, v) :: l')) :
      Frames K (.trap (.bind param c) position l) (.trap (.bind param c') position l')
  | trapApply (position : CallPosition) {c c' : Code} {l l' : Locals} (h : K.code c l c' l') :
      Frames K (.trap (.apply c) position l) (.trap (.apply c') position l')
  | handle (caught : Value) (position : CallPosition) (l l' : Locals) :
      Frames K (.handle caught position l) (.handle caught position l')
  | setGlobal (name : String) (l l' : Locals) : Frames K (.setGlobal name l) (.setGlobal name l')
  | callee (position : CallPosition) {cs cs' : List Code} {l l' : Locals}
      (h : List.Forall₂ (fun c c' => K.code c l c' l') cs cs') :
      Frames K (.callee cs position l) (.callee cs' position l')
  | args (f : Function) (done : List Value) (position : CallPosition) {cs cs' : List Code}
      {l l' : Locals} (h : List.Forall₂ (fun c c' => K.code c l c' l') cs cs') :
      Frames K (.args f done cs position l) (.args f done cs' position l')
  | interop (op : String) (done : List Value) {cs cs' : List Code} {l l' : Locals}
      (h : List.Forall₂ (fun c c' => K.code c l c' l') cs cs') :
      Frames K (.interop op done cs l) (.interop op done cs' l')
  | surplus (f : Function) (args : List Value) : Frames K (.surplus f args) (.surplus f args)
  | keep (values : List Value) : Frames K (.keep values) (.keep values)
  | forms (last : Value) (rest : List Form) : Frames K (.forms last rest) (.forms last rest)

/-- The same control, but for code that is related. -/
def Controls (K : Kinship) : Control → Control → Prop
  | .eval c l, .eval c' l' => K.code c l c' l'
  | a, b => a = b

structure States (K : Kinship) (s s' : State) : Prop where
  control : K.Controls s.control s'.control
  stack : List.Forall₂ K.Frames s.stack s'.stack
  world : K.Worlds s.world s'.world

variable {K : Kinship} {host : Host} {S S' : List Frame} {w w' : World} {l l' : Locals}

namespace Bodies

variable {as bs : Array Body}

theorem refl (K : Kinship) (as : Array Body) : K.Bodies as as := ⟨rfl, fun _ => .same _⟩

theorem push {a b : Body} (h : K.Bodies as bs) (hb : K.Bodied a b) :
    K.Bodies (as.push a) (bs.push b) := by
  refine ⟨by simp [h.size], fun i => ?_⟩
  rw [getD_push, getD_push, h.size]
  split
  · exact hb
  · exact h.body i

theorem append (h : K.Bodies as bs) (new : List Body) :
    K.Bodies (as ++ new.toArray) (bs ++ new.toArray) := by
  induction new generalizing as bs with
  | nil => simpa using h
  | cons b new ih =>
    have hp := ih (h.push (.same b))
    simpa using hp

end Bodies

theorem Worlds.refl (K : Kinship) (w : World) : K.Worlds w w := ⟨w.heap.bodies, rfl, .refl K _⟩

/-- Functions are made in the same place. -/
theorem Worlds.makeFunction (h : K.Worlds w w') (name : String) (arity : Option Nat) {b b' : Body}
    (hb : K.Bodied b b') :
    (w'.makeFunction name arity b').1 = (w.makeFunction name arity b).1 ∧
      K.Worlds (w.makeFunction name arity b).2 (w'.makeFunction name arity b').2 := by
  obtain ⟨bs, rfl, hbs⟩ := h
  refine ⟨?_, bs.push b', rfl, hbs.push hb⟩
  simp [World.makeFunction, Heap.function, World.withBodies, Heap.withBodies, hbs.size]

theorem Worlds.body (h : K.Worlds w w') (f : Function) :
    K.Bodied (w.heap.body f) (w'.heap.body f) := by
  obtain ⟨bs, rfl, hbs⟩ := h
  exact hbs.body f.id

section

variable (hS : List.Forall₂ K.Frames S S') (hw : K.Worlds w w')

include hS hw

theorem states_ofResult (r : Except Error Value) :
    K.States (ofResult S w r) (ofResult S' w' r) := by
  cases r <;> exact ⟨rfl, hS, hw⟩

theorem states_give {v v' : Value} (hv : v' = v) :
    K.States (giveValue S w v) (giveValue S' w' v') := by
  subst hv
  exact ⟨rfl, hS, hw⟩

theorem states_call (f : Function) (args : List Value) (position : CallPosition) (l l' : Locals) :
    K.States (call S w f args position l) (call S' w' f args position l') := by
  cases position with
  | tail => exact ⟨rfl, hS, hw⟩
  | head => exact ⟨rfl, .cons (.settle l l') hS, hw⟩

theorem states_evalArgs (f : Function) (done : List Value) (position : CallPosition)
    {cs cs' : List Code} (h : List.Forall₂ (fun c c' => K.code c l c' l') cs cs') :
    K.States (evalArgs S w f done cs position l) (evalArgs S' w' f done cs' position l') := by
  cases h with
  | nil => exact states_call hS hw f done.reverse position l l'
  | cons hc hs => exact ⟨hc, .cons (.args f done position hs) hS, hw⟩

theorem states_evalForm (form : Value) : K.States (evalForm S w form) (evalForm S' w' form) := by
  obtain ⟨bs, rfl, hbs⟩ := hw
  have hc : (w.withBodies bs).compileForm form =
      ((w.compileForm form).1, (w.compileForm form).2.withBodies bs) := rfl
  have hr : K.Worlds (w.compileForm form).2 ((w.compileForm form).2.withBodies bs) :=
    ⟨bs, rfl, hbs⟩
  rw [evalForm, evalForm, hc]
  rcases hp : w.compileForm form with ⟨e | code, u⟩ <;> rw [hp] at hr
  · exact ⟨rfl, hS, hr⟩
  · exact ⟨K.code_refl code [], hS, hr⟩

theorem states_runFunction (f : Function) (args : List Value) :
    K.States (runFunction S w f args) (runFunction S' w' f args) := by
  unfold runFunction
  split
  · exact ⟨rfl, hS, hw⟩
  · split
    · exact ⟨rfl, hS, hw⟩
    · split
      · obtain ⟨bs, rfl, hbs⟩ := hw
        have hr : K.Worlds (w.report (.partialApplication f.name args.length))
            ((w.withBodies bs).report (.partialApplication f.name args.length)) := ⟨bs, rfl, hbs⟩
        obtain ⟨hf, hp⟩ := hr.makeFunction f.name (f.arity.map (· - args.length))
          (.same (.partialOf f args))
        exact states_give hS hp (congrArg Value.function hf)
      · split
        · exact ⟨rfl, .cons (.surplus f _) hS, hw⟩
        · exact ⟨rfl, hS, hw⟩

theorem states_native (hh : host.Opaque) (op : String) (held args : List Value) :
    K.States
      (ofResult S { w with heap := (host.native op held args w.heap).2 }
        (host.native op held args w.heap).1)
      (ofResult S' { w' with heap := (host.native op held args w'.heap).2 }
        (host.native op held args w'.heap).1) := by
  obtain ⟨bs, rfl, hbs⟩ := hw
  obtain ⟨new, hn⟩ := hh.native op held args w.heap
  have hold := hn w.heap.bodies rfl
  have hnew := hn bs hbs.size
  have hb : (host.native op held args w.heap).2.bodies = w.heap.bodies ++ new.toArray :=
    congrArg (fun r => r.2.bodies) hold
  have hx : host.native op held args (w.withBodies bs).heap = _ := hnew
  rw [hx]
  refine states_ofResult hS ⟨bs ++ new.toArray, rfl, ?_⟩ _
  show K.Bodies (host.native op held args w.heap).2.bodies (bs ++ new.toArray)
  rw [hb]
  exact hbs.append new

theorem states_poll (hh : host.Opaque) (op : String) (held args : List Value) :
    K.States (poll S w host op held args) (poll S' w' host op held args) := by
  obtain ⟨bs, rfl, hbs⟩ := hw
  obtain ⟨new, hn⟩ := hh.async op held args w.heap
  have hold := hn w.heap.bodies rfl
  have hnew := hn bs hbs.size
  have hb : (host.async op held args w.heap).2.bodies = w.heap.bodies ++ new.toArray :=
    congrArg (fun r => r.2.bodies) hold
  have hx : host.async op held args (w.withBodies bs).heap = _ := hnew
  have hk : K.Worlds { w with heap := (host.async op held args w.heap).2 }
      { w.withBodies bs with
        heap := (host.async op held args w.heap).2.withBodies (bs ++ new.toArray) } := by
    refine ⟨bs ++ new.toArray, rfl, ?_⟩
    show K.Bodies (host.async op held args w.heap).2.bodies (bs ++ new.toArray)
    rw [hb]
    exact hbs.append new
  rw [poll, poll, hx]
  rcases he : host.async op held args w.heap with ⟨r | ⟨op, held⟩, h⟩ <;> rw [he] at hk
  · exact states_ofResult hS hk r
  · exact ⟨rfl, hS, hk⟩

theorem states_evalInterop (hh : host.Opaque) (op : String) (done : List Value)
    {cs cs' : List Code} (h : List.Forall₂ (fun c c' => K.code c l c' l') cs cs') :
    K.States (evalInterop S w host op done cs l) (evalInterop S' w' host op done cs' l') := by
  cases h with
  | nil => exact states_native hS hw hh op [] done.reverse
  | cons hc hs => exact ⟨hc, .cons (.interop op done hs) hS, hw⟩

omit hS in
theorem worlds_closure (name : String) {params : List String} {c c' : Code}
    (h : K.closure params c l.visible c' l'.visible) :
    (Machine.closure w' name params c' l').1 = (Machine.closure w name params c l).1 ∧
      K.Worlds (Machine.closure w name params c l).2
        (Machine.closure w' name params c' l').2 := by
  have hr : w'.runtime = w.runtime := by
    obtain ⟨bs, rfl, -⟩ := hw
    rfl
  rw [Machine.closure, Machine.closure, hr]
  exact hw.makeFunction name (some params.length) (.closure w.runtime h)

omit hS in
theorem worlds_define (name : String) (f : Function) :
    K.Worlds (w.define name f) (w'.define name f) := by
  obtain ⟨bs, rfl, hbs⟩ := hw
  exact ⟨bs, rfl, hbs⟩

/-- Related parts are gone into alike. -/
theorem states_evalCode (hh : host.Opaque) {c c' : Code} (h : K.Parts c l c' l') :
    K.States (evalCode S w host c l) (evalCode S' w' host c' l') := by
  cases h with
  | const k => exact ⟨rfl, hS, hw⟩
  | @«local» name _ _ hn =>
    have hv : local? l' name = local? l name := by rw [local?, local?, hn]
    simp only [evalCode, hv]
    exact states_ofResult hS hw _
  | allNil | anyNil | condNone => exact ⟨rfl, hS, hw⟩
  | allCons hc hs => exact ⟨hc, .cons (.all hs) hS, hw⟩
  | anyCons hc hs => exact ⟨hc, .cons (.any hs) hS, hw⟩
  | branch ht hy hn => exact ⟨ht, .cons (.branch hy hn) hS, hw⟩
  | condSome h | seqNil h => exact ⟨h, hS, hw⟩
  | condCons ht hc hr => exact ⟨ht, .cons (.cond hc hr) hS, hw⟩
  | letIn name hv hb => exact ⟨hv, .cons (.letIn name hb) hS, hw⟩
  | seqCons hc hs => exact ⟨hc, .cons (.seq hs) hS, hw⟩
  | lambda name param h =>
    obtain ⟨hf, hk⟩ := worlds_closure hw name h
    exact states_give hS hk (congrArg Value.function hf)
  | freeze name h =>
    obtain ⟨hf, hk⟩ := worlds_closure hw name h
    exact states_give hS hk (congrArg Value.function hf)
  | trapBind param position hc hb => exact ⟨hc, .cons (.trapBind param position hb) hS, hw⟩
  | trapApply position hc hf => exact ⟨hc, .cons (.trapApply position hf) hS, hw⟩
  | defun name params h =>
    obtain ⟨hf, hk⟩ := @worlds_closure K w w' [] [] hw name _ _ _ h
    simp only [evalCode, hf]
    exact ⟨rfl, hS, worlds_define hk name _⟩
  | globalValue name =>
    obtain ⟨bs, rfl, hbs⟩ := hw
    exact states_ofResult hS ⟨bs, rfl, hbs⟩ (w.value? name)
  | setGlobal name h => exact ⟨h, .cons (.setGlobal name l l') hS, hw⟩
  | callGlobal name position h =>
    have hf : w'.function? name = w.function? name := by
      obtain ⟨bs, rfl, -⟩ := hw
      rfl
    simp only [evalCode, hf]
    split
    · exact ⟨rfl, hS, hw⟩
    · exact states_evalArgs hS hw _ [] position h
  | @callLocal name position _ _ _ _ hn h =>
    have hv : (local? l' name).bind w'.callable = (local? l name).bind w.callable := by
      obtain ⟨bs, rfl, -⟩ := hw
      rw [local?, local?, hn]
      rfl
    simp only [evalCode, hv]
    split
    · exact ⟨rfl, hS, hw⟩
    · exact states_evalArgs hS hw _ [] position h
  | callComputed position hc h => exact ⟨hc, .cons (.callee position h) hS, hw⟩
  | interop name h =>
    have hi : w'.interop? name = w.interop? name := by
      obtain ⟨bs, rfl, -⟩ := hw
      rfl
    simp only [evalCode, hi]
    split
    · exact ⟨rfl, hS, hw⟩
    · exact states_evalInterop hS hw hh _ [] h

omit hS in
theorem worlds_call (p : Primitive) (args : List Value) :
    (p.call args w').1 = (p.call args w).1 ∧ K.Worlds (p.call args w).2 (p.call args w').2 := by
  obtain ⟨bs, rfl, hbs⟩ := hw
  rw [Primitive.call_withBodies w bs]
  refine ⟨rfl, bs, rfl, ?_⟩
  rwa [Primitive.bodies_call]

/-- Functions are gone into alike if the closures among them are. -/
theorem states_enterFunction (hh : host.Opaque) (f : Function) (args : List Value)
    (hc : ∀ r params c c' cap cap', w.heap.body f = .closure r params c cap →
      K.closure params c cap c' cap' →
      K.code c (bindParams params args cap) c' (bindParams params args cap')) :
    K.States (enterFunction S w host f args) (enterFunction S' w' host f args) := by
  have hr : w'.runtime = w.runtime := by
    obtain ⟨bs, rfl, -⟩ := hw
    rfl
  have hb := hw.body f
  rw [enterFunction, enterFunction]
  generalize hx : w.heap.body f = b at hb
  generalize w'.heap.body f = b' at hb
  cases hb with
  | closure r h =>
    dsimp only
    rw [hr]
    split
    · exact ⟨hc r _ _ _ _ _ hx h, hS, hw⟩
    · exact ⟨rfl, hS, hw⟩
  | same =>
    cases b with
    | primitive r op =>
      dsimp only
      rw [hr]
      split
      · obtain ⟨ha, hk⟩ := worlds_call hw op args
        rw [ha]
        exact states_ofResult hS hk _
      · exact ⟨rfl, hS, hw⟩
    | evaluator r =>
      dsimp only
      rw [hr]
      split
      · exact states_evalForm (.cons (.settle [] []) (.cons (.keep _) hS)) hw _
      · exact ⟨rfl, hS, hw⟩
    | closure r params c cap =>
      dsimp only
      rw [hr]
      split
      · exact ⟨K.code_refl _ _, hS, hw⟩
      · exact ⟨rfl, hS, hw⟩
    | partialOf target bound => exact ⟨rfl, hS, hw⟩
    | native op held => exact states_native hS hw hh op held args
    | async op held => exact states_poll hS hw hh op held args
    | missing => exact ⟨rfl, hS, hw⟩

theorem states_callable (v : Value) {k k' : Function → State}
    (hk : ∀ f, K.States (k f) (k' f)) :
    K.States
      (match w.callable v with
      | .error e => ⟨.raise e, S, w⟩
      | .ok f => k f)
      (match w'.callable v with
      | .error e => ⟨.raise e, S', w'⟩
      | .ok f => k' f) := by
  have hv : w'.callable v = w.callable v := by
    obtain ⟨bs, rfl, -⟩ := hw
    rfl
  rw [hv]
  split
  · exact ⟨rfl, hS, hw⟩
  · exact hk _

theorem states_toBool (v : Value) {yes no yes' no' : State} (hy : K.States yes yes')
    (hn : K.States no no') :
    K.States
      (match v.toBool with
      | .error e => ⟨.raise e, S, w⟩
      | .ok true => yes
      | .ok false => no)
      (match v.toBool with
      | .error e => ⟨.raise e, S', w'⟩
      | .ok true => yes'
      | .ok false => no') := by
  split
  · exact ⟨rfl, hS, hw⟩
  · exact hy
  · exact hn

theorem states_resumeFrame (hh : host.Opaque) {frame frame' : Frame} (h : K.Frames frame frame')
    (v : Value) : K.States (resumeFrame S w host frame v) (resumeFrame S' w' host frame' v) := by
  cases h with
  | settle | keep | trapBind | trapApply => exact ⟨rfl, hS, hw⟩
  | all h => exact states_toBool hS hw v ⟨h, hS, hw⟩ ⟨rfl, hS, hw⟩
  | any h => exact states_toBool hS hw v ⟨rfl, hS, hw⟩ ⟨h, hS, hw⟩
  | branch hy hn => exact states_toBool hS hw v ⟨hy, hS, hw⟩ ⟨hn, hS, hw⟩
  | cond hc hr => exact states_toBool hS hw v ⟨hc, hS, hw⟩ ⟨hr, hS, hw⟩
  | letIn name h => exact ⟨h v, hS, hw⟩
  | seq h => exact ⟨h, hS, hw⟩
  | handle caught position l l' =>
    exact states_callable hS hw v fun f => states_call hS hw f [caught] position l l'
  | setGlobal name =>
    obtain ⟨bs, rfl, hbs⟩ := hw
    exact ⟨rfl, hS, bs, rfl, hbs⟩
  | callee position h =>
    exact states_callable hS hw v fun f => states_evalArgs hS hw f [] position h
  | args f done position h => exact states_evalArgs hS hw f (v :: done) position h
  | interop op done h => exact states_evalInterop hS hw hh op (v :: done) h
  | surplus f args =>
    cases v with
    | function g => exact ⟨rfl, .cons (.keep _) hS, hw⟩
    | _ => exact ⟨rfl, hS, hw⟩
  | forms last rest =>
    cases rest with
    | nil => exact ⟨rfl, hS, hw⟩
    | cons form rest =>
      obtain ⟨bs, rfl, hbs⟩ := hw
      have hb : form.build (w.withBodies bs).heap = _ := form.build_withBodies w.heap bs
      simp only [resumeFrame, hb]
      refine states_evalForm (.cons (.forms v rest) hS) ⟨bs, rfl, ?_⟩ _
      show K.Bodies (form.build w.heap).2.bodies bs
      rwa [form.bodies_build]

theorem states_unwind {frame frame' : Frame} (h : K.Frames frame frame') (e : Error) :
    K.States (unwind S w e frame) (unwind S' w' e frame') := by
  cases h with
  | trapBind param position h =>
    obtain ⟨bs, rfl, hbs⟩ := hw
    exact ⟨h _, hS, bs, rfl, hbs⟩
  | @trapApply position _ _ l l' h =>
    obtain ⟨bs, rfl, hbs⟩ := hw
    exact ⟨h, .cons (.handle _ position l l') hS, bs, rfl, hbs⟩
  | _ => exact ⟨rfl, hS, hw⟩

end

variable {mode : Mode} {s s' : State}

/-- What has to be known of two states for the next move to keep them akin: the codes that are gone
into have related parts, and so have closures that are entered. -/
structure Apt (K : Kinship) (s s' : State) : Prop where
  eval {c c' : Code} {l l' : Locals} (hs : s.control = .eval c l) (hs' : s'.control = .eval c' l') :
    K.Parts c l c' l'
  enter {f : Function} {args : List Value} {r : Nat} {params : List String} {c c' : Code}
    {cap cap' : Locals} (hs : s.control = .enter f args)
    (hb : s.world.heap.body f = .closure r params c cap) (h : K.closure params c cap c' cap') :
    K.code c (bindParams params args cap) c' (bindParams params args cap')

/-- One move leads from states that are akin to states that are akin. -/
theorem States.move (hh : host.Opaque) (h : K.States s s') (ha : K.Apt s s') :
    K.States (Machine.move host s) (Machine.move host s') := by
  obtain ⟨c, S, w⟩ := s
  obtain ⟨c', S', w'⟩ := s'
  obtain ⟨hc, hS, hw⟩ := h
  simp only at hc hS hw
  cases c with
  | eval code l =>
    cases c' with
    | eval code' l' => exact states_evalCode hS hw hh (ha.eval rfl rfl)
    | _ => cases hc
  | run f args =>
    obtain rfl : Control.run f args = c' := hc
    exact states_runFunction hS hw f args
  | enter f args =>
    obtain rfl : Control.enter f args = c' := hc
    exact states_enterFunction hS hw hh f args fun r params c c' cap cap' hb => ha.enter rfl hb
  | wait op held args =>
    obtain rfl : Control.wait op held args = c' := hc
    exact states_poll hS hw hh op held args
  | raise e =>
    obtain rfl : Control.raise e = c' := hc
    cases hS with
    | nil => exact ⟨rfl, .nil, hw⟩
    | cons hf hS => exact states_unwind hS hw hf e
  | give step =>
    obtain rfl : Control.give step = c' := hc
    cases hS with
    | nil => cases step <;> exact ⟨rfl, .nil, hw⟩
    | cons hf hS =>
      cases step with
      | done v => exact states_resumeFrame hS hw hh hf v
      | bounce f args =>
        cases hf with
        | keep => exact ⟨rfl, hS, hw⟩
        | _ => exact ⟨rfl, .cons (by constructor <;> assumption) hS, hw⟩

theorem States.result? (h : K.States s s') (mode : Mode) :
    Machine.result? mode s' = Machine.result? mode s := by
  obtain ⟨c, S, w⟩ := s
  obtain ⟨c', S', w'⟩ := s'
  obtain ⟨hc, hS, -⟩ := h
  simp only at hc hS
  cases c with
  | eval code l =>
    cases c' with
    | eval code' l' => cases mode <;> rfl
    | _ => cases hc
  | _ =>
    obtain rfl : _ = c' := hc
    cases hS <;> cases mode <;> rfl

theorem Parts.codeEffect? {c c' : Code} (h : K.Parts c l c' l') (hw : K.Worlds w w') :
    Machine.codeEffect? w' c' = Machine.codeEffect? w c := by
  obtain ⟨bs, rfl, -⟩ := hw
  cases h with
  | interop name h => cases h <;> rfl
  | _ => rfl

theorem Worlds.entryEffect? (hw : K.Worlds w w') (f : Function) (args : List Value) :
    Machine.entryEffect? w' f args = Machine.entryEffect? w f args := by
  have hr : w'.runtime = w.runtime := by
    obtain ⟨bs, rfl, -⟩ := hw
    rfl
  have hb := hw.body f
  rw [Machine.entryEffect?, Machine.entryEffect?, hr]
  generalize w.heap.body f = b at hb
  generalize w'.heap.body f = b' at hb
  cases hb <;> rfl

/-- Moves of states that are akin have the same effect. -/
theorem States.effect? (h : K.States s s') (ha : K.Apt s s') :
    Machine.effect? s' = Machine.effect? s := by
  obtain ⟨c, S, w⟩ := s
  obtain ⟨c', S', w'⟩ := s'
  obtain ⟨hc, hS, hw⟩ := h
  simp only at hc hS hw
  cases c with
  | eval code l =>
    cases c' with
    | eval code' l' => exact (ha.eval rfl rfl).codeEffect? hw
    | _ => cases hc
  | enter f args =>
    obtain rfl : Control.enter f args = c' := hc
    exact hw.entryEffect? f args
  | give step =>
    obtain rfl : Control.give step = c' := hc
    cases step with
    | bounce => rfl
    | done v =>
      cases hS with
      | nil => rfl
      | cons hf hS =>
        cases hf with
        | interop op done h => cases h <;> rfl
        | _ => rfl
  | _ =>
    obtain rfl : _ = c' := hc
    rfl

/-- Runs keep pace as long as every state on the way is apt. -/
theorem States.runs (hh : host.Opaque) (h : K.States s s')
    (ha : ∀ n es t t', Runs host mode n s es t → K.States t t' → K.Apt t t') {n : Nat}
    {es : List Effect} {t : State} (hr : Runs host mode n s es t) :
    ∃ t', Runs host mode n s' es t' ∧ K.States t t' := by
  induction hr generalizing s' with
  | refl s => exact ⟨s', .refl s', h⟩
  | @move n s t es hs _ ih =>
    have hs' : Machine.result? mode s' = none := (h.result? mode).trans hs
    have happ := ha 0 [] s s' (.refl s) h
    obtain ⟨t', ht', hk⟩ := ih (h.move hh happ) fun n es t t' hr => ha (n + 1) _ t t' (.move hs hr)
    refine ⟨t', ?_, hk⟩
    rw [← h.effect? happ]
    exact .move hs' ht'

/-- The same, seen from the other side. -/
theorem States.runs_inv (hh : host.Opaque) (h : K.States s s')
    (ha : ∀ n es t t', Runs host mode n s es t → K.States t t' → K.Apt t t') {n : Nat}
    {es : List Effect} {t' : State} (hr : Runs host mode n s' es t') :
    ∃ t, Runs host mode n s es t ∧ K.States t t' := by
  induction hr generalizing s with
  | refl s' => exact ⟨s, .refl s, h⟩
  | @move n s' t' es hs' _ ih =>
    have hs : Machine.result? mode s = none := (h.result? mode).symm.trans hs'
    have happ := ha 0 [] s s' (.refl s) h
    obtain ⟨t, ht, hk⟩ := ih (h.move hh happ) fun n es t t' hr => ha (n + 1) _ t t' (.move hs hr)
    refine ⟨t, ?_, hk⟩
    rw [h.effect? happ]
    exact .move hs ht

/-- States that are akin are driven to the same outcome, in worlds that are akin. -/
theorem States.drive (hh : host.Opaque) (h : K.States s s')
    (ha : ∀ n es t t', Runs host mode n s es t → K.States t t' → K.Apt t t') (fuel : Nat) :
    (Machine.drive host mode fuel s').1 = (Machine.drive host mode fuel s).1 ∧
      K.Worlds (Machine.drive host mode fuel s).2 (Machine.drive host mode fuel s').2 := by
  induction fuel generalizing s s' with
  | zero => exact ⟨rfl, h.world⟩
  | succ fuel ih =>
    have hr := h.result? mode
    cases hs : Machine.result? mode s with
    | none =>
      rw [hs] at hr
      rw [drive_succ hs, drive_succ hr]
      exact ih (h.move hh (ha 0 [] s s' (.refl s) h))
        fun n es t t' ht => ha (n + 1) _ t t' (.move hs ht)
    | some o =>
      rw [hs] at hr
      simp only [Machine.drive, hs, hr]
      exact ⟨trivial, h.world⟩

end Kinship

end KLambda
