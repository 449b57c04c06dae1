import KLambda.Primitive.Call

/-!
Evaluation of code, one step at a time. The stack holds what is left to do with the value that is
being computed. A call in tail position is handed back as a bounce, and the frame that wants the
value performs it, so tail calls take no room on the stack. A host function may suspend; the state
then waits to be resumed. A frame also says which values are kept until it is left; the steps
themselves lose nothing, and what becomes of streams that nothing refers to any more is added to
them by `Machine.shed`.
-/
namespace KLambda

/-- What a piece of code comes to: a value, or a call that is yet to be made. -/
inductive Step where
  | done (v : Value)
  | bounce (f : Function) (args : List Value)

/-- What a host function that may suspend comes to: a result, or the work to go on with. -/
inductive Reply where
  | ready (result : Except Error Value)
  | later (op : String) (held : List Value)

/-- The functions of the host, by name. They are given the values they hold and their arguments, and
work on the heap: functions that set globals, or that evaluate code themselves, are no part of this.
-/
structure Host where
  native : String → List Value → List Value → Heap → Except Error Value × Heap
  async : String → List Value → List Value → Heap → Reply × Heap

/-- What to do with the value of a part. -/
inductive Frame where
  | settle (locals : Locals)
  | all (rest : List Code) (locals : Locals)
  | any (rest : List Code) (locals : Locals)
  | branch (yes no : Code) (locals : Locals)
  | cond (consequent : Code) (rest : List (Code × Code)) (default : Option Code) (locals : Locals)
  | letIn (name : String) (body : Code) (locals : Locals)
  | seq (rest : List Code) (last : Code) (locals : Locals)
  | trap (handler : Handler) (position : CallPosition) (locals : Locals)
  | handle (caught : Value) (position : CallPosition) (locals : Locals)
  | setGlobal (name : String) (locals : Locals)
  | callee (args : List Code) (position : CallPosition) (locals : Locals)
  | args (f : Function) (done : List Value) (rest : List Code) (position : CallPosition)
      (locals : Locals)
  | interop (op : String) (done : List Value) (rest : List Code) (locals : Locals)
  | surplus (f : Function) (args : List Value)
  | keep (values : List Value)
  | forms (last : Value) (rest : List Form)

/-- What happens next. -/
inductive Control where
  | eval (code : Code) (locals : Locals)
  | run (f : Function) (args : List Value)
  | enter (f : Function) (args : List Value)
  | give (s : Step)
  | raise (e : Error)
  | wait (op : String) (held args : List Value)

structure State where
  control : Control
  stack : List Frame
  world : World

namespace Machine

variable (stack : List Frame) (w : World)

def giveValue (v : Value) : State := ⟨.give (.done v), stack, w⟩

def ofResult (r : Except Error Value) : State :=
  match r with
  | .ok v => ⟨.give (.done v), stack, w⟩
  | .error e => ⟨.raise e, stack, w⟩

def local? (locals : Locals) (name : String) : Except Error Value :=
  match Table.find name locals with
  | some v => .ok v
  | none => .error (.internal (.unboundLocal name))

/-- Binds parameters to arguments, as far as there are both. Of equal names the last is bound. -/
def bindParams (params : List String) (args : List Value) (captured : Locals) : Locals :=
  Locals.visible (params.zip args).reverse ++ captured

/-- A call in tail position is handed back, one in head position is made and settled here. -/
def call (f : Function) (args : List Value) (position : CallPosition) (locals : Locals) : State :=
  match position with
  | .tail => ⟨.give (.bounce f args), stack, w⟩
  | .head => ⟨.run f args, .settle locals :: stack, w⟩

/-- Evaluates the arguments that are left, then calls. -/
def evalArgs (f : Function) (done : List Value) (rest : List Code) (position : CallPosition)
    (locals : Locals) : State :=
  match rest with
  | [] => call stack w f done.reverse position locals
  | c :: rest => ⟨.eval c locals, .args f done rest position locals :: stack, w⟩

/-- Evaluates the arguments that are left, then calls the host. -/
def evalInterop (host : Host) (op : String) (done : List Value) (rest : List Code)
    (locals : Locals) : State :=
  match rest with
  | [] =>
    let (r, heap) := host.native op [] done.reverse w.heap
    ofResult stack { w with heap } r
  | c :: rest => ⟨.eval c locals, .interop op done rest locals :: stack, w⟩

/-- Makes a closure of this runtime, which captures every name that it can see. -/
def closure (name : String) (params : List String) (code : Code) (locals : Locals) :
    Function × World :=
  w.makeFunction name (some params.length) (.closure w.runtime params code locals.visible)

/-- Goes into a piece of code. -/
def evalCode (host : Host) (code : Code) (locals : Locals) : State :=
  match code with
  | .const l => giveValue stack w l.value
  | .local name => ofResult stack w (local? locals name)
  | .all [] => giveValue stack w (.bool true)
  | .all (c :: rest) => ⟨.eval c locals, .all rest locals :: stack, w⟩
  | .any [] => giveValue stack w (.bool false)
  | .any (c :: rest) => ⟨.eval c locals, .any rest locals :: stack, w⟩
  | .branch test yes no => ⟨.eval test locals, .branch yes no locals :: stack, w⟩
  | .cond [] none => ⟨.raise .noConditionTrue, stack, w⟩
  | .cond [] (some consequent) => ⟨.eval consequent locals, stack, w⟩
  | .cond ((test, consequent) :: rest) default =>
    ⟨.eval test locals, .cond consequent rest default locals :: stack, w⟩
  | .letIn name value body => ⟨.eval value locals, .letIn name body locals :: stack, w⟩
  | .seq [] last => ⟨.eval last locals, stack, w⟩
  | .seq (c :: rest) last => ⟨.eval c locals, .seq rest last locals :: stack, w⟩
  | .lambda name param body =>
    let (f, w) := closure w name [param] body locals
    giveValue stack w (.function f)
  | .freeze name body =>
    let (f, w) := closure w name [] body locals
    giveValue stack w (.function f)
  | .trap body handler position =>
    ⟨.eval body locals, .trap handler position locals :: stack, w⟩
  | .defun name params body =>
    let (f, w) := closure w name params body []
    giveValue stack (w.define name f) (.symbol name)
  | .globalValue name => ofResult stack w (w.value? name)
  | .setGlobal name value => ⟨.eval value locals, .setGlobal name locals :: stack, w⟩
  | .call (.global name) args position =>
    match w.function? name with
    | .error e => ⟨.raise e, stack, w⟩
    | .ok f => evalArgs stack w f [] args position locals
  | .call (.local name) args position =>
    match (local? locals name).bind w.callable with
    | .error e => ⟨.raise e, stack, w⟩
    | .ok f => evalArgs stack w f [] args position locals
  | .call (.computed head) args position =>
    ⟨.eval head locals, .callee args position locals :: stack, w⟩
  | .interop name args =>
    match w.interop? name with
    | .error e => ⟨.raise e, stack, w⟩
    | .ok op => evalInterop stack w host op [] args locals

/-- Applies a function to arguments by its arity: none at all gives the function itself, too few a
function of the rest, and what is left over goes to the result, until which the function is kept. -/
def runFunction (f : Function) (args : List Value) : State :=
  match f.arity with
  | none => ⟨.enter f args, stack, w⟩
  | some n =>
    if args.isEmpty && 0 < n then giveValue stack w (.function f)
    else if args.length < n then
      let (g, w) := w.partialApply f args
      giveValue stack w (.function g)
    else if n < args.length then ⟨.enter f (args.take n), .surplus f (args.drop n) :: stack, w⟩
    else ⟨.enter f args, stack, w⟩

/-- Compiles a form and goes into its code. -/
def evalForm (form : Value) : State :=
  match w.compileForm form with
  | (.error e, w) => ⟨.raise e, stack, w⟩
  | (.ok code, w) => ⟨.eval code [], stack, w⟩

/-- Calls, or goes on with, a host function that may suspend. -/
def poll (host : Host) (op : String) (held args : List Value) : State :=
  match host.async op held args w.heap with
  | (.ready r, heap) => ofResult stack { w with heap } r
  | (.later op held, heap) => ⟨.wait op held args, stack, { w with heap }⟩

/-- Goes into a function with exactly these arguments. -/
def enterFunction (host : Host) (f : Function) (args : List Value) : State :=
  match w.heap.body f with
  | .primitive runtime op =>
    if runtime = w.runtime then
      let (r, w) := op.call args w
      ofResult stack w r
    else ⟨.raise (.internal .deadRuntime), stack, w⟩
  | .evaluator runtime =>
    if runtime = w.runtime then
      evalForm (.settle [] :: .keep [args.headD .empty] :: stack) w (args.headD .empty)
    else ⟨.raise (.internal .deadRuntime), stack, w⟩
  | .closure runtime params code captured =>
    if runtime = w.runtime then ⟨.eval code (bindParams params args captured), stack, w⟩
    else ⟨.raise (.internal .deadRuntime), stack, w⟩
  | .partialOf target bound => ⟨.run target (bound ++ args), stack, w⟩
  | .native op held =>
    let (r, heap) := host.native op held args w.heap
    ofResult stack { w with heap } r
  | .async op held => poll stack w host op held args
  | .missing => ⟨.raise (.internal (.noBody f.name)), stack, w⟩

/-- Goes on with the value that a frame was waiting for. -/
def resumeFrame (host : Host) (frame : Frame) (v : Value) : State :=
  match frame with
  | .settle _ => giveValue stack w v
  | .all rest locals =>
    match v.toBool with
    | .error e => ⟨.raise e, stack, w⟩
    | .ok true => ⟨.eval (.all rest) locals, stack, w⟩
    | .ok false => giveValue stack w (.bool false)
  | .any rest locals =>
    match v.toBool with
    | .error e => ⟨.raise e, stack, w⟩
    | .ok true => giveValue stack w (.bool true)
    | .ok false => ⟨.eval (.any rest) locals, stack, w⟩
  | .branch yes no locals =>
    match v.toBool with
    | .error e => ⟨.raise e, stack, w⟩
    | .ok true => ⟨.eval yes locals, stack, w⟩
    | .ok false => ⟨.eval no locals, stack, w⟩
  | .cond consequent rest default locals =>
    match v.toBool with
    | .error e => ⟨.raise e, stack, w⟩
    | .ok true => ⟨.eval consequent locals, stack, w⟩
    | .ok false => ⟨.eval (.cond rest default) locals, stack, w⟩
  | .letIn name body locals => ⟨.eval body ((name, v) :: locals), stack, w⟩
  | .seq rest last locals => ⟨.eval (.seq rest last) locals, stack, w⟩
  | .trap .. => giveValue stack w v
  | .handle caught position locals =>
    match w.callable v with
    | .error e => ⟨.raise e, stack, w⟩
    | .ok f => call stack w f [caught] position locals
  | .setGlobal name _ => giveValue stack (w.setValue name v) v
  | .callee args position locals =>
    match w.callable v with
    | .error e => ⟨.raise e, stack, w⟩
    | .ok f => evalArgs stack w f [] args position locals
  | .args f done rest position locals => evalArgs stack w f (v :: done) rest position locals
  | .interop op done rest locals => evalInterop stack w host op (v :: done) rest locals
  | .surplus f args =>
    match v with
    | .function g => ⟨.run g args, .keep [.function f] :: stack, w⟩
    | v => ⟨.raise (.notCallable v.text), stack, w⟩
  | .keep _ => giveValue stack w v
  | .forms _ [] => giveValue stack w v
  | .forms _ (form :: rest) =>
    let (form, heap) := form.build w.heap
    evalForm (.forms v rest :: stack) { w with heap } form

/-- Passes an error through a frame. Only a trap stops it, and hands its handler a new error value
with the message. -/
def unwind (e : Error) (frame : Frame) : State :=
  match frame with
  | .trap handler position locals =>
    let (caught, heap) := w.heap.error e.message
    match handler with
    | .bind param body => ⟨.eval body ((param, caught) :: locals), stack, { w with heap }⟩
    | .apply function =>
      ⟨.eval function locals, .handle caught position locals :: stack, { w with heap }⟩
  | _ => ⟨.raise e, stack, w⟩

/-- One step. A state that is finished or waiting stays as it is. -/
def step (host : Host) (s : State) : State :=
  match s with
  | ⟨.eval code locals, stack, w⟩ => evalCode stack w host code locals
  | ⟨.run f args, stack, w⟩ => runFunction stack w f args
  | ⟨.enter f args, stack, w⟩ => enterFunction stack w host f args
  | ⟨.give (.done v), frame :: stack, w⟩ => resumeFrame stack w host frame v
  | ⟨.give (.bounce f args), .keep _ :: stack, w⟩ => ⟨.give (.bounce f args), stack, w⟩
  | ⟨.give (.bounce f args), frame :: stack, w⟩ => ⟨.run f args, frame :: stack, w⟩
  | ⟨.raise e, frame :: stack, w⟩ => unwind stack w e frame
  | s => s

/-- Goes on with a suspended host call. -/
def resume (host : Host) (s : State) : State :=
  match s with
  | ⟨.wait op held args, stack, w⟩ => poll stack w host op held args
  | s => s

end Machine
end KLambda
