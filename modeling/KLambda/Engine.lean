import KLambda.Machine.Drive
import KLambda.Text.Quoted

/-!
Engines: making one from options, evaluating source text and forms in it, calling its functions,
and giving it functions of the host.
-/
namespace KLambda

namespace Options

/-- What an unset text option reads as. -/
def unknown : String := "Unknown"

/-- The text options under the names that programs find them by. -/
def texts (o : Options) : List (String × String) :=
  [("*implementation*", o.implementation.getD unknown), ("*release*", o.release.getD unknown),
    ("*os*", o.os.getD unknown), ("*port*", o.port.getD unknown),
    ("*porters*", o.porters.getD unknown)]

/-- The standard streams, each with its name and what is missing when it is not set. -/
def streams (o : Options) : List (Option StreamHandle × String × String) :=
  [(o.stinput, "stinput", "standard input"), (o.stoutput, "stoutput", "standard output"),
    (o.sterror, "sterror", "standard error")]

/-- A one-line description of everything but the streams. -/
def describe (o : Options) : String :=
  let text (name : String) (s : Option String) := name ++ ": " ++ Text.quote (s.getD unknown)
  let flag (name : String) (b : Bool) := name ++ ": " ++ toString b
  "Options \x7b " ++ ", ".intercalate
    [text "implementation" o.implementation, text "release" o.release, text "os" o.os,
      text "port" o.port, text "porters" o.porters, flag "open_read" o.openRead.isSome,
      flag "open_write" o.openWrite.isSome, flag "clock" o.clock.isSome,
      flag "suspend" o.suspend] ++ " \x7d"

end Options

namespace World

def definePrimitive (w : World) (p : Primitive) : World :=
  let (f, w) := w.makeFunction p.name (some p.arity) (.primitive w.runtime p)
  w.define p.name f

def defineEvaluator (w : World) : World :=
  let (f, w) := w.makeFunction "eval-kl" (some 1) (.evaluator w.runtime)
  w.define "eval-kl" f

def setText (w : World) (entry : String × String) : World := w.setValue entry.1 (.str entry.2)

/-- A standard stream that is not set is one whose every use fails. -/
def setStandardStream (w : World) (entry : Option StreamHandle × String × String) : World :=
  match entry with
  | (some s, name, _) => w.setValue ("*" ++ name ++ "*") (.stream s)
  | (none, name, capability) =>
    let (s, heap) := w.heap.stream (.unavailable name capability)
    { w with heap }.setValue ("*" ++ name ++ "*") (.stream s)

/-- A new runtime on a heap, with the primitives and the constants defined. -/
def create (heap : Heap) (options : Options) (runtime : Nat) (now : Float) : World :=
  let bare : World :=
    { heap, functions := .empty, values := .empty, interop := .empty, options, runtime,
      reports := #[], started := now, now }
  let w := (Primitive.all.foldl definePrimitive bare).defineEvaluator
  let w := options.texts.foldl setText (w.setValue "*language*" (.str "Rust"))
  let w := options.streams.foldl setStandardStream w
  w.report (.created options.suspend)

/-- Replaces the runtime by a new one. Values of the old one stay, but its functions are dead. -/
def restart (w : World) (heap : Heap) (options : Options) : World :=
  create heap options (w.runtime + 1) w.now

/-- An engine that expects suspensions cannot be driven synchronously. -/
def admits (w : World) (mode : Mode) : Except Error Unit :=
  if mode = .sync && w.options.suspend then .error (.unsupported .synchronousEvaluation)
  else .ok ()

variable (next : State → State) (mode : Mode) (fuel : Nat)

/-- Evaluates one form. -/
def evalForm (w : World) (form : Value) : Outcome Value × World :=
  match w.admits mode with
  | .error e => (.error e, w)
  | .ok () =>
    match w.compileForm form with
    | (.error e, w) => (.error e, w)
    | (.ok code, w) => Machine.settle next mode fuel (.eval code []) w

/-- Evaluates forms in order; the value is that of the last, or empty. -/
def evalForms (w : World) (forms : List Form) : Outcome Value × World :=
  Machine.valueOf
    (Machine.drive next mode fuel ⟨.give (.done .empty), [.forms .empty forms], w⟩)

/-- Evaluates source text. Nothing is evaluated unless all of it can be read. -/
def evalSource (w : World) (source : String) : Outcome Value × World :=
  match w.admits mode with
  | .error e => (.error e, w)
  | .ok () =>
    match Form.all source with
    | .error e => (.error (.read e), w)
    | .ok forms => w.evalForms next mode fuel forms

/-- Evaluates a file, given its text or the reason why there is none. -/
def evalFile (w : World) (path : String) (content : Except String String) :
    Outcome Value × World :=
  let w := w.report (.loading path)
  match content with
  | .error cause => (.error (.stream (.io path cause)), w)
  | .ok source => w.evalSource next mode fuel source

/-- Applies a value to arguments. -/
def apply (w : World) (f : Value) (args : List Value) : Outcome Value × World :=
  match w.admits mode with
  | .error e => (.error e, w)
  | .ok () =>
    match w.callable f with
    | .error e => (.error e, w)
    | .ok f => Machine.settle next mode fuel (.run f args) w

/-- Calls a global function by name. -/
def call (w : World) (name : String) (args : List Value) : Outcome Value × World :=
  w.apply next mode fuel (.symbol name) args

/-- Settles a deferred call without suspending. -/
def settleCall (w : World) (f : Value) (args : List Value) : Outcome Value × World :=
  match w.callable f with
  | .error e => (.error e, w)
  | .ok f => Machine.settle next .sync fuel (.give (.bounce f args)) w

/-- One application by arity, not settled. -/
def runOnce (w : World) (f : Value) (args : List Value) : Outcome Step × World :=
  match w.callable f with
  | .error e => (.error e, w)
  | .ok f => Machine.drive next .async fuel ⟨.run f args, [], w⟩

/-- One entry of a function whatever its arity, not settled. -/
def enterOnce (w : World) (f : Value) (args : List Value) : Outcome Step × World :=
  match w.callable f with
  | .error e => (.error e, w)
  | .ok f => Machine.drive next .async fuel ⟨.enter f args, [], w⟩

omit next mode fuel

/-- Calls a function of the interop table. -/
def callInterop (host : Host) (w : World) (name : String) (args : List Value) :
    Except Error Value × World :=
  match w.interop? name with
  | .error e => (.error e, w)
  | .ok op =>
    let (r, heap) := host.native op [] args w.heap
    (r, { w with heap })

def registerNative (w : World) (name : String) (arity : Option Nat) (op : String) : World :=
  let (f, w) := w.makeFunction name arity (.native op [])
  w.define name f

def registerAsync (w : World) (name : String) (arity : Option Nat) (op : String) : World :=
  let (f, w) := w.makeFunction name arity (.async op [])
  w.define name f

def registerInterop (w : World) (name op : String) : World :=
  { w.report (.registered name) with interop := w.interop.insert name op }

end World
end KLambda
