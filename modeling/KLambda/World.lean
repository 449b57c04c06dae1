import KLambda.Code.Compile
import KLambda.Heap

/-!
The state of an engine: the heap, the tables of global names, the options it was made with, and a
record of what it reported.
-/
namespace KLambda

/-- Where files opened for reading come from. -/
inductive FileSource where
  | listed (files : Table (Array UInt8))
  | disk

/-- Where files opened for writing go. -/
inductive FileSink where
  | memory
  | disk
deriving DecidableEq, Repr

structure Options where
  implementation : Option String := none
  release : Option String := none
  os : Option String := none
  port : Option String := none
  porters : Option String := none
  stinput : Option StreamHandle := none
  stoutput : Option StreamHandle := none
  sterror : Option StreamHandle := none
  openRead : Option FileSource := none
  openWrite : Option FileSink := none
  clock : Option Float := none
  suspend : Bool := false

/-- What an engine reports while it works. -/
inductive Report where
  | compiling (form : String)
  | defined (name : String)
  | redefined (name : String)
  | registered (name : String)
  | created (suspend : Bool)
  | loading (path : String)
  | unconfigured (capability : Capability) (path : String)
  | partialApplication (name : String) (count : Nat)
deriving DecidableEq, Repr

namespace Report

def level : Report → String
  | .compiling _ | .partialApplication .. => "TRACE"
  | .unconfigured .. => "WARN"
  | _ => "DEBUG"

def text : Report → String
  | .compiling form => "compiling " ++ form
  | .defined name => "defined function " ++ name
  | .redefined name => "redefined function " ++ name
  | .registered name => "registered host function " ++ name
  | .created suspend => "runtime created (" ++ (if suspend then "async" else "sync") ++ " mode)"
  | .loading path => "loading " ++ path
  | .unconfigured c path => c.text ++ " requested for " ++ path ++ " but not configured"
  | .partialApplication name count =>
    "partial application of " ++ name ++ " with " ++ toString count ++ " argument(s)"

end Report

structure World where
  heap : Heap
  functions : Table Function
  values : Table Value
  interop : Table String
  options : Options
  runtime : Nat
  reports : Array Report
  started : Float
  now : Float

namespace World

def report (w : World) (r : Report) : World := { w with reports := w.reports.push r }

def function? (w : World) (name : String) : Except Error Function :=
  match w.functions.get? name with
  | some f => .ok f
  | none => .error (.unbound .functions name)

def value? (w : World) (name : String) : Except Error Value :=
  match w.values.get? name with
  | some v => .ok v
  | none => .error (.unbound .values name)

def interop? (w : World) (name : String) : Except Error String :=
  match w.interop.get? name with
  | some op => .ok op
  | none => .error (.unbound .interop name)

def define (w : World) (name : String) (f : Function) : World :=
  let known := w.functions.contains name
  { w with functions := w.functions.insert name f }.report
    (if known then .redefined name else .defined name)

def setValue (w : World) (name : String) (v : Value) : World :=
  { w with values := w.values.insert name v }

/-- Makes a function with a new body. -/
def makeFunction (w : World) (name : String) (arity : Option Nat) (body : Body) :
    Function × World :=
  let (f, heap) := w.heap.function name arity body
  (f, { w with heap })

/-- Functions stand for themselves, and symbols for the global functions they name. -/
def callable (w : World) : Value → Except Error Function
  | .function f => .ok f
  | .symbol name => w.function? name
  | v => .error (.notCallable v.text)

/-- A function that waits for the rest of its arguments. -/
def partialApply (w : World) (target : Function) (bound : List Value) : Function × World :=
  (w.report (.partialApplication target.name bound.length)).makeFunction target.name
    (target.arity.map (· - bound.length)) (.partialOf target bound)

/-- Compiles a form at top level. -/
def compileForm (w : World) (form : Value) : Except Error Code × World :=
  (compile w.values.contains .toplevel form, w.report (.compiling form.text))

/-- Notes that a path led nowhere. -/
def miss (w : World) (path : String) : World :=
  { w with heap := { w.heap with disk := w.heap.disk.miss path } }

/-- Opens a file for reading. -/
def openForReading (w : World) (path : String) : Except Error StreamHandle × World :=
  let opened (device : Device) : Except Error StreamHandle × World :=
    let (s, heap) := w.heap.stream ⟨path, .input, .live device⟩
    (.ok s, { w with heap })
  match w.options.openRead with
  | none =>
    (.error (.unsupported .openForReading), w.report (.unconfigured .openForReading path))
  | some (.listed files) =>
    match files.get? path with
    | some bytes => opened (.buffer bytes.toList #[])
    | none => (.error (.stream (.io path "no such file")), w)
  | some .disk =>
    match w.heap.disk.open? path with
    | .ok (.file name) => opened (.source name 0 [])
    | .ok _ => opened (.broken OsError.isADirectory.text)
    | .error e => (.error (.stream (.io path e.text)), w.miss path)

/-- Opens a file for writing, empty from now on. -/
def openForWriting (w : World) (path : String) : Except Error StreamHandle × World :=
  match w.options.openWrite with
  | none =>
    (.error (.unsupported .openForWriting), w.report (.unconfigured .openForWriting path))
  | some .memory =>
    let (s, heap) := w.heap.stream ⟨path, .output, .live (.buffer [] #[])⟩
    (.ok s, { w with heap })
  | some .disk =>
    match w.heap.disk.create path with
    | .ok (name, disk) =>
      let (s, heap) := { w.heap with disk }.stream ⟨path, .output, .live (.sink name 0 #[])⟩
      (.ok s, { w with heap })
    | .error e => (.error (.stream (.io path e.text)), w.miss path)

end World
end KLambda
