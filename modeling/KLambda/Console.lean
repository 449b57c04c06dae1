import KLambda.Console.Path
import KLambda.Engine
import KLambda.Machine.Release

/-!
The command line: evaluate files, then read and evaluate lines until the input ends. A console goes
from stage to stage, and everything it reads and writes is part of its state: the standard
streams are streams of its heap, and files are on the heap's disk.
-/
namespace KLambda

/-- What the arguments ask for. -/
inductive Command where
  | version
  | help
  | unexpected (arg : String)
  | repeated (flag : String)
  | run (async prompt : Bool) (files : List String)
deriving DecidableEq, Repr

namespace Command

/-- Reads arguments in order; after `--` they are all files. -/
def parse (async quiet : Bool) (files : List String) : List String → Command
  | [] => .run async (!quiet) files
  | arg :: rest =>
    if arg = "--" then .run async (!quiet) (files ++ rest)
    else if arg = "--async" then
      if async then .repeated arg else parse true quiet files rest
    else if arg = "--no-repl" then
      if quiet then .repeated arg else parse async true files rest
    else if arg = "--version" || arg = "-V" then .version
    else if arg = "--help" || arg = "-h" then .help
    else if arg.startsWith "-" && arg ≠ "-" then .unexpected arg
    else parse async quiet (files ++ [arg]) rest

def ofArgs (args : List String) : Command := parse false false [] args

end Command

/-- What a console does next. -/
inductive Stage where
  | load (files : List String) (prompt : Bool)
  | greet
  | prompt
  | line
  | ended (code : UInt32)
deriving DecidableEq, Repr

structure Console where
  world : World
  input : StreamHandle
  output : StreamHandle
  errors : StreamHandle
  stage : Stage

namespace Console

def versionNumber : String := "0.1.0"

def options (input output errors : StreamHandle) (suspend : Bool) : Options where
  implementation := some "klam"
  release := some versionNumber
  os := some "linux"
  port := some versionNumber
  porters := some "Tom Waddington"
  stinput := some input
  stoutput := some output
  sterror := some errors
  openRead := some .disk
  openWrite := some .disk
  suspend := suspend

/-- A console with its standard streams, in the given stage. -/
def create (disk : Disk) (input : List ReadEvent) (now : Float) (suspend : Bool) (stage : Stage) :
    Console :=
  let (stdin, h) := { Heap.empty with disk }.stream ⟨"stdin", .input, .live (.reader input)⟩
  let (stdout, h) := h.stream ⟨"stdout", .output, .live (.buffer [] #[])⟩
  let (stderr, h) := h.stream ⟨"stderr", .output, .live (.buffer [] #[])⟩
  ⟨World.create h (options stdin stdout stderr suspend) 0 now, stdin, stdout, stderr, stage⟩

/-- Adds text to a standard stream, also after a program has closed it. -/
def print (c : Console) (s : StreamHandle) (text : String) : Console :=
  let t := c.world.heap.getStream s
  let append : Device → Device
    | .buffer input output => .buffer input (output ++ text.toUTF8.data)
    | p => p
  let link := match t.link with
    | .live p => Link.live (append p)
    | .closed p => .closed (append p)
    | l => l
  { c with world := { c.world with heap := c.world.heap.setStream s.id { t with link } } }

def say (c : Console) (text : String) : Console := c.print c.output text

def complain (c : Console) (text : String) : Console := c.print c.errors (text ++ "\n")

def usage : String := "Usage: klam [OPTIONS] [FILES]..."

def helpText : String :=
  "Evaluate KLambda files, then start a REPL\n\n" ++ usage ++ "\n\nArguments:\n" ++
  "  [FILES]...  Source files, evaluated in order\n\nOptions:\n" ++
  "      --async    Run in suspension-aware mode, awaiting asynchronous functions\n" ++
  "      --no-repl  Exit after evaluating the given files\n" ++
  "  -h, --help     Print help\n  -V, --version  Print version\n"

/-- A console that does what the arguments ask for. -/
def start (args : List String) (disk : Disk) (input : List ReadEvent) (now : Float) : Console :=
  let idle (code : UInt32) := create disk input now false (.ended code)
  let refuse (reason : String) :=
    (idle 2).complain
      ("error: " ++ reason ++ "\n\n" ++ usage ++ "\n\nFor more information, try '--help'.")
  match Command.ofArgs args with
  | .version => (idle 0).say ("klam " ++ versionNumber ++ "\n")
  | .help => (idle 0).say helpText
  | .unexpected arg => refuse ("unexpected argument '" ++ arg ++ "' found")
  | .repeated flag => refuse ("the argument '" ++ flag ++ "' cannot be used multiple times")
  | .run async prompt files => create disk input now async (.load files prompt)

/-- A console has no functions of its own to offer. -/
def host : Host where
  native _ _ _ h := (.ok .empty, h)
  async _ _ _ h := (.ready (.ok .empty), h)

/-- One move of a program. What it lets go of is lost at once. -/
def next : Mode → State → State := Machine.shed host

/-- Lets go of a value that was computed. -/
def forget (w : World) (v : Value) : World :=
  { w with heap := w.heap.release [v] w.roots }

def mode (w : World) : Mode := if w.options.suspend then .async else .sync

/-- Evaluates source text. -/
def eval (fuel : Nat) (w : World) (source : String) : Outcome Value × World :=
  w.evalSource (next (mode w)) (mode w) fuel source

def notUtf8 : String := "stream did not contain valid UTF-8"

/-- The text of a source file, or the reason why it cannot be read. -/
def readSource (d : Disk) (path : String) : Except String String :=
  match d.open? path with
  | .error e => .error e.text
  | .ok (.file name) =>
    match String.fromUTF8? ⟨d.contents name⟩ with
    | some s => .ok s
    | none => .error notUtf8
  | .ok _ => .error OsError.isADirectory.text

/-- Evaluates a file; only the extension `kl` is taken. -/
def evalFile (fuel : Nat) (w : World) (path : String) : Except String Unit × World :=
  match extension? path with
  | none => (.error ("Error: file '" ++ path ++ "' has no extension (expected .kl)"), w)
  | some ext =>
    if ext ≠ "kl" then
      (.error ("Error: unsupported file extension '." ++ ext ++ "' for '" ++ path ++ "'"), w)
    else
      let failed (e : Error) : Except String Unit :=
        .error ("Error in '" ++ path ++ "': " ++ e.message)
      let w := w.report (.loading path)
      match readSource w.heap.disk path with
      | .error cause => (failed (.stream (.io path cause)), w.miss path)
      | .ok source =>
        match eval fuel w source with
        | (.error e, w) => (failed e, w)
        | (.ok v, w) => (.ok (), forget w v)
        | (.exhausted, w) => (.ok (), w)

/-- Ends the program. Unless it failed, it lets go of the globals. -/
def finish (c : Console) (code : UInt32) : Console :=
  let w := c.world
  let heap := if code = 0 then w.heap.release w.roots [] else w.heap
  { c with world := { w with heap }, stage := .ended code }

/-- Takes bytes up to and with a newline; what is left of a line at the end counts too. -/
def takeLine : List ReadEvent → List UInt8 × List ReadEvent
  | .byte b :: rest =>
    if b == 10 then ([b], rest)
    else
      let (line, rest) := takeLine rest
      (b :: line, rest)
  | events => ([], events)

/-- The input that is left, whether or not a program has closed the stream. -/
def pending (c : Console) : List ReadEvent :=
  match (c.world.heap.getStream c.input).device? with
  | some (.reader script) => script
  | _ => []

def setPending (c : Console) (events : List ReadEvent) : Console :=
  let t := c.world.heap.getStream c.input
  let link := match t.link with
    | .closed _ => Link.closed (.reader events)
    | _ => .live (.reader events)
  { c with world := { c.world with heap := c.world.heap.setStream c.input.id { t with link } } }

/-- Evaluates a line and shows its value or its error; a blank line is passed over. -/
def evalLine (fuel : Nat) (c : Console) (text : String) : Console :=
  let source := String.ofList (Text.trim text.toList)
  if source.isEmpty then c
  else
    match eval fuel c.world source with
    | (.ok v, w) => { c with world := forget w v }.say (v.text ++ "\n")
    | (.error e, w) => { c with world := w }.complain ("Error: " ++ e.message)
    | (.exhausted, w) => { c with world := w }

/-- Does what the stage says and goes to the next. -/
def advance (fuel : Nat) (c : Console) : Console :=
  match c.stage with
  | .ended _ => c
  | .load [] prompt => if prompt then { c with stage := .greet } else c.finish 0
  | .load (path :: files) prompt =>
    match evalFile fuel c.world path with
    | (.ok (), w) => { c with world := w, stage := .load files prompt }
    | (.error message, w) => ({ c with world := w }.complain message).finish 1
  | .greet => { c.say ("klam v" ++ versionNumber ++ "\n") with stage := .prompt }
  | .prompt => { c.say "(klam) " with stage := .line }
  | .line =>
    match takeLine c.pending with
    | ([], _) => (c.say "\n").finish 0
    | (line, rest) =>
      let c := c.setPending rest
      match String.fromUTF8? ⟨line.toArray⟩ with
      | none => (c.complain ("Read error: " ++ notUtf8)).finish 0
      | some text => { c.evalLine fuel text with stage := .prompt }

/-- Advances to the end. Each file and each line takes a bounded number of stages. -/
def runAll (fuel : Nat) : Nat → Console → Console
  | 0, c => c
  | n + 1, c =>
    match c.stage with
    | .ended _ => c
    | _ => runAll fuel n (c.advance fuel)

/-- The number of stages that are enough for a console to end. -/
def stages (c : Console) : Nat :=
  2 * c.pending.length + 5 + match c.stage with
    | .load files _ => files.length
    | _ => 0

def run (fuel : Nat) (c : Console) : Console := runAll fuel c.stages c

def written (c : Console) (s : StreamHandle) : Array UInt8 :=
  ((c.world.heap.getStream s).device?.bind Device.written?).getD #[]

def exitCode (c : Console) : UInt32 :=
  match c.stage with
  | .ended code => code
  | _ => 0

end Console
end KLambda
