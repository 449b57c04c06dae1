import KLambda.Console

/-!
A console whose input arrives bit by bit and whose files are fetched when they are asked for. A
stage that ran short of either is taken back and done again with more of it, so that what a stage
did only counts once it had all it needed.
-/
namespace KLambda.Console

/-- Stands after the input that has arrived, as long as there may be more. -/
def openEnd : ReadEvent := .failed "more input may follow"

/-- Has a stage used up what arrived, so that it may have needed more? -/
def starved (before after : Console) : Bool :=
  before.pending.contains openEnd && !after.pending.contains openEnd

/-- Is a whole line missing for the next stage? -/
def awaitsLine (c : Console) : Bool :=
  c.stage == .line && c.pending.contains openEnd && !c.pending.contains (.byte 10)

/-- Adds bytes that have arrived; none means that the input has ended. -/
def feed (c : Console) (bytes : List UInt8) : Console :=
  let arrived := c.pending.filter (· != openEnd)
  c.setPending <|
    if bytes.isEmpty then arrived else arrived ++ bytes.map .byte ++ [openEnd]

/-- The paths that led nowhere. -/
def missed (c : Console) : List String := c.world.heap.disk.missed

def withDisk (c : Console) (disk : Disk) : Console :=
  { c with world := { c.world with heap := { c.world.heap with disk } } }

def addFile (c : Console) (path : String) (bytes : Array UInt8) : Console :=
  let d := c.world.heap.disk
  c.withDisk { d with files := d.files.insert path bytes }

def addFolder (c : Console) (path : String) : Console :=
  let d := c.world.heap.disk
  c.withDisk { d with folders := path :: d.folders }

/-- The path and the directories above it, outermost first. -/
def ancestors (path : String) : List String :=
  let parts := path.splitOn "/"
  (List.range parts.length).map fun n => Disk.joined (parts.take (n + 1))

/-- The files that a stage made or changed. -/
def changed (before after : Console) : List (String × Array UInt8) :=
  after.world.heap.disk.files.entries.filter fun (name, bytes) =>
    before.world.heap.disk.files.get? name != some bytes

/-- Empties a standard stream of what was written to it. -/
def drain (c : Console) (s : StreamHandle) : Array UInt8 × Console :=
  let t := c.world.heap.getStream s
  let emptied : Device → Device
    | .buffer input _ => .buffer input #[]
    | p => p
  let link := match t.link with
    | .live p => Link.live (emptied p)
    | .closed p => .closed (emptied p)
    | l => l
  (c.written s,
    { c with world := { c.world with heap := c.world.heap.setStream s.id { t with link } } })

def setTime (c : Console) (now : Float) : Console := { c with world := { c.world with now } }

end KLambda.Console
