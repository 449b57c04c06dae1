import KLambda.Disk

/-!
Devices: where a stream's bytes come from and go to. A scripted reader or writer answers each
request by the next event of its script, and a file is read and written in blocks.
-/
namespace KLambda

/-- One answer of a scripted reader. -/
inductive ReadEvent where
  | byte (b : UInt8)
  | interrupted
  | ended
  | failed (cause : String)
deriving DecidableEq, Repr

/-- One answer of a scripted writer. -/
inductive WriteEvent where
  | accepted
  | interrupted
  | nothing
  | failed (cause : String)
deriving DecidableEq, Repr

/-- How the flushes of a scripted writer end: each as the script says, and all of them alike once it
has run out. -/
structure FlushScript where
  answers : List (Except String Unit)
  fails : Bool

/-- Flushes that all end alike. -/
instance : Coe Bool FlushScript := ⟨fun fails => ⟨[], fails⟩⟩

def FlushScript.next : FlushScript → Except String Unit × FlushScript
  | ⟨[], false⟩ => (.ok (), ⟨[], false⟩)
  | ⟨[], true⟩ => (.error "flush failed", ⟨[], true⟩)
  | ⟨answer :: answers, fails⟩ => (answer, ⟨answers, fails⟩)

inductive Device where
  | buffer (input : List UInt8) (output : Array UInt8)
  | reader (script : List ReadEvent)
  | writer (script : List WriteEvent) (flushing : FlushScript) (written : Array UInt8)
      (flushes : Nat)
  | source (file : String) (offset : Nat) (block : List UInt8)
  | sink (file : String) (offset : Nat) (pending : Array UInt8)
  | broken (cause : String)

namespace Device

/-- The bytes that a file moves at a time. -/
def blockSize : Nat := 8192

/-- The next answer that is not an interruption; a script that has run out has ended. -/
def nextByte : List ReadEvent → Except String (Option UInt8) × List ReadEvent
  | [] => (.ok none, [])
  | .byte b :: script => (.ok (some b), script)
  | .ended :: script => (.ok none, script)
  | .failed cause :: script => (.error cause, script)
  | .interrupted :: script => nextByte script

/-- Offers one byte until it is taken or refused; a script that has run out takes it. -/
def offer : List WriteEvent → Except String Unit × List WriteEvent
  | [] => (.ok (), [])
  | .accepted :: script => (.ok (), script)
  | .nothing :: script => (.error "failed to write whole buffer", script)
  | .failed cause :: script => (.error cause, script)
  | .interrupted :: script => offer script

/-- The next byte, or none at the end. -/
def read (p : Device) (d : Disk) : Except String (Option UInt8) × Device :=
  match p with
  | .buffer [] output => (.ok none, .buffer [] output)
  | .buffer (b :: input) output => (.ok (some b), .buffer input output)
  | .reader script =>
    let (answer, script) := nextByte script
    (answer, .reader script)
  | .source file offset (b :: block) => (.ok (some b), .source file offset block)
  | .source file offset [] =>
    match ((d.contents file).extract offset (offset + blockSize)).toList with
    | [] => (.ok none, .source file offset [])
    | b :: block => (.ok (some b), .source file (offset + block.length + 1) block)
  | .broken cause => (.error cause, p)
  | p => (.error "write-only port", p)

/-- Sends what is held back to where it belongs. -/
def flush (p : Device) (d : Disk) : Except String Unit × Device × Disk :=
  match p with
  | .writer script flushing written flushes =>
    match flushing.next with
    | (.ok (), flushing) => (.ok (), .writer script flushing written (flushes + 1), d)
    | (.error cause, flushing) => (.error cause, .writer script flushing written flushes, d)
  | .sink file offset pending =>
    if pending.isEmpty then (.ok (), p, d)
    else (.ok (), .sink file (offset + pending.size) #[], d.writeAt file offset pending)
  | p => (.ok (), p, d)

/-- Takes one byte, without flushing. -/
def push (p : Device) (d : Disk) (b : UInt8) : Except String Unit × Device × Disk :=
  match p with
  | .buffer input output => (.ok (), .buffer input (output.push b), d)
  | .writer script flushing written flushes =>
    match offer script with
    | (.ok (), script) => (.ok (), .writer script flushing (written.push b) flushes, d)
    | (.error cause, script) => (.error cause, .writer script flushing written flushes, d)
  | .sink file offset pending =>
    if pending.size < blockSize then (.ok (), .sink file offset (pending.push b), d)
    else
      (.ok (), .sink file (offset + pending.size) #[b], d.writeAt file offset pending)
  | p => (.error "read-only port", p, d)

/-- Writes one byte; a newline is flushed, and fails with the flush though it was taken. -/
def write (p : Device) (d : Disk) (b : UInt8) : Except String Unit × Device × Disk :=
  match p.push d b with
  | (.error cause, p, d) => (.error cause, p, d)
  | (.ok (), p, d) => if b == 10 then p.flush d else (.ok (), p, d)

/-- Everything written so far, if the device can be written to. -/
def written? : Device → Option (Array UInt8)
  | .buffer _ output => some output
  | .writer _ _ written _ => some written
  | _ => none

end Device
end KLambda
