import KLambda.Error
import KLambda.Device
import KLambda.Value

/-!
Streams: a port with the direction it was opened for. Closing a stream puts its port out of reach,
though the port stays for whoever made it. A stream knows nothing of its port but that it can be
read, written and closed, each of which may fail.
-/
namespace KLambda

/-- What a stream reads from and writes to. -/
class Port (π : Type) where
  /-- The next byte, or none at the end. -/
  read : π → Disk → Except String (Option UInt8) × π
  write : π → Disk → UInt8 → Except String Unit × π × Disk
  close : π → Disk → Except String Unit × π × Disk

/-- A device has nothing to close but what it holds back. -/
instance : Port Device where
  read := Device.read
  write := Device.write
  close := Device.flush

/-- What stands behind a stream. -/
inductive Link (π : Type) where
  | unsupported (capability : String)
  | live (port : π)
  | closed (port : π)

structure StreamOf (π : Type) where
  name : String
  direction : Direction
  link : Link π

/-- A stream on one of the devices. -/
abbrev Stream := StreamOf Device

namespace StreamOf

variable {π : Type}

/-- A stream that stands for something the host does not offer. -/
def unavailable (name capability : String) : StreamOf π := ⟨name, .both, .unsupported capability⟩

def isClosed (s : StreamOf π) : Bool :=
  match s.link with
  | .closed _ => true
  | _ => false

/-- The port behind a stream, whether it is still in reach or not. -/
def port? (s : StreamOf π) : Option π :=
  match s.link with
  | .unsupported _ => none
  | .live p | .closed p => some p

def withPort (s : StreamOf π) (p : π) : StreamOf π := { s with link := .live p }

def ioError (s : StreamOf π) (cause : String) : StreamError := .io s.name cause

variable [Port π]

/-- The next byte, or none at the end. The direction is checked before anything else. -/
def read (s : StreamOf π) (d : Disk) : Except StreamError (Option UInt8) × StreamOf π :=
  match s.link with
  | .unsupported c => (.error (.unsupported c), s)
  | .closed _ =>
    if s.direction.readable then (.error (.closed s.name), s)
    else (.error (.notReadable s.name), s)
  | .live p =>
    if s.direction.readable then
      match Port.read p d with
      | (.ok b, p) => (.ok b, s.withPort p)
      | (.error cause, p) => (.error (s.ioError cause), s.withPort p)
    else (.error (.notReadable s.name), s)

def write (s : StreamOf π) (d : Disk) (b : UInt8) : Except StreamError Unit × StreamOf π × Disk :=
  match s.link with
  | .unsupported c => (.error (.unsupported c), s, d)
  | .closed _ =>
    if s.direction.writable then (.error (.closed s.name), s, d)
    else (.error (.notWritable s.name), s, d)
  | .live p =>
    if s.direction.writable then
      match Port.write p d b with
      | (.ok (), p, d) => (.ok (), s.withPort p, d)
      | (.error cause, p, d) => (.error (s.ioError cause), s.withPort p, d)
    else (.error (.notWritable s.name), s, d)

/-- Closes the port and puts it out of reach. A stream whose port fails to close stays open. -/
def close (s : StreamOf π) (d : Disk) : Except StreamError Unit × StreamOf π × Disk :=
  match s.link with
  | .unsupported c => (.error (.unsupported c), s, d)
  | .closed _ => (.error (.closed s.name), s, d)
  | .live p =>
    match Port.close p d with
    | (.ok (), p, d) => (.ok (), { s with link := .closed p }, d)
    | (.error cause, p, d) => (.error (s.ioError cause), s.withPort p, d)

end StreamOf

namespace Stream

def device? (s : Stream) : Option Device := s.port?

end Stream
end KLambda
