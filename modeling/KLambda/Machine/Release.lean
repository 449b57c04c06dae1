import KLambda.Machine.Drive
import KLambda.Machine.Reach

/-!
What happens to a stream when nothing refers to it any more: it is flushed and closed. Streams that
are lost together are lost one after the other, each when the last reference to it goes. Vectors
that contain themselves, and what they refer to, are never let go.
-/
namespace KLambda

/-- Streams in the order in which they are lost, found from the last reference back to the first;
`marks` are what is kept and what has been met. -/
structure Parting where
  marks : Marks
  streams : List Nat

namespace Parting

/-- Goes back through the references below a value, leaving what nodes refer to to `below`. A cell
lets go of the cells behind it, from front to back, before its own head. -/
def visit (below : Node → Parting → Parting) : (behind : Bool) → Value → Parting → Parting
  | false, .cons _ head tail, p => visit below true tail (visit below false head p)
  | true, .cons _ head tail, p => visit below false head (visit below true tail p)
  | _, .vector id _, p => below (.vector id) p
  | _, .function f, p => below (.body f.id) p
  | _, .stream s, p =>
    if p.marks.has (.stream s.id) then p
    else ⟨p.marks.add (.stream s.id), s.id :: p.streams⟩
  | _, _, p => p

/-- Goes back through references whose nodes are nested at most `depth` deep. -/
def visitTo (h : Heap) : Nat → Value → Parting → Parting
  | 0 => fun _ p => p
  | depth + 1 => visit (fun n p =>
      if p.marks.has n then p
      else (h.parts n).foldr (visitTo h depth) ⟨p.marks.add n, p.streams⟩) false

end Parting

/-- The file that a stream writes to, and whether it holds bytes back. -/
def Stream.sink? (s : Stream) : Option (String × Bool) :=
  match s.link with
  | .live (.sink file _ pending) => some (file, !pending.isEmpty)
  | _ => none

/-- Has a stream taken bytes that have not reached its file? -/
def Stream.holdsBack (s : Stream) : Bool := s.sink?.any (·.2)

namespace Heap

/-- The streams outside `kept` that go with `refs`, in the order in which they are lost. -/
def partings (h : Heap) (kept : Marks) (refs : List Value) : List Nat :=
  (refs.foldr (Parting.visitTo h (h.vectors.size + h.bodies.size + 1)) ⟨kept, []⟩).streams

/-- Flushes and closes a stream, whatever comes of it. -/
def lose (h : Heap) (id : Nat) : Heap :=
  match h.streams[id]? with
  | some s =>
    match s.link with
    | .live p =>
      let (_, p, disk) := p.flush h.disk
      { h.setStream id { s with link := .closed p } with disk }
    | _ => h
  | none => h

/-- Does a stream hold bytes back that nothing in reach of `roots` refers to? -/
def losesBytes (h : Heap) (roots : List Value) : Bool :=
  h.streams.toList.any Stream.holdsBack &&
    let kept := h.reachable roots
    h.streams.toList.zipIdx.any fun (s, id) => s.holdsBack && !kept.has (.stream id)

/-- Loses the streams out of reach of `roots`, those that go with `refs` last, if that can be told:
a stream that holds nothing back is lost without a trace. -/
def release (h : Heap) (refs roots : List Value) : Heap :=
  if h.losesBytes roots then
    let kept := h.reachable (roots ++ h.cyclic)
    let last := h.partings kept refs
    let first := (List.range h.streams.size).filter fun id =>
      !kept.has (.stream id) && !last.contains id
    (first ++ last).foldl lose h
  else h

end Heap

namespace State

/-- What the next step puts another value in the place of. -/
def overwritten (s : State) : List Value :=
  match s.control, s.stack with
  | .give (.done _), .setGlobal name _ :: _ => (s.world.values.get? name).toList
  | .enter f args, _ =>
    match s.world.heap.body f, args with
    | .primitive _ .set, [.symbol name, _] => (s.world.values.get? name).toList
    | .primitive _ .vectorSet, [.vector id size, index, _] =>
      match index.toIndex size with
      | .ok i => (s.world.heap.elements id)[i]?.toList
      | .error _ => []
    | _, _ => []
  | _, _ => []

/-- The references that the next step may let go of, in the order in which it does. -/
def loose (s : State) : List Value :=
  s.overwritten ++ s.control.roots ++ (s.stack.take 1).flatMap Frame.roots

/-- What a state refers to, apart from the globals. -/
def holdings (s : State) : List Value := s.control.roots ++ s.stack.flatMap Frame.roots

/-- Loses the streams out of reach of `roots`, those that go with `refs` last. -/
def release (s : State) (refs roots : List Value) : State :=
  { s with world := { s.world with heap := s.world.heap.release refs roots } }

/-- The state after a step, without the streams that the step let go of. -/
def letGo (before after : State) : State := after.release before.loose after.roots

/-- The state after all that was left to do is given up, which is let go of from the inside out. -/
def abandon (s : State) : State := s.release s.holdings s.world.roots

/-- A run that may not suspend is over when it does. -/
def isGivenUp (mode : Mode) (s : State) : Bool :=
  match s.control, mode with
  | .wait .., .sync => true
  | _, _ => false

end State

namespace Machine

/-- A move of a machine that owns what it refers to: it loses what nothing refers to any more. -/
def shed (host : Host) (mode : Mode) (s : State) : State :=
  let t := s.letGo (move host s)
  if t.isGivenUp mode then t.abandon else t

end Machine
end KLambda
