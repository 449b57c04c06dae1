import KLambda.Machine

/-!
What can still be used. Everything in reach of the globals and of the running program is found by
following every reference. The references that a control or a frame holds are listed in the order
in which they are let go.
-/
namespace KLambda

/-- What a reference can lead to in the heap. -/
inductive Node where
  | vector (id : Nat)
  | body (id : Nat)
  | stream (id : Nat)

/-- A set of nodes. -/
structure Marks where
  vectors : Array Bool
  bodies : Array Bool
  streams : Array Bool

namespace Marks

def none (h : Heap) : Marks :=
  ⟨Array.replicate h.vectors.size false, Array.replicate h.bodies.size false,
    Array.replicate h.streams.size false⟩

/-- What is in no heap counts as marked. -/
def has (m : Marks) : Node → Bool
  | .vector id => m.vectors.getD id true
  | .body id => m.bodies.getD id true
  | .stream id => m.streams.getD id true

def add (m : Marks) : Node → Marks
  | .vector id => { m with vectors := m.vectors.setIfInBounds id true }
  | .body id => { m with bodies := m.bodies.setIfInBounds id true }
  | .stream id => { m with streams := m.streams.setIfInBounds id true }

end Marks

/-- What a node refers to, in the order in which it lets go. -/
def Heap.parts (h : Heap) : Node → List Value
  | .vector id => (h.elements id).toList
  | .body id =>
    match h.bodies.getD id .missing with
    | .closure _ _ _ captured => captured.map (·.2)
    | .partialOf target bound => .function target :: bound
    | .native _ held | .async _ held => held
    | _ => []
  | .stream _ => []

/-- The nodes that have been reached, and those of them whose parts have not been followed yet. -/
structure Reach where
  marks : Marks
  todo : List Node

namespace Reach

def addNode (r : Reach) (n : Node) : Reach :=
  if r.marks.has n then r else ⟨r.marks.add n, n :: r.todo⟩

def add (r : Reach) : Value → Reach
  | .cons _ head tail => (r.add head).add tail
  | .vector id _ => r.addNode (.vector id)
  | .function f => r.addNode (.body f.id)
  | .stream s => r.addNode (.stream s.id)
  | _ => r

/-- Follows the nodes that are left; each one is met once, so their number bounds the work. -/
def follow (h : Heap) : Nat → Reach → Marks
  | 0, r => r.marks
  | fuel + 1, r =>
    match r.todo with
    | [] => r.marks
    | n :: todo => follow h fuel ((h.parts n).foldl add ⟨r.marks, todo⟩)

end Reach

namespace Heap

/-- Everything in reach of `roots`. -/
def reachable (h : Heap) (roots : List Value) : Marks :=
  Reach.follow h (h.vectors.size + h.bodies.size + h.streams.size)
    (roots.foldl Reach.add ⟨.none h, []⟩)

/-- The vectors that can be reached from their own elements. -/
def cyclic (h : Heap) : List Value :=
  (List.range h.vectors.size).filterMap fun id =>
    if (h.reachable (h.elements id).toList).has (.vector id) then
      some (.vector id (h.elements id).size)
    else none

end Heap

/-- The values that global names and options lead to. -/
def World.roots (w : World) : List Value :=
  w.functions.entries.map (fun e => .function e.2) ++ w.values.entries.map (·.2) ++
    [w.options.stinput, w.options.stoutput, w.options.sterror].filterMap (·.map .stream)

def Locals.values (locals : Locals) : List Value := locals.map (·.2)

def Frame.roots : Frame → List Value
  | .settle l | .all _ l | .any _ l | .branch _ _ l | .cond _ _ _ l | .letIn _ _ l | .seq _ _ l
  | .trap _ _ l | .setGlobal _ l | .callee _ _ l => Locals.values l
  | .handle caught _ l => caught :: Locals.values l
  | .args f vs _ _ l => vs.reverse ++ .function f :: Locals.values l
  | .interop _ vs _ l => vs.reverse ++ Locals.values l
  | .surplus f rest => .function f :: rest
  | .keep vs => vs
  | .forms last _ => [last]

def Control.roots : Control → List Value
  | .eval _ l => Locals.values l
  | .run f args | .enter f args => args ++ [.function f]
  | .give (.done v) => [v]
  | .give (.bounce f args) => .function f :: args
  | .raise _ => []
  | .wait _ held args => held ++ args

def State.roots (s : State) : List Value :=
  s.control.roots ++ s.stack.flatMap Frame.roots ++ s.world.roots

end KLambda
