import KLambda.Machine

/-!
Driving a state to its end. Both ways of driving take the same steps; they differ only at a
suspension, which ends a synchronous run with an error that no program can trap, and which an
asynchronous run sits out.
-/
namespace KLambda

inductive Mode where
  | sync
  | async
deriving DecidableEq, Repr

/-- How a run ended; `exhausted` if it did not within its allowance of steps. -/
inductive Outcome (α : Type) where
  | ok (a : α)
  | error (e : Error)
  | exhausted

namespace Outcome

variable {α β : Type}

def map (f : α → β) : Outcome α → Outcome β
  | .ok a => .ok (f a)
  | .error e => .error e
  | .exhausted => .exhausted

def ofExcept : Except Error α → Outcome α
  | .ok a => .ok a
  | .error e => .error e

end Outcome

namespace Machine

/-- The answer of a state that is at its end. Only a synchronous run ends at a suspension. -/
def result? (mode : Mode) (s : State) : Option (Outcome Step) :=
  match s.control, s.stack, mode with
  | .give step, [], _ => some (.ok step)
  | .raise e, [], _ => some (.error e)
  | .wait .., _, .sync => some (.error (.unsupported .suspension))
  | _, _, _ => none

/-- One move of a run: a step, or the next try at a suspended call. -/
def move (host : Host) (s : State) : State :=
  match s.control with
  | .wait .. => resume host s
  | _ => step host s

/-- A host stands for the machine that calls it. -/
instance : Coe Host (State → State) := ⟨move⟩

/-- Repeats a move until a state is at its end. -/
def drive (next : State → State) (mode : Mode) : Nat → State → Outcome Step × World
  | 0, s => (.exhausted, s.world)
  | fuel + 1, s =>
    match result? mode s with
    | some r => (r, s.world)
    | none => drive next mode fuel (next s)

/-- The value that a settled run ends with. A bounce never reaches the bottom of a stack that
starts with a frame that settles. -/
def valueOf : Outcome Step × World → Outcome Value × World
  | (.ok (.done v), w) => (.ok v, w)
  | (.ok (.bounce f _), w) => (.ok (.function f), w)
  | (.error e, w) => (.error e, w)
  | (.exhausted, w) => (.exhausted, w)

/-- Drives a control to a value. -/
def settle (next : State → State) (mode : Mode) (fuel : Nat) (control : Control) (w : World) :
    Outcome Value × World :=
  valueOf (drive next mode fuel ⟨control, [.settle []], w⟩)

end Machine
end KLambda
