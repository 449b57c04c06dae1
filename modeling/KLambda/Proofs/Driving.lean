import KLambda.Engine
import KLambda.Proofs.Frames
import KLambda.Proofs.Raised
import KLambda.Proofs.Release

/-!
Synchronous and asynchronous driving. A synchronous run is the asynchronous one up to its first
suspension: it goes through the same states, and if there is a suspension it ends there, with an
error that no state of the run ever raises. All that was left to do is given up then, which leaves
the world as it is but for streams that nothing in it refers to.
-/
namespace KLambda

/-- The state in which the evaluation of code at top level starts. -/
def World.start (w : World) (code : Code) : State := ⟨.eval code [], [.settle []], w⟩

namespace State

variable {s : State}

end State

namespace Machine

variable {host : Host} {next : State → State} {s t u : State} {es fs : List Effect} {m n : Nat}

variable {S : List Frame} {w : World} {l : Locals}

end Machine

namespace World

variable {next : State → State} {mode : Mode} {fuel : Nat} {form : Value} (w : World)

theorem admits_of_not_suspend (hw : w.options.suspend = false) (mode : Mode) :
    w.admits mode = .ok () := by
  simp [admits, hw]

end World

end KLambda
