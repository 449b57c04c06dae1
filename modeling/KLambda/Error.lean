import KLambda.Form.Reader

/-! Everything that can go wrong, by cause, and the wording of each. -/
namespace KLambda

inductive StreamError where
  | closed (name : String)
  | notReadable (name : String)
  | notWritable (name : String)
  | unsupported (capability : String)
  | io (name cause : String)
deriving DecidableEq, Repr

def StreamError.message : StreamError → String
  | .closed n => "stream " ++ n ++ " is closed"
  | .notReadable n => "stream " ++ n ++ " is not open for reading"
  | .notWritable n => "stream " ++ n ++ " is not open for writing"
  | .unsupported c => c ++ " not supported"
  | .io n cause => "I/O error on stream " ++ n ++ ": " ++ cause

/-- What a special form was expected to have. -/
inductive Requirement where
  | operands (count : Nat)
  | someOperand
  | clausePairs
  | parameterList
  | binder (got : String)
deriving DecidableEq, Repr

def Requirement.text : Requirement → String
  | .operands n => "exactly " ++ toString n ++ " argument forms"
  | .someOperand => "at least 1 argument form"
  | .clausePairs => "clauses of exactly 2 forms"
  | .parameterList => "a parameter list"
  | .binder got => "a symbol to bind, not " ++ got

/-- The tables in which global names are looked up. -/
inductive GlobalTable where
  | functions
  | values
  | interop
deriving DecidableEq, Repr

def GlobalTable.text : GlobalTable → String
  | .functions => "function"
  | .values => "value"
  | .interop => "host function"

/-- What an engine may be unable to do. -/
inductive Capability where
  | openForReading
  | openForWriting
  | suspension
  | synchronousEvaluation
deriving DecidableEq, Repr

def Capability.text : Capability → String
  | .openForReading => "open(in)"
  | .openForWriting => "open(out)"
  | .suspension => "suspending call in synchronous mode"
  | .synchronousEvaluation => "synchronous evaluation in suspension-aware mode"

inductive ArithmeticError where
  | divisionByZero
  | notFinite (operation : String)
deriving DecidableEq, Repr

def ArithmeticError.text : ArithmeticError → String
  | .divisionByZero => "division by zero"
  | .notFinite op => op ++ " produced a non-finite result"

/-- Failures that no program text can cause in a live engine. -/
inductive Fault where
  | unboundLocal (name : String)
  | argumentCount (name : String) (given expected : Nat)
  | deadRuntime
  | noBody (name : String)
  | recheck (what : String)
deriving DecidableEq, Repr

def Fault.text : Fault → String
  | .unboundLocal n => "unbound local " ++ n
  | .argumentCount n given expected =>
    n ++ " called with " ++ toString given ++ " arguments, expected " ++ toString expected
  | .deadRuntime => "runtime has been dropped"
  | .noBody n => "function " ++ n ++ " has no implementation"
  | .recheck what => what ++ " index checked above"

inductive Error where
  | typeMismatch (expected got : String)
  | indexOutOfRange (index : Float) (length : Nat)
  | notCallable (got : String)
  | malformed (form : String) (requirement : Requirement)
  | invalidForm (got : String)
  | noConditionTrue
  | unbound (table : GlobalTable) (name : String)
  | unsupported (capability : Capability)
  | raised (message : String)
  | arithmetic (cause : ArithmeticError)
  | stream (e : StreamError)
  | read (e : ReadError)
  | internal (fault : Fault)

def Error.message : Error → String
  | .typeMismatch expected got => expected ++ " expected, got " ++ got
  | .indexOutOfRange i n =>
    "index " ++ Number.text i ++ " is not within bounds of length " ++ toString n
  | .notCallable got => "not a function: " ++ got
  | .malformed form r => form ++ " must have " ++ r.text
  | .invalidForm got => "invalid syntax: " ++ got
  | .noConditionTrue => "no condition was true"
  | .unbound table name => table.text ++ " " ++ name ++ " is not defined"
  | .unsupported c => c.text ++ " not supported"
  | .raised m => m
  | .arithmetic cause => "arithmetic error: " ++ cause.text
  | .stream e => e.message
  | .read e => e.message
  | .internal f => "internal error: " ++ f.text

/-- What is done in two parts gives a result exactly when both parts do. -/
theorem bind_eq_ok_iff {α β : Type} {x : Except Error α} {f : α → Except Error β} {b : β} :
    x >>= f = .ok b ↔ ∃ a, x = .ok a ∧ f a = .ok b := by
  cases x <;> simp [bind, Except.bind]

theorem map_eq_ok_iff {α β : Type} {x : Except Error α} {f : α → β} {b : β} :
    x.map f = .ok b ↔ ∃ a, x = .ok a ∧ f a = b := by
  cases x <;> simp [Except.map]

end KLambda
