import KLambda.Form
import KLambda.Token.Lexer

/-!
From tokens to forms. The reader looks one token ahead, so a lexical fault is met when the token
before it is taken; the lists that are open at a point are kept on a stack, innermost first.
-/
namespace KLambda

inductive ReadFault where
  | lexical (fault : LexFault)
  | unexpectedClose
  | unclosed
deriving DecidableEq, Repr

def ReadFault.text : ReadFault → String
  | .lexical f => f.text
  | .unexpectedClose => "unexpected ')'"
  | .unclosed => "unclosed '('"

structure ReadError where
  fault : ReadFault
  place : Position
deriving DecidableEq, Repr

def ReadError.message (e : ReadError) : String :=
  "Parse error at " ++ e.place.text ++ ": " ++ e.fault.text

def LexError.toReadError (e : LexError) : ReadError := ⟨.lexical e.fault, e.place⟩

/-- A list whose end has not been read: the place it is reported at, which is where the token
before its parenthesis ended, and its items so far, last first. -/
structure OpenList where
  place : Position
  items : List Form

namespace OpenList

def push (o : OpenList) (f : Form) : OpenList := ⟨o.place, f :: o.items⟩

def close (o : OpenList) : Form := .list o.items.reverse

end OpenList

/-- The tokens still to be read, and the fault that follows them. -/
structure Reader where
  pending : List Lexeme
  failure : Option LexError

namespace Reader

/-- The first token is looked at straight away, so a fault in it is met here. -/
def ofSource (source : String) : Except ReadError Reader :=
  let l := Lexed.ofSource source
  match l.lexemes, l.failure with
  | [], some e => .error e.toReadError
  | lexemes, failure => .ok ⟨lexemes, failure⟩

/-- Where a token leads: to a complete form, to lists that are still open, or nowhere. -/
inductive Shift where
  | complete (f : Form)
  | within (stack : List OpenList)
  | stray

/-- A form ends the reading unless a list is open, which then takes it as its next item. -/
def put (f : Form) : List OpenList → Shift
  | [] => .complete f
  | o :: stack => .within (o.push f :: stack)

def shift (l : Lexeme) (stack : List OpenList) : Shift :=
  match l.token, stack with
  | .opening, stack => .within (⟨l.before, []⟩ :: stack)
  | .closing, [] => .stray
  | .closing, o :: stack => put o.close stack
  | .number n, stack => put (.number n) stack
  | .str s, stack => put (.str s) stack
  | .symbol s, stack => put (.symbol s) stack

/-- The next form, if there is one, and the tokens left after it or after the fault. -/
def take (failure : Option LexError) : List OpenList → List Lexeme →
    Except ReadError (Option Form) × List Lexeme
  | [], [] => (.ok none, [])
  | o :: _, [] => (.error ⟨.unclosed, o.place⟩, [])
  | stack, l :: rest =>
    match rest, failure with
    | [], some e => (.error e.toReadError, [])
    | _, _ =>
      match shift l stack with
      | .complete f => (.ok (some f), rest)
      | .within stack => take failure stack rest
      | .stray => (.error ⟨.unexpectedClose, l.after⟩, rest)

theorem length_take_lt {failure : Option LexError} {stack : List OpenList}
    {ls rest : List Lexeme} {f : Form} (h : take failure stack ls = (.ok (some f), rest)) :
    rest.length < ls.length := by
  fun_induction take failure stack ls with
  | case1 | case2 | case3 | case6 => simp at h
  | case4 => simp_all
  | case5 _ _ _ _ _ _ ih => exact Nat.lt_succ_of_lt (ih h)

/-- One form, also after a fault: reading goes on with the tokens that are left. -/
def read (r : Reader) : Except ReadError (Option Form) × Reader :=
  let (result, rest) := take r.failure [] r.pending
  (result, { r with pending := rest })

/-- Every form that is left, or the first fault. -/
def readAll (failure : Option LexError) (ls : List Lexeme) : Except ReadError (List Form) :=
  match _h : take failure [] ls with
  | (.error e, _) => .error e
  | (.ok none, _) => .ok []
  | (.ok (some f), rest) =>
    match readAll failure rest with
    | .error e => .error e
    | .ok fs => .ok (f :: fs)
termination_by ls.length
decreasing_by exact length_take_lt _h

end Reader

namespace Form

/-- The first form of a source text. -/
def first? (source : String) : Except ReadError (Option Form) :=
  match Reader.ofSource source with
  | .error e => .error e
  | .ok r => r.read.1

/-- Every form of a source text; a fault anywhere loses them all. -/
def all (source : String) : Except ReadError (List Form) :=
  match Reader.ofSource source with
  | .error e => .error e
  | .ok r => Reader.readAll r.failure r.pending

end Form
end KLambda
