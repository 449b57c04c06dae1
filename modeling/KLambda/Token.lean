import KLambda.Number.Text

/-! Tokens of source text, and the positions they are reported at. -/
namespace KLambda

inductive Token where
  | opening
  | closing
  | number (n : Float)
  | str (s : String)
  | symbol (s : String)

/-- The source text of a token. -/
def Token.text : Token → String
  | .opening => "("
  | .closing => ")"
  | .number n => Number.text n
  | .str s => "\"" ++ s ++ "\""
  | .symbol s => s

/-- A place in source text, both counts starting at one. -/
structure Position where
  line : Nat
  column : Nat
deriving DecidableEq, Repr

namespace Position

def start : Position := ⟨1, 1⟩

/-- The place after a character: columns count characters, lines count newlines. -/
def advance (p : Position) (c : Char) : Position :=
  if c == '\n' then ⟨p.line + 1, 1⟩ else ⟨p.line, p.column + 1⟩

def past (p : Position) (cs : List Char) : Position := cs.foldl advance p

def text (p : Position) : String := toString p.line ++ ":" ++ toString p.column

end Position
end KLambda
