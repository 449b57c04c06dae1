import KLambda.Number.Read
import KLambda.Text.Blank
import KLambda.Token

/-!
From characters to tokens. Blanks and comments are skipped before each token; a comment runs from
`\*` to the next `*\`, and only starts where a token could. A string has no escapes, and every
other run of characters up to a delimiter is a number or a symbol.
-/
namespace KLambda

inductive LexFault where
  | unterminatedString
  | unterminatedComment
deriving DecidableEq, Repr

def LexFault.text : LexFault → String
  | .unterminatedString => "unterminated string"
  | .unterminatedComment => "unterminated comment"

/-- A failed scan, reported at one place and stopped at another, the end of the text. -/
structure LexError where
  fault : LexFault
  place : Position
  stop : Position
deriving DecidableEq, Repr

def LexError.message (e : LexError) : String :=
  "Lexer error at " ++ e.place.text ++ ": " ++ e.fault.text

/-- Whether skipping is outside a comment, or in one and just past a star. -/
inductive Trivia where
  | outside
  | comment (star : Bool)

namespace Lexer

/-- Skips blanks and comments. An open comment fails at the end of the text. -/
def skip : Trivia → Position → List Char → Except Position (Position × List Char)
  | .outside, p, '\\' :: '*' :: cs => skip (.comment false) ((p.advance '\\').advance '*') cs
  | .outside, p, c :: cs =>
    if Text.isBlank c then skip .outside (p.advance c) cs else .ok (p, c :: cs)
  | .outside, p, [] => .ok (p, [])
  | .comment star, p, c :: cs =>
    if star && c == '\\' then skip .outside (p.advance c) cs
    else skip (.comment (c == '*')) (p.advance c) cs
  | .comment _, p, [] => .error p

def inAtom (c : Char) : Bool := !(Text.isBlank c || c == '(' || c == ')' || c == '"')

/-- An atom is a number exactly when it is spelled as one. -/
def atom (cs : List Char) : Token :=
  match Number.ofLexeme? cs with
  | some n => .number n
  | none => .symbol (String.ofList cs)

/-- The next token, where it ends and what is left. -/
inductive Next where
  | done (stop : Position)
  | token (token : Token) (stop : Position) (rest : List Char)
  | failed (e : LexError)

/-- Reads one token at a place that is no blank and starts no comment. -/
def lexeme (p : Position) : List Char → Next
  | [] => .done p
  | '(' :: cs => .token .opening (p.advance '(') cs
  | ')' :: cs => .token .closing (p.advance ')') cs
  | '"' :: cs =>
    match cs.dropWhile (· != '"') with
    | [] => .failed ⟨.unterminatedString, p, p.past ('"' :: cs)⟩
    | q :: rest =>
      let text := cs.takeWhile (· != '"')
      .token (.str (String.ofList text)) ((p.past ('"' :: text)).advance q) rest
  | c :: cs =>
    .token (atom (c :: cs.takeWhile inAtom)) (p.past (c :: cs.takeWhile inAtom))
      (cs.dropWhile inAtom)

def next (p : Position) (cs : List Char) : Next :=
  match skip .outside p cs with
  | .error stop => .failed ⟨.unterminatedComment, stop, stop⟩
  | .ok (p, cs) => lexeme p cs

theorem length_skip_le {t : Trivia} {p q : Position} {cs rest : List Char}
    (h : skip t p cs = .ok (q, rest)) : rest.length ≤ cs.length := by
  fun_induction skip t p cs with
  | case1 p cs ih => exact Nat.le_trans (ih h) (Nat.le_add_right _ 2)
  | case2 p c cs _ _ ih => exact Nat.le_trans (ih h) (by simp)
  | case3 | case4 => cases h; simp
  | case5 star p c cs _ ih => exact Nat.le_trans (ih h) (by simp)
  | case6 star p c cs _ ih => exact Nat.le_trans (ih h) (by simp)
  | case7 => cases h

theorem length_dropWhile_le (f : Char → Bool) (cs : List Char) :
    (cs.dropWhile f).length ≤ cs.length :=
  (List.dropWhile_sublist f).length_le

theorem length_lexeme_lt {p q : Position} {cs rest : List Char} {t : Token}
    (h : lexeme p cs = .token t q rest) : rest.length < cs.length := by
  unfold lexeme at h
  split at h
  · cases h
  · cases h; simp
  · cases h; simp
  · rename_i cs
    split at h
    · cases h
    · rename_i q r hr
      cases h
      have := length_dropWhile_le (· != '"') cs
      simp_all
      omega
  · rename_i cs _ _ _
    cases h
    have := length_dropWhile_le inAtom cs
    simp
    omega

theorem length_next_lt {p q : Position} {cs rest : List Char} {t : Token}
    (h : next p cs = .token t q rest) : rest.length < cs.length := by
  unfold next at h
  split at h
  · cases h
  · exact Nat.lt_of_lt_of_le (length_lexeme_lt h) (length_skip_le ‹_›)

end Lexer

/-- A token with the place where the one before it ended and the place where it ends itself. -/
structure Lexeme where
  token : Token
  before : Position
  after : Position

/-- All of a source text: its tokens up to the end, or up to a failure. -/
structure Lexed where
  lexemes : List Lexeme
  failure : Option LexError
  stop : Position

namespace Lexed

def scan (p : Position) (cs : List Char) : Lexed :=
  match _h : Lexer.next p cs with
  | .done stop => ⟨[], none, stop⟩
  | .failed e => ⟨[], some e, e.stop⟩
  | .token t stop rest =>
    let r := scan stop rest
    ⟨⟨t, p, stop⟩ :: r.lexemes, r.failure, r.stop⟩
termination_by cs.length
decreasing_by exact Lexer.length_next_lt _h

def ofSource (source : String) : Lexed := scan .start source.toList

/-- The tokens of a text without a lexical fault. -/
def tokens? (l : Lexed) : Option (List Token) :=
  match l.failure with
  | none => some (l.lexemes.map Lexeme.token)
  | some _ => none

end Lexed
end KLambda
