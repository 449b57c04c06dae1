import KLambda.Text.Glyph

/-! Quoted text: a string between quotes, with escapes for what could not be read otherwise. -/
namespace KLambda.Text

/-- The code of a character in lower-case hexadecimal. -/
def hexCode (c : Char) : String := String.ofList (Nat.toDigits 16 c.toNat)

def escape (c : Char) : String :=
  if c = '"' then "\\\""
  else if c = '\\' then "\\\\"
  else if c = '\n' then "\\n"
  else if c = '\r' then "\\r"
  else if c = '\t' then "\\t"
  else if c = '\x00' then "\\0"
  else if hasGlyph c then String.singleton c
  else "\\u\x7b" ++ hexCode c ++ "\x7d"

def quote (s : String) : String := "\"" ++ String.join (s.toList.map escape) ++ "\""

end KLambda.Text
