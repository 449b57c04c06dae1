/-! The built-in functions: their names, their arities and the order they are defined in. -/
namespace KLambda

inductive Primitive where
  | choose | and | or
  | openStream | close | readByte | writeByte
  | isNumber | isString | isSymbol | isVector | isCons | equal
  | hd | tl | cons
  | tlstr | cn | stringToN | nToString | pos | str
  | vector | vectorGet | vectorSet
  | add | sub | mul | div | gt | lt | ge | le
  | intern | set | value | annotate
  | getTime | simpleError | errorToString
deriving DecidableEq, Repr

namespace Primitive

def name : Primitive → String
  | .choose => "if" | .and => "and" | .or => "or"
  | .openStream => "open" | .close => "close" | .readByte => "read-byte"
  | .writeByte => "write-byte"
  | .isNumber => "number?" | .isString => "string?" | .isSymbol => "symbol?"
  | .isVector => "absvector?" | .isCons => "cons?" | .equal => "="
  | .hd => "hd" | .tl => "tl" | .cons => "cons"
  | .tlstr => "tlstr" | .cn => "cn" | .stringToN => "string->n" | .nToString => "n->string"
  | .pos => "pos" | .str => "str"
  | .vector => "absvector" | .vectorGet => "<-absvector" | .vectorSet => "absvector->"
  | .add => "+" | .sub => "-" | .mul => "*" | .div => "/"
  | .gt => ">" | .lt => "<" | .ge => ">=" | .le => "<="
  | .intern => "intern" | .set => "set" | .value => "value" | .annotate => "type"
  | .getTime => "get-time" | .simpleError => "simple-error"
  | .errorToString => "error-to-string"

def arity : Primitive → Nat
  | .choose | .vectorSet => 3
  | .close | .readByte | .isNumber | .isString | .isSymbol | .isVector | .isCons | .hd | .tl
  | .tlstr | .stringToN | .nToString | .str | .vector | .intern | .value | .getTime
  | .simpleError | .errorToString => 1
  | _ => 2

/-- Every primitive once, in the order of definition. -/
def all : List Primitive :=
  [.choose, .and, .or, .openStream, .close, .readByte, .writeByte, .isNumber, .isString, .isSymbol,
    .isVector, .isCons, .equal, .hd, .tl, .cons, .tlstr, .cn, .stringToN, .nToString, .pos, .str,
    .vector, .vectorGet, .vectorSet, .add, .sub, .mul, .div, .gt, .lt, .ge, .le, .intern, .set,
    .value, .annotate, .getTime, .simpleError, .errorToString]

end Primitive
end KLambda
