import FlowRegions.Json.Value

/-! # JSON tokens

A JSON text is a sequence of tokens with blanks between them. Strings are written with the short
escapes where there are any, other control characters as `\u` escapes in lower-case hexadecimal,
and everything else as it is.
-/

namespace FlowRegions

namespace Json

/-- A unit of a JSON text. -/
inductive Token where
  | openArray
  | closeArray
  | openObject
  | closeObject
  | comma
  | colon
  | null
  | bool (b : Bool)
  | natural (n : Nat)
  | number (written : String)
  | string (s : Content)
deriving DecidableEq, Repr

/-- A hexadecimal digit in lower case. -/
def hexDigit (n : Nat) : Char := if n < 10 then .ofNat (48 + n) else .ofNat (87 + n)

/-- How a character is written inside a string. -/
def escape (c : Char) : List Char :=
  if c = '"' then ['\\', '"']
  else if c = '\\' then ['\\', '\\']
  else if c = '\x08' then ['\\', 'b']
  else if c = '\t' then ['\\', 't']
  else if c = '\n' then ['\\', 'n']
  else if c = '\x0c' then ['\\', 'f']
  else if c = '\r' then ['\\', 'r']
  else if c.toNat < 32 then ['\\', 'u', '0', '0', hexDigit (c.toNat / 16), hexDigit (c.toNat % 16)]
  else [c]

/-- How the content of a string is written between the quotes. -/
def Content.written : Content → List Char
  | .text s => s.toList.flatMap escape
  | .illFormed => ['\\', 'u', 'd', '8', '0', '0']

/-- How a token is written. -/
def Token.written : Token → List Char
  | .openArray => ['[']
  | .closeArray => [']']
  | .openObject => ['\x7b']
  | .closeObject => ['\x7d']
  | .comma => [',']
  | .colon => [':']
  | .null => ['n', 'u', 'l', 'l']
  | .bool true => ['t', 'r', 'u', 'e']
  | .bool false => ['f', 'a', 'l', 's', 'e']
  | .natural n => n.repr.toList
  | .number written => written.toList
  | .string s => '"' :: (s.written ++ ['"'])

end Json

end FlowRegions
