import FlowRegions.Json.Token

/-! # Printing JSON

A value is printed either compactly, as its tokens without blanks, or indented, with one item or
member to a line.
-/

namespace FlowRegions

namespace Json

namespace Value

mutual

/-- The tokens of a value. -/
def tokens : Value → List Token
  | .null => [.null]
  | .bool b => [.bool b]
  | .natural n => [.natural n]
  | .number written => [.number written]
  | .string s => [.string s]
  | .array [] => [.openArray, .closeArray]
  | .array (v :: items) => .openArray :: (v.tokens ++ itemTokens items)
  | .object [] => [.openObject, .closeObject]
  | .object ((k, v) :: members) =>
    .openObject :: .string k :: .colon :: (v.tokens ++ memberTokens members)

/-- The tokens of the further items of an array, up to its end. -/
def itemTokens : List Value → List Token
  | [] => [.closeArray]
  | v :: items => .comma :: (v.tokens ++ itemTokens items)

/-- The tokens of the further members of an object, up to its end. -/
def memberTokens : List (Content × Value) → List Token
  | [] => [.closeObject]
  | (k, v) :: members => .comma :: .string k :: .colon :: (v.tokens ++ memberTokens members)

end

/-- The text of a value without blanks. -/
def compact (v : Value) : String := .ofList (v.tokens.flatMap Token.written)

/-- The start of a line that is indented by two blanks a step. -/
def newline (depth : Nat) : List Char := '\n' :: List.replicate (2 * depth) ' '

mutual

/-- The text of a value with every item and member on its own line. -/
def indented (depth : Nat) : Value → List Char
  | .null => Token.null.written
  | .bool b => (Token.bool b).written
  | .natural n => (Token.natural n).written
  | .number written => (Token.number written).written
  | .string s => (Token.string s).written
  | .array [] => ['[', ']']
  | .array (v :: items) =>
    '[' :: (newline (depth + 1) ++ (indented (depth + 1) v ++ indentedItems depth items))
  | .object [] => ['\x7b', '\x7d']
  | .object ((k, v) :: members) =>
    '\x7b' :: (newline (depth + 1) ++ ((Token.string k).written ++ [':', ' '] ++
      (indented (depth + 1) v ++ indentedMembers depth members)))

/-- The further items of an array, up to its end. -/
def indentedItems (depth : Nat) : List Value → List Char
  | [] => newline depth ++ [']']
  | v :: items =>
    ',' :: (newline (depth + 1) ++ (indented (depth + 1) v ++ indentedItems depth items))

/-- The further members of an object, up to its end. -/
def indentedMembers (depth : Nat) : List (Content × Value) → List Char
  | [] => newline depth ++ ['\x7d']
  | (k, v) :: members =>
    ',' :: (newline (depth + 1) ++ ((Token.string k).written ++ [':', ' '] ++
      (indented (depth + 1) v ++ indentedMembers depth members)))

end

/-- The text of a value with two blanks of indentation a level. -/
def pretty (v : Value) : String := .ofList (v.indented 0)

end Value

end Json

end FlowRegions
