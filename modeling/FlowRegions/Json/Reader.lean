import FlowRegions.Json.Lexer

/-! # Reading JSON

Tokens are read one at a time. The arrays and objects that are still open are kept on a stack, the
innermost first, so that values may be nested to any depth.
-/

namespace FlowRegions

namespace Json

/-- An array or an object that is still open, with what it holds so far, the latest first. -/
inductive Frame where
  | array (items : List Value)
  /-- An object that waits for the value of a key. -/
  | object (members : List (Content × Value)) (key : Content)

/-- What may come next, and what is open around it. -/
inductive State where
  /-- A value must follow. -/
  | value (stack : List Frame)
  /-- An array has just been opened: a value or its end must follow. -/
  | firstItem (stack : List Frame)
  /-- An object has just been opened: a key or its end must follow. -/
  | firstKey (stack : List Frame)
  /-- Another key of an object must follow. -/
  | key (members : List (Content × Value)) (stack : List Frame)
  /-- The colon after a key must follow. -/
  | colon (members : List (Content × Value)) (key : Content) (stack : List Frame)
  /-- A value is complete. -/
  | complete (v : Value) (stack : List Frame)

/-- Reads the first token of a value. -/
def State.enter (stack : List Frame) : Token → Option State
  | .openArray => some (.firstItem stack)
  | .openObject => some (.firstKey stack)
  | .null => some (.complete .null stack)
  | .bool b => some (.complete (.bool b) stack)
  | .natural n => some (.complete (.natural n) stack)
  | .number written => some (.complete (.number written) stack)
  | .string s => some (.complete (.string s) stack)
  | .closeArray | .closeObject | .comma | .colon => none

/-- Reads the token after a complete value. -/
def State.leave (v : Value) : List Frame → Token → Option State
  | .array items :: stack, .comma => some (.value (.array (v :: items) :: stack))
  | .array items :: stack, .closeArray => some (.complete (.array (v :: items).reverse) stack)
  | .object members k :: stack, .comma => some (.key ((k, v) :: members) stack)
  | .object members k :: stack, .closeObject =>
    some (.complete (.object ((k, v) :: members).reverse) stack)
  | _, _ => none

/-- Reads one token. -/
def State.next : State → Token → Option State
  | .value stack, t => enter stack t
  | .firstItem stack, t =>
    if t = .closeArray then some (.complete (.array []) stack) else enter (.array [] :: stack) t
  | .firstKey stack, .closeObject => some (.complete (.object []) stack)
  | .firstKey stack, .string k => some (.colon [] k stack)
  | .firstKey _, _ => none
  | .key members stack, .string k => some (.colon members k stack)
  | .key _ _, _ => none
  | .colon members k stack, .colon => some (.value (.object members k :: stack))
  | .colon _ _ _, _ => none
  | .complete v stack, t => leave v stack t

/-- The value that some tokens make up. -/
def Value.ofTokens? (ts : List Token) : Option Value :=
  match ts.foldlM State.next (.value []) with
  | some (.complete v []) => some v
  | _ => none

/-- The value that a text denotes. -/
def Value.ofText? (s : String) : Option Value := (lex? s.toList).bind ofTokens?

end Json

end FlowRegions
