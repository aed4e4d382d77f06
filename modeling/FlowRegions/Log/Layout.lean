import FlowRegions.Log.Event

/-! # How records are written

A record is written as one text that ends its line. The lines of what has been written end with a
line feed, or with a carriage return and a line feed.
-/

namespace FlowRegions

namespace Log

/-- The name of a level, filled up to five characters. -/
def Level.padded (l : Level) : String :=
  .ofList (l.name.toList ++ List.replicate (5 - l.name.length) ' ')

/-- A text with four blanks at the beginning of every line but the first. -/
def indented (text : String) : String :=
  .ofList (text.toList.flatMap fun c => if c = '\n' then ['\n', ' ', ' ', ' ', ' '] else [c])

namespace Record

/-- The level in brackets, the target, a dash and the text. -/
def dashed (r : Record) : String := s!"[{r.level.padded}] {r.target} - {r.text}\n"

/-- The level and the target in brackets and the text, whose further lines are indented. An empty
target leaves no blank behind the level. -/
def bracketed (r : Record) : String :=
  let label := if r.target.isEmpty then "" else " " ++ r.target
  "[" ++ r.level.padded ++ label ++ "] " ++ indented r.text ++ "\n"

end Record

/-- The lines of some characters. The last one need not be ended. -/
def splitLines : List Char → List (List Char)
  | [] => []
  | '\n' :: rest => [] :: splitLines rest
  | '\r' :: '\n' :: rest => [] :: splitLines rest
  | c :: rest =>
    match splitLines rest with
    | [] => [[c]]
    | line :: lines => (c :: line) :: lines

/-- The lines of a text, without the characters that end them. -/
def linesOf (text : String) : List String := (splitLines text.toList).map .ofList

end Log

end FlowRegions
