/-! # Text without control characters

What a record writes is shown without the control sequences and control characters in it. A control
sequence begins with an escape character. It is a short escape sequence, a control sequence with
parameters, a device control string, a command for the system or a string of another kind; each of
them ends in its own way.

White space is shown even inside of a short sequence or one with parameters. What follows it is
shown as well, up to the next control character; there the sequence is taken up again.
-/

namespace FlowRegions

namespace Log

/-- Where a reader stands in the control sequences of a text. -/
inductive ControlState where
  /-- Outside of all sequences. -/
  | text
  /-- Behind an escape character. -/
  | escape
  /-- In an escape sequence that only waits for its last character. -/
  | escapeMiddle
  /-- In a control sequence with parameters. -/
  | parameters
  /-- At the beginning of a device control string. -/
  | deviceEntry
  /-- In the parameters of a device control string. -/
  | deviceParameters
  /-- In a device control string that only waits for the last character of its head. -/
  | deviceMiddle
  /-- In the content of a device control string or of a string that is ignored. -/
  | string
  /-- In a command for the system. -/
  | command
deriving DecidableEq, Repr

/-- Whether a character is white space among the control characters. -/
def isControlBlank (c : Char) : Bool := c = '\t' || c = '\n' || c = '\x0c' || c = '\r'

/-- Whether a character outside of control sequences is shown. -/
def isPrintable (c : Char) : Bool := (' ' ≤ c && c ≠ '\x7f') || isControlBlank c

/-- Whether one of the bytes that encode a character is the one that terminates strings. -/
def encodesTerminator (c : Char) : Bool := (String.utf8EncodeChar c).contains 0x9c

namespace ControlState

/-- Whether a reader in some state shows a character. -/
def shows : ControlState → Char → Bool
  | .text, c => isPrintable c
  | .escape, c | .escapeMiddle, c | .parameters, c => isControlBlank c
  | .deviceEntry, _ | .deviceParameters, _ | .deviceMiddle, _ | .string, _ | .command, _ => false

/-- The state behind the character that follows an escape character. -/
def afterEscape (c : Char) : ControlState :=
  match c with
  | '[' => .parameters
  | ']' => .command
  | 'P' => .deviceEntry
  | 'X' | '^' | '_' => .string
  | _ =>
    if ' ' ≤ c ∧ c ≤ '/' then .escapeMiddle
    else if '0' ≤ c ∧ c ≤ '~' then .text
    else .escape

/-- The state behind a character. An escape character begins a sequence in every state, and the
characters for cancelling and substituting end all of them. -/
def next (s : ControlState) (c : Char) : ControlState :=
  if c = '\x1b' then .escape
  else if c = '\x18' ∨ c = '\x1a' then .text
  else
    match s with
    | .text => .text
    | .escape => afterEscape c
    | .escapeMiddle => if '0' ≤ c ∧ c ≤ '~' then .text else s
    | .parameters => if '@' ≤ c ∧ c ≤ '~' then .text else s
    | .deviceEntry =>
      if ' ' ≤ c ∧ c ≤ '/' then .deviceMiddle
      else if '0' ≤ c ∧ c ≤ '?' then .deviceParameters
      else if '@' ≤ c ∧ c ≤ '~' then .string
      else s
    | .deviceParameters =>
      if ' ' ≤ c ∧ c ≤ '/' then .deviceMiddle
      else if '<' ≤ c ∧ c ≤ '~' then .string
      else s
    | .deviceMiddle => if '0' ≤ c ∧ c ≤ '~' then .string else s
    | .string => if encodesTerminator c then .text else s
    | .command => if c = '\x07' then .text else s

end ControlState

/-- A reader of a text: where it stands, and whether it has shown the last character. -/
structure PlainReader where
  state : ControlState
  showing : Bool
deriving DecidableEq, Repr

namespace PlainReader

/-- The reader at the beginning of a text. -/
def start : PlainReader := ⟨.text, false⟩

/-- Whether a reader shows the next character. -/
def shows (r : PlainReader) (c : Char) : Bool := (if r.showing then .text else r.state).shows c

/-- The reader behind the next character. A shown character of more than one byte ends the sequence
that was interrupted. -/
def next (r : PlainReader) (c : Char) : PlainReader :=
  if r.shows c then ⟨if c.toNat < 128 then r.state else .text, true⟩ else ⟨r.state.next c, false⟩

/-- The characters of a text that a reader shows. -/
def shown (r : PlainReader) : List Char → List Char
  | [] => []
  | c :: cs => if r.shows c then c :: (r.next c).shown cs else (r.next c).shown cs

end PlainReader

/-- A text without its control sequences and control characters. -/
def plainText (s : String) : String := .ofList (PlainReader.start.shown s.toList)

end Log

end FlowRegions
