import FlowRegions.Json.Token

/-! # Splitting a JSON text into tokens

Blanks are spaces, tabs and line ends. Strings end at the first quote that is not escaped and hold
no raw control characters. Words are the longest runs of letters, digits, signs and points: they
are `null`, `true`, `false` or numbers, which have no leading zeros and no leading plus sign.
-/

namespace FlowRegions

namespace Json

/-- Whether a character may stand between tokens. -/
def isBlank (c : Char) : Bool := c = ' ' || c = '\t' || c = '\n' || c = '\r'

/-- The token that a single character is. -/
def punctuation? : Char → Option Token
  | '[' => some .openArray
  | ']' => some .closeArray
  | '\x7b' => some .openObject
  | '\x7d' => some .closeObject
  | ',' => some .comma
  | ':' => some .colon
  | _ => none

/-! ## Strings -/

/-- A character of a string literal, or a 16-bit unit given by number. -/
inductive Piece where
  | char (c : Char)
  | unit (n : Nat)
deriving DecidableEq, Repr

/-- The value of a hexadecimal digit of either case. -/
def hexValue? (c : Char) : Option Nat :=
  if '0' ≤ c ∧ c ≤ '9' then some (c.toNat - 48)
  else if 'a' ≤ c ∧ c ≤ 'f' then some (c.toNat - 87)
  else if 'A' ≤ c ∧ c ≤ 'F' then some (c.toNat - 55)
  else none

/-- The unit that four hexadecimal digits denote. -/
def unit? (a b c d : Char) : Option Nat := do
  let a ← hexValue? a
  let b ← hexValue? b
  let c ← hexValue? c
  let d ← hexValue? d
  return ((a * 16 + b) * 16 + c) * 16 + d

/-- The character that a short escape denotes. -/
def shortEscape? : Char → Option Char
  | '"' => some '"'
  | '\\' => some '\\'
  | '/' => some '/'
  | 'b' => some '\x08'
  | 'f' => some '\x0c'
  | 'n' => some '\n'
  | 'r' => some '\r'
  | 't' => some '\t'
  | _ => none

/-- The pieces of a string up to its closing quote, and what follows the quote. -/
def pieces? : List Char → Option (List Piece × List Char)
  | [] => none
  | '"' :: rest => some ([], rest)
  | '\\' :: 'u' :: a :: b :: c :: d :: rest =>
    match unit? a b c d, pieces? rest with
    | some n, some (ps, after) => some (.unit n :: ps, after)
    | _, _ => none
  | '\\' :: e :: rest =>
    match shortEscape? e, pieces? rest with
    | some c, some (ps, after) => some (.char c :: ps, after)
    | _, _ => none
  | c :: rest =>
    if c.toNat < 32 || c = '\\' then none
    else
      match pieces? rest with
      | some (ps, after) => some (.char c :: ps, after)
      | none => none

/-- Whether a unit is the first half of a pair of surrogates. -/
def isHighSurrogate (n : Nat) : Bool := 0xD800 ≤ n && n < 0xDC00

/-- Whether a unit is the second half of a pair of surrogates. -/
def isLowSurrogate (n : Nat) : Bool := 0xDC00 ≤ n && n < 0xE000

/-- The characters of some pieces, two surrogates making up one character. -/
def join? : List Piece → Option (List Char)
  | [] => some []
  | .char c :: ps => (join? ps).map (c :: ·)
  | .unit high :: .unit low :: ps =>
    if isHighSurrogate high then
      if isLowSurrogate low then
        (join? ps).map (.ofNat (0x10000 + (high - 0xD800) * 0x400 + (low - 0xDC00)) :: ·)
      else none
    else if isLowSurrogate high then none
    else (join? (.unit low :: ps)).map (.ofNat high :: ·)
  | .unit n :: ps =>
    if isHighSurrogate n || isLowSurrogate n then none else (join? ps).map (.ofNat n :: ·)

/-- The content that some pieces make up. -/
def contentOf (ps : List Piece) : Content :=
  match join? ps with
  | some cs => .text (.ofList cs)
  | none => .illFormed

theorem length_lt_of_pieces? {s after : List Char} {ps : List Piece}
    (h : pieces? s = some (ps, after)) : after.length < s.length := by
  fun_induction pieces? s generalizing ps after with
  | case1 => cases h
  | case2 rest =>
    cases h
    exact Nat.lt_succ_self _
  | case3 a b c d rest n ps' after' hps hn ih =>
    cases h
    have := ih hps
    simp only [List.length_cons]
    omega
  | case4 => cases h
  | case5 e rest _ c ps' after' hps hc ih =>
    cases h
    have := ih hps
    simp only [List.length_cons]
    omega
  | case6 => cases h
  | case7 => cases h
  | case8 c rest _ _ _ _ ps' after' hps ih =>
    cases h
    have := ih hps
    simp only [List.length_cons]
    omega
  | case9 => cases h

/-! ## Words -/

/-- Whether a character may occur in a word. -/
def isWordChar (c : Char) : Bool := c.isAlphanum || c = '+' || c = '-' || c = '.'

/-- What follows the digits before the point; a leading zero stands alone. -/
def afterInteger? : List Char → Option (List Char)
  | [] => none
  | c :: rest =>
    if c = '0' then some rest
    else if c.isDigit then some (rest.dropWhile Char.isDigit)
    else none

/-- What follows at least one digit. -/
def afterDigits? : List Char → Option (List Char)
  | [] => none
  | c :: rest => if c.isDigit then some (rest.dropWhile Char.isDigit) else none

/-- What follows an optional fraction. -/
def afterFraction? : List Char → Option (List Char)
  | '.' :: rest => afterDigits? rest
  | rest => some rest

/-- What follows an optional sign. -/
def afterSign : List Char → List Char
  | '+' :: rest => rest
  | '-' :: rest => rest
  | rest => rest

/-- What follows an optional exponent. -/
def afterExponent? : List Char → Option (List Char)
  | 'e' :: rest => afterDigits? (afterSign rest)
  | 'E' :: rest => afterDigits? (afterSign rest)
  | rest => some rest

/-- Whether a word is a number without sign, fraction and exponent. -/
def isNatural (word : List Char) : Bool := afterInteger? word = some []

/-- Whether a word is a number. -/
def isNumber (word : List Char) : Bool :=
  let unsigned := match word with
    | '-' :: rest => rest
    | _ => word
  ((afterInteger? unsigned).bind afterFraction?).bind afterExponent? = some []

/-- The number that decimal digits denote. -/
def digitsValue (digits : List Char) : Nat := digits.foldl (fun n c => 10 * n + (c.toNat - 48)) 0

/-- The token that a word is. -/
def word? (word : List Char) : Option Token :=
  if word = ['n', 'u', 'l', 'l'] then some .null
  else if word = ['t', 'r', 'u', 'e'] then some (.bool true)
  else if word = ['f', 'a', 'l', 's', 'e'] then some (.bool false)
  else if isNatural word then some (.natural (digitsValue word))
  else if isNumber word then some (.number (.ofList word))
  else none

/-! ## Tokens -/

theorem length_dropWhile_le (p : Char → Bool) (s : List Char) :
    (s.dropWhile p).length ≤ s.length := (List.dropWhile_sublist p).length_le

/-- The tokens of a text. -/
def lex? (s : List Char) : Option (List Token) :=
  match s with
  | [] => some []
  | c :: rest =>
    if isBlank c then lex? rest
    else
      match punctuation? c with
      | some t => (lex? rest).map (t :: ·)
      | none =>
        if c = '"' then
          match _h : pieces? rest with
          | some (ps, after) => (lex? after).map (.string (contentOf ps) :: ·)
          | none => none
        else if isWordChar c then
          match word? (c :: rest.takeWhile isWordChar) with
          | some t => (lex? (rest.dropWhile isWordChar)).map (t :: ·)
          | none => none
        else none
termination_by s.length
decreasing_by
  · exact Nat.lt_succ_self _
  · exact Nat.lt_succ_self _
  · exact Nat.lt_succ_of_lt (length_lt_of_pieces? _h)
  · exact Nat.lt_succ_of_le (length_dropWhile_le _ _)

end Json

end FlowRegions
