import FlowRegions.Json.Lexer

/-!
# Tokens and their text

The text of a token is split off again where it was written. A string ends at its own closing quote
and is put together from the characters that were escaped (`contentOf_map_piece`). A word, which is
the text of a literal or of a natural number, ends where something follows that is no part of a word
(`lex?_word`), and natural numbers are written without leading zeros (`word?_toDigits`). So a
sequence of tokens is read back from its text if no word follows another (`Splits.cons`).
-/

namespace FlowRegions

namespace Json

/-! ## Strings -/

section Strings

variable {c : Char} {cs rest : List Char} {n : Nat} {ps : List Piece}

/-- What a written character is read as: a unit if it has been written by its number. -/
def piece (c : Char) : Piece :=
  if c.toNat < 32 ∧ c ∉ ['\x08', '\t', '\n', '\x0c', '\r'] then .unit c.toNat else .char c

theorem hexValue?_hexDigit (hn : n < 16) : hexValue? (hexDigit n) = some n := by
  revert n
  decide

/-- The two digits of a control character denote it. -/
theorem unit?_hexDigit (hn : n < 32) :
    unit? '0' '0' (hexDigit (n / 16)) (hexDigit (n % 16)) = some n := by
  have hzero : hexValue? '0' = some 0 := rfl
  have hhigh : hexValue? (hexDigit (n / 16)) = some (n / 16) := hexValue?_hexDigit (by omega)
  have hlow : hexValue? (hexDigit (n % 16)) = some (n % 16) := hexValue?_hexDigit (by omega)
  simp only [unit?, hzero, hhigh, hlow, Option.bind_eq_bind, Option.bind_some, Option.pure_def,
    Option.some.injEq]
  omega

/-- A written character is one piece of the string. -/
theorem pieces?_escape (h : pieces? rest = some (ps, cs)) :
    pieces? (escape c ++ rest) = some (piece c :: ps, cs) := by
  by_cases hshort : c ∈ ['"', '\\', '\x08', '\t', '\n', '\x0c', '\r']
  · simp only [List.mem_cons, List.not_mem_nil, or_false] at hshort
    rcases hshort with rfl | rfl | rfl | rfl | rfl | rfl | rfl <;>
      simp [escape, piece, pieces?, shortEscape?, h]
  · simp only [List.mem_cons, List.not_mem_nil, or_false, not_or] at hshort
    obtain ⟨hquote, hslash, hback, htab, hline, hform, hreturn⟩ := hshort
    by_cases hc : c.toNat < 32
    · simp [escape, piece, pieces?, unit?_hexDigit hc, hquote, hslash, hback, htab, hline, hform,
        hreturn, hc, h]
    · simp [escape, piece, pieces?, hquote, hslash, hback, htab, hline, hform, hreturn, hc, h]

/-- A written string ends at its closing quote. -/
theorem pieces?_flatMap_escape (cs rest : List Char) :
    pieces? (cs.flatMap escape ++ '"' :: rest) = some (cs.map piece, rest) := by
  induction cs with
  | nil => simp [pieces?]
  | cons c cs ih =>
    rw [List.flatMap_cons, List.append_assoc, pieces?_escape ih, List.map_cons]

/-- A small unit is a character of its own, whatever follows. -/
theorem join?_unit (hn : n < 32) (ps : List Piece) :
    join? (.unit n :: ps) = (join? ps).map (Char.ofNat n :: ·) := by
  have hhigh : isHighSurrogate n = false := by simp [isHighSurrogate]; omega
  have hlow : isLowSurrogate n = false := by simp [isLowSurrogate]; omega
  rw [join?.eq_def]
  split <;> simp_all

theorem join?_map_piece (cs : List Char) : join? (cs.map piece) = some cs := by
  induction cs with
  | nil => rfl
  | cons c cs ih =>
    rw [List.map_cons, piece]
    split
    · next h => rw [join?_unit h.1, ih, Option.map_some, Char.ofNat_toNat]
    · rw [join?, ih, Option.map_some]

/-- The pieces of a written string make up its characters. -/
theorem contentOf_map_piece (s : String) : contentOf (s.toList.map piece) = .text s := by
  rw [contentOf, join?_map_piece]
  exact congrArg Content.text String.ofList_toList

end Strings

/-! ## Words -/

section Words

variable {c : Char} {w rest : List Char} {t : Token} {n : Nat}

/-- Nothing that may occur in a word ends one. -/
theorem of_isWordChar (hc : isWordChar c = true) :
    isBlank c = false ∧ punctuation? c = none ∧ c ≠ '"' := by
  refine ⟨?_, ?_, ?_⟩
  · rw [← Bool.not_eq_true]
    intro hblank
    simp only [isBlank, Bool.or_eq_true, decide_eq_true_iff] at hblank
    rcases hblank with ((rfl | rfl) | rfl) | rfl <;> exact absurd hc (by decide)
  · unfold punctuation?
    split <;> first | rfl | exact absurd hc (by decide)
  · rintro rfl
    exact absurd hc (by decide)

/-- A word ends where something follows that is no part of it. -/
theorem lex?_word (hw : (c :: w).all isWordChar = true) (ht : word? (c :: w) = some t)
    (hrest : ∀ d ∈ rest.head?, isWordChar d = false) :
    lex? (c :: w ++ rest) = (lex? rest).map (t :: ·) := by
  obtain ⟨hc, hw⟩ := List.forall_mem_cons.1 (List.all_eq_true.1 hw)
  obtain ⟨hblank, hpunct, hquote⟩ := of_isWordChar hc
  have htake : rest.takeWhile isWordChar = [] := by
    cases rest <;> simp_all
  have hdrop : rest.dropWhile isWordChar = rest := by
    cases rest <;> simp_all
  rw [← List.append_nil w] at ht
  rw [← htake, ← List.takeWhile_append_of_pos hw] at ht
  rw [List.cons_append, lex?, hblank, hpunct]
  simp only [if_neg hquote, Bool.false_eq_true, if_false, if_pos hc, ht,
    List.dropWhile_append_of_pos hw, hdrop]

/-- A number is written without leading zeros. -/
theorem eq_zero_of_toDigits (h : Nat.toDigits 10 n = '0' :: w) : n = 0 ∧ w = [] := by
  induction n using Nat.strongRecOn generalizing w with
  | ind n ih =>
    rw [Nat.toDigits_eq_if (by decide)] at h
    split at h
    · next hn =>
      obtain ⟨hdigit, hw⟩ := List.cons.inj h
      have hzero : ∀ m < 10, Nat.digitChar m = '0' → m = 0 := by decide
      exact ⟨hzero n hn hdigit, hw.symm⟩
    · next hn =>
      -- the first digit is that of a smaller number, which is not zero
      rcases List.append_eq_cons_iff.1 h with ⟨hnil, _⟩ | ⟨w', hprefix, _⟩
      · exact absurd hnil Nat.toDigits_ne_nil
      · have := (ih (n / 10) (by omega) hprefix).1
        omega

theorem afterInteger?_toDigits (n : Nat) : afterInteger? (Nat.toDigits 10 n) = some [] := by
  have hdigits : ∀ d ∈ Nat.toDigits 10 n, d.isDigit = true := fun d =>
    Nat.isDigit_of_mem_toDigits (by decide) (by decide)
  cases h : Nat.toDigits 10 n with
  | nil => exact absurd h Nat.toDigits_ne_nil
  | cons c w =>
    rw [h] at hdigits
    obtain ⟨hc, hw⟩ := List.forall_mem_cons.1 hdigits
    rw [afterInteger?]
    split
    · next hzero =>
      subst hzero
      rw [(eq_zero_of_toDigits h).2]
    · rw [← List.append_nil w, List.dropWhile_append_of_pos hw, List.dropWhile_nil]

theorem word?_toDigits (n : Nat) : word? (Nat.toDigits 10 n) = some (.natural n) := by
  have hdigits : ∀ d ∈ Nat.toDigits 10 n, d.isDigit = true := fun d =>
    Nat.isDigit_of_mem_toDigits (by decide) (by decide)
  have hvalue : digitsValue (Nat.toDigits 10 n) = n :=
    Nat.ofDigitChars_eq_foldl.symm.trans Nat.ofDigitChars_ten_toDigits
  have hword : ∀ d w, d.isDigit = false → Nat.toDigits 10 n ≠ d :: w := by
    intro d w hd heq
    rw [hdigits d (heq ▸ List.mem_cons_self)] at hd
    cases hd
  rw [word?, if_neg (hword _ _ rfl), if_neg (hword _ _ rfl), if_neg (hword _ _ rfl), isNatural,
    afterInteger?_toDigits, hvalue]
  rfl

end Words

/-! ## Tokens -/

namespace Token

/-- Whether the text of a token is a word. -/
def isWord : Token → Bool
  | .null | .bool _ | .natural _ | .number _ => true
  | .openArray | .closeArray | .openObject | .closeObject | .comma | .colon | .string _ => false

/-- Whether a token is split off again as it was written: numbers that are not natural and strings
that are no texts are passed over by documents and not written. -/
def isPlain : Token → Bool
  | .number _ | .string .illFormed => false
  | .openArray | .closeArray | .openObject | .closeObject | .comma | .colon | .null | .bool _
  | .natural _ | .string (.text _) => true

end Token

/-- The text of some tokens is split into these. -/
def Splits (ts : List Token) : Prop := lex? (ts.flatMap Token.written) = some ts

section Tokens

variable {t : Token} {ts : List Token} {c : Char} {rest : List Char}

theorem splits_nil : Splits [] := by
  rw [Splits, List.flatMap_nil, lex?]

theorem lex?_punctuation (ht : punctuation? c = some t) :
    lex? (c :: rest) = (lex? rest).map (t :: ·) := by
  have hblank : isBlank c = false := by
    rw [← Bool.not_eq_true]
    intro hblank
    simp only [isBlank, Bool.or_eq_true, decide_eq_true_iff] at hblank
    rcases hblank with ((rfl | rfl) | rfl) | rfl <;> cases ht
  rw [lex?, hblank, ht]
  rfl

theorem lex?_text (s : String) :
    lex? ((Token.string (.text s)).written ++ rest) =
      (lex? rest).map (Token.string (.text s) :: ·) := by
  rw [Token.written, Content.written, List.cons_append, List.append_assoc, List.singleton_append]
  have hpieces := pieces?_flatMap_escape s.toList rest
  have hblank : isBlank '"' = false := rfl
  have hpunct : punctuation? '"' = none := rfl
  rw [lex?, hblank, hpunct]
  simp only [Bool.false_eq_true, if_false, if_true]
  split
  · next ps after heq =>
    obtain ⟨rfl, rfl⟩ := Prod.mk.inj (Option.some.inj (hpieces.symm.trans heq))
    rw [contentOf_map_piece]
  · next heq => simp [hpieces] at heq

theorem lex?_natural (n : Nat) (hrest : ∀ d ∈ rest.head?, isWordChar d = false) :
    lex? ((Token.natural n).written ++ rest) = (lex? rest).map (Token.natural n :: ·) := by
  have hword : ∀ d ∈ Nat.toDigits 10 n, isWordChar d = true := by
    intro d hd
    have hdigit := Nat.isDigit_of_mem_toDigits (by decide) (by decide) hd
    simp [isWordChar, Char.isAlphanum, hdigit]
  have ht := word?_toDigits n
  rw [Token.written, Nat.repr_eq_ofList_toDigits, String.toList_ofList]
  cases hdigits : Nat.toDigits 10 n with
  | nil => exact absurd hdigits Nat.toDigits_ne_nil
  | cons c w =>
    rw [hdigits] at hword ht
    exact lex?_word (List.all_eq_true.2 hword) ht hrest

/-- A token that is no word begins with something that is no part of one. -/
theorem isWordChar_head_written (ht : t.isWord = false) :
    ∀ d ∈ (t.written ++ rest).head?, isWordChar d = false := by
  cases t with
  | null | bool b | natural n | number written => cases ht
  | openArray | closeArray | openObject | closeObject | comma | colon | string s =>
    rintro d hd
    obtain rfl := Option.some.inj hd
    decide

/-- A token is split off from what follows, which must not be a word if it is one itself. -/
theorem Splits.cons (hts : Splits ts) (hplain : t.isPlain = true)
    (hword : t.isWord = true → ∀ u ∈ ts.head?, u.isWord = false) : Splits (t :: ts) := by
  rw [Splits, List.flatMap_cons]
  have hsome : (lex? (ts.flatMap Token.written)).map (t :: ·) = some (t :: ts) := by rw [hts]; rfl
  have hend : t.isWord = true → ∀ d ∈ (ts.flatMap Token.written).head?, isWordChar d = false := by
    intro ht
    cases ts with
    | nil => simp
    | cons u ts => exact isWordChar_head_written (hword ht u rfl)
  cases t with
  | openArray | closeArray | openObject | closeObject | comma | colon =>
    exact (lex?_punctuation rfl).trans hsome
  | null => exact (lex?_word rfl rfl (hend rfl)).trans hsome
  | bool b =>
    cases b <;> exact (lex?_word rfl rfl (hend rfl)).trans hsome
  | natural n => exact (lex?_natural n (hend rfl)).trans hsome
  | number written => cases hplain
  | string s =>
    cases s with
    | text s => exact (lex?_text s).trans hsome
    | illFormed => cases hplain

/-- A token that is no word is split off from anything. -/
theorem Splits.mark (hts : Splits ts) (hplain : t.isPlain = true) (hword : t.isWord = false) :
    Splits (t :: ts) :=
  hts.cons hplain fun h => absurd h (Bool.eq_false_iff.1 hword)

end Tokens

end Json

end FlowRegions
