import FirmwareReport.Proofs.Number.Numeral
import FirmwareReport.Proofs.Toml.Quoted
import FirmwareReport.Toml.Document

/-!
# Written values

A document is written with three kinds of values: numbers, strings in quotes, and lists of such
strings. Each is read back up to the comma, the bracket or the line break behind it
(`FirmwareReport.Toml.value?_toDigits`, `FirmwareReport.Toml.value?_quote`,
`FirmwareReport.Toml.value?_bracket`).
-/

namespace FirmwareReport.Toml

open Text (StopsAt)

/-! ### What follows a value -/

/-- What stands behind a written value: a comma, a bracket or a line break. -/
def EndsValue (rest : List Char) : Prop :=
  ∃ c s, rest = c :: s ∧ (c = ',' ∨ c = ']' ∨ c = '\n')

section EndsValue

variable {rest : List Char}

theorem EndsValue.comma (s : List Char) : EndsValue (',' :: s) := ⟨_, s, rfl, Or.inl rfl⟩

theorem EndsValue.bracket (s : List Char) : EndsValue (']' :: s) := ⟨_, s, rfl, Or.inr (Or.inl rfl)⟩

theorem EndsValue.newline (s : List Char) : EndsValue ('\n' :: s) :=
  ⟨_, s, rfl, Or.inr (Or.inr rfl)⟩

theorem EndsValue.isUnquoted (h : EndsValue rest) : IsUnquoted rest := by
  obtain ⟨c, s, rfl, rfl | rfl | rfl⟩ := h <;> exact Text.stopsAt_cons.2 rfl

theorem EndsValue.stopsAt (h : EndsValue rest) : StopsAt isWordChar rest := by
  obtain ⟨c, s, rfl, rfl | rfl | rfl⟩ := h <;> exact Text.stopsAt_cons.2 (by decide)

end EndsValue

/-! ### Numbers -/

/-- Digits without separators are read as they are. -/
theorem underscored?_of_all {digits : List Char} (hne : digits ≠ [])
    (hdigits : digits.all (isDigitOf 10) = true) : underscored? 10 digits = some digits := by
  fun_induction underscored? 10 digits with
  | case1 => exact absurd rfl hne
  | case2 d hd => rfl
  | case3 d hd => simp_all
  | case4 d s hd ih =>
    have hsep : isDigitOf 10 '_' = false := rfl
    simp [hsep] at hdigits
  | case5 d s hd => simp_all
  | case6 d s hs hs' hd ih =>
    simp only [List.all_cons, Bool.and_eq_true] at hdigits
    rw [ih (by rintro rfl; exact hs rfl) hdigits.2]
    rfl
  | case7 d s hs hs' hd => simp_all

/-- The digits of a number are an integer, if it is not too large. -/
theorem integer?_toDigits {n : Nat} (hn : n < signedLimit) :
    integer? (Nat.toDigits 10 n) = some (n : Int) := by
  rcases Nat.eq_zero_or_pos n with rfl | hpos
  · rfl
  obtain ⟨c, digits, hword, hc⟩ := exists_toDigits hpos
  have hall := all_isDigitOf_toDigits n
  have hvalue := positional_toDigits n
  rw [hword] at hall hvalue ⊢
  have hdigit : isDigitOf 10 c = true := by simp_all
  have hsigned : signed (c :: digits) = (false, c :: digits) := by
    unfold signed
    split
    · simp_all [isDigitOf, digitValue?]
    · simp_all [isDigitOf, digitValue?]
    · rfl
  have hdecimal : decimalDigits? (c :: digits) = some (c :: digits) := by
    unfold decimalDigits?
    split
    · rfl
    · simp_all
    · exact underscored?_of_all (List.cons_ne_nil _ _) hall
  unfold integer?
  split
  · simp_all
  · simp_all
  · simp_all
  · simp [hsigned, hdecimal, hvalue, hn]

theorem isWordChar_of_isDigit {c : Char} (h : c.isDigit = true) : isWordChar c = true := by
  simp [isWordChar, Char.isAlphanum, h]

/-- **A number is read up to what follows it.** -/
theorem read?_toDigits {n : Nat} (hn : n < signedLimit) {rest : List Char}
    (hrest : EndsValue rest) :
    Scalar.read? (Nat.toDigits 10 n ++ rest) = some (.integer n, rest) := by
  have hdigit : ∀ c ∈ Nat.toDigits 10 n, c.isDigit = true := fun c hc =>
    Nat.isDigit_of_mem_toDigits (by decide) (by decide) hc
  obtain ⟨hword, hbehind⟩ := (Text.span_iff (p := isWordChar)).2
    ⟨rfl, List.all_eq_true.2 fun c hc => isWordChar_of_isDigit (hdigit c hc), hrest.stopsAt⟩
  have hname (name : List Char) (c : Char) (hc : c ∈ name) (hletter : c.isDigit = false) :
      Nat.toDigits 10 n ≠ name := fun heq => by simp [hdigit c (heq ▸ hc)] at hletter
  have hvalue : Scalar.ofWord? (Nat.toDigits 10 n) = some (.integer n) := by
    rw [Scalar.ofWord?, if_neg (hname _ 't' (by decide) rfl), if_neg (hname _ 'f' (by decide) rfl),
      integer?_toDigits hn]
  rw [Scalar.read?, hword, hbehind, hvalue]
  -- There is no blank, so it does not matter whether the digits are those of a date.
  obtain ⟨c, s, rfl, rfl | rfl | rfl⟩ := hrest <;>
    rcases date? (Nat.toDigits 10 n) with _ | ⟨_ | _⟩ <;> rfl

/-- **A number** as a value. -/
theorem value?_toDigits (levels : Nat) {n : Nat} (hn : n < signedLimit) {rest : List Char}
    (hrest : EndsValue rest) :
    value? levels (Nat.toDigits 10 n ++ rest) = some (.scalar (.integer n), rest) := by
  have hread := read?_toDigits hn hrest
  obtain ⟨c, digits, hword⟩ := List.exists_cons_of_ne_nil (Nat.toDigits_ne_nil (n := n) (b := 10))
  have hc : c.isDigit = true := Nat.isDigit_of_mem_toDigits (b := 10) (n := n) (by decide)
    (by decide) (hword ▸ List.mem_cons_self)
  rw [hword, List.cons_append] at hread ⊢
  unfold value?
  split
  · simp_all
  · simp_all
  · simp_all
  · simp_all
  · rw [hread]
    rfl

/-! ### Strings -/

/-- A string in quotes begins with a quote. -/
theorem exists_quote (s : List Char) : ∃ t, quote s = '"' :: t ∨ quote s = '\'' :: t := by
  unfold quote
  cases Quotes.of s
  · exact ⟨_, Or.inl rfl⟩
  · exact ⟨_, Or.inr rfl⟩
  · exact ⟨_, Or.inl rfl⟩
  · exact ⟨_, Or.inr rfl⟩

/-- So it is neither blank nor the end of an array. -/
theorem exists_quote_ne (s : List Char) :
    ∃ c t, quote s = c :: t ∧ c ≠ ']' ∧ isLineBlank c = false := by
  obtain ⟨t, ht | ht⟩ := exists_quote s
  · exact ⟨_, t, ht, by decide⟩
  · exact ⟨_, t, ht, by decide⟩

/-- **A string** as a value. -/
theorem value?_quote (levels : Nat) (s : List Char) {rest : List Char} (hrest : EndsValue rest) :
    value? levels (quote s ++ rest) = some (.text (String.ofList s), rest) := by
  have hread := unquote?_quote s hrest.isUnquoted
  obtain ⟨t, ht | ht⟩ := exists_quote s
  · rw [ht, List.cons_append] at hread ⊢
    unfold value?
    rw [hread]
    rfl
  · rw [ht, List.cons_append] at hread ⊢
    unfold value?
    rw [hread]
    rfl

/-! ### Arrays -/

theorem skipTrivia_cons {c : Char} (h : c ≠ '\n' ∧ c ≠ '\r' ∧ isLineBlank c = false ∧ c ≠ '#')
    (s : List Char) : skipTrivia false (c :: s) = c :: s := by
  rw [skipTrivia.eq_def]
  simp [h]

theorem skipTrivia_newline (s : List Char) :
    skipTrivia false ('\n' :: s) = skipTrivia false s := by
  rw [skipTrivia.eq_def]
  simp

theorem skipTrivia_blank {c : Char} (h : isLineBlank c = true) (s : List Char) :
    skipTrivia false (c :: s) = skipTrivia false s := by
  have hne : c ≠ '\n' ∧ c ≠ '\r' := by
    constructor <;> rintro rfl <;> exact absurd h (by decide)
  rw [skipTrivia.eq_def]
  simp [h, hne]

theorem skipTrivia_quote (s rest : List Char) :
    skipTrivia false (quote s ++ rest) = quote s ++ rest := by
  obtain ⟨t, ht | ht⟩ := exists_quote s <;> rw [ht] <;> exact skipTrivia_cons (by decide) _

section Array

variable {read? : List Char → Option (Item × List Char)} {s rest rest' : List Char} {item : Item}

theorem arrayItems?_closing (h : skipTrivia false s = ']' :: rest) :
    arrayItems? read? s = some ([], rest) := by
  rw [arrayItems?, h]
  rfl

theorem arrayItems?_last {c : Char} {t : List Char} (hs : skipTrivia false s = c :: t)
    (hc : c ≠ ']') (hitem : read? (c :: t) = some (item, rest))
    (hrest : skipTrivia false rest = ']' :: rest') :
    arrayItems? read? s = some ([item], rest') := by
  rw [arrayItems?, hs]
  split
  · simp_all
  · next heq =>
    rw [hitem]
    simp only [hrest]

theorem arrayItems?_comma {c : Char} {t : List Char} (hs : skipTrivia false s = c :: t)
    (hc : c ≠ ']') (hitem : read? (c :: t) = some (item, rest))
    (hrest : skipTrivia false rest = ',' :: rest') (hlength : rest'.length < s.length) :
    arrayItems? read? s = (arrayItems? read? rest').map fun p => (item :: p.1, p.2) := by
  rw [arrayItems?, hs]
  split
  · simp_all
  · next heq =>
    rw [hitem]
    simp only [hrest, hlength, if_true]

end Array

section Strings

variable (levels : Nat) (rest : List Char)

theorem arrayItems?_nil : arrayItems? (value? levels) (']' :: rest) = some ([], rest) :=
  arrayItems?_closing (skipTrivia_cons (by decide) rest)

/-- One string, between the brackets. -/
theorem arrayItems?_one (s : String) :
    arrayItems? (value? levels) (quote s.toList ++ ']' :: rest) = some ([.text s], rest) := by
  have hitem := value?_quote levels s.toList (.bracket rest)
  have hskip := skipTrivia_quote s.toList (']' :: rest)
  obtain ⟨c, t, hquote, hc, -⟩ := exists_quote_ne s.toList
  rw [hquote, List.cons_append] at hitem hskip ⊢
  rw [arrayItems?_last hskip hc hitem (skipTrivia_cons (by decide) _), String.ofList_toList]

/-- Strings on lines of their own, each behind some blanks and with a comma behind it. -/
theorem arrayItems?_lines (list : List String) :
    arrayItems? (value? levels) ('\n' :: (list.flatMap (fun s =>
      [' ', ' ', ' ', ' '] ++ quote s.toList ++ [',', '\n']) ++ ']' :: rest)) =
      some (list.map .text, rest) := by
  induction list with
  | nil =>
    exact arrayItems?_closing ((skipTrivia_newline _).trans (skipTrivia_cons (by decide) rest))
  | cons s list ih =>
    obtain ⟨behind, hbehind⟩ : ∃ behind, behind = '\n' :: (list.flatMap (fun s =>
      [' ', ' ', ' ', ' '] ++ quote s.toList ++ [',', '\n']) ++ ']' :: rest) := ⟨_, rfl⟩
    have htext : '\n' :: ((s :: list).flatMap (fun s =>
        [' ', ' ', ' ', ' '] ++ quote s.toList ++ [',', '\n']) ++ ']' :: rest) =
        '\n' :: ' ' :: ' ' :: ' ' :: ' ' :: (quote s.toList ++ ',' :: behind) := by
      simp [hbehind]
    rw [← hbehind] at ih
    have hskip : skipTrivia false ('\n' :: ' ' :: ' ' :: ' ' :: ' ' ::
        (quote s.toList ++ ',' :: behind)) = quote s.toList ++ ',' :: behind := by
      have hblank : isLineBlank ' ' = true := rfl
      rw [skipTrivia_newline, skipTrivia_blank hblank, skipTrivia_blank hblank,
        skipTrivia_blank hblank, skipTrivia_blank hblank, skipTrivia_quote]
    have hitem := value?_quote levels s.toList (.comma behind)
    obtain ⟨c, t, hquote, hc, -⟩ := exists_quote_ne s.toList
    rw [hquote, List.cons_append] at hskip hitem
    have hcomma : skipTrivia false (',' :: behind) = ',' :: behind := skipTrivia_cons (by decide) _
    rw [htext, hquote, List.cons_append, arrayItems?_comma hskip hc hitem hcomma
      (by simp only [List.length_cons, List.length_append]; omega), ih]
    simp

/-- **An array** as a value. -/
theorem value?_bracket {s : List Char} {items : List Item}
    (h : arrayItems? (value? levels) s = some (items, rest)) :
    value? (levels + 1) ('[' :: s) = some (.array items, rest) := by
  rw [value?, h]
  rfl

end Strings

end FirmwareReport.Toml
