import FirmwareReport.Json
import FirmwareReport.Proofs.Json.Reader
import FirmwareReport.Proofs.Number.Digits
import FirmwareReport.Proofs.Number.Shortest
import FirmwareReport.Proofs.Text.Blank

/-!
# Written numbers and strings

The values of a dataset that hold no others are read back: whole numbers and doubles as the numbers
they are written as (`FirmwareReport.Datum.value?_natural`, `FirmwareReport.Datum.value?_real`),
strings character by character with their escapes resolved
(`FirmwareReport.Datum.string?_flatMap_escape`).

That a double is written as a number at all, or as `null`, is where the digits of
`FirmwareReport.Magnitude.exists_shortest` meet the grammar: wherever the point falls, there is a
digit on either side of it, and no zero in front of other digits.
-/

namespace FirmwareReport

namespace Datum

open Text (StopsAt)

/-! ### The grammar of numbers -/

theorem behindDigits?_append {digits rest : List Char} (hne : digits ≠ [])
    (hdigits : ∀ c ∈ digits, c.isDigit = true) (hrest : StopsAt Char.isDigit rest) :
    behindDigits? (digits ++ rest) = some rest := by
  obtain ⟨hrun, hbehind⟩ := (Text.span_iff (p := Char.isDigit)).2
    ⟨rfl, List.all_eq_true.2 hdigits, hrest⟩
  rw [behindDigits?, hrun, hbehind, List.isEmpty_eq_false_iff.2 hne]
  rfl

/-- A whole part: a zero, or digits with no zero in front. -/
def IsWhole (s : List Char) : Prop :=
  s = ['0'] ∨ ∃ c digits, s = c :: digits ∧ c ≠ '0' ∧ ∀ d ∈ s, d.isDigit = true

/-- A fraction, or none. -/
def IsFraction (s : List Char) : Prop :=
  s = [] ∨ ∃ digits, s = '.' :: digits ∧ digits ≠ [] ∧ ∀ d ∈ digits, d.isDigit = true

/-- An exponent, or none. -/
def IsExponent (s : List Char) : Prop :=
  s = [] ∨ ∃ sign digits, s = 'e' :: sign :: digits ∧ (sign = '+' ∨ sign = '-') ∧ digits ≠ [] ∧
    ∀ d ∈ digits, d.isDigit = true

/-- **The parts of a number** are read one after the other. -/
theorem isMagnitude_append {whole fraction exponent : List Char} (hwhole : IsWhole whole)
    (hfraction : IsFraction fraction) (hexponent : IsExponent exponent) :
    isMagnitude (whole ++ (fraction ++ exponent)) = true := by
  have hbehind : behindExponent? exponent = some [] := by
    rcases hexponent with rfl | ⟨sign, digits, rfl, hsign, hne, hdigits⟩
    · rfl
    · have hread := behindDigits?_append hne hdigits (Text.stopsAt_nil _)
      rw [List.append_nil] at hread
      rcases hsign with rfl | rfl <;> exact hread
  have hstop : StopsAt Char.isDigit exponent := by
    rcases hexponent with rfl | ⟨sign, digits, rfl, -⟩
    · exact Text.stopsAt_nil _
    · exact Text.stopsAt_cons.2 rfl
  have hmiddle : behindFraction? (fraction ++ exponent) = some exponent := by
    rcases hfraction with rfl | ⟨digits, rfl, hne, hdigits⟩
    · rcases hexponent with rfl | ⟨sign, digits, rfl, -⟩ <;> rfl
    · exact behindDigits?_append hne hdigits hstop
  have hstop' : StopsAt Char.isDigit (fraction ++ exponent) := by
    rcases hfraction with rfl | ⟨digits, rfl, -⟩
    · exact hstop
    · exact Text.stopsAt_cons.2 rfl
  have hfront : behindWhole? (whole ++ (fraction ++ exponent)) = some (fraction ++ exponent) := by
    rcases hwhole with rfl | ⟨c, digits, rfl, hc, hdigits⟩
    · rfl
    · have hread := behindDigits?_append (List.cons_ne_nil c digits) hdigits hstop'
      rw [List.cons_append] at hread ⊢
      unfold behindWhole?
      split
      · simp_all
      · exact hread
  rw [isMagnitude, hfront, Option.bind_some, hmiddle, Option.bind_some, hbehind]
  rfl

/-- A number, put together of its parts. -/
def IsNumeral (word : List Char) : Prop :=
  ∃ negative whole fraction exponent, IsWhole whole ∧ IsFraction fraction ∧ IsExponent exponent ∧
    word = signText negative ++ (whole ++ (fraction ++ exponent))

namespace IsNumeral

variable {word : List Char}

/-- It is a number for the reader. -/
theorem isNumber (h : IsNumeral word) : Datum.isNumber word = true := by
  obtain ⟨negative, whole, fraction, exponent, hwhole, hfraction, hexponent, rfl⟩ := h
  have hmagnitude := isMagnitude_append hwhole hfraction hexponent
  cases negative with
  | true => exact hmagnitude
  | false =>
    change Datum.isNumber (whole ++ (fraction ++ exponent)) = true
    unfold Datum.isNumber
    split
    · next heq =>
      rw [heq] at hmagnitude
      cases hmagnitude
    · exact hmagnitude

/-- It is a single word. -/
theorem isWordChar (h : IsNumeral word) : ∀ c ∈ word, Datum.isWordChar c = true := by
  have hdigit : ∀ c : Char, c.isDigit = true → Datum.isWordChar c = true := fun c hc => by
    simp [Datum.isWordChar, Char.isAlphanum, hc]
  obtain ⟨negative, whole, fraction, exponent, hwhole, hfraction, hexponent, rfl⟩ := h
  intro c hc
  simp only [List.mem_append] at hc
  rcases hc with hc | hc | hc | hc
  · cases negative with
    | true =>
      rw [List.mem_singleton.1 hc]
      rfl
    | false => cases hc
  · rcases hwhole with rfl | ⟨d, digits, rfl, -, hdigits⟩
    · rw [List.mem_singleton.1 hc]
      rfl
    · exact hdigit c (hdigits c hc)
  · rcases hfraction with rfl | ⟨digits, rfl, -, hdigits⟩
    · cases hc
    · rcases List.mem_cons.1 hc with rfl | hc
      · rfl
      · exact hdigit c (hdigits c hc)
  · rcases hexponent with rfl | ⟨sign, digits, rfl, hsign, -, hdigits⟩
    · cases hc
    · simp only [List.mem_cons] at hc
      rcases hc with rfl | rfl | hc
      · rfl
      · rcases hsign with rfl | rfl <;> rfl
      · exact hdigit c (hdigits c hc)

end IsNumeral

/-! ### Written numbers -/

theorem isWhole_cons {c : Char} {digits : List Char} (hc : c ≠ '0')
    (hdigits : ∀ d ∈ c :: digits, d.isDigit = true) : IsWhole (c :: digits) :=
  Or.inr ⟨c, digits, rfl, hc, hdigits⟩

theorem isWhole_toDigits (n : Nat) : IsWhole (Nat.toDigits 10 n) := by
  rcases Nat.eq_zero_or_pos n with rfl | hpos
  · exact Or.inl rfl
  · obtain ⟨c, digits, heq, hc⟩ := exists_toDigits hpos
    refine heq ▸ isWhole_cons hc fun d hd => ?_
    exact Nat.isDigit_of_mem_toDigits (by decide) (by decide) (heq ▸ hd)

/-- Whole numbers. -/
theorem isNumeral_toDigits (n : Nat) : IsNumeral (Nat.toDigits 10 n) :=
  ⟨false, _, [], [], isWhole_toDigits n, Or.inl rfl, Or.inl rfl, by simp [signText]⟩

/-- **Wherever the point falls**, there are digits on either side of it. -/
theorem exists_pointAt {c : Char} {digits : List Char} (hc : c ≠ '0')
    (hdigits : ∀ d ∈ c :: digits, d.isDigit = true) (point : Int) :
    ∃ whole fraction, IsWhole whole ∧ IsFraction fraction ∧
      pointAt point ['.', '0'] (c :: digits) = whole ++ fraction := by
  unfold pointAt
  dsimp only
  split
  · refine ⟨['0'], '.' :: (zeros (-point).toNat ++ c :: digits), Or.inl rfl,
      Or.inr ⟨_, rfl, by simp, fun d hd => ?_⟩, rfl⟩
    exact (List.mem_append.1 hd).elim isDigit_of_mem_zeros (hdigits d)
  · split
    · refine ⟨c :: (digits ++ zeros (point.toNat - (c :: digits).length)), ['.', '0'],
        isWhole_cons hc fun d hd => ?_, Or.inr ⟨['0'], rfl, by simp, by simp⟩, by simp⟩
      rw [← List.cons_append] at hd
      exact (List.mem_append.1 hd).elim (hdigits d) isDigit_of_mem_zeros
    · next hpoint hlength =>
      obtain ⟨places, hplaces⟩ : ∃ places, point.toNat = places + 1 :=
        ⟨point.toNat - 1, by omega⟩
      rw [hplaces] at hlength ⊢
      refine ⟨c :: digits.take places, '.' :: digits.drop places,
        isWhole_cons hc fun d hd => ?_, Or.inr ⟨_, rfl, fun hnil => ?_, fun d hd => ?_⟩, by simp⟩
      · exact hdigits d (List.cons_subset_cons c (List.take_subset places digits) hd)
      · have hle := List.drop_eq_nil_iff.1 hnil
        simp only [List.length_cons] at hlength
        omega
      · exact hdigits d (List.mem_cons_of_mem c (List.drop_subset places digits hd))

/-- Scientific notation. -/
theorem exists_scientific {c : Char} {digits : List Char} (hc : c ≠ '0')
    (hdigits : ∀ d ∈ c :: digits, d.isDigit = true) (exponent : Int) :
    ∃ whole fraction marked, IsWhole whole ∧ IsFraction fraction ∧ IsExponent marked ∧
      scientific exponent (c :: digits) = whole ++ (fraction ++ marked) := by
  obtain ⟨sign, hsign⟩ : ∃ sign, sign = if exponent < 0 then '-' else '+' := ⟨_, rfl⟩
  have hmarked : IsExponent ('e' :: sign :: Nat.toDigits 10 exponent.natAbs) := by
    refine Or.inr ⟨sign, _, rfl, ?_, Nat.toDigits_ne_nil, fun d hd => ?_⟩
    · rw [hsign]
      split
      · exact Or.inr rfl
      · exact Or.inl rfl
    · exact Nat.isDigit_of_mem_toDigits (by decide) (by decide) hd
  have hwhole : IsWhole [c] := isWhole_cons hc fun d hd => hdigits d (by simp_all)
  cases digits with
  | nil => exact ⟨[c], [], _, hwhole, Or.inl rfl, hmarked, by simp [scientific, hsign]⟩
  | cons d digits =>
    refine ⟨[c], '.' :: d :: digits, _, hwhole, Or.inr ⟨_, rfl, by simp, fun e he => ?_⟩, hmarked,
      by simp [scientific, hsign]⟩
    exact hdigits e (List.mem_cons_of_mem c he)

/-- **Doubles**, as far as they are finite. -/
theorem isNumeral_write {x : Float} {negative : Bool} {v : Magnitude}
    (h : Double.ofFloat x = .finite negative v) :
    IsNumeral (Style.dataset.write x).toList := by
  rw [Style.write, h]
  dsimp only
  rw [String.toList_ofList]
  split
  · exact ⟨negative, ['0'], ['.', '0'], [], Or.inl rfl, Or.inr ⟨['0'], rfl, by simp, by simp⟩,
      Or.inl rfl, rfl⟩
  · next hzero =>
    obtain ⟨c, digits, hshortest, hc, hdigits⟩ :=
      Magnitude.exists_shortest Style.dataset.tie (Magnitude.isDouble_of_ofFloat h)
        (Nat.pos_of_ne_zero hzero)
    obtain ⟨point, hpoint⟩ : ∃ point, point =
      (v.neighbourhood.shortest Style.dataset.tie).2 := ⟨_, rfl⟩
    have hparts : v.neighbourhood.shortest Style.dataset.tie = (c :: digits, point) := by
      rw [← hshortest, hpoint]
    rw [Style.writeMagnitude, hparts]
    dsimp only [Style.dataset]
    split
    · obtain ⟨whole, fraction, hwhole, hfraction, heq⟩ := exists_pointAt hc hdigits point
      exact ⟨negative, whole, fraction, [], hwhole, hfraction, Or.inl rfl,
        by rw [heq, List.append_nil]⟩
    · obtain ⟨whole, fraction, marked, hwhole, hfraction, hmarked, heq⟩ :=
        exists_scientific hc hdigits (point - 1)
      exact ⟨negative, whole, fraction, marked, hwhole, hfraction, hmarked, by rw [heq]⟩

/-! ### Words -/

theorem ofWord?_of_isNumeral {word : List Char} (h : IsNumeral word) :
    ofWord? word = some (.number (String.ofList word)) := by
  have hname (name : String) (hname : isNumber name.toList = false) : word ≠ name.toList :=
    fun heq => by simp [heq ▸ h.isNumber] at hname
  rw [ofWord?, if_neg (hname "null" rfl), if_neg (hname "true" rfl), if_neg (hname "false" rfl),
    if_pos h.isNumber]

/-- **A word** is read up to what cannot belong to it. -/
theorem value?_word (levels : Nat) {word : List Char} {datum : Datum}
    (hword : ∀ c ∈ word, isWordChar c = true) (hvalue : ofWord? word = some datum)
    {rest : List Char} (hrest : StopsAt isWordChar rest) :
    value? (levels + 1) (word ++ rest) = some (datum, rest) := by
  obtain ⟨hrun, hbehind⟩ := (Text.span_iff (p := isWordChar)).2
    ⟨rfl, List.all_eq_true.2 hword, hrest⟩
  cases word with
  | nil => cases hvalue
  | cons c word =>
    have hne : ∀ d, isWordChar d = false → c ≠ d := fun d hd heq => by
      simp [heq ▸ hword c List.mem_cons_self] at hd
    rw [List.cons_append] at hrun hbehind ⊢
    unfold value?
    split
    · next heq => exact absurd (List.cons.inj heq).1 (hne '"' rfl)
    · next heq => exact absurd (List.cons.inj heq).1 (hne '[' rfl)
    · next heq => exact absurd (List.cons.inj heq).1 (hne '\x7b' rfl)
    · rw [hrun, hbehind, hvalue]
      rfl

/-- **A whole number** as a value. -/
theorem value?_natural (levels n : Nat) {rest : List Char} (hrest : StopsAt isWordChar rest) :
    value? (levels + 1) (Nat.toDigits 10 n ++ rest) = some (.number (decimal n), rest) :=
  value?_word levels (isNumeral_toDigits n).isWordChar
    (ofWord?_of_isNumeral (isNumeral_toDigits n)) hrest

/-- What a double is read as: its own text, or nothing if it is no finite number. -/
def ofFloat (x : Float) : Datum :=
  match Double.ofFloat x with
  | .finite _ _ => .number (Style.dataset.write x)
  | _ => .null

/-- **A double** as a value. -/
theorem value?_real (levels : Nat) (x : Float) {rest : List Char}
    (hrest : StopsAt isWordChar rest) :
    value? (levels + 1) ((Style.dataset.write x).toList ++ rest) = some (ofFloat x, rest) := by
  have hnull : ∀ c ∈ "null".toList, isWordChar c = true := List.all_eq_true.1 rfl
  unfold ofFloat
  cases h : Double.ofFloat x with
  | finite negative v =>
    have hnumeral := isNumeral_write h
    have hvalue := ofWord?_of_isNumeral hnumeral
    rw [String.ofList_toList] at hvalue
    exact value?_word levels hnumeral.isWordChar hvalue hrest
  | nan =>
    rw [Style.write, h]
    exact value?_word levels hnull rfl hrest
  | infinite negative =>
    rw [Style.write, h]
    exact value?_word levels hnull rfl hrest

/-! ### Strings -/

/-- The number of a control character behind `\\u`. -/
theorem codePoint?_escape {c : Char} (hc : c.toNat < 0x20) (rest : List Char) :
    codePoint? ('0' :: '0' :: Nat.digitChar (c.toNat / 16) :: Nat.digitChar (c.toNat % 16) ::
      rest) = some (c, rest) := by
  have hdigits : ∀ n < 0x20, positional 16
      ['0', '0', Nat.digitChar (n / 16), Nat.digitChar (n % 16)] = n ∧
      ['0', '0', Nat.digitChar (n / 16), Nat.digitChar (n % 16)].all (isDigitOf 16) = true := by
    decide
  obtain ⟨hvalue, hall⟩ := hdigits c.toNat hc
  have hunit : codeUnit? ('0' :: '0' :: Nat.digitChar (c.toNat / 16) ::
      Nat.digitChar (c.toNat % 16) :: rest) = some (c.toNat, rest) := by
    simp only [codeUnit?, List.take_succ_cons, List.take_zero, hvalue, hall, List.length_cons,
      List.length_nil, and_self, if_true, List.drop_succ_cons, List.drop_zero]
  have hvalid : c.toNat.isValidChar := c.valid
  rw [codePoint?, hunit]
  dsimp only
  rw [if_neg (by omega), if_pos hvalid, Char.ofNat_toNat]

/-- **A character is escaped or stands for itself**, and an escape is read as what it escapes. -/
theorem escape_cases (c : Char) :
    (Json.escape c = [c] ∧ c ≠ '"' ∧ c ≠ '\\' ∧ ¬c.toNat < 0x20) ∨
      ∃ behind, Json.escape c = '\\' :: behind ∧
        ∀ rest, escape? (behind ++ rest) = some (c, rest) := by
  unfold Json.escape
  cases hshort : Json.shortEscapes.lookup c with
  | some letter =>
    obtain ⟨front, more, hlist, -⟩ := List.lookup_eq_some_iff.1 hshort
    have hmem : (c, letter) ∈ Json.shortEscapes := by simp [hlist]
    refine Or.inr ⟨[letter], rfl, fun rest => ?_⟩
    simp only [Json.shortEscapes, List.mem_cons, Prod.mk.injEq, List.not_mem_nil,
      or_false] at hmem
    rcases hmem with ⟨rfl, rfl⟩ | ⟨rfl, rfl⟩ | ⟨rfl, rfl⟩ | ⟨rfl, rfl⟩ | ⟨rfl, rfl⟩ | ⟨rfl, rfl⟩ |
      ⟨rfl, rfl⟩ <;> rfl
  | none =>
    have hne := List.lookup_eq_none_iff.1 hshort
    dsimp only
    split
    · next hcontrol => exact Or.inr ⟨_, rfl, codePoint?_escape hcontrol⟩
    · next hcontrol =>
      refine Or.inl ⟨rfl, ?_, ?_, hcontrol⟩
      · rintro rfl
        exact absurd (hne ('"', '"') (by decide)) (by decide)
      · rintro rfl
        exact absurd (hne ('\\', '\\') (by decide)) (by decide)

theorem string?_escape (c : Char) (s : List Char) :
    string? (Json.escape c ++ s) = (string? s).map fun p => (c :: p.1, p.2) := by
  rcases escape_cases c with ⟨hescape, hquote, hbackslash, hcontrol⟩ | ⟨behind, hescape, hread⟩
  · rw [hescape, List.singleton_append, string?, if_neg hquote, if_neg hbackslash,
      if_neg hcontrol]
  · rw [hescape, List.cons_append, string?, if_neg (by decide), if_pos rfl]
    split
    · next e rest heq =>
      obtain ⟨rfl, rfl⟩ : c = e ∧ s = rest := by simpa using (hread s).symm.trans heq
      rfl
    · next heq => cases (hread s).symm.trans heq

/-- **A string** is read up to its closing quote. -/
theorem string?_flatMap_escape (s rest : List Char) :
    string? (s.flatMap Json.escape ++ '"' :: rest) = some (s, rest) := by
  induction s with
  | nil => simp [string?]
  | cons c s ih =>
    rw [List.flatMap_cons, List.append_assoc, string?_escape, ih]
    rfl

theorem value?_text (levels : Nat) (s : String) (rest : List Char) :
    value? (levels + 1) (Json.quote s ++ rest) = some (.text s, rest) := by
  have hstring := string?_flatMap_escape s.toList rest
  simp only [Json.quote, List.append_assoc, List.cons_append, List.nil_append, value?, hstring,
    Option.map_some, String.ofList_toList]

end Datum

end FirmwareReport
