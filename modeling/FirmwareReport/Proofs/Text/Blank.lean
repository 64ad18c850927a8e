import Mathlib.Data.List.Basic
import FirmwareReport.Text.Blank

/-!
# Runs and trimming

A recogniser that takes as many characters of a kind as there are stops where the next one is of
another kind, and this determines what it took (`FirmwareReport.Text.span_iff`). Trimming in front
is such a run of white space; trimming at the end cuts off a run of white space too, and leaves
nothing to cut off (`FirmwareReport.Text.trimEnd_append`, `FirmwareReport.Text.trimEnd_trimEnd`).
-/

namespace FirmwareReport.Text

/-! ### Runs -/

/-- A text that does not begin with a character of a kind. -/
def StopsAt (p : Char → Bool) (s : List Char) : Prop :=
  ∀ c ∈ s.head?, p c = false

theorem stopsAt_nil (p : Char → Bool) : StopsAt p [] := by
  simp [StopsAt]

theorem stopsAt_cons {p : Char → Bool} {c : Char} {s : List Char} :
    StopsAt p (c :: s) ↔ p c = false := by
  simp [StopsAt]

theorem stopsAt_dropWhile (p : Char → Bool) (s : List Char) : StopsAt p (s.dropWhile p) := by
  intro c hc
  cases h : s.dropWhile p with
  | nil => simp [h] at hc
  | cons d t =>
    obtain rfl : d = c := by simpa [h] using hc
    have := List.head_dropWhile_not p (l := s) (by simp [h])
    simpa [h] using this

/-- **A run is determined by its end**: the text is the run and a rest that stops it. -/
theorem span_iff {p : Char → Bool} {s run rest : List Char} :
    s.takeWhile p = run ∧ s.dropWhile p = rest ↔
      s = run ++ rest ∧ run.all p = true ∧ StopsAt p rest := by
  constructor
  · rintro ⟨rfl, rfl⟩
    exact ⟨List.takeWhile_append_dropWhile.symm, List.all_takeWhile, stopsAt_dropWhile p s⟩
  · rintro ⟨rfl, hrun, hrest⟩
    have hrun : ∀ c ∈ run, p c = true := by simpa using hrun
    rw [List.takeWhile_append_of_pos hrun, List.dropWhile_append_of_pos hrun]
    cases rest with
    | nil => simp
    | cons c rest => simp [stopsAt_cons.1 hrest]

/-! ### White space in front -/

/-- The ranges of white space, written out. -/
theorem isBlank_iff {c : Char} : isBlank c = true ↔
    (0x09 ≤ c.toNat ∧ c.toNat ≤ 0x0d) ∨ c.toNat = 0x20 ∨ c.toNat = 0x85 ∨ c.toNat = 0xa0 ∨
      c.toNat = 0x1680 ∨ (0x2000 ≤ c.toNat ∧ c.toNat ≤ 0x200a) ∨
      (0x2028 ≤ c.toNat ∧ c.toNat ≤ 0x2029) ∨ c.toNat = 0x202f ∨ c.toNat = 0x205f ∨
      c.toNat = 0x3000 := by
  simp only [isBlank, blankRanges, List.any_cons, List.any_nil, Bool.or_false, Bool.or_eq_true,
    Bool.and_eq_true, decide_eq_true_eq]
  omega

/-- White space in front is a run. -/
theorem trimStart_eq_iff {s rest : List Char} : trimStart s = rest ↔
    ∃ lead, isAllBlank lead = true ∧ StopsAt isBlank rest ∧ s = lead ++ rest := by
  constructor
  · rintro rfl
    exact ⟨s.takeWhile isBlank, List.all_takeWhile, stopsAt_dropWhile isBlank s,
      List.takeWhile_append_dropWhile.symm⟩
  · rintro ⟨lead, hlead, hrest, rfl⟩
    exact (span_iff.2 ⟨rfl, hlead, hrest⟩).2

/-- What begins with no white space stays as it is. -/
theorem trimStart_append {lead rest : List Char} (hlead : isAllBlank lead = true)
    (hrest : StopsAt isBlank rest) : trimStart (lead ++ rest) = rest :=
  trimStart_eq_iff.2 ⟨lead, hlead, hrest, rfl⟩

/-! ### White space at the end -/

/-- White space at the end does not matter. -/
theorem trimEnd_append {blanks : List Char} (h : isAllBlank blanks = true) (s : List Char) :
    trimEnd (s ++ blanks) = trimEnd s := by
  induction s with
  | nil => rw [List.nil_append, trimEnd_nil, trimEnd_eq_nil_iff, h]
  | cons c s ih => rw [List.cons_append, trimEnd_cons, trimEnd_cons, ih]

/-- What ends with no white space stays as it is. -/
theorem trimEnd_concat {c : Char} (h : isBlank c = false) (s : List Char) :
    trimEnd (s ++ [c]) = s ++ [c] := by
  induction s with
  | nil => simp [trimEnd_cons, h]
  | cons d s ih => simp [trimEnd_cons, ih]

theorem trimEnd_trimEnd (s : List Char) : trimEnd (trimEnd s) = trimEnd s := by
  obtain ⟨cut, hcut, heq⟩ := exists_trimEnd_append s
  conv_rhs => rw [heq, trimEnd_append hcut]

/-- **Nothing is left to cut off**: a trimmed text has no white space at its end. -/
theorem eq_nil_of_trimEnd_eq_append {s t blanks : List Char} (h : isAllBlank blanks = true)
    (heq : trimEnd s = t ++ blanks) : blanks = [] := by
  have htrim : trimEnd t = t ++ blanks := by
    rw [← heq, ← trimEnd_trimEnd s, heq, trimEnd_append h]
  obtain ⟨cut, -, hcut⟩ := exists_trimEnd_append t
  have hlength := congrArg List.length hcut
  rw [htrim] at hlength
  simp only [List.length_append] at hlength
  exact List.eq_nil_of_length_eq_zero (by omega)

/-- Nothing is left of a text, trimmed at either end, exactly if it is all white space. -/
theorem trim_eq_nil_iff {s : List Char} : trim s = [] ↔ isAllBlank s = true := by
  obtain ⟨lead, hlead, -, heq⟩ := trimStart_eq_iff.1 (Eq.refl (trimStart s))
  have hall : isAllBlank s = isAllBlank (trimStart s) := by
    conv_lhs => rw [heq, isAllBlank, List.all_append, ← isAllBlank, hlead, Bool.true_and]
    rfl
  rw [trim, trimEnd_eq_nil_iff, hall]

/-- A trimmed text begins with no white space. -/
theorem stopsAt_of_trim_eq {s : List Char} (h : trim s = s) : StopsAt isBlank s := by
  obtain ⟨cut, -, hcut⟩ := exists_trimEnd_append (trimStart s)
  have hstart : trimStart s = s ++ cut := hcut.trans (congrArg (· ++ cut) h)
  have hsuffix : s ++ cut <:+ s := hstart ▸ List.dropWhile_suffix isBlank
  have hcut : cut = [] := by
    have hlength := hsuffix.length_le
    rw [List.length_append] at hlength
    exact List.eq_nil_of_length_eq_zero (by omega)
  have hstops := stopsAt_dropWhile isBlank s
  rw [← trimStart, hstart, hcut, List.append_nil] at hstops
  exact hstops

end FirmwareReport.Text
