import FirmwareReport.Number.Numeral

/-!
# Numerals and their values

The decimal digits of a number have the number for their value
(`FirmwareReport.positional_toDigits`), and they begin with a zero for zero alone
(`FirmwareReport.exists_toDigits`). The digits are followed from the last to the first, as division
by ten yields them (`FirmwareReport.toDigits_induction`).
-/

namespace FirmwareReport

/-! ### Digits -/

theorem digitValue?_digitChar : ∀ d < 10, digitValue? (Nat.digitChar d) = some d := by
  decide

theorem isDigitOf_digitChar : ∀ d < 10, isDigitOf 10 (Nat.digitChar d) = true := by
  decide

theorem digitChar_ne_zero : ∀ d < 10, 0 < d → Nat.digitChar d ≠ '0' := by
  decide

/-- **From the last digit to the first.** -/
theorem toDigits_induction {Spec : Nat → List Char → Prop}
    (hdigit : ∀ d < 10, Spec d [Nat.digitChar d])
    (hmore : ∀ n digits d, 0 < n → d < 10 → Spec n digits →
      Spec (10 * n + d) (digits ++ [Nat.digitChar d])) (n : Nat) :
    Spec n (Nat.toDigits 10 n) := by
  induction n using Nat.strongRecOn with
  | ind n ih =>
    rw [Nat.toDigits_eq_if (by decide)]
    split
    · next hlt => exact hdigit n hlt
    · next hle =>
      have hspec := hmore (n / 10) _ (n % 10) (by omega) (by omega) (ih (n / 10) (by omega))
      rwa [Nat.div_add_mod] at hspec

/-! ### Values -/

theorem positional_concat (base : Nat) (digits : List Char) (c : Char) :
    positional base (digits ++ [c]) = base * positional base digits + (digitValue? c).getD 0 := by
  rw [positional, List.foldl_append]
  rfl

/-- **The digits of a number have its value.** -/
theorem positional_toDigits (n : Nat) : positional 10 (Nat.toDigits 10 n) = n := by
  induction n using toDigits_induction with
  | hdigit d hd => simp [positional, digitValue?_digitChar d hd]
  | hmore n digits d _ hd ih =>
    rw [positional_concat, ih, digitValue?_digitChar d hd]
    rfl

/-- All digits are decimal. -/
theorem all_isDigitOf_toDigits (n : Nat) : (Nat.toDigits 10 n).all (isDigitOf 10) = true := by
  induction n using toDigits_induction with
  | hdigit d hd => simp [isDigitOf_digitChar d hd]
  | hmore n digits d _ hd ih => simp [ih, isDigitOf_digitChar d hd]

/-- **No zero stands in front** of other digits. -/
theorem exists_toDigits {n : Nat} (hn : 0 < n) :
    ∃ c digits, Nat.toDigits 10 n = c :: digits ∧ c ≠ '0' := by
  revert hn
  induction n using toDigits_induction with
  | hdigit d hd => exact fun hpos => ⟨_, [], rfl, digitChar_ne_zero d hd hpos⟩
  | hmore n digits d hpos hd ih =>
    intro _
    obtain ⟨c, more, rfl, hc⟩ := ih hpos
    exact ⟨c, more ++ [Nat.digitChar d], rfl, hc⟩

end FirmwareReport
