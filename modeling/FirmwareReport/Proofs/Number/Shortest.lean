import Mathlib.Tactic.Ring
import FirmwareReport.Number.Decimal
import FirmwareReport.Proofs.Number.Numeral

/-!
# The shortest digits exist

`FirmwareReport.Neighbourhood.shortest` tries grids of one to seventeen digits. For every positive
double one of them has a hit, so there are digits, and the first of them is no zero
(`FirmwareReport.Magnitude.exists_shortest`).

A grid has a hit as soon as its step is less than the width of the neighbourhood, for then one of
the two points next to the value lies inside (`FirmwareReport.Neighbourhood.onGrid?_isSome`). The
grid of seventeen digits is that fine: its step is no more than the value divided by `10 ^ 16`, and
the mantissa of a double is less than `2 ^ 53`. All steps are compared on the common scale of
`FirmwareReport.Neighbourhood.gridFactor` and `FirmwareReport.Neighbourhood.unitFactor`, where a
power of ten below the value can be moved from one grid to the next
(`FirmwareReport.Neighbourhood.pow_mul_gridFactor_le`).
-/

namespace FirmwareReport

/-! ### Doubles -/

/-- The magnitudes of finite doubles: 53 bits at most, the last of them no less than the least
double. -/
structure Magnitude.IsDouble (v : Magnitude) : Prop where
  mantissa_lt : v.mantissa < 2 * fractionLimit
  le_exponent : -1074 ≤ v.exponent

theorem Magnitude.isDouble_of_ofFloat {x : Float} {negative : Bool} {v : Magnitude}
    (h : Double.ofFloat x = .finite negative v) : v.IsDouble := by
  have hfraction : x.toBits.toNat % fractionLimit < fractionLimit := Nat.mod_lt _ (by decide)
  unfold Double.ofFloat at h
  dsimp only at h
  split at h
  · split at h <;> cases h
  · split at h
    · cases h
      exact ⟨by simp only; omega, by simp⟩
    · cases h
      exact ⟨by simp only; omega, by simp only; omega⟩

theorem Magnitude.IsDouble.le_neighbourhood {v : Magnitude} (hv : v.IsDouble) :
    -1076 ≤ v.neighbourhood.exponent := by
  have hle := hv.le_exponent
  simp only [neighbourhood]
  omega

/-! ### Grids -/

/-- A number has at least the power of ten of its first digit. -/
theorem pow_length_toDigits_le {m : Nat} (hm : 0 < m) :
    10 ^ ((Nat.toDigits 10 m).length - 1) ≤ m := by
  by_contra hlt
  rcases Nat.eq_zero_or_pos ((Nat.toDigits 10 m).length - 1) with hzero | hpos
  · rw [hzero] at hlt
    omega
  · have hlength := (Nat.length_toDigits_le_iff (by decide) hpos).2 (Nat.lt_of_not_le hlt)
    omega

/-- Thirteen binary digits are less than four decimal ones. -/
theorem two_pow_le_ten_pow {a b : Nat} (k : Nat) (ha : a ≤ 13 * k) (hb : 4 * k ≤ b) :
    2 ^ a ≤ 10 ^ b :=
  calc 2 ^ a
      ≤ 2 ^ (13 * k) := Nat.pow_le_pow_right (by decide) ha
    _ = (2 ^ 13) ^ k := Nat.pow_mul 2 13 k
    _ ≤ (10 ^ 4) ^ k := Nat.pow_le_pow_left (by decide) k
    _ = 10 ^ (4 * k) := (Nat.pow_mul 10 4 k).symm
    _ ≤ 10 ^ b := Nat.pow_le_pow_right (by decide) hb

theorem div_le_roundDiv (tie : Tie) (num den : Nat) : num / den ≤ roundDiv tie num den := by
  unfold roundDiv
  dsimp only
  split
  · exact Nat.le_refl _
  · split
    · exact Nat.le_succ _
    · cases tie with
      | up => exact Nat.le_succ _
      | toEven => exact Nat.le_add_right _ _

namespace Neighbourhood

variable (n : Neighbourhood) {tie : Tie}

theorem unitFactor_pos (k : Int) : 0 < n.unitFactor k :=
  Nat.mul_pos (Nat.pow_pos (by decide)) (Nat.pow_pos (by decide))

theorem gridFactor_pos (k : Int) : 0 < n.gridFactor k :=
  Nat.mul_pos (Nat.pow_pos (by decide)) (Nat.pow_pos (by decide))

/-- **From one grid to another**: a power of ten of steps that is no more than the value is the
same real on every grid. -/
theorem pow_mul_gridFactor_le {a b : Nat} {j k : Int} (hsum : a + j = b + k)
    (h : 10 ^ a * n.gridFactor j ≤ n.value * n.unitFactor j) :
    10 ^ b * n.gridFactor k ≤ n.value * n.unitFactor k := by
  simp only [gridFactor, unitFactor, Nat.pow_eq] at h ⊢
  obtain ⟨up, hup⟩ : ∃ up, up = 2 ^ n.exponent.toNat := ⟨_, rfl⟩
  obtain ⟨down, hdown⟩ : ∃ down, down = 2 ^ (-n.exponent).toNat := ⟨_, rfl⟩
  rw [← hup, ← hdown] at h ⊢
  have hexponents : b + k.toNat + (-j).toNat = a + j.toNat + (-k).toNat := by omega
  have hpow :
      10 ^ b * 10 ^ k.toNat * 10 ^ (-j).toNat = 10 ^ a * 10 ^ j.toNat * 10 ^ (-k).toNat := by
    rw [← Nat.pow_add, ← Nat.pow_add, ← Nat.pow_add, ← Nat.pow_add, hexponents]
  refine Nat.le_of_mul_le_mul_right (c := 10 ^ (-j).toNat) ?_ (Nat.pow_pos (by decide))
  calc 10 ^ b * (10 ^ k.toNat * down) * 10 ^ (-j).toNat
      = 10 ^ b * 10 ^ k.toNat * 10 ^ (-j).toNat * down := by ring
    _ = 10 ^ a * (10 ^ j.toNat * down) * 10 ^ (-k).toNat := by rw [hpow]; ring
    _ ≤ n.value * (up * 10 ^ (-j).toNat) * 10 ^ (-k).toNat := Nat.mul_le_mul_right _ h
    _ = n.value * (up * 10 ^ (-k).toNat) * 10 ^ (-j).toNat := by ring

/-- Of the finest grids the value is a step at least. -/
theorem gridFactor_neg_le {places : Nat} (hvalue : 0 < n.value)
    (hplaces : 2 ^ (-n.exponent).toNat ≤ 10 ^ places) :
    n.gridFactor (-places) ≤ n.value * n.unitFactor (-places) := by
  have hunit : 0 < n.value * 2 ^ n.exponent.toNat := Nat.mul_pos hvalue (Nat.pow_pos (by decide))
  simp only [gridFactor, unitFactor, Int.toNat_neg_natCast, Int.neg_neg, Int.toNat_natCast,
    Nat.pow_eq, Nat.pow_zero, Nat.one_mul, ← Nat.mul_assoc]
  exact Nat.le_trans hplaces (Nat.le_mul_of_pos_left _ hunit)

/-- The grid that the magnitude is taken from is that fine. -/
theorem gridFactor_le (hvalue : 0 < n.value) (hexponent : -1076 ≤ n.exponent) :
    n.gridFactor (-340) ≤ n.value * n.unitFactor (-340) :=
  n.gridFactor_neg_le hvalue (two_pow_le_ten_pow 85 (by omega) (by decide))

/-- **The magnitude is no overestimate**: in front of the last of so many digits there is a power of
ten of steps at least. -/
theorem pow_mul_gridFactor_magnitudeOf_le (hvalue : 0 < n.value) (hexponent : -1076 ≤ n.exponent)
    (count : Nat) :
    10 ^ count * n.gridFactor (n.magnitudeOf - (count + 1 : Nat)) ≤
      n.value * n.unitFactor (n.magnitudeOf - (count + 1 : Nat)) := by
  obtain ⟨scaled, hscaled⟩ :
      ∃ scaled, scaled = n.value * n.unitFactor (-340) / n.gridFactor (-340) := ⟨_, rfl⟩
  have hpos : 0 < scaled :=
    hscaled ▸ Nat.div_pos (n.gridFactor_le hvalue hexponent) (n.gridFactor_pos (-340))
  have hlength : 0 < (Nat.toDigits 10 scaled).length := Nat.length_toDigits_pos
  have hmagnitude : n.magnitudeOf = (Nat.toDigits 10 scaled).length - 340 := by
    rw [hscaled]
    rfl
  refine n.pow_mul_gridFactor_le (a := (Nat.toDigits 10 scaled).length - 1) (j := -340) ?_ ?_
  · rw [hmagnitude]
    omega
  · calc 10 ^ ((Nat.toDigits 10 scaled).length - 1) * n.gridFactor (-340)
        ≤ scaled * n.gridFactor (-340) := Nat.mul_le_mul_right _ (pow_length_toDigits_le hpos)
      _ ≤ n.value * n.unitFactor (-340) := hscaled ▸ Nat.div_mul_le_self _ _

/-! ### Hits -/

/-- A hit is a point next to the value, and no less than the one below it. -/
theorem div_le_of_onGrid? {k : Int} {c : Nat} (h : n.onGrid? tie k = some c) :
    n.value * n.unitFactor k / n.gridFactor k ≤ c := by
  unfold onGrid? at h
  dsimp only at h
  split at h
  · cases h
    exact div_le_roundDiv tie _ _
  · cases h
    exact Nat.le_refl _
  · cases h
    exact Nat.le_succ _
  · cases h

/-- What lies inside, not at the ends, reads back. -/
theorem holds_of_lt {k : Int} {c : Nat} (hlow : n.low * n.unitFactor k < c * n.gridFactor k)
    (hhigh : c * n.gridFactor k < n.high * n.unitFactor k) : n.holds k c = true := by
  unfold holds
  dsimp only
  split <;> simp <;> omega

/-- **A grid whose step is less than the width of the neighbourhood has a hit**: the point below the
value lies inside, or the one above it does. -/
theorem onGrid?_isSome {k : Int} (hlow : n.low < n.value) (hhigh : n.value < n.high)
    (hstep : n.gridFactor k < (n.high - n.low) * n.unitFactor k) :
    (n.onGrid? tie k).isSome = true := by
  obtain ⟨unit, hunit⟩ : ∃ unit, unit = n.unitFactor k := ⟨_, rfl⟩
  obtain ⟨step, hgrid⟩ : ∃ step, step = n.gridFactor k := ⟨_, rfl⟩
  have hpos : 0 < unit := hunit ▸ n.unitFactor_pos k
  have hgridPos : 0 < step := hgrid ▸ n.gridFactor_pos k
  have hsides : n.holds k (n.value * unit / step) = true ∨
      n.holds k (n.value * unit / step + 1) = true := by
    have hbelow : n.value * unit / step * step ≤ n.value * unit := Nat.div_mul_le_self _ _
    have habove : n.value * unit < (n.value * unit / step + 1) * step :=
      Nat.lt_mul_of_div_lt (Nat.lt_succ_self _) hgridPos
    have hl : n.low * unit < n.value * unit := Nat.mul_lt_mul_of_pos_right hlow hpos
    have hh : n.value * unit < n.high * unit := Nat.mul_lt_mul_of_pos_right hhigh hpos
    rw [← hunit, ← hgrid, Nat.sub_mul] at hstep
    rw [Nat.succ_mul] at habove
    -- A point below the lower end is so far down that the next one is below the upper end.
    by_cases hinside : n.low * unit < n.value * unit / step * step
    · exact Or.inl (n.holds_of_lt (by rwa [← hunit, ← hgrid])
        (by rw [← hunit, ← hgrid]; omega))
    · refine Or.inr (n.holds_of_lt ?_ ?_) <;> rw [← hunit, ← hgrid, Nat.succ_mul] <;> omega
  unfold onGrid?
  dsimp only
  rw [← hunit, ← hgrid]
  rcases hsides with h | h <;> rw [h] <;> split <;> simp_all

/-- **The first grid with a hit**, if there is one at all. -/
theorem exists_firstGrid? {magnitude : Int} {counts : List Nat} {count : Nat}
    (hcount : count ∈ counts) (h : (n.onGrid? tie (magnitude - count)).isSome = true) :
    ∃ first ∈ counts, ∃ c, n.onGrid? tie (magnitude - first) = some c ∧
      n.firstGrid? tie magnitude counts = some (c, magnitude - first) := by
  induction counts with
  | nil => cases hcount
  | cons first counts ih =>
    cases hfirst : n.onGrid? tie (magnitude - first) with
    | some c =>
      refine ⟨first, List.mem_cons_self, c, hfirst, ?_⟩
      rw [firstGrid?, hfirst]
    | none =>
      have hmore : count ∈ counts := by
        rcases List.mem_cons.1 hcount with rfl | hmore
        · rw [hfirst] at h
          cases h
        · exact hmore
      obtain ⟨later, hlater, c, hc, hgrid⟩ := ih hmore
      refine ⟨later, List.mem_cons_of_mem first hlater, c, hc, ?_⟩
      rw [firstGrid?, hfirst]
      exact hgrid

end Neighbourhood

/-! ### Digits -/

/-- Zeros at the end are cut off, the first digit is not one of them. -/
theorem exists_dropTrailing {c : Char} (hc : c ≠ '0') (digits : List Char) :
    ∃ more, ((c :: digits).reverse.dropWhile (· == '0')).reverse = c :: more ∧ more ⊆ digits := by
  refine ⟨(digits.reverse.dropWhile (· == '0')).reverse, ?_, fun d hd => ?_⟩
  · rw [List.reverse_cons, List.dropWhile_append]
    split
    · next hempty =>
      rw [List.isEmpty_iff.1 hempty, List.dropWhile_cons_of_neg (by simp [hc])]
      rfl
    · simp
  · exact List.mem_reverse.1 ((List.dropWhile_sublist _).subset (List.mem_reverse.1 hd))

namespace Magnitude

variable {v : Magnitude} (tie : Tie)

/-- The value is no `10 ^ 16` times as large as its neighbourhood is wide: that is narrow at
`2 ^ 52` only, and there the value is small. -/
theorem value_lt (hv : v.IsDouble) :
    v.neighbourhood.value < 10 ^ 16 * (v.neighbourhood.high - v.neighbourhood.low) := by
  have hlimit : fractionLimit = 4503599627370496 := rfl
  have hlt := hv.mantissa_lt
  simp only [neighbourhood]
  split <;> omega

/-- **Seventeen digits are enough**: the grid of so many has a hit. -/
theorem onGrid?_isSome (hv : v.IsDouble) (hpos : 0 < v.mantissa) :
    (v.neighbourhood.onGrid? tie (v.neighbourhood.magnitudeOf - 17)).isSome = true := by
  obtain ⟨hlow, hhigh⟩ : v.neighbourhood.low < v.neighbourhood.value ∧
      v.neighbourhood.value < v.neighbourhood.high := by
    simp only [neighbourhood]
    split <;> omega
  have hunit := v.neighbourhood.unitFactor_pos (v.neighbourhood.magnitudeOf - 17)
  refine v.neighbourhood.onGrid?_isSome hlow hhigh
    (Nat.lt_of_mul_lt_mul_left (a := 10 ^ 16) ?_)
  calc 10 ^ 16 * v.neighbourhood.gridFactor (v.neighbourhood.magnitudeOf - 17)
      ≤ v.neighbourhood.value * v.neighbourhood.unitFactor (v.neighbourhood.magnitudeOf - 17) :=
        v.neighbourhood.pow_mul_gridFactor_magnitudeOf_le (by omega) hv.le_neighbourhood 16
    _ < 10 ^ 16 * (v.neighbourhood.high - v.neighbourhood.low) *
          v.neighbourhood.unitFactor (v.neighbourhood.magnitudeOf - 17) :=
        Nat.mul_lt_mul_of_pos_right (value_lt hv) hunit
    _ = 10 ^ 16 * ((v.neighbourhood.high - v.neighbourhood.low) *
          v.neighbourhood.unitFactor (v.neighbourhood.magnitudeOf - 17)) := Nat.mul_assoc _ _ _

/-- **The shortest digits** of a positive double: some, and no zero in front. -/
theorem exists_shortest (hv : v.IsDouble) (hpos : 0 < v.mantissa) :
    ∃ c digits, (v.neighbourhood.shortest tie).1 = c :: digits ∧ c ≠ '0' ∧
      ∀ d ∈ c :: digits, d.isDigit = true := by
  have hlast : 17 ∈ List.range' 1 17 := by decide
  obtain ⟨count, hcount, value, hvalue, hfirst⟩ :=
    v.neighbourhood.exists_firstGrid? hlast (onGrid?_isSome tie hv hpos)
  have hvaluePos : 0 < value := by
    have hone : 1 ≤ count := (List.mem_range'_1.1 hcount).1
    have hgrid := v.neighbourhood.pow_mul_gridFactor_magnitudeOf_le
      (show 0 < 4 * v.mantissa by omega) hv.le_neighbourhood (count - 1)
    rw [Nat.sub_add_cancel hone] at hgrid
    have hstep := Nat.le_trans (Nat.le_mul_of_pos_left _ (Nat.pow_pos (by decide))) hgrid
    exact Nat.lt_of_lt_of_le (Nat.div_pos hstep (v.neighbourhood.gridFactor_pos _))
      (v.neighbourhood.div_le_of_onGrid? hvalue)
  obtain ⟨c, digits, hdigits, hc⟩ := exists_toDigits hvaluePos
  obtain ⟨more, hmore, hsubset⟩ := exists_dropTrailing hc digits
  refine ⟨c, more, ?_, hc, fun d hd => ?_⟩
  · rw [Neighbourhood.shortest, hfirst]
    dsimp only
    rw [hdigits, hmore]
  · have hmem : d ∈ Nat.toDigits 10 value := by
      rw [hdigits]
      exact (List.cons_subset_cons c hsubset) hd
    exact Nat.isDigit_of_mem_toDigits (by decide) (by decide) hmem

end Magnitude

end FirmwareReport
