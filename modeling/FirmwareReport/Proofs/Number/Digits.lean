import FirmwareReport.Number.Decimal
import FirmwareReport.Number.Numeral

/-!
# What numbers are written with

A number in a table is written with digits and a few signs, whatever its value: commas between
groups (`FirmwareReport.isDigit_of_mem_thousands`), and for a double a point, a minus sign and the
letters of what is no number (`FirmwareReport.isDigit_of_mem_fixedPlaces`).
-/

namespace FirmwareReport

theorem mem_of_mem_groupThrees {c : Char} {digits : List Char} (h : c ∈ groupThrees digits) :
    c = ',' ∨ c ∈ digits := by
  induction digits with
  | nil => cases h
  | cons d digits ih =>
    rw [groupThrees] at h
    split at h
    · rcases List.mem_cons.1 h with rfl | h
      · exact Or.inr List.mem_cons_self
      · rcases List.mem_cons.1 h with rfl | h
        · exact Or.inl rfl
        · exact (ih h).imp_right (List.mem_cons_of_mem d)
    · rcases List.mem_cons.1 h with rfl | h
      · exact Or.inr List.mem_cons_self
      · exact (ih h).imp_right (List.mem_cons_of_mem d)

/-- **Grouped digits** are digits and commas. -/
theorem isDigit_of_mem_thousands {c : Char} {n : Nat} (h : c ∈ (thousands n).toList) :
    c = ',' ∨ c.isDigit = true := by
  rw [thousands, String.toList_ofList] at h
  exact (mem_of_mem_groupThrees h).imp_right
    (Nat.isDigit_of_mem_toDigits (by decide) (by decide))

theorem isDigit_of_mem_zeros {c : Char} {n : Nat} (h : c ∈ zeros n) : c.isDigit = true := by
  rw [List.eq_of_mem_replicate h]
  rfl

/-- The signs of a double that is written with a given number of places. -/
def doubleSigns : List Char :=
  ['-', '.', 'N', 'a', 'i', 'n', 'f']

theorem mem_doubleSigns_of_mem_signText {c : Char} {negative : Bool}
    (h : c ∈ signText negative) : c ∈ doubleSigns := by
  cases negative with
  | false => cases h
  | true =>
    rw [List.mem_singleton.1 h]
    decide

/-- **Decimal places** are digits and signs. -/
theorem isDigit_of_mem_fixedPlaces {c : Char} {places : Nat} {x : Float}
    (h : c ∈ (fixedPlaces places x).toList) : c ∈ doubleSigns ∨ c.isDigit = true := by
  unfold fixedPlaces at h
  split at h
  · have hsubset : "NaN".toList ⊆ doubleSigns := by simp [doubleSigns]
    exact Or.inl (hsubset h)
  · rw [String.toList_ofList, List.mem_append] at h
    have hsubset : "inf".toList ⊆ doubleSigns := by simp [doubleSigns]
    exact Or.inl (h.elim mem_doubleSigns_of_mem_signText fun h => hsubset h)
  · simp only [String.toList_ofList, List.mem_append, List.mem_singleton] at h
    have hpadded : ∀ {d : Char} {n scaled : Nat}, d ∈ zeros n ++ Nat.toDigits 10 scaled →
        d ∈ doubleSigns ∨ d.isDigit = true := fun hd =>
      Or.inr ((List.mem_append.1 hd).elim isDigit_of_mem_zeros
        (Nat.isDigit_of_mem_toDigits (by decide) (by decide)))
    rcases h with ((h | h) | rfl) | h
    · exact Or.inl (mem_doubleSigns_of_mem_signText h)
    · exact hpadded (List.mem_of_mem_take h)
    · exact Or.inl (by decide)
    · exact hpadded (List.mem_of_mem_drop h)

end FirmwareReport
