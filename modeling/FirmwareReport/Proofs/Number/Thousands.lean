import Mathlib.Logic.Function.Basic
import FirmwareReport.Proofs.Number.Numeral

/-!
# Digits in groups of three

The figures of all tables are written by `FirmwareReport.thousands`, which puts a comma in front of
every whole group of three digits that stands behind others. The commas are placed from the left,
each by what is still to come, but it is from the right that the groups are counted: the first one
takes what the threes leave over, and that is never nothing
(`FirmwareReport.splitOn_groupThrees`).

A figure loses nothing by that. Without its commas it is the plain numeral, which reads back
(`FirmwareReport.unsigned?_toDigits`), so two numbers never look the same
(`FirmwareReport.thousands_faithful`).
-/

namespace FirmwareReport

/-! ### Groups -/

theorem notMem_toDigits {c : Char} (hc : isDigitOf 10 c = false) (n : Nat) :
    c ∉ Nat.toDigits 10 n := by
  intro hmem
  have hdigit := List.all_eq_true.1 (all_isDigitOf_toDigits n) c hmem
  exact Bool.false_ne_true (hc.symm.trans hdigit)

theorem groupThrees_cons_of_whole {c : Char} {digits : List Char} (hne : digits ≠ [])
    (h : digits.length % 3 = 0) : groupThrees (c :: digits) = c :: ',' :: groupThrees digits := by
  simp [groupThrees, hne, h]

theorem groupThrees_cons_of_not_whole {c : Char} {digits : List Char}
    (h : digits.length % 3 ≠ 0) : groupThrees (c :: digits) = c :: groupThrees digits := by
  simp [groupThrees, h]

/-- **The commas cut the digits into threes**, counted from the right: the first group has one to
three digits, as many as the others leave over. -/
theorem splitOn_groupThrees {digits : List Char} (hne : digits ≠ []) (h : ',' ∉ digits) :
    ∃ first groups, (groupThrees digits).splitOn ',' = first :: groups ∧
      (first :: groups).flatten = digits ∧ first.length = (digits.length - 1) % 3 + 1 ∧
      ∀ group ∈ groups, group.length = 3 := by
  induction digits with
  | nil => exact absurd rfl hne
  | cons c digits ih =>
    obtain ⟨hc, hdigits⟩ : ',' ∉ [c] ∧ ',' ∉ digits := by simpa using h
    rcases eq_or_ne digits [] with rfl | hmore
    · exact ⟨[c], [], List.splitOn_eq_singleton hc, rfl, rfl, List.forall_mem_nil _⟩
    · have hpos : 0 < digits.length := List.length_pos_iff.2 hmore
      obtain ⟨first, groups, hsplit, hflatten, hfirst, hgroups⟩ := ih hmore hdigits
      by_cases hwhole : digits.length % 3 = 0
      · -- The group behind the comma is whole, and the digit begins a new first one.
        have hthree : first.length = 3 := by omega
        refine ⟨[c], first :: groups, ?_, by rw [List.flatten_cons, hflatten]; rfl, ?_, ?_⟩
        · rw [groupThrees_cons_of_whole hmore hwhole, ← hsplit]
          exact List.splitOn_append_cons_self_of_not_mem hc (groupThrees digits)
        · rw [List.length_singleton, List.length_cons]
          omega
        · exact List.forall_mem_cons.2 ⟨hthree, hgroups⟩
      · refine ⟨c :: first, groups, ?_, by rw [← hflatten]; rfl, ?_, hgroups⟩
        · have hbeq : (c == ',') = false := by simpa using List.ne_of_not_mem_cons hc |>.symm
          rw [groupThrees_cons_of_not_whole hwhole, List.splitOn_cons_eq_if_modifyHead, hbeq,
            hsplit]
          rfl
        · rw [List.length_cons, List.length_cons]
          omega

/-! ### Reading back -/

/-- A numeral is read as its number, if that fits into a word. -/
theorem unsigned?_toDigits (n : Nat) :
    unsigned? 10 (Nat.toDigits 10 n) = if n < wordLimit then some n else none := by
  have hplus : '+' ∉ Nat.toDigits 10 n := notMem_toDigits (by decide) n
  have hempty : (Nat.toDigits 10 n).isEmpty = false := by
    simp
  unfold unsigned?
  split
  · next digits heq => exact absurd (heq ▸ List.mem_cons_self) hplus
  · simp [hempty, all_isDigitOf_toDigits, word?, positional_toDigits]

/-- **Without its commas a figure is the plain numeral.** -/
theorem filter_thousands (n : Nat) :
    (thousands n).toList.filter (· != ',') = Nat.toDigits 10 n := by
  rw [thousands, String.toList_ofList]
  exact filter_groupThrees fun c hc heq => notMem_toDigits (by decide) n (heq ▸ hc)

theorem thousands_injective : Function.Injective thousands := by
  intro m n h
  calc m = positional 10 ((thousands m).toList.filter (· != ',')) := by
        rw [filter_thousands, positional_toDigits]
    _ = positional 10 ((thousands n).toList.filter (· != ',')) := by rw [h]
    _ = n := by rw [filter_thousands, positional_toDigits]

/-- **A figure is a faithful numeral.** Without its commas it is the decimal digits of its number,
and reads back as that number if it fits into a word; its commas cut it into a first group of one to
three digits and others of exactly three; and different numbers have different figures. -/
theorem thousands_faithful (n : Nat) :
    String.ofList ((thousands n).toList.filter (· != ',')) = decimal n ∧
      (∃ first groups, (thousands n).toList.splitOn ',' = first :: groups ∧
        1 ≤ first.length ∧ first.length ≤ 3 ∧ (∀ group ∈ groups, group.length = 3) ∧
        ∀ group ∈ first :: groups, group.all (isDigitOf 10) = true) ∧
      (∀ m, thousands m = thousands n → m = n) ∧
      unsigned? 10 ((thousands n).toList.filter (· != ',')) =
        if n < wordLimit then some n else none := by
  obtain ⟨first, groups, hsplit, hflatten, hfirst, hgroups⟩ :=
    splitOn_groupThrees Nat.toDigits_ne_nil (notMem_toDigits (c := ',') (by decide) n)
  refine ⟨?_, ⟨first, groups, ?_, by omega, by omega, hgroups, fun group hgroup => ?_⟩,
    fun m h => thousands_injective h, ?_⟩
  · rw [filter_thousands, decimal]
  · rw [thousands, String.toList_ofList, hsplit]
  · refine List.all_eq_true.2 fun c hc => List.all_eq_true.1 (all_isDigitOf_toDigits n) c ?_
    exact hflatten ▸ List.mem_flatten_of_mem hgroup hc
  · rw [filter_thousands, unsigned?_toDigits]

end FirmwareReport
