import Mathlib.Data.List.Nodup
import FirmwareReport.Number.Total

/-!
# What the items of a name weigh

Items that each stand under a name and each have a weight, say the entries of a map with their bytes
or the records of a log, one by one. What the items of a name weigh is
`FirmwareReport.weightOf`. Names that differ share no item, so their weights add up to what all
their items weigh (`FirmwareReport.total_weightOf`).
-/

namespace FirmwareReport

variable {α : Type} (weight : α → Nat)

/-- What the items of a name weigh. -/
def weightOf {β : Type} [DecidableEq β] (nameOf : α → β) (items : List α) (name : β) : Nat :=
  total ((items.filter fun item => nameOf item = name).map weight)

/-- A part weighs no more than the whole. -/
theorem total_map_le {part items : List α} (h : part.Sublist items) :
    total (part.map weight) ≤ total (items.map weight) := by
  induction h with
  | slnil => exact Nat.le_refl _
  | cons item _ ih => exact Nat.le_trans ih (Nat.le_add_left _ _)
  | cons_cons item _ ih => exact Nat.add_le_add_left ih _

/-- Items with a property and items without it make up all of them. -/
theorem total_filter_add_total_filter (p q : α → Bool) (items : List α) :
    total ((items.filter p).map weight) =
      total ((items.filter fun item => p item && q item).map weight) +
        total ((items.filter fun item => p item && !q item).map weight) := by
  induction items with
  | nil => rfl
  | cons item items ih =>
    cases hp : p item with
    | false => simpa [hp] using ih
    | true =>
      cases hq : q item with
      | false => simp [hp, hq, ih, Nat.add_left_comm]
      | true => simp [hp, hq, ih, Nat.add_assoc]

/-- **Names that differ share no item**: what the items of each weigh adds up to what all their
items weigh. -/
theorem total_weightOf {β : Type} [DecidableEq β] {names : List β} (hnodup : names.Nodup)
    (nameOf : α → β) (items : List α) :
    total (names.map (weightOf weight nameOf items)) =
      total ((items.filter fun item => nameOf item ∈ names).map weight) := by
  induction names with
  | nil => simp
  | cons name names ih =>
    obtain ⟨hname, hnodup⟩ := List.nodup_cons.1 hnodup
    rw [List.map_cons, total_cons, ih hnodup, weightOf,
      total_filter_add_total_filter weight (fun item => nameOf item ∈ name :: names)
        (fun item => nameOf item = name)]
    congr 3
    · refine List.filter_congr fun item _ => ?_
      by_cases h : nameOf item = name <;> simp [h]
    · refine List.filter_congr fun item _ => ?_
      by_cases h : nameOf item = name <;> simp [h, hname]

end FirmwareReport
