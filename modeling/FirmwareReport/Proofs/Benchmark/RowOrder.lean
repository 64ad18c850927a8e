import Mathlib.Data.List.Nodup
import FirmwareReport.Benchmark.Survey

/-!
# The order of the rows

`FirmwareReport.Key.compare` goes by three comparisons, one after the other: whether the algorithm
is one of the reference scheme, the algorithm itself, and the operation. Each of them is a linear
order, so the whole is one as well, and it tells apart any two keys.

Rows are **in row order** if each stands strictly in front of all behind it
(`FirmwareReport.InRowOrder`), so no key has two rows. Sorting brings rows with different keys into
row order (`FirmwareReport.inRowOrder_mergeSort`), and there is only one way to do so: rows in row
order are determined by which rows they are (`FirmwareReport.InRowOrder.eq_of_mem_iff`). This is why
nothing is left of the order in which the records came, or in which a table lists its entries.
-/

namespace FirmwareReport

variable {reference : String}

namespace Key

/-- The reference scheme first, then the algorithm, then the operation. -/
theorem compare_eq_compareLex (reference : String) : compare reference =
    compareLex (compareOn fun key => !isReference reference key.algorithm)
      (compareLex (compareOn algorithm) (compareOn operation)) :=
  rfl

instance (reference : String) : Std.TransCmp (compare reference) := by
  rw [compare_eq_compareLex]
  infer_instance

instance (reference : String) : Std.LawfulEqCmp (compare reference) where
  eq_of_compare {a b} h := by
    obtain ⟨-, h⟩ := Ordering.then_eq_eq.1 h
    obtain ⟨halgorithm, hoperation⟩ := Ordering.then_eq_eq.1 h
    cases a
    cases b
    rw [Key.mk.injEq]
    exact ⟨Std.LawfulEqOrd.eq_of_compare halgorithm, Std.LawfulEqOrd.eq_of_compare hoperation⟩

theorem compare_eq_eq_iff {a b : Key} : compare reference a b = .eq ↔ a = b :=
  Std.LawfulEqCmp.compare_eq_iff_eq

theorem compare_eq_swap (reference : String) (a b : Key) :
    compare reference b a = (compare reference a b).swap :=
  Std.OrientedCmp.eq_swap

/-- **The reference scheme stands in front**: the algorithms whose names begin with the reference,
and no others. -/
theorem compare_of_isPrefix {a b : Key} (ha : reference.toList <+: a.algorithm.toList)
    (hb : ¬reference.toList <+: b.algorithm.toList) : compare reference a b = .lt := by
  have ha : isReference reference a.algorithm = true := List.isPrefixOf_iff_prefix.2 ha
  have hb : isReference reference b.algorithm = false :=
    Bool.eq_false_iff.2 fun h => hb (List.isPrefixOf_iff_prefix.1 h)
  rw [compare, ha, hb]
  rfl

theorem le_trans (a b c : Key) (hab : le reference a b = true) (hbc : le reference b c = true) :
    le reference a c = true :=
  Std.TransCmp.isLE_trans hab hbc

theorem le_total (a b : Key) : (le reference a b || le reference b a) = true := by
  rw [le, le, compare_eq_swap reference a b]
  cases compare reference a b <;> rfl

/-- What makes a comparison of keys a total order, and one that tells any two keys apart. -/
structure IsTotalOrder (compare : Key → Key → Ordering) : Prop where
  refl (a : Key) : (compare a a).isLE
  antisymm {a b : Key} : (compare a b).isLE → (compare b a).isLE → a = b
  trans {a b c : Key} : (compare a b).isLE → (compare b c).isLE → (compare a c).isLE
  total (a b : Key) : (compare a b).isLE ∨ (compare b a).isLE
  eq_iff {a b : Key} : compare a b = .eq ↔ a = b
  swap (a b : Key) : compare b a = (compare a b).swap

/-- **The row order is a total order.** -/
theorem isTotalOrder_compare (reference : String) : IsTotalOrder (compare reference) where
  refl a := by rw [compare_eq_eq_iff.2 rfl]; rfl
  antisymm {a b} hab hba := by
    rw [compare_eq_swap reference a b] at hba
    refine compare_eq_eq_iff.1 (?_ : compare reference a b = .eq)
    revert hab hba
    cases compare reference a b <;> decide
  trans hab hbc := le_trans _ _ _ hab hbc
  total a b := Bool.or_eq_true_iff.1 (le_total a b)
  eq_iff := compare_eq_eq_iff
  swap := compare_eq_swap reference

/-- Of two different keys, the one that may stand in front does so strictly. -/
theorem compare_eq_lt_of_le {a b : Key} (hle : le reference a b = true) (hne : a ≠ b) :
    compare reference a b = .lt :=
  (Ordering.isLE_iff_eq_lt_or_eq_eq.1 hle).resolve_right fun heq =>
    hne (compare_eq_eq_iff.1 heq)

end Key

/-! ### Rows in order -/

section Rows

variable {α : Type} {key : α → Key} {rows others : List α}

/-- **Rows are in row order** if each stands strictly in front of all behind it. -/
def InRowOrder (reference : String) (key : α → Key) (rows : List α) : Prop :=
  rows.Pairwise fun a b => Key.compare reference (key a) (key b) = .lt

/-- **Sorting** brings rows with different keys into row order. -/
theorem inRowOrder_mergeSort (h : (rows.map key).Nodup) :
    InRowOrder reference key (rows.mergeSort fun a b => Key.le reference (key a) (key b)) := by
  have hsorted := List.pairwise_mergeSort
    (fun a b c => @Key.le_trans reference (key a) (key b) (key c))
    (fun a b => Key.le_total (key a) (key b)) rows
  have hne : ((rows.mergeSort fun a b => Key.le reference (key a) (key b)).map key).Nodup :=
    ((List.mergeSort_perm rows _).map key).nodup_iff.2 h
  exact (hsorted.and (List.pairwise_map.1 hne)).imp fun hpair =>
    Key.compare_eq_lt_of_le hpair.1 hpair.2

namespace InRowOrder

/-- No key has two rows. -/
theorem nodup (h : InRowOrder reference key rows) : (rows.map key).Nodup := by
  rw [List.Nodup, List.pairwise_map]
  refine List.Pairwise.imp (fun {a b} hlt heq => ?_) h
  rw [Key.compare_eq_eq_iff.2 heq] at hlt
  cases hlt

/-- **Rows in row order are determined by which rows they are.** -/
theorem eq_of_mem_iff (h : InRowOrder reference key rows) (h' : InRowOrder reference key others)
    (hmem : ∀ row, row ∈ rows ↔ row ∈ others) : rows = others := by
  have hasymm : ∀ a b : α, Key.compare reference (key a) (key b) = .lt →
      Key.compare reference (key b) (key a) ≠ .lt := by
    intro a b hab hba
    rw [Key.compare_eq_swap, hab] at hba
    cases hba
  have hperm : rows.Perm others :=
    (List.perm_ext_iff_of_nodup h.nodup.of_map h'.nodup.of_map).2 hmem
  exact hperm.eq_of_pairwise (fun a b _ _ hab hba => absurd hba (hasymm a b hab)) h h'

/-- The keys of rows in row order are in row order themselves. -/
theorem map_key (h : InRowOrder reference key rows) : InRowOrder reference id (rows.map key) :=
  List.pairwise_map.2 h

end InRowOrder

end Rows

end FirmwareReport
