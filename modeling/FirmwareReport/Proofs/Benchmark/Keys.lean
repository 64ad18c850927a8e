import FirmwareReport.Proofs.Benchmark.RowOrder
import FirmwareReport.Proofs.Benchmark.Survey

/-!
# The keys of the rows

The two views of a survey are kept apart, one as a table of tallies and one as a list of records,
but they have the same rows: both are in row order, and their keys are those of the records
(`FirmwareReport.map_key_firstSeen`, `FirmwareReport.views_agree`). What can be said of the keys in
one of the tables of a report can therefore be said of the records
(`FirmwareReport.exists_mem_groups_iff`, `FirmwareReport.exists_mem_firstSeen_iff`).
-/

namespace FirmwareReport

variable {reference : String} {records : List Record}

/-! ### Which rows there are -/

/-- **The groups** are what tallies of the records of a key come to. -/
theorem mem_groups_iff {group : Group} : group ∈ groups reference records ↔
    ∃ tally : Tally, tally.Counts (recordsOf group.key records) ∧
      group = .ofTally group.key tally := by
  have hholds := Survey.holds_ofRecords records
  rw [groups, Survey.groups, List.mem_mergeSort, List.mem_map]
  constructor
  · rintro ⟨⟨key, tally⟩, hentry, rfl⟩
    exact ⟨tally, hholds.counts _ hentry, rfl⟩
  · rintro ⟨tally, hcounts, hgroup⟩
    -- Some record has the key, so the survey has a tally of its records, and there is only one.
    obtain ⟨record, hrecord, -⟩ := hcounts.least_mem
    obtain ⟨hmem, hkey⟩ : record ∈ records ∧ record.key = group.key := by
      simpa [recordsOf] using hrecord
    obtain ⟨⟨key, other⟩, hentry, rfl⟩ :=
      List.mem_map.1 ((hholds.mem_tallies group.key).2 (hkey ▸ List.mem_map_of_mem hmem))
    refine ⟨_, hentry, ?_⟩
    rw [hgroup, (hholds.counts _ hentry).unique hcounts]
    rfl

/-- **The records seen first** are the first ones of their keys. -/
theorem mem_firstSeen_iff {record : Record} :
    record ∈ firstSeen reference records ↔ firstOf? record.key records = some record := by
  rw [firstSeen, Survey.firstSeen, List.mem_mergeSort]
  exact (Survey.holds_ofRecords records).mem_first record

theorem inRowOrder_groups (reference : String) (records : List Record) :
    InRowOrder reference Group.key (groups reference records) := by
  refine inRowOrder_mergeSort ?_
  rw [List.map_map]
  exact (Survey.holds_ofRecords records).nodup_tallies

theorem inRowOrder_firstSeen (reference : String) (records : List Record) :
    InRowOrder reference Record.key (firstSeen reference records) :=
  inRowOrder_mergeSort (Survey.holds_ofRecords records).nodup_first

/-! ### The keys of the rows -/

/-- The keys of the rows, from the groups. -/
def rowKeys (reference : String) (records : List Record) : List Key :=
  (groups reference records).map Group.key

theorem inRowOrder_rowKeys (reference : String) (records : List Record) :
    InRowOrder reference id (rowKeys reference records) :=
  (inRowOrder_groups reference records).map_key

theorem nodup_rowKeys (reference : String) (records : List Record) :
    (rowKeys reference records).Nodup :=
  (inRowOrder_groups reference records).nodup

/-- **The keys of the rows** are the keys of the records. -/
theorem mem_rowKeys {key : Key} :
    key ∈ rowKeys reference records ↔ ∃ record ∈ records, record.key = key := by
  have hperm : (rowKeys reference records).Perm
      ((Survey.ofRecords records).tallies.map Prod.fst) := by
    refine ((List.mergeSort_perm _ _).map Group.key).trans (List.Perm.of_eq ?_)
    rw [List.map_map]
    rfl
  rw [hperm.mem_iff, (Survey.holds_ofRecords records).mem_tallies, List.mem_map]

/-- **The records seen first** have the keys of the rows, in order. -/
theorem map_key_firstSeen (reference : String) (records : List Record) :
    (firstSeen reference records).map Record.key = rowKeys reference records := by
  refine (inRowOrder_firstSeen reference records).map_key.eq_of_mem_iff
    (inRowOrder_rowKeys reference records) fun key => ?_
  rw [mem_rowKeys, List.mem_map]
  constructor
  · rintro ⟨first, hfirst, rfl⟩
    exact ⟨first, mem_of_firstOf? (mem_firstSeen_iff.1 hfirst), rfl⟩
  · rintro ⟨record, hrecord, rfl⟩
    obtain ⟨first, hfirst⟩ := Option.ne_none_iff_exists'.1 fun hnone =>
      firstOf?_eq_none_iff.1 hnone (List.mem_map_of_mem hrecord)
    have hkey := key_of_firstOf? hfirst
    exact ⟨first, mem_firstSeen_iff.2 (hkey ▸ hfirst), hkey⟩

/-- **The records seen first depend on the first records only.** -/
theorem firstSeen_congr {others : List Record}
    (h : ∀ key, firstOf? key others = firstOf? key records) :
    firstSeen reference others = firstSeen reference records :=
  (inRowOrder_firstSeen reference others).eq_of_mem_iff (inRowOrder_firstSeen reference records)
    fun record => by rw [mem_firstSeen_iff, mem_firstSeen_iff, h]

/-- **Both views list the same keys in the same strict order**: that of the keys, which is total and
puts the reference scheme in front. The rows of the second view are the first records of the keys,
as they came, and nothing else of the records matters to it. -/
theorem views_agree (reference : String) :
    Key.IsTotalOrder (Key.compare reference) ∧
      (∀ a b : Key, reference.toList <+: a.algorithm.toList →
        ¬reference.toList <+: b.algorithm.toList → Key.compare reference a b = .lt) ∧
      ∀ records : List Record,
        InRowOrder reference Group.key (groups reference records) ∧
        InRowOrder reference Record.key (firstSeen reference records) ∧
        (groups reference records).map Group.key =
          (firstSeen reference records).map Record.key ∧
        (∀ key, key ∈ (firstSeen reference records).map Record.key ↔
          key ∈ records.map Record.key) ∧
        (∀ record, record ∈ firstSeen reference records ↔
          firstOf? record.key records = some record) ∧
        ∀ others : List Record, (∀ key, firstOf? key others = firstOf? key records) →
          firstSeen reference others = firstSeen reference records := by
  refine ⟨Key.isTotalOrder_compare reference, fun a b => Key.compare_of_isPrefix, fun records =>
    ⟨inRowOrder_groups reference records, inRowOrder_firstSeen reference records,
      (map_key_firstSeen reference records).symm, fun key => ?_, fun record => mem_firstSeen_iff,
      fun others h => firstSeen_congr h⟩⟩
  rw [map_key_firstSeen, mem_rowKeys, List.mem_map]

/-- A repeat of a record may come at any place behind it, and other keys in any order. -/
theorem views_agree_reordered :
    (∀ key, firstOf? key [⟨"RSA-2048", "Sign", 3, 3⟩, ⟨"Kem", "Decaps", 1, 1⟩,
        ⟨"Kem", "Decaps", 2, 2⟩] =
      firstOf? key [⟨"Kem", "Decaps", 1, 1⟩, ⟨"Kem", "Decaps", 2, 2⟩,
        ⟨"RSA-2048", "Sign", 3, 3⟩]) ∧
    Key.compare "RSA" ⟨"RSA-2048", "Sign"⟩ ⟨"Kem", "Decaps"⟩ = .lt ∧
    firstSeen "RSA" [⟨"RSA-2048", "Sign", 3, 3⟩, ⟨"Kem", "Decaps", 1, 1⟩,
        ⟨"Kem", "Decaps", 2, 2⟩] =
      firstSeen "RSA" [⟨"Kem", "Decaps", 1, 1⟩, ⟨"Kem", "Decaps", 2, 2⟩,
        ⟨"RSA-2048", "Sign", 3, 3⟩] := by
  obtain ⟨-, hreference, hviews⟩ := views_agree "RSA"
  have hfirst : ∀ key, firstOf? key [⟨"RSA-2048", "Sign", 3, 3⟩, ⟨"Kem", "Decaps", 1, 1⟩,
        ⟨"Kem", "Decaps", 2, 2⟩] =
      firstOf? key [⟨"Kem", "Decaps", 1, 1⟩, ⟨"Kem", "Decaps", 2, 2⟩,
        ⟨"RSA-2048", "Sign", 3, 3⟩] := by
    intro key
    rcases eq_or_ne key ⟨"Kem", "Decaps"⟩ with rfl | hne
    · decide
    · simp [firstOf?, List.find?_cons, Record.key, hne.symm]
  exact ⟨hfirst, hreference _ _ (by decide) (by decide), (hviews _).2.2.2.2.2 _ hfirst⟩

section Rows

variable {p : Key → Prop}

theorem exists_mem_rowKeys_iff :
    (∃ key ∈ rowKeys reference records, p key) ↔ ∃ record ∈ records, p record.key := by
  simp only [mem_rowKeys, exists_exists_and_eq_and]

/-- **Some group** has a key of a kind exactly if some record has. -/
theorem exists_mem_groups_iff :
    (∃ group ∈ groups reference records, p group.key) ↔ ∃ record ∈ records, p record.key := by
  rw [← @exists_mem_rowKeys_iff reference records p, rowKeys]
  simp only [List.mem_map, exists_exists_and_eq_and]

/-- **Some record seen first** has a key of a kind exactly if some record has. -/
theorem exists_mem_firstSeen_iff :
    (∃ record ∈ firstSeen reference records, p record.key) ↔ ∃ record ∈ records, p record.key := by
  rw [← @exists_mem_rowKeys_iff reference records p, ← map_key_firstSeen]
  simp only [List.mem_map, exists_exists_and_eq_and]

end Rows

end FirmwareReport
