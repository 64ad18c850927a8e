import Mathlib.Data.List.Induction
import Mathlib.Data.List.Nodup
import FirmwareReport.Benchmark.Survey
import FirmwareReport.Number.Total

/-!
# What a survey holds

A survey takes the records one by one. What it holds at any point can be said of the records so far
(`FirmwareReport.Survey.holds_ofRecords`):

* one tally for every key, which has counted the records of that key
  (`FirmwareReport.Tally.Counts`);
* the first record of every key, and no other.

A tally has counted some records whatever the order in which they came
(`FirmwareReport.Tally.Counts.of_perm`), and there is only one that has
(`FirmwareReport.Tally.Counts.unique`).
-/

namespace FirmwareReport

/-- The records of a key. -/
def recordsOf (key : Key) (records : List Record) : List Record :=
  records.filter (·.key = key)

/-- The first record of a key. -/
def firstOf? (key : Key) (records : List Record) : Option Record :=
  records.find? (·.key = key)

section Records

variable {key : Key} {record : Record} {records : List Record}

theorem recordsOf_concat_self (records : List Record) (record : Record) :
    recordsOf record.key (records ++ [record]) = recordsOf record.key records ++ [record] := by
  simp [recordsOf]

theorem recordsOf_concat_of_ne (h : record.key ≠ key) (records : List Record) :
    recordsOf key (records ++ [record]) = recordsOf key records := by
  simp [recordsOf, h]

theorem recordsOf_eq_nil_iff : recordsOf key records = [] ↔ key ∉ records.map Record.key := by
  rw [recordsOf, List.filter_eq_nil_iff]
  simp

theorem firstOf?_eq_none_iff : firstOf? key records = none ↔ key ∉ records.map Record.key := by
  rw [firstOf?, List.find?_eq_none]
  simp

theorem key_of_firstOf? (h : firstOf? key records = some record) : record.key = key := by
  simpa using List.find?_some h

theorem mem_of_firstOf? (h : firstOf? key records = some record) : record ∈ records :=
  List.mem_of_find?_eq_some h

theorem firstOf?_concat (key : Key) (records : List Record) (record : Record) :
    firstOf? key (records ++ [record]) =
      (firstOf? key records).or (if record.key = key then some record else none) := by
  rw [firstOf?, firstOf?, List.find?_append, List.find?_singleton]
  simp only [decide_eq_true_eq]

end Records

/-! ### One tally -/

/-- **A tally has counted some records.** Its sums and its counter hold what fits into their
words. -/
structure Tally.Counts (tally : Tally) (own : List Record) : Prop where
  cycles : tally.cycles = BitVec.ofNat 128 (total (own.map (·.cycles)))
  stack : tally.stack = BitVec.ofNat 128 (total (own.map (·.stack)))
  least_mem : ∃ record ∈ own, record.cycles = tally.least
  least_le : ∀ record ∈ own, tally.least ≤ record.cycles
  greatest_mem : ∃ record ∈ own, record.cycles = tally.greatest
  le_greatest : ∀ record ∈ own, record.cycles ≤ tally.greatest
  count : tally.count = UInt32.ofNat own.length

namespace Tally

variable {tally other : Tally} {own : List Record}

theorem counts_start (record : Record) : ((start record).add record).Counts [record] where
  cycles := by simp [start, add]
  stack := by simp [start, add]
  least_mem := ⟨record, List.mem_singleton_self record, (Nat.min_self _).symm⟩
  least_le := List.forall_mem_singleton.2 (Nat.min_le_right _ _)
  greatest_mem := ⟨record, List.mem_singleton_self record, (Nat.max_self _).symm⟩
  le_greatest := List.forall_mem_singleton.2 (Nat.le_max_right _ _)
  count := rfl

/-- **One record more.** -/
theorem Counts.add (h : tally.Counts own) (record : Record) :
    (tally.add record).Counts (own ++ [record]) where
  cycles := by simp [Tally.add, h.cycles, BitVec.ofNat_add]
  stack := by simp [Tally.add, h.stack, BitVec.ofNat_add]
  least_mem := by
    obtain ⟨least, hmem, hleast⟩ := h.least_mem
    rcases Nat.le_total tally.least record.cycles with hle | hle
    · exact ⟨least, List.mem_append_left _ hmem, hleast.trans (Nat.min_eq_left hle).symm⟩
    · exact ⟨record, List.mem_concat_self, (Nat.min_eq_right hle).symm⟩
  least_le := List.forall_mem_append.2
    ⟨fun r hr => Nat.le_trans (Nat.min_le_left _ _) (h.least_le r hr),
      List.forall_mem_singleton.2 (Nat.min_le_right _ _)⟩
  greatest_mem := by
    obtain ⟨greatest, hmem, hgreatest⟩ := h.greatest_mem
    rcases Nat.le_total record.cycles tally.greatest with hle | hle
    · exact ⟨greatest, List.mem_append_left _ hmem, hgreatest.trans (Nat.max_eq_left hle).symm⟩
    · exact ⟨record, List.mem_concat_self, (Nat.max_eq_right hle).symm⟩
  le_greatest := List.forall_mem_append.2
    ⟨fun r hr => Nat.le_trans (h.le_greatest r hr) (Nat.le_max_left _ _),
      List.forall_mem_singleton.2 (Nat.le_max_right _ _)⟩
  count := by simp [Tally.add, h.count, UInt32.ofNat_add]

/-- **The order of the records is of no account.** -/
theorem Counts.of_perm (h : tally.Counts own) {others : List Record} (hperm : own.Perm others) :
    tally.Counts others where
  cycles := by rw [h.cycles, total_eq_of_perm (hperm.map _)]
  stack := by rw [h.stack, total_eq_of_perm (hperm.map _)]
  least_mem := h.least_mem.imp fun _ hr => ⟨hperm.mem_iff.1 hr.1, hr.2⟩
  least_le r hr := h.least_le r (hperm.mem_iff.2 hr)
  greatest_mem := h.greatest_mem.imp fun _ hr => ⟨hperm.mem_iff.1 hr.1, hr.2⟩
  le_greatest r hr := h.le_greatest r (hperm.mem_iff.2 hr)
  count := by rw [h.count, hperm.length_eq]

/-- **The records determine the tally.** -/
theorem Counts.unique (h : tally.Counts own) (h' : other.Counts own) : tally = other := by
  have hleast : tally.least = other.least := by
    obtain ⟨r, hr, heq⟩ := h.least_mem
    obtain ⟨r', hr', heq'⟩ := h'.least_mem
    exact Nat.le_antisymm (heq' ▸ h.least_le r' hr') (heq ▸ h'.least_le r hr)
  have hgreatest : tally.greatest = other.greatest := by
    obtain ⟨r, hr, heq⟩ := h.greatest_mem
    obtain ⟨r', hr', heq'⟩ := h'.greatest_mem
    exact Nat.le_antisymm (heq ▸ h'.le_greatest r hr) (heq' ▸ h.le_greatest r' hr')
  have hcycles : tally.cycles = other.cycles := h.cycles.trans h'.cycles.symm
  have hstack : tally.stack = other.stack := h.stack.trans h'.stack.symm
  have hcount : tally.count = other.count := h.count.trans h'.count.symm
  cases tally
  cases other
  simp only at hleast hgreatest hcycles hstack hcount
  rw [hleast, hgreatest, hcycles, hstack, hcount]

end Tally

/-! ### The table of tallies -/

namespace Survey

variable {survey : Survey} {records : List Record} {record : Record}
  {tallies : List (Key × Tally)}

theorem map_fst_countIn (record : Record) (tallies : List (Key × Tally)) :
    (countIn record tallies).map Prod.fst =
      if record.key ∈ tallies.map Prod.fst then tallies.map Prod.fst
      else tallies.map Prod.fst ++ [record.key] := by
  induction tallies with
  | nil => rfl
  | cons entry tallies ih =>
    obtain ⟨key, tally⟩ := entry
    rw [countIn]
    by_cases hkey : key = record.key
    · simp [hkey]
    · rw [if_neg hkey, List.map_cons, ih]
      by_cases hmem : record.key ∈ tallies.map Prod.fst
      · rw [if_pos hmem, if_pos (by simpa using Or.inr (by simpa using hmem))]
        rfl
      · rw [if_neg hmem, if_neg (by simpa [Ne.symm hkey] using hmem)]
        rfl

/-- **Counting a record** leaves the tallies of other keys as they are; that of its own key counts
it, or begins with it. -/
theorem mem_countIn (hnodup : (tallies.map Prod.fst).Nodup) {entry : Key × Tally}
    (h : entry ∈ countIn record tallies) :
    (entry.1 ≠ record.key ∧ entry ∈ tallies) ∨
      (∃ tally, (record.key, tally) ∈ tallies ∧ entry = (record.key, tally.add record)) ∨
      (record.key ∉ tallies.map Prod.fst ∧
        entry = (record.key, (Tally.start record).add record)) := by
  induction tallies with
  | nil => exact Or.inr (Or.inr ⟨by simp, List.mem_singleton.1 h⟩)
  | cons head tallies ih =>
    obtain ⟨key, tally⟩ := head
    obtain ⟨hhead, hnodup⟩ := List.nodup_cons.1 hnodup
    rw [countIn] at h
    by_cases hkey : key = record.key
    · subst hkey
      rw [if_pos rfl] at h
      rcases List.mem_cons.1 h with rfl | h
      · exact Or.inr (Or.inl ⟨tally, List.mem_cons_self, rfl⟩)
      · have hmem := List.mem_map_of_mem (f := Prod.fst) h
        exact Or.inl ⟨fun heq => hhead (heq ▸ hmem), List.mem_cons_of_mem _ h⟩
    · rw [if_neg hkey] at h
      rcases List.mem_cons.1 h with rfl | h
      · exact Or.inl ⟨hkey, List.mem_cons_self⟩
      · rcases ih hnodup h with ⟨hne, hmem⟩ | ⟨tally', hmem, heq⟩ | ⟨hnew, heq⟩
        · exact Or.inl ⟨hne, List.mem_cons_of_mem _ hmem⟩
        · exact Or.inr (Or.inl ⟨tally', List.mem_cons_of_mem _ hmem, heq⟩)
        · exact Or.inr (Or.inr ⟨by simpa [Ne.symm hkey] using hnew, heq⟩)

/-! ### A run over the records -/

/-- What a survey holds once some records have come. -/
structure Holds (survey : Survey) (records : List Record) : Prop where
  /-- No key has two tallies. -/
  nodup_tallies : (survey.tallies.map Prod.fst).Nodup
  /-- The keys with a tally are those of the records. -/
  mem_tallies (key : Key) : key ∈ survey.tallies.map Prod.fst ↔ key ∈ records.map Record.key
  /-- A tally has counted the records of its key. -/
  counts : ∀ entry ∈ survey.tallies, entry.2.Counts (recordsOf entry.1 records)
  /-- No key has two first records. -/
  nodup_first : (survey.first.map Record.key).Nodup
  mem_first (record : Record) : record ∈ survey.first ↔ firstOf? record.key records = some record
  mem_seen (key : Key) : key ∈ survey.seen ↔ key ∈ records.map Record.key
  total_eq : survey.total = records.length

theorem holds_start : start.Holds [] where
  nodup_tallies := List.nodup_nil
  mem_tallies _ := Iff.rfl
  counts := List.forall_mem_nil _
  nodup_first := List.nodup_nil
  mem_first _ := by simp [start, firstOf?]
  mem_seen _ := Iff.rfl
  total_eq := rfl

theorem tallies_add (survey : Survey) (record : Record) :
    (survey.add record).tallies = countIn record survey.tallies := by
  rw [add]
  split <;> rfl

theorem total_add (survey : Survey) (record : Record) :
    (survey.add record).total = survey.total + 1 := by
  rw [add]
  split <;> rfl

theorem seen_add (survey : Survey) (record : Record) : (survey.add record).seen =
    if record.key ∈ survey.seen then survey.seen else record.key :: survey.seen := by
  rw [add]
  split <;> rfl

theorem first_add (survey : Survey) (record : Record) : (survey.add record).first =
    if record.key ∈ survey.seen then survey.first else survey.first ++ [record] := by
  rw [add]
  split <;> rfl

namespace Holds

variable (h : survey.Holds records) (record : Record)
include h

theorem nodup_tallies_add : ((survey.add record).tallies.map Prod.fst).Nodup := by
  rw [tallies_add, map_fst_countIn]
  split
  · exact h.nodup_tallies
  · next hnew => exact List.nodup_append.2 ⟨h.nodup_tallies, List.nodup_singleton _, by
      rintro key hkey _ hlast rfl
      exact hnew (List.mem_singleton.1 hlast ▸ hkey)⟩

theorem mem_tallies_add (key : Key) : key ∈ (survey.add record).tallies.map Prod.fst ↔
    key ∈ (records ++ [record]).map Record.key := by
  rw [tallies_add, map_fst_countIn, List.map_append, List.mem_append, List.map_singleton,
    ← h.mem_tallies]
  split
  · next hold =>
    rw [List.mem_singleton]
    exact ⟨Or.inl, fun hkey => hkey.elim id fun heq => heq ▸ hold⟩
  · exact List.mem_append

theorem counts_add : ∀ entry ∈ (survey.add record).tallies,
    entry.2.Counts (recordsOf entry.1 (records ++ [record])) := by
  rw [tallies_add]
  intro entry hentry
  rcases mem_countIn h.nodup_tallies hentry with ⟨hne, hmem⟩ | ⟨tally, hmem, rfl⟩ | ⟨hnew, rfl⟩
  · rw [recordsOf_concat_of_ne (Ne.symm hne)]
    exact h.counts entry hmem
  · rw [recordsOf_concat_self]
    exact (h.counts _ hmem).add record
  · rw [recordsOf_concat_self, recordsOf_eq_nil_iff.2 fun hmem => hnew ((h.mem_tallies _).2 hmem)]
    exact Tally.counts_start record

theorem mem_first_add (other : Record) : other ∈ (survey.add record).first ↔
    firstOf? other.key (records ++ [record]) = some other := by
  rw [first_add, firstOf?_concat]
  by_cases hkey : record.key = other.key
  · rw [if_pos hkey]
    split
    · next hold =>
      -- The key has a first record already, and it stays the first one.
      obtain ⟨first, hfirst⟩ := Option.ne_none_iff_exists'.1 fun hnone =>
        firstOf?_eq_none_iff.1 hnone (hkey ▸ (h.mem_seen _).1 hold)
      rw [h.mem_first, hfirst, Option.some_or]
    · next hnew =>
      have hnone := firstOf?_eq_none_iff.2 fun hmem => hnew ((h.mem_seen _).2 (hkey ▸ hmem))
      rw [List.mem_append, h.mem_first, hnone, Option.none_or, List.mem_singleton, Option.some.injEq]
      simp [eq_comm]
  · have hne : other ≠ record := fun heq => hkey (heq ▸ rfl)
    rw [if_neg hkey, Option.or_none, ← h.mem_first]
    split
    · rfl
    · rw [List.mem_append, List.mem_singleton, or_iff_left hne]

theorem nodup_first_add : ((survey.add record).first.map Record.key).Nodup := by
  rw [first_add]
  split
  · exact h.nodup_first
  · next hnew =>
    rw [h.mem_seen] at hnew
    rw [List.map_append, List.map_singleton]
    refine List.nodup_append.2 ⟨h.nodup_first, List.nodup_singleton _, ?_⟩
    rintro key hkey _ hlast rfl
    obtain ⟨first, hfirst, heq⟩ := List.mem_map.1 hkey
    have hmem := List.mem_map_of_mem (f := Record.key) (mem_of_firstOf? ((h.mem_first _).1 hfirst))
    exact hnew (List.mem_singleton.1 hlast ▸ heq ▸ hmem)

theorem mem_seen_add (key : Key) : key ∈ (survey.add record).seen ↔
    key ∈ (records ++ [record]).map Record.key := by
  rw [seen_add, List.map_append, List.mem_append, List.map_singleton, List.mem_singleton,
    ← h.mem_seen]
  split
  · next hold => exact ⟨Or.inl, fun hkey => hkey.elim id fun heq => heq ▸ hold⟩
  · rw [List.mem_cons, or_comm]

/-- **One record more.** -/
theorem add : (survey.add record).Holds (records ++ [record]) where
  nodup_tallies := h.nodup_tallies_add record
  mem_tallies := h.mem_tallies_add record
  counts := h.counts_add record
  nodup_first := h.nodup_first_add record
  mem_first := h.mem_first_add record
  mem_seen := h.mem_seen_add record
  total_eq := by rw [total_add, h.total_eq, List.length_append, List.length_singleton]

end Holds

/-- **A whole run.** -/
theorem holds_ofRecords (records : List Record) : (ofRecords records).Holds records := by
  induction records using List.reverseRecOn with
  | nil => exact holds_start
  | append_singleton records record ih =>
    rw [ofRecords, List.foldl_concat]
    exact ih.add record

end Survey

end FirmwareReport
