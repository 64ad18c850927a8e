import FirmwareReport.Number.Numeral
import FirmwareReport.Proofs.Benchmark.Keys
import FirmwareReport.Proofs.Number.Weight

/-!
# The statistics are exact

The counter of a tally is a word of 32 bits. As long as no key comes up more often than it can
count, its sums – of 64-bit words, and fewer of them than the counter has values – do not come near
the end of their 128 bits (`FirmwareReport.total_lt`). Then a group says of the records of its key
how many there are, what their least and their greatest cycle counts are, and what their means are,
each from the exact sum (`FirmwareReport.Group.Describes`).

All of this is said of the records whatever their order, so the groups of the same records in
another order are the same, and so are the groups of a survey whose table lists its tallies in
another order (`FirmwareReport.groups_exact`).
-/

namespace FirmwareReport

/-! ### One group -/

/-- The cycle count and the stack size of a record are words. -/
def Record.IsWords (record : Record) : Prop :=
  record.cycles < wordLimit ∧ record.stack < wordLimit

instance (record : Record) : Decidable record.IsWords :=
  inferInstanceAs (Decidable (_ ∧ _))

/-- **A group describes some records**: their number, their extremes, and their means from sums that
have not gone round. -/
structure Group.Describes (group : Group) (own : List Record) : Prop where
  count : group.count = own.length
  min_mem : ∃ record ∈ own, record.cycles = group.minCycles
  min_le : ∀ record ∈ own, group.minCycles ≤ record.cycles
  max_mem : ∃ record ∈ own, record.cycles = group.maxCycles
  le_max : ∀ record ∈ own, record.cycles ≤ group.maxCycles
  cycles_lt : total (own.map (·.cycles)) < Nat.pow 2 128
  stack_lt : total (own.map (·.stack)) < Nat.pow 2 128
  meanCycles : group.meanCycles =
    Float.ofNat (total (own.map (·.cycles))) / Float.ofNat own.length
  meanStack : group.meanStack = Float.ofNat (total (own.map (·.stack))) / Float.ofNat own.length

theorem total_map_one {α : Type} (items : List α) :
    total (items.map fun _ => 1) = items.length := by
  induction items with
  | nil => rfl
  | cons item items ih => rw [List.map_cons, total_cons, ih, List.length_cons, Nat.add_comm]

theorem total_le_mul {bound : Nat} {numbers : List Nat} (h : ∀ n ∈ numbers, n ≤ bound) :
    total numbers ≤ numbers.length * bound := by
  induction numbers with
  | nil => exact Nat.zero_le _
  | cons n numbers ih =>
    obtain ⟨hn, hnumbers⟩ := List.forall_mem_cons.1 h
    rw [total_cons, List.length_cons, Nat.succ_mul, Nat.add_comm]
    exact Nat.add_le_add (ih hnumbers) hn

theorem size_mul_wordLimit_lt : UInt32.size * wordLimit < Nat.pow 2 128 := by decide

/-- **So many words as the counter can count** have room in 128 bits. -/
theorem total_lt {numbers : List Nat} (hwords : ∀ n ∈ numbers, n < wordLimit)
    (hlength : numbers.length < UInt32.size) : total numbers < Nat.pow 2 128 := by
  calc total numbers
      ≤ numbers.length * wordLimit := total_le_mul fun n hn => Nat.le_of_lt (hwords n hn)
    _ ≤ UInt32.size * wordLimit := Nat.mul_le_mul_right _ (Nat.le_of_lt hlength)
    _ < Nat.pow 2 128 := size_mul_wordLimit_lt

/-- **A tally that has counted some records** gives a group that describes them. -/
theorem Tally.Counts.describes {tally : Tally} {own : List Record} (h : tally.Counts own)
    (key : Key) (hwords : ∀ record ∈ own, record.IsWords) (hlength : own.length < UInt32.size) :
    (Group.ofTally key tally).Describes own := by
  have hcycles : total (own.map (·.cycles)) < Nat.pow 2 128 :=
    total_lt (List.forall_mem_map.2 fun r hr => (hwords r hr).1) (by rwa [List.length_map])
  have hstack : total (own.map (·.stack)) < Nat.pow 2 128 :=
    total_lt (List.forall_mem_map.2 fun r hr => (hwords r hr).2) (by rwa [List.length_map])
  have hcount : tally.count.toNat = own.length := by
    rw [h.count]
    exact UInt32.toNat_ofNat_of_lt hlength
  have hpos : max own.length 1 = own.length := by
    obtain ⟨record, hrecord, -⟩ := h.least_mem
    exact Nat.max_eq_left (List.length_pos_of_mem hrecord)
  have hcyclesNat : tally.cycles.toNat = total (own.map (·.cycles)) := by
    rw [h.cycles, BitVec.toNat_ofNat]
    exact Nat.mod_eq_of_lt hcycles
  have hstackNat : tally.stack.toNat = total (own.map (·.stack)) := by
    rw [h.stack, BitVec.toNat_ofNat]
    exact Nat.mod_eq_of_lt hstack
  have hmeanCycles : mean tally.cycles.toNat tally.count.toNat =
      Float.ofNat (total (own.map (·.cycles))) / Float.ofNat own.length := by
    rw [mean, hcyclesNat, hcount, hpos]
  have hmeanStack : mean tally.stack.toNat tally.count.toNat =
      Float.ofNat (total (own.map (·.stack))) / Float.ofNat own.length := by
    rw [mean, hstackNat, hcount, hpos]
  exact {
    count := hcount
    min_mem := h.least_mem
    min_le := h.least_le
    max_mem := h.greatest_mem
    le_max := h.le_greatest
    cycles_lt := hcycles
    stack_lt := hstack
    meanCycles := hmeanCycles
    meanStack := hmeanStack }

/-! ### All groups -/

variable {reference : String} {records : List Record}

/-- **Groups of the same records are the same**, in whatever order the records come. -/
theorem groups_eq_of_perm {others : List Record} (h : others.Perm records) :
    groups reference others = groups reference records := by
  refine (inRowOrder_groups reference others).eq_of_mem_iff (inRowOrder_groups reference records)
    fun group => ?_
  have hperm : (recordsOf group.key others).Perm (recordsOf group.key records) := h.filter _
  rw [mem_groups_iff, mem_groups_iff]
  exact exists_congr fun tally =>
    and_congr_left' ⟨fun hcounts => hcounts.of_perm hperm, fun hcounts => hcounts.of_perm hperm.symm⟩

/-- **The order of the table is of no account** to the groups. -/
theorem groups_eq_of_perm_tallies {survey : Survey} (hnodup : (survey.tallies.map Prod.fst).Nodup)
    {tallies : List (Key × Tally)} (h : tallies.Perm survey.tallies) :
    ({ survey with tallies }).groups reference = survey.groups reference := by
  have hrows : ∀ {tallies : List (Key × Tally)}, (tallies.map Prod.fst).Nodup →
      InRowOrder reference Group.key (({ survey with tallies }).groups reference) := by
    intro tallies hnodup
    refine inRowOrder_mergeSort ?_
    rwa [List.map_map]
  refine (hrows ((h.map Prod.fst).nodup_iff.2 hnodup)).eq_of_mem_iff (hrows hnodup) fun group => ?_
  rw [Survey.groups, Survey.groups, List.mem_mergeSort, List.mem_mergeSort]
  exact (h.map _).mem_iff

theorem describes_of_mem_groups (hwords : ∀ record ∈ records, record.IsWords)
    (hlength : ∀ key, (recordsOf key records).length < UInt32.size) {group : Group}
    (h : group ∈ groups reference records) : group.Describes (recordsOf group.key records) := by
  obtain ⟨tally, hcounts, hgroup⟩ := mem_groups_iff.1 h
  have hdescribes := hcounts.describes group.key
    (fun record hrecord => hwords record (List.mem_of_mem_filter hrecord)) (hlength _)
  rwa [← hgroup] at hdescribes

/-- **No record is lost or counted twice.** -/
theorem total_map_count (h : ∀ group ∈ groups reference records,
    group.count = (recordsOf group.key records).length) :
    total ((groups reference records).map (·.count)) = records.length := by
  have hcounts : (groups reference records).map (·.count) =
      (rowKeys reference records).map (weightOf (fun _ => 1) Record.key records) := by
    rw [rowKeys, List.map_map]
    refine List.map_congr_left fun group hgroup => ?_
    rw [h group hgroup]
    exact (total_map_one _).symm
  have hall : records.filter (fun record => record.key ∈ rowKeys reference records) = records :=
    List.filter_eq_self.2 fun record hrecord =>
      decide_eq_true (mem_rowKeys.2 ⟨record, hrecord, rfl⟩)
  rw [hcounts, total_weightOf _ (nodup_rowKeys reference records), hall, total_map_one]

/-- **The statistics of some records**, of words and no key more often than can be counted: one
group for every key, which describes the records of that key; no record lost; and the same groups
whatever the order of the records or of the table. -/
theorem groups_exact (reference : String) {records : List Record}
    (hwords : ∀ record ∈ records, record.IsWords)
    (hlength : ∀ key, (recordsOf key records).length < UInt32.size) :
    ((groups reference records).map Group.key).Nodup ∧
      (∀ key, key ∈ (groups reference records).map Group.key ↔ key ∈ records.map Record.key) ∧
      (∀ group ∈ groups reference records, group.Describes (recordsOf group.key records)) ∧
      total ((groups reference records).map (·.count)) = (Survey.ofRecords records).total ∧
      (Survey.ofRecords records).total = records.length ∧
      (Survey.ofRecords records).keyCount = (groups reference records).length ∧
      (∀ others : List Record, others.Perm records →
        groups reference others = groups reference records) ∧
      ∀ tallies : List (Key × Tally), tallies.Perm (Survey.ofRecords records).tallies →
        ({ Survey.ofRecords records with tallies }).groups reference =
          groups reference records := by
  have hholds := Survey.holds_ofRecords records
  have hdescribes : ∀ group ∈ groups reference records,
      group.Describes (recordsOf group.key records) := fun group hgroup =>
    describes_of_mem_groups hwords hlength hgroup
  refine ⟨nodup_rowKeys reference records, fun key => ?_, hdescribes, ?_,
    hholds.total_eq, ?_, fun others h => groups_eq_of_perm h,
    fun tallies h => groups_eq_of_perm_tallies hholds.nodup_tallies h⟩
  · rw [List.mem_map (l := records)]
    exact mem_rowKeys
  · rw [hholds.total_eq, total_map_count fun group hgroup => (hdescribes group hgroup).count]
  · rw [groups, Survey.groups, List.length_mergeSort, List.length_map, Survey.keyCount]

/-- Two keys, one of them with two records: their mean is that of both, in either order. -/
theorem groups_exact_repeated :
    (∀ record ∈ [⟨"Kem", "Keygen", 100, 4000⟩, ⟨"RSA", "Sign", 7, 1⟩, ⟨"Kem", "Keygen", 300, 4200⟩],
      Record.IsWords record) ∧
    (∀ key, (recordsOf key [⟨"Kem", "Keygen", 100, 4000⟩, ⟨"RSA", "Sign", 7, 1⟩,
      ⟨"Kem", "Keygen", 300, 4200⟩]).length < UInt32.size) ∧
    (∀ group ∈ groups "RSA" [⟨"Kem", "Keygen", 100, 4000⟩, ⟨"RSA", "Sign", 7, 1⟩,
        ⟨"Kem", "Keygen", 300, 4200⟩], group.key = ⟨"Kem", "Keygen"⟩ →
      group.count = 2 ∧ group.meanCycles = Float.ofNat 400 / Float.ofNat 2) ∧
    groups "RSA" [⟨"Kem", "Keygen", 300, 4200⟩, ⟨"RSA", "Sign", 7, 1⟩, ⟨"Kem", "Keygen", 100, 4000⟩] =
      groups "RSA" [⟨"Kem", "Keygen", 100, 4000⟩, ⟨"RSA", "Sign", 7, 1⟩,
        ⟨"Kem", "Keygen", 300, 4200⟩] := by
  have hwords : ∀ record ∈ [⟨"Kem", "Keygen", 100, 4000⟩, ⟨"RSA", "Sign", 7, 1⟩,
      ⟨"Kem", "Keygen", 300, 4200⟩], Record.IsWords record := by decide
  have hlength : ∀ key, (recordsOf key [⟨"Kem", "Keygen", 100, 4000⟩, ⟨"RSA", "Sign", 7, 1⟩,
      ⟨"Kem", "Keygen", 300, 4200⟩]).length < UInt32.size := fun key =>
    Nat.lt_of_le_of_lt (List.length_filter_le _ _) (by decide)
  obtain ⟨-, -, hdescribes, -, -, -, hperm, -⟩ := groups_exact "RSA" hwords hlength
  refine ⟨hwords, hlength, fun group hgroup hkey => ?_, hperm _ (by decide)⟩
  have hgroup := hdescribes group hgroup
  rw [hkey] at hgroup
  exact ⟨hgroup.count, hgroup.meanCycles⟩

end FirmwareReport
