import FirmwareReport.Dataset
import FirmwareReport.Proofs.Json.RoundTrip

/-!
# A dataset loses nothing

A reader that knows the names of its members finds in the text of a dataset all that was put into
it, doubles apart (`FirmwareReport.Dataset.toText_lossless`): the clock, the records in their order,
the groups in theirs, and the footprint if there is one.

The names of an object are distinct, so it does not matter that readers differ in what they make of
a name that comes twice; `FirmwareReport.Datum.field?` finds nothing under such a name.
-/

namespace FirmwareReport

/-! ### What is recovered -/

/-- The key of a group and those of its statistics that are whole numbers. -/
structure GroupFigures where
  algorithm : String
  operation : String
  minCycles : Nat
  maxCycles : Nat
  count : Nat
deriving DecidableEq, Repr

/-- The figures of a group. -/
def Group.figures (group : Group) : GroupFigures :=
  ⟨group.algorithm, group.operation, group.minCycles, group.maxCycles, group.count⟩

/-- What a dataset says, doubles apart. -/
structure Figures where
  clock : Nat
  records : List Record
  groups : List GroupFigures
  footprint : Option Footprint
deriving DecidableEq, Repr

/-- The figures of a dataset. -/
def Dataset.figures (dataset : Dataset) : Figures :=
  ⟨dataset.clock, dataset.records, dataset.groups.map Group.figures, dataset.footprint⟩

/-! ### Recovering it -/

namespace Datum

/-- A record, without the time that follows from the clock. -/
def record? (datum : Datum) : Option Record := do
  return {
    algorithm := ← (← datum.field? "algorithm").text?
    operation := ← (← datum.field? "operation").text?
    cycles := ← (← datum.field? "cycles").natural?
    stack := ← (← datum.field? "stack_bytes").natural? }

/-- A group, without its means. -/
def group? (datum : Datum) : Option GroupFigures := do
  return {
    algorithm := ← (← datum.field? "algorithm").text?
    operation := ← (← datum.field? "operation").text?
    minCycles := ← (← datum.field? "min_cycles").natural?
    maxCycles := ← (← datum.field? "max_cycles").natural?
    count := ← (← datum.field? "sample_count").natural? }

def usage? (datum : Datum) : Option Usage := do
  return {
    name := ← (← datum.field? "name").text?
    flash := ← (← datum.field? "rom_bytes").natural?
    ram := ← (← datum.field? "ram_bytes").natural? }

def footprint? (datum : Datum) : Option Footprint := do
  return {
    modules := ← (← datum.field? "modules").listOf? usage?
    totalFlash := ← (← datum.field? "total_rom_bytes").natural?
    totalRam := ← (← datum.field? "total_ram_bytes").natural? }

/-- The figures of a dataset; it may do without the member for the footprint. -/
def figures? (datum : Datum) : Option Figures := do
  return {
    clock := ← (← datum.field? "clock_hz").natural?
    records := ← (← datum.field? "records").listOf? record?
    groups := ← (← datum.field? "groups").listOf? group?
    footprint := ←
      if "resources" ∈ datum.names then (← datum.field? "resources").footprint?.map some
      else some none }

/-! ### Member by member -/

@[simp] theorem natural?_decimal (n : Nat) : natural? (.number (decimal n)) = some n := by
  have hdigits : (Nat.toDigits 10 n).all Char.isDigit = true :=
    List.all_eq_true.2 fun c hc => Nat.isDigit_of_mem_toDigits (by decide) (by decide) hc
  rw [natural?, decimal, String.toList_ofList, if_pos hdigits, positional_toDigits]

/-- Items that are read one by one. -/
theorem listOf?_datum {α β : Type} {write : α → Json} {read? : Datum → Option β} {value : α → β}
    (h : ∀ a, read? (write a).datum = some (value a)) (list : List α) :
    listOf? read? (Json.list (list.map write)).datum = some (list.map value) := by
  have hread : (read? ∘ Json.datum) ∘ write = fun a => pure (value a) := funext h
  rw [Json.datum, Json.itemData_eq_map, listOf?, List.mapM_map, List.mapM_map, hread,
    List.mapM_pure]
  rfl

open Dataset

theorem record?_datum (clock : Nat) (record : Record) :
    record? (recordJson clock record).datum = some record := by
  simp [record?, recordJson, Json.datum, Json.memberData, field?, text?]

theorem group?_datum (group : Group) : group? (groupJson group).datum = some group.figures := by
  simp [group?, groupJson, Json.datum, Json.memberData, field?, text?, Group.figures]

theorem usage?_datum (usage : Usage) : usage? (usageJson usage).datum = some usage := by
  simp [usage?, usageJson, Json.datum, Json.memberData, field?, text?]

theorem footprint?_datum (footprint : Footprint) :
    footprint? (footprintJson footprint).datum = some footprint := by
  have hmodules := listOf?_datum usage?_datum footprint.modules
  rw [List.map_id'] at hmodules
  simp only [Json.datum] at hmodules
  simp [footprint?, footprintJson, Json.datum, Json.memberData, field?, hmodules]

/-- **The figures of a dataset** are found in what it is read as. -/
theorem figures?_datum (dataset : Dataset) :
    figures? dataset.json.datum = some dataset.figures := by
  have hrecords := listOf?_datum (record?_datum dataset.clock) dataset.records
  have hgroups := listOf?_datum group?_datum dataset.groups
  rw [List.map_id'] at hrecords
  simp only [Json.datum] at hrecords hgroups
  cases hfootprint : dataset.footprint with
  | none =>
    simp [figures?, Dataset.json, hfootprint, Json.datum, Json.memberData, field?, names, hrecords,
      hgroups, Dataset.figures]
  | some footprint =>
    have hread := footprint?_datum footprint
    simp [figures?, Dataset.json, hfootprint, Json.datum, Json.memberData, field?, names, hrecords,
      hgroups, hread, Dataset.figures]

/-- The footprint has a member of its own, or there is none. -/
theorem mem_names_datum (dataset : Dataset) :
    "resources" ∈ dataset.json.datum.names ↔ dataset.footprint.isSome = true := by
  cases hfootprint : dataset.footprint <;>
    simp [Dataset.json, hfootprint, Json.datum, Json.memberData, names]

end Datum

namespace Dataset

/-! ### Nothing is lost -/

/-- **The text of a dataset is one JSON text, and nothing is lost in it.** What it is read as has
the clock, the records and the groups in their order, and the footprint under a name that is there
only if there is a footprint; so datasets that differ in any of these have different texts. -/
theorem toText_lossless (clock : Nat) (reference : String) (records : List Record)
    (footprint : Option Footprint) :
    (∃ datum, Datum.read? (ofRecords clock reference records footprint).toText = some datum ∧
      datum.figures? =
        some ⟨clock, records, (FirmwareReport.groups reference records).map Group.figures,
          footprint⟩ ∧
      ("resources" ∈ datum.names ↔ footprint.isSome = true)) ∧
    ∀ clock' reference' records' footprint',
      (ofRecords clock reference records footprint).toText =
        (ofRecords clock' reference' records' footprint').toText →
      clock = clock' ∧ records = records' ∧
        (FirmwareReport.groups reference records).map Group.figures =
          (FirmwareReport.groups reference' records').map Group.figures ∧
        footprint = footprint' := by
  have hread (dataset : Dataset) : (Datum.read? dataset.toText).bind Datum.figures? =
      some dataset.figures := by
    rw [toText, Json.read?_toText, Option.bind_some, Datum.figures?_datum]
  refine ⟨⟨_, Json.read?_toText _, Datum.figures?_datum _, Datum.mem_names_datum _⟩, ?_⟩
  intro clock' reference' records' footprint' htext
  have hfigures := hread (ofRecords clock reference records footprint)
  rw [htext, hread] at hfigures
  simpa [figures, ofRecords, eq_comm] using hfigures

/-- A quote, a backslash, two control characters and the greatest word come back, and that there is
no footprint shows. -/
theorem toText_lossless_quotes :
    let record : Record := ⟨"\"\\\x00", "\n", 18446744073709551615, 0⟩
    (∃ datum, Datum.read? (ofRecords 1 "" [record] none).toText = some datum ∧
      datum.figures? = some ⟨1, [record],
        [⟨record.algorithm, record.operation, record.cycles, record.cycles, 1⟩], none⟩) ∧
    (ofRecords 1 "" [record] none).toText ≠ (ofRecords 1 "" [record] (some ⟨[], 0, 0⟩)).toText := by
  intro record
  obtain ⟨⟨datum, hread, hfigures, -⟩, hinjective⟩ := toText_lossless 1 "" [record] none
  have hgroups : (FirmwareReport.groups "" [record]).map Group.figures =
      [⟨record.algorithm, record.operation, record.cycles, record.cycles, 1⟩] := by
    simp only [FirmwareReport.groups, Survey.groups, Survey.ofRecords, Survey.add, Survey.start,
      Survey.countIn, List.foldl_cons, List.foldl_nil, List.not_mem_nil, if_false, List.map_cons,
      List.map_nil, List.mergeSort_singleton]
    rfl
  rw [hgroups] at hfigures
  refine ⟨⟨datum, hread, hfigures⟩, fun htext => ?_⟩
  obtain ⟨-, -, -, hfootprint⟩ := hinjective 1 "" [record] (some ⟨[], 0, 0⟩) htext
  cases hfootprint

end Dataset

end FirmwareReport
