import FirmwareReport.Benchmark.Clock
import FirmwareReport.Benchmark.Survey
import FirmwareReport.Footprint
import FirmwareReport.Json

/-!
# The dataset of a run

What plotting scripts need from a run, as one JSON object: the clock, all records in
the order of the log, the groups in row order, and – if there was a linker map – the
footprint of the firmware.
-/

namespace FirmwareReport

/-- The figures of a run. -/
structure Dataset where
  clock : Nat
  records : List Record
  groups : List Group
  footprint : Option Footprint

namespace Dataset

/-- The dataset of some records. -/
def ofRecords (clock : Nat) (reference : String) (records : List Record)
    (footprint : Option Footprint) : Dataset :=
  ⟨clock, records, FirmwareReport.groups reference records, footprint⟩

/-- A record as an object; its time follows from the clock. -/
def recordJson (clock : Nat) (record : Record) : Json :=
  .object [
    ("algorithm", .text record.algorithm),
    ("operation", .text record.operation),
    ("cycles", .natural record.cycles),
    ("stack_bytes", .natural record.stack),
    ("time_ms", .real (milliseconds clock record.cycles))]

/-- A group as an object. -/
def groupJson (group : Group) : Json :=
  .object [
    ("algorithm", .text group.algorithm),
    ("operation", .text group.operation),
    ("mean_cycles", .real group.meanCycles),
    ("mean_stack_bytes", .real group.meanStack),
    ("min_cycles", .natural group.minCycles),
    ("max_cycles", .natural group.maxCycles),
    ("sample_count", .natural group.count)]

/-- The usage of a module as an object. -/
def usageJson (usage : Usage) : Json :=
  .object [
    ("name", .text usage.name),
    ("rom_bytes", .natural usage.flash),
    ("ram_bytes", .natural usage.ram)]

/-- A footprint as an object. -/
def footprintJson (footprint : Footprint) : Json :=
  .object [
    ("modules", .list (footprint.modules.map usageJson)),
    ("total_rom_bytes", .natural footprint.totalFlash),
    ("total_ram_bytes", .natural footprint.totalRam)]

/-- A dataset as an object. -/
def json (dataset : Dataset) : Json :=
  .object <|
    [("clock_hz", .natural dataset.clock),
     ("records", .list (dataset.records.map (recordJson dataset.clock))),
     ("groups", .list (dataset.groups.map groupJson))] ++
    match dataset.footprint with
    | some footprint => [("resources", footprintJson footprint)]
    | none => []

/-- **The text of a dataset.** -/
def toText (dataset : Dataset) : String :=
  dataset.json.toText

/-- The text, written to something that takes so many bytes at most and then fails. -/
def writeWithin (room : Nat) (failure : String) (dataset : Dataset) : Except String String :=
  let text := dataset.toText
  if text.utf8ByteSize ≤ room then .ok text else .error failure

end Dataset

end FirmwareReport
