import FirmwareReport.Baseline
import FirmwareReport.Benchmark.Clock
import FirmwareReport.Benchmark.Group
import FirmwareReport.Footprint

/-!
# Markdown tables

The tables of the report document. A table is a header, a line of alignments and
then one row per line, without a newline behind the last: whoever places the table
into a document supplies what stands around it.
-/

namespace FirmwareReport

/-- A line of a table: the cells between bars. -/
def tableRow (cells : List String) : String :=
  "| " ++ " | ".intercalate cells ++ " |"

/-- Lines put together, a newline between neighbours. -/
def joinLines (lines : List String) : String :=
  "\n".intercalate lines

/-- A mean as the whole number shown in tables; what is no positive number shows as zero. -/
def roundedMean (mean : Float) : Nat :=
  saturate (nearestNat mean)

/-- Bold text. -/
def bold (s : String) : String :=
  "**" ++ s ++ "**"

namespace Markdown

/-- The row of a group in the performance table. The measured count is bold where it
can be compared with a baseline. -/
def performanceRow (baselines : List Baseline) (reference : String) (clock : Nat)
    (group : Group) : String :=
  let key : Key := ⟨group.algorithm, group.operation⟩
  let measured := roundedMean group.meanCycles
  let speedup := Speedup.compute baselines reference key measured
  tableRow [
    group.algorithm,
    group.operation,
    match Baseline.find? baselines key with
      | some cycles => thousands cycles
      | none => "-",
    match speedup with
      | .ratio _ => bold (thousands measured)
      | _ => thousands measured,
    fixedPlaces 2 (milliseconds clock measured),
    speedup.cell]

/-- Cycles, time and speedup of every group. -/
def performanceTable (baselines : List Baseline) (reference : String) (clock : Nat)
    (groups : List Group) : String :=
  joinLines <|
    "| Algorithm | Operation | Baseline (cycles) | Measured (cycles) | Time (ms) | Speedup |" ::
    "| :--- | :--- | ---: | ---: | ---: | :--- |" ::
    groups.map (performanceRow baselines reference clock)

/-- The stack use of every record. -/
def stackTable (records : List Record) : String :=
  joinLines <|
    "| Algorithm | Operation | Peak Stack (Bytes) |" ::
    "| :--- | :--- | ---: |" ::
    records.map fun record =>
      tableRow [record.algorithm, record.operation, thousands record.stack]

/-- The row of a memory in the summary of the resource table. -/
def memoryRow (name : String) (used capacity : Nat) : String :=
  tableRow [
    bold name,
    bold (thousands used),
    bold ("~" ++ fixedPlaces 1 (Float.ofNat used / 1024) ++ " KB"),
    thousands (capacity / 1024) ++ " KB",
    "~" ++ fixedPlaces 1 (Footprint.utilization used capacity) ++ "%"]

/-- The footprint of every module, the totals, and how much of the memories they take. -/
def resourceTable (flashCapacity ramCapacity : Nat) (footprint : Footprint) : String :=
  joinLines <|
    "| Module | Flash (Bytes) | RAM (Bytes) |" ::
    "| :--- | ---: | ---: |" ::
    footprint.modules.map (fun usage =>
      tableRow [usage.name, thousands usage.flash, thousands usage.ram]) ++
    [tableRow ["**TOTAL**", bold (thousands footprint.totalFlash),
      bold (thousands footprint.totalRam)],
    "",
    "| Resource | Size (Bytes) | Size (KB) | Capacity | Utilization |",
    "| :--- | :--- | :--- | :--- | :--- |",
    memoryRow "Flash (ROM)" footprint.totalFlash flashCapacity,
    memoryRow "RAM (Static)" footprint.totalRam ramCapacity]

end Markdown

end FirmwareReport
