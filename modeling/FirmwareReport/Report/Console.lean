import FirmwareReport.Report.Markdown

/-!
# Console tables

The same figures for a terminal: columns of a least width, counted in characters,
with bars between them. A longer text widens its own row and is not cut.
-/

namespace FirmwareReport.Console

/-- A text filled up on the right to a width. -/
def left (width : Nat) (s : String) : String :=
  s ++ String.ofList (List.replicate (width - s.length) ' ')

/-- A text filled up on the left to a width. -/
def right (width : Nat) (s : String) : String :=
  String.ofList (List.replicate (width - s.length) ' ') ++ s

/-- Columns side by side. -/
def columns (cells : List String) : String :=
  " | ".intercalate cells

/-- A horizontal rule. -/
def rule (width : Nat) : String :=
  String.ofList (List.replicate width '-')

/-- A line of the table of records. -/
def recordLine (algorithm operation cycles time stack : String) : String :=
  columns [left 20 algorithm, left 20 operation, right 13 cycles, right 10 time, right 10 stack]

/-- Every record, in the order of the log. -/
def recordsTable (clock : Nat) (records : List Record) : String :=
  joinLines <|
    recordLine "Algorithm" "Operation" "Cycles" "Time (ms)" "Stack (B)" ::
    rule 80 ::
    records.map fun record =>
      recordLine record.algorithm record.operation (thousands record.cycles)
        (fixedPlaces 2 (milliseconds clock record.cycles)) (thousands record.stack)

/-- A line of the table of groups. -/
def groupLine (algorithm operation runs mean least greatest stack : String) : String :=
  columns [left 20 algorithm, left 16 operation, right 4 runs, right 13 mean, right 13 least,
    right 13 greatest, right 10 stack]

/-- The statistics of every group. -/
def groupsTable (groups : List Group) : String :=
  joinLines <|
    groupLine "Algorithm" "Operation" "Runs" "Mean Cycles" "Min" "Max" "Mean Stack" ::
    rule 105 ::
    groups.map fun group =>
      groupLine group.algorithm group.operation (decimal group.count)
        (thousands (roundedMean group.meanCycles)) (thousands group.minCycles)
        (thousands group.maxCycles) (thousands (roundedMean group.meanStack))

/-- A line of the table of modules. -/
def moduleLine (name flash ram : String) : String :=
  columns [left 25 name, left 15 flash, left 15 ram]

/-- The footprint of every module, and the totals. -/
def footprintTable (footprint : Footprint) : String :=
  joinLines <|
    moduleLine "Module" "Flash (Bytes)" "RAM (Bytes)" ::
    rule 60 ::
    footprint.modules.map (fun usage =>
      moduleLine usage.name (thousands usage.flash) (thousands usage.ram)) ++
    [rule 60,
    moduleLine "TOTAL" (thousands footprint.totalFlash) (thousands footprint.totalRam)]

end FirmwareReport.Console
