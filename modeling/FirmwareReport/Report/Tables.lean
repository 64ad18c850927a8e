import FirmwareReport.Benchmark.Survey
import FirmwareReport.Config
import FirmwareReport.Report.Markdown
import FirmwareReport.Report.Substitution

/-!
# The tables of a report

A report has three tables: performance and stack use from the log, and the footprint
from the linker map. A table is missing if its input is; the section of the report then
keeps what it has. An input without anything in it still makes a table, of headers only.
-/

namespace FirmwareReport

/-- The Markdown tables of a run. -/
structure Tables where
  performance : Option String
  stack : Option String
  resources : Option String
deriving DecidableEq, Repr

namespace Tables

/-- **The tables** of the records of a log and of the footprint of a map, as far as there
are such. -/
def ofInputs (config : Config) (records : Option (List Record)) (footprint : Option Footprint) :
    Tables where
  performance := records.map fun records =>
    Markdown.performanceTable config.baselines config.reference config.clock
      (groups config.reference records)
  stack := records.map fun records => Markdown.stackTable (firstSeen config.reference records)
  resources := footprint.map (Markdown.resourceTable config.flashCapacity config.ramCapacity)

/-- The tables there are, each with the name of its section. -/
def named (tables : Tables) : List (String × String) :=
  (tables.performance.toList.map ("PERFORMANCE_TABLE", ·)) ++
  (tables.stack.toList.map ("STACK_TABLE", ·)) ++
  (tables.resources.toList.map ("RESOURCE_TABLE", ·))

/-- A report with the tables in their sections. -/
def applyTo (tables : Tables) (report : String) : Substitution :=
  substitute report tables.named

end Tables

end FirmwareReport
