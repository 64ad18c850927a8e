import FirmwareReport.Files.Fault

/-!
# Warnings

What a run tells its user without stopping. A warning is a value with one wording; when
it is given is said where it is.
-/

namespace FirmwareReport

/-- Something the user should know. -/
inductive Warning
  /-- A category can never match. -/
  | idleCategory (name : String)
  /-- A table has no section in the report. -/
  | sectionMissing (name : String)
  /-- An input is not there. -/
  | inputMissing (path : String)
  /-- An input that a run can do without is there but cannot be read. -/
  | inputUnreadable (path : String) (fault : FileFault)
  /-- A log has no records. -/
  | noRecords (path : String)
deriving DecidableEq, Repr

/-- The wording of a warning. -/
def Warning.message : Warning → String
  | .idleCategory name => "Module category \"" ++ name ++ "\" has no patterns and will never match"
  | .sectionMissing name => "Marker " ++ name ++ ": not found in report, section skipped"
  | .inputMissing path => path ++ " not found, continuing without it"
  | .inputUnreadable path fault =>
    "Failed to read " ++ path ++ ": " ++ fault.message ++ ", continuing without it"
  | .noRecords path => "No benchmark records in " ++ path ++ ", tables will be header-only"

end FirmwareReport
