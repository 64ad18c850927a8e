import FirmwareReport.Config.Text
import FirmwareReport.Dataset
import FirmwareReport.Files.Host
import FirmwareReport.Log
import FirmwareReport.Report.Tables
import FirmwareReport.Text.Utf8

/-!
# The steps of a run

Each step reads or writes one file. A file that is not there is a warning if it is an
input, and the run goes on without it; the report and the dataset have to be there or to
be creatable. What stops a run is a `Failure`.
-/

namespace FirmwareReport

/-- What stops a run. -/
inductive Failure
  /-- The configuration cannot be used. -/
  | config (fault : ConfigFault)
  /-- An input cannot be read. -/
  | inputUnreadable (path : String) (fault : FileFault)
  /-- The source of a linker map broke off. -/
  | inputBroken (message : String)
  /-- The report cannot be read. -/
  | reportUnreadable (path : String) (fault : FileFault)
  /-- The report or the dataset cannot be written. -/
  | unwritable (path : String) (fault : FileFault)
deriving DecidableEq, Repr

/-- The wording of a failure. -/
def Failure.message : Failure → String
  | .config fault => fault.message
  | .inputUnreadable path fault => "Failed to read " ++ path ++ ": " ++ fault.message
  | .inputBroken message => message
  | .reportUnreadable path fault => "Failed to read report " ++ path ++ ": " ++ fault.message
  | .unwritable path fault => "Failed to write " ++ path ++ ": " ++ fault.message

variable {m : Type → Type} [Monad m] [Host m]

/-- What a step needs: the surroundings, and a way to stop the run. -/
abbrev StepT (m : Type → Type) := ExceptT Failure m

/-- Stop the run, or go on with a value. -/
def StepT.ofExcept {α : Type} (result : Except Failure α) : StepT m α :=
  ExceptT.mk (pure result)

/-- Give a warning. -/
def warn (warning : Warning) : StepT m Unit :=
  ExceptT.lift (Host.warn warning)

/-- Print a text as it is. -/
def print (text : String) : StepT m Unit :=
  ExceptT.lift (Host.print text)

/-- Warn of categories that can never match. -/
def warnIdle (names : List String) : StepT m Unit :=
  names.forM fun name => warn (.idleCategory name)

/-! ### Reading -/

/-- Whether a run can do without an input that is there but cannot be read. -/
inductive Role
  | required
  | optional
deriving DecidableEq, Repr

/-- The contents of an input file, if the run has it. -/
def readInput (role : Role) (path : String) : StepT m (Option (List UInt8)) := do
  match ← ExceptT.lift (Host.readFile path) with
  | .ok contents => return some contents
  | .error .notFound =>
    warn (.inputMissing path)
    return none
  | .error fault =>
    match role with
    | .optional =>
      warn (.inputUnreadable path fault)
      return none
    | .required => throw (.inputUnreadable path fault)

/-- The contents of a text file. -/
def readText (path : String) : StepT m (Except FileFault String) := do
  match ← ExceptT.lift (Host.readFile path) with
  | .error fault => return .error fault
  | .ok contents =>
    match Text.decode? contents with
    | none => return .error .notText
    | some text => return .ok (String.ofList text)

/-- The configuration a file holds. -/
def loadConfig (path : String) : StepT m Config := do
  match ← readText path with
  | .error fault => throw (.config (.unreadable path fault))
  | .ok text =>
    warnIdle (Config.idleNamesOfText text)
    match Config.parse text with
    | .ok config => return config
    | .error fault => throw (.config fault)

/-- The tag to search a log for, unless the search engine refuses it. -/
def searchTag (config : Config) : StepT m Log.Tag := do
  let tag ← StepT.ofExcept (config.tag.mapError .config)
  match ← ExceptT.lift (Host.tagRefusal? config.logTag) with
  | some reason => throw (.config (.refusedTag reason))
  | none => return tag

/-- The records of a log that has to be there. -/
def readRecords (tag : Log.Tag) (path : String) : StepT m (List Record) := do
  match ← ExceptT.lift (Host.readFile path) with
  | .ok contents => return Log.records tag contents
  | .error fault => throw (.inputUnreadable path fault)

/-- The records of a log, if there is one. -/
def loadRecords (tag : Log.Tag) (path : String) : StepT m (Option (List Record)) := do
  let contents ← readInput .required path
  return contents.map (Log.records tag)

/-- The footprint of a linker map, if there is one. -/
def loadFootprint (catalog : Catalog) (path : String) : StepT m (Option Footprint) := do
  match ← readInput .optional path with
  | none => return none
  | some contents =>
    match Footprint.ofMap catalog contents none with
    | .ok footprint => return some footprint
    | .error message => throw (.inputBroken message)

/-! ### Writing -/

/-- Put contents into a file. -/
def writeOut (path : String) (text : String) : StepT m Unit := do
  match ← ExceptT.lift (Host.writeFile path (Text.encode text.toList)) with
  | .ok () => return ()
  | .error fault => throw (.unwritable path fault)

/-- Put tables into the sections of a report. The file is only written if that changes it. -/
def updateReport (path : String) (tables : Tables) : StepT m Substitution := do
  match ← readText path with
  | .error fault => throw (.reportUnreadable path fault)
  | .ok report =>
    let result := tables.applyTo report
    result.missing.forM fun name => warn (.sectionMissing name)
    if result.text ≠ report then writeOut path result.text
    return result

/-- Write a dataset to a file. -/
def writeDataset (path : String) (dataset : Dataset) : StepT m Unit :=
  writeOut path dataset.toText

end FirmwareReport
