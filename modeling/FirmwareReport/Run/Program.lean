import FirmwareReport.CommandLine
import FirmwareReport.Report.Console
import FirmwareReport.Run.Steps

/-!
# A run from end to end

A run settles its configuration, reads its inputs, and then writes its outputs: the
tables first, to the terminal or into the report, and the dataset last. A failure on the
way stops it. A quiet run leaves out what is not essential on the terminal, and differs
in nothing else.
-/

namespace FirmwareReport

variable {m : Type → Type} [Monad m] [Host m]

/-- The configuration a run works with: from a file or the standard one, changed by the
options, and validated. -/
def settle (arguments : Arguments) : StepT m Config := do
  let config ← match arguments.config with
    | some path => loadConfig path
    | none => pure .standard
  let config := { config with
    clock := arguments.clock.getD config.clock
    logTag := arguments.tag.getD config.logTag }
  warnIdle config.idleNames
  StepT.ofExcept (config.validate.mapError .config)
  return config

/-- Print a line. -/
def printLine (text : String) : StepT m Unit :=
  print (text ++ "\n")

/-- Print a line unless the run is quiet. -/
def remark (quiet : Bool) (text : String) : StepT m Unit :=
  if quiet then pure () else printLine text

/-- Put the tables where the view wants them. -/
def present (quiet : Bool) (config : Config) (records : Option (List Record))
    (footprint : Option Footprint) (view : View) : StepT m Unit := do
  let tables := Tables.ofInputs config records footprint
  match view with
  | .report path =>
    let result ← updateReport path tables
    remark quiet (path ++ ": " ++ decimal result.replaced.length ++ " section(s) updated, " ++
      decimal result.missing.length ++ " not found")
    result.missing.forM fun name => remark quiet ("  missing markers: " ++ name)
  | .markdown => tables.named.forM fun table => printLine (table.2 ++ "\n")
  | .console =>
    let records := records.getD []
    if !records.isEmpty then
      remark quiet ("Benchmark records (" ++ clockText config.clock ++ "):")
      remark quiet (Console.recordsTable config.clock records)
      printLine (Console.groupsTable (groups config.reference records))
    match footprint with
    | some footprint => printLine (Console.footprintTable footprint)
    | none => return ()

/-- Do what the options ask for. -/
def perform (arguments : Arguments) : StepT m Unit := do
  let config ← settle arguments
  match arguments.task with
  | .dumpConfig => print (← StepT.ofExcept (config.render?.mapError .config))
  | .tabulate log map view dataset =>
    let tag ← searchTag config
    warnIdle (idleNames config.categories)
    let catalog ← StepT.ofExcept (config.catalog.mapError .config)
    let records ← loadRecords tag log
    if records = some [] then warn (.noRecords log)
    let footprint ← match map with
      | some path => loadFootprint catalog path
      | none => pure none
    present arguments.quiet config records footprint view
    match dataset with
    | some path =>
      writeDataset path
        (.ofRecords config.clock config.reference (records.getD []) footprint)
      remark arguments.quiet ("Dataset written to " ++ path)
    | none => return ()

/-! ### How a run ends -/

/-- How a run ended. -/
inductive Ending
  | success
  /-- The command line was not understood. -/
  | usage
  | failure (failure : Failure)
deriving DecidableEq, Repr

/-- The failure with all its causes, the failed step first and what the system said last. -/
def Failure.report (failure : Failure) : String :=
  match failure with
  | .config (.unreadable _ fault) => failure.message ++ ": " ++ fault.message
  | .config _ => failure.message
  | .inputUnreadable path fault =>
    "Failed to load benchmark log " ++ path ++ ": " ++ failure.message ++ ": " ++ fault.message
  | .inputBroken message => "Failed to load linker map: " ++ message
  | .reportUnreadable _ fault => failure.message ++ ": " ++ fault.message
  | .unwritable _ fault => failure.message ++ ": " ++ fault.message

/-- **The exit code**: a configuration that cannot be used counts as wrong usage. -/
def Ending.exitCode : Ending → Nat
  | .success => 0
  | .usage => 2
  | .failure (.config _) => 2
  | .failure _ => 1

/-- What the program says about itself. -/
def versionText : String := "fwscope 0.1.0\n"

/-- A run with the given options, to its end. -/
def Arguments.run (arguments : Arguments) : m Ending := do
  match ← (perform arguments).run with
  | .ok () => return .success
  | .error failure => return .failure failure

/-- **A run of the program** with the words of its command line. -/
def runProgram (words : List String) : m Ending :=
  match Command.parse? words with
  | none => pure .usage
  | some .version => do
    Host.print versionText
    return .success
  | some (.run arguments) => arguments.run

end FirmwareReport
