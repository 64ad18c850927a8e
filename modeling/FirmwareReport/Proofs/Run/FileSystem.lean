import FirmwareReport.Proofs.Run.Update
import FirmwareReport.Run.Program

/-!
# Runs over any system of files

A store says what there is; a system of files decides what becomes of reading and writing it. It may
refuse a file that the store has, say for want of permission, or a write may break off. Its search
engine may also refuse the tag of a log. So `FirmwareReport.FileSystem` is nothing but an answer to
every read, to every write and to every tag, and
`FirmwareReport.FileSystem.run` is a run of the program over it, from a store at the start to a
session at the end. `FirmwareReport.FileSystem.plain` is the one that refuses nothing, and the runs
over it are those of a session (`FirmwareReport.FileSystem.run_plain`).
-/

namespace FirmwareReport

/-- **A system of files**: what a path reads as, whether a write goes through and what it leaves
behind, and which tags its search engine refuses. -/
structure FileSystem where
  read : Store → String → Except FileFault (List UInt8)
  write : Store → String → List UInt8 → Except FileFault Unit × Store
  tagRefusal? : String → Option String

namespace FileSystem

/-- The system that refuses nothing: what the store has is read, and what it takes is written. -/
def plain : FileSystem where
  read := Store.read
  write store path contents := match store.write path contents with
    | .ok store => (.ok (), store)
    | .error fault => (.error fault, store)
  tagRefusal? _ := none

/-- A write in a session. -/
def writeFile (files : FileSystem) (path : String) (contents : List UInt8) :
    SessionM (Except FileFault Unit) := fun session =>
  let (result, store) := files.write session.store path contents
  (result, { session with store })

/-- A session with the files of a system. -/
@[reducible] def host (files : FileSystem) : Host SessionM :=
  Session.hostOf files.read files.writeFile files.tagRefusal?

/-- **A run of the program**: how it ends, and the session it leaves behind. -/
def run (files : FileSystem) (arguments : Arguments) (store : Store) : Ending × Session :=
  (@Arguments.run SessionM _ files.host arguments).run (.start store)

/-- A session has the files of its store. -/
theorem host_plain : plain.host = (inferInstance : Host SessionM) := by
  have hwrite : plain.writeFile = Host.writeFile := by
    funext path contents session
    simp only [writeFile, plain, Host.writeFile]
    cases session.store.write path contents <;> rfl
  rw [host, hwrite]
  rfl

/-- The runs of a session are those over the plain system. -/
theorem run_plain (arguments : Arguments) (store : Store) :
    plain.run arguments store = (arguments.run : SessionM Ending).run (.start store) := by
  rw [run, host_plain]

/-- How a run ends is how its steps end. -/
theorem run_eq (files : FileSystem) (arguments : Arguments) (store : Store) :
    files.run arguments store =
      match StepT.runIn (@perform SessionM _ files.host arguments) (.start store) with
      | (.ok (), session) => (.success, session)
      | (.error failure, session) => (.failure failure, session) := by
  rw [run]
  unfold Arguments.run
  simp only [StepT.runIn, ExceptT.run, StateT.run, bind, StateT.bind]
  rcases @perform SessionM _ files.host arguments (.start store) with ⟨_ | _, session⟩ <;> rfl

end FileSystem

/-! ### The parts of a run -/

section Parts

variable {m : Type → Type} [Monad m] [Host m]

/-- A configuration, changed by the options. -/
def Arguments.adjust (arguments : Arguments) (config : Config) : Config :=
  { config with
    clock := arguments.clock.getD config.clock
    logTag := arguments.tag.getD config.logTag }

/-- The configuration to begin with, from a file or the standard one. -/
def takeConfig : Option String → StepT m Config
  | some path => loadConfig path
  | none => pure .standard

/-- Warn of a log without records. -/
def warnEmpty (log : String) (records : Option (List Record)) : StepT m Unit :=
  if records = some [] then warn (.noRecords log) else pure ()

/-- The footprint of a map, if there is one to load. -/
def loadMap (catalog : Catalog) : Option String → StepT m (Option Footprint)
  | some path => loadFootprint catalog path
  | none => pure none

/-- **The inputs of a run**: the records of the log and the footprint of the map. -/
def gather (config : Config) (tag : Log.Tag) (log : String) (map : Option String) :
    StepT m (Option (List Record) × Option Footprint) := do
  warnIdle (idleNames config.categories)
  let catalog ← StepT.ofExcept (config.catalog.mapError .config)
  let records ← loadRecords tag log
  warnEmpty log records
  let footprint ← loadMap catalog map
  return (records, footprint)

/-- **The outputs of a run**: the tables, and then the dataset. -/
def publish (quiet : Bool) (config : Config) (records : Option (List Record))
    (footprint : Option Footprint) (view : View) (dataset : Option String) : StepT m Unit := do
  present quiet config records footprint view
  match dataset with
  | some path =>
    writeDataset path (.ofRecords config.clock config.reference (records.getD []) footprint)
    remark quiet ("Dataset written to " ++ path)
  | none => return ()

/-- A run takes a configuration, and then changes and checks it. -/
theorem settle_eq (arguments : Arguments) : (settle arguments : StepT m Config) =
    takeConfig arguments.config >>= fun config => do
      warnIdle (arguments.adjust config).idleNames
      StepT.ofExcept ((arguments.adjust config).validate.mapError .config)
      return arguments.adjust config := by
  unfold settle
  cases arguments.config <;> rfl

/-- **A run has four parts**: it settles its configuration, asks for its tag, gathers its inputs and
publishes its outputs. -/
theorem perform_eq [LawfulMonad m] (arguments : Arguments) : (perform arguments : StepT m Unit) =
    settle arguments >>= fun config =>
      match arguments.task with
      | .dumpConfig => StepT.ofExcept (config.render?.mapError .config) >>= print
      | .tabulate log map view dataset =>
        searchTag config >>= fun tag => gather config tag log map >>= fun inputs =>
          publish arguments.quiet config inputs.1 inputs.2 view dataset := by
  unfold perform
  refine congrArg _ (funext fun config => ?_)
  cases arguments.task with
  | dumpConfig => rfl
  | tabulate log map view dataset =>
    simp only [gather, publish, bind_assoc]
    refine bind_congr fun tag => bind_congr fun _ => bind_congr fun catalog =>
      bind_congr fun records => ?_
    rw [warnEmpty]
    cases map <;> cases dataset <;> split_ifs <;> simp [loadMap]

end Parts

end FirmwareReport
