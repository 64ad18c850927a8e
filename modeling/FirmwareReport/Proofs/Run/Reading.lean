import FirmwareReport.Proofs.Config.Validation
import FirmwareReport.Proofs.Run.FileSystem

/-!
# What a run reads

Before there is any output a run only reads and warns (`FirmwareReport.StepT.Reads`): it settles its
configuration (`FirmwareReport.exists_runIn_settle`), asks for its tag
(`FirmwareReport.runIn_searchTag`) and gathers its inputs (`FirmwareReport.reads_gather`). What it
comes to is a matter of the files alone, and is said here without the steps that lead there
(`FirmwareReport.FileSystem.configuration?`, `FirmwareReport.FileSystem.inputs?`). A valid
configuration has all that reading takes, so whatever stops a run that has its configuration and its
tag is something that cannot be read.
-/

namespace FirmwareReport

namespace FileSystem

/-! ### What a run finds in a store -/

section Inputs

variable (files : FileSystem) (store : Store)

/-- The text of a file, as far as it can be read. -/
def text (path : String) : Except FileFault String :=
  textOf (files.read store path)

/-- The configuration a run begins with: from a file or the standard one. -/
def taken? : Option String → Except ConfigFault Config
  | none => .ok .standard
  | some path =>
    match files.text store path with
    | .error fault => .error (.unreadable path fault)
    | .ok text => Config.parse text

/-- **The configuration a run works with**, or what is wrong with it. -/
def configuration? (arguments : Arguments) : Except ConfigFault Config := do
  let config := arguments.adjust (← files.taken? store arguments.config)
  config.validate
  return config

/-- **The configuration of a run is rejected.** -/
inductive Rejects (arguments : Arguments) : Prop
  /-- It cannot be read, or it is not valid. -/
  | invalid {fault : ConfigFault} (hconfig : files.configuration? store arguments = .error fault)
  /-- It has to be shown, and has no text. -/
  | unrepresentable {config : Config} {fault : ConfigFault}
    (hconfig : files.configuration? store arguments = .ok config)
    (htask : arguments.task = .dumpConfig) (hrender : config.render? = .error fault)
  /-- A log has to be searched for its tag, and the search engine refuses the tag. -/
  | refusedTag {config : Config} {log reason : String} {map dataset : Option String} {view : View}
    (hconfig : files.configuration? store arguments = .ok config)
    (htask : arguments.task = .tabulate log map view dataset)
    (hrefusal : files.tagRefusal? config.logTag = some reason)

/-- The records of a log, if it can be read. -/
def recordsOf (tag : Log.Tag) (log : String) : Option (List Record) :=
  (files.read store log).toOption.map (Log.records tag)

/-- The footprint of a map, if there is one and it can be read. -/
def footprintOf (catalog : Catalog) (map : Option String) : Option Footprint := do
  let contents ← (files.read store (← map)).toOption
  (Footprint.ofMap catalog contents none).toOption

/-- **The inputs of a run**, as far as there are such. -/
def inputs? (config : Config) (log : String) (map : Option String) :
    Option (Option (List Record) × Option Footprint) := do
  let tag ← config.tag.toOption
  let catalog ← config.catalog.toOption
  return (files.recordsOf store tag log, files.footprintOf store catalog map)

end Inputs

end FileSystem

/-! ### Steps that only read -/

/-- A failure that comes from an input or from the report, which could not be read. -/
def Failure.IsUnread : Failure → Prop
  | .inputUnreadable .. | .inputBroken .. | .reportUnreadable .. => True
  | _ => False

/-- **A step that reads**: all it does to a session is to warn. It comes to what it should or stops
because something cannot be read. -/
def StepT.Reads {α : Type} (step : StepT SessionM α) (session : Session) (Spec : α → Prop) :
    Prop :=
  ∃ result warnings, step.runIn session = (result, session.warned warnings) ∧
    match result with
    | .ok a => Spec a
    | .error failure => failure.IsUnread

theorem Session.warned_nil (session : Session) : session.warned [] = session := by
  simp [warned]

theorem Session.warned_warned (session : Session) (warnings more : List Warning) :
    (session.warned warnings).warned more = session.warned (warnings ++ more) := by
  simp [warned]

namespace StepT.Reads

variable {α β : Type} {session : Session} {Spec : α → Prop} {Spec' : β → Prop}

theorem pure {a : α} (h : Spec a) : StepT.Reads (Pure.pure a) session Spec :=
  ⟨.ok a, [], by rw [Session.warned_nil]; rfl, h⟩

theorem ofExcept_ok (a : α) : StepT.Reads (StepT.ofExcept (.ok a)) session (· = a) :=
  pure rfl

theorem throw {failure : Failure} (h : failure.IsUnread) :
    StepT.Reads (MonadExcept.throw failure) session Spec :=
  ⟨.error failure, [], by rw [Session.warned_nil]; rfl, h⟩

/-- **Reading, and reading on.** The store is the same all the way. -/
theorem bind {step : StepT SessionM α} {next : α → StepT SessionM β}
    (h : step.Reads session Spec)
    (hnext : ∀ a warnings, Spec a → (next a).Reads (session.warned warnings) Spec') :
    (step >>= next).Reads session Spec' := by
  obtain ⟨result, warnings, hrun, hresult⟩ := h
  cases result with
  | error failure => exact ⟨.error failure, warnings, by rw [StepT.runIn_bind, hrun], hresult⟩
  | ok a =>
    obtain ⟨result', more, hrun', hresult'⟩ := hnext a warnings hresult
    refine ⟨result', warnings ++ more, ?_, hresult'⟩
    rw [StepT.runIn_bind, hrun]
    exact hrun'.trans (by rw [Session.warned_warned])

end StepT.Reads

section Reading

variable (files : FileSystem) {session : Session}

theorem reads_readFile (path : String) :
    StepT.Reads (ExceptT.lift (@Host.readFile SessionM files.host path)) session
      (· = files.read session.store path) :=
  ⟨.ok (files.read session.store path), [], by rw [Session.warned_nil]; rfl, rfl⟩

theorem reads_warn (warning : Warning) :
    StepT.Reads (@warn SessionM _ files.host warning) session fun _ => True :=
  ⟨.ok (), [warning], rfl, trivial⟩

theorem runIn_warnIdle (names : List String) (session : Session) :
    StepT.runIn (@warnIdle SessionM _ files.host names) session =
      (.ok (), session.warned (names.map .idleCategory)) :=
  runIn_forM_warn files.read files.writeFile files.tagRefusal? .idleCategory names session

theorem reads_warnIdle (names : List String) :
    StepT.Reads (@warnIdle SessionM _ files.host names) session fun _ => True :=
  ⟨.ok (), _, runIn_warnIdle files names session, trivial⟩

/-- An input that is not there, or that a run can do without, is passed over. -/
theorem reads_readInput (role : Role) (path : String) :
    StepT.Reads (@readInput SessionM _ files.host role path) session
      (· = (files.read session.store path).toOption) := by
  refine (reads_readFile files path).bind fun result warnings hresult => ?_
  rw [← hresult]
  cases result with
  | ok contents => exact .pure rfl
  | error fault =>
    have hskip (warning : Warning) :
        StepT.Reads (do @warn SessionM _ files.host warning; return none)
          (session.warned warnings)
          (· = (Except.error fault : Except FileFault (List UInt8)).toOption) :=
      (reads_warn files warning).bind fun _ _ _ => .pure rfl
    cases role with
    | optional => cases fault <;> exact hskip _
    | required =>
      cases fault
      case notFound => exact hskip _
      all_goals exact .throw trivial

theorem reads_loadRecords (tag : Log.Tag) (log : String) :
    StepT.Reads (@loadRecords SessionM _ files.host tag log) session
      (· = files.recordsOf session.store tag log) := by
  refine (reads_readInput files .required log).bind fun contents _ hcontents => ?_
  exact .pure (by rw [hcontents]; rfl)

theorem reads_loadMap (catalog : Catalog) (map : Option String) :
    StepT.Reads (@loadMap SessionM _ files.host catalog map) session
      (· = files.footprintOf session.store catalog map) := by
  cases map with
  | none => exact .pure rfl
  | some path =>
    refine (reads_readInput files .optional path).bind fun contents _ hcontents => ?_
    have hfootprint : files.footprintOf session.store catalog (some path) =
        contents.bind fun contents => (Footprint.ofMap catalog contents none).toOption := by
      rw [hcontents]
      rfl
    rw [hfootprint]
    cases contents with
    | none => exact .pure rfl
    | some contents =>
      dsimp only
      cases h : Footprint.ofMap catalog contents none with
      | error message => exact .throw trivial
      | ok footprint => exact .pure (by simp [h, Except.toOption])

theorem reads_warnEmpty (log : String) (records : Option (List Record)) :
    StepT.Reads (@warnEmpty SessionM _ files.host log records) session fun _ => True := by
  unfold warnEmpty
  split_ifs
  · exact reads_warn files _
  · exact .pure trivial

/-- A valid tag is what a log is searched for, unless the search engine refuses it. -/
theorem runIn_searchTag {config : Config} {tag : Log.Tag} (htag : config.tag = .ok tag)
    (session : Session) : StepT.runIn (@searchTag SessionM _ files.host config) session =
      match files.tagRefusal? config.logTag with
      | some reason => (.error (.config (.refusedTag reason)), session)
      | none => (.ok tag, session) := by
  have htaken : StepT.runIn (StepT.ofExcept (config.tag.mapError .config)) session =
      (.ok tag, session) := by
    rw [htag]
    rfl
  have hask : StepT.runIn (ExceptT.lift (@Host.tagRefusal? SessionM files.host config.logTag))
      session = (.ok (files.tagRefusal? config.logTag), session) := rfl
  unfold searchTag
  rw [StepT.runIn_bind, htaken]
  dsimp only
  rw [StepT.runIn_bind, hask]
  cases files.tagRefusal? config.logTag <;> rfl

/-- **With a tag and a catalog, gathering the inputs is only reading.** -/
theorem reads_gather (session : Session) {config : Config} {tag : Log.Tag} {catalog : Catalog}
    (htag : config.tag = .ok tag) (hcatalog : config.catalog = .ok catalog)
    (log : String) (map : Option String) :
    StepT.Reads (@gather SessionM _ files.host config tag log map) session
      fun inputs => files.inputs? session.store config log map = some inputs := by
  unfold gather
  rw [hcatalog]
  refine (reads_warnIdle files _).bind fun _ _ _ => ?_
  refine (StepT.Reads.ofExcept_ok catalog).bind fun _ _ hcatalog' => ?_
  refine (reads_loadRecords files _ log).bind fun records _ hrecords => ?_
  refine (reads_warnEmpty files log records).bind fun _ _ _ => ?_
  refine (reads_loadMap files _ map).bind fun footprint _ hfootprint => .pure ?_
  subst hcatalog'
  simp only [FileSystem.inputs?, htag, hcatalog, hrecords, hfootprint, Except.toOption]
  rfl

theorem exists_runIn_takeConfig (source : Option String) (session : Session) : ∃ warnings,
    StepT.runIn (@takeConfig SessionM _ files.host source) session =
      ((files.taken? session.store source).mapError .config, session.warned warnings) := by
  cases source with
  | none => exact ⟨[], by rw [Session.warned_nil]; rfl⟩
  | some path =>
    unfold takeConfig loadConfig FileSystem.taken? FileSystem.text
    rw [StepT.runIn_bind, runIn_readText]
    dsimp only
    cases textOf (files.read session.store path) with
    | error fault => exact ⟨[], by rw [Session.warned_nil]; rfl⟩
    | ok text =>
      refine ⟨(Config.idleNamesOfText text).map .idleCategory, ?_⟩
      dsimp only
      rw [StepT.runIn_bind, runIn_warnIdle]
      dsimp only
      cases Config.parse text <;> rfl

/-- **Settling the configuration** comes to the one the run works with, or to what is wrong. -/
theorem exists_runIn_settle (arguments : Arguments) (session : Session) : ∃ warnings,
    StepT.runIn (@settle SessionM _ files.host arguments) session =
      ((files.configuration? session.store arguments).mapError .config,
        session.warned warnings) := by
  obtain ⟨warnings, htaken⟩ := exists_runIn_takeConfig files arguments.config session
  rw [@settle_eq SessionM _ files.host, StepT.runIn_bind, htaken, FileSystem.configuration?]
  cases files.taken? session.store arguments.config with
  | error fault => exact ⟨warnings, rfl⟩
  | ok config =>
    refine ⟨warnings ++ (arguments.adjust config).idleNames.map .idleCategory, ?_⟩
    simp only [Except.mapError]
    rw [StepT.runIn_bind, runIn_warnIdle]
    dsimp only [bind, Except.bind]
    rw [Session.warned_warned]
    cases (arguments.adjust config).validate <;> rfl

end Reading

end FirmwareReport
