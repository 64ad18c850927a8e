import FirmwareReport.Proofs.Run.Reading

/-!
# What a run leaves behind

A run that fails leaves every file as it was, but for one case: the report is written before the
dataset, so it holds the new tables if the dataset is what failed
(`FirmwareReport.run_keeps_files`). Wrong usage is a matter of the configuration alone
(`FirmwareReport.FileSystem.Rejects`), and whatever goes wrong with an input shows in another exit
code.

Of the system it is assumed that a write that fails changes nothing
(`FirmwareReport.FileSystem.IsReliable`), and of the report of the run that it can be rewritten if
it can be read (`FirmwareReport.FileSystem.CanRewrite`). Otherwise the system may refuse to read, to
create and to rewrite whatever it likes. A dataset may be refused though there is such a file and it
can be read, as in a system that protects some of its files
(`FirmwareReport.FileSystem.protecting`).
-/

namespace FirmwareReport

namespace FileSystem

/-- **A system that does what it says**: what is read is there, and a write goes through or changes
nothing. -/
structure IsReliable (files : FileSystem) : Prop where
  read : ∀ {store path contents},
    files.read store path = .ok contents → store.read path = .ok contents
  write : ∀ {store path contents}, (files.write store path contents).1 = .ok () →
    store.write path contents = .ok (files.write store path contents).2
  unchanged : ∀ {store path contents fault},
    (files.write store path contents).1 = .error fault →
      (files.write store path contents).2 = store

/-- **A file can be rewritten** if it can be read. -/
def CanRewrite (files : FileSystem) (store : Store) (path : String) : Prop :=
  ∀ contents, files.read store path = .ok contents → ∀ new, (files.write store path new).1 = .ok ()

/-- What the store takes is written, and what it does not take changes nothing. -/
theorem isReliable_plain : plain.IsReliable where
  read h := h
  write {store path contents} h := by
    unfold plain at h ⊢
    cases hwrite : store.write path contents <;> simp_all
  unchanged {store path contents fault} h := by
    unfold plain at h ⊢
    cases hwrite : store.write path contents <;> simp_all

/-- A plain system that protects some files: they are not written. -/
def protecting (kept : List String) : FileSystem :=
  { plain with
    write := fun store path contents =>
      if path ∈ kept then (.error (.other "Permission denied (os error 13)"), store)
      else plain.write store path contents }

theorem isReliable_protecting (kept : List String) : (protecting kept).IsReliable where
  read h := h
  write {store path contents} h := by
    by_cases hkept : path ∈ kept
    · simp [protecting, hkept] at h
    · simp only [protecting, hkept, if_false] at h ⊢
      exact isReliable_plain.write h
  unchanged {store path contents fault} h := by
    by_cases hkept : path ∈ kept
    · simp [protecting, hkept]
    · simp only [protecting, hkept, if_false] at h ⊢
      exact isReliable_plain.unchanged h

/-- A file that is not protected can be rewritten. -/
theorem canRewrite_protecting {kept : List String} {path : String} (hpath : path ∉ kept)
    (store : Store) : (protecting kept).CanRewrite store path := by
  intro contents hread new
  obtain ⟨store', hwrite⟩ := Store.exists_write_of_read hread new
  simp [protecting, hpath, plain, hwrite]

/-- **The store after the tables are published**: a report has the text that the tables make of it
and nothing else has changed; without a report nothing has changed at all. -/
def Presented (files : FileSystem) (store : Store) (tables : Tables) : View → Store → Prop
  | .report path, after => ∃ document, files.text store path = .ok document ∧
      after.text path = .ok (tables.applyTo document).text ∧
      ∀ place, store.locate path (Store.parts path) ≠ .ok place →
        after.at? place = store.at? place
  | _, after => after = store

end FileSystem

/-! ### Steps that only print -/

/-- **A step that prints**: it goes through and leaves the files alone. -/
def StepT.Prints (step : StepT SessionM Unit) : Prop :=
  ∀ session, (step.runIn session).1 = .ok () ∧ (step.runIn session).2.store = session.store

namespace StepT.Prints

theorem pure : StepT.Prints (Pure.pure ()) := fun _ => ⟨rfl, rfl⟩

theorem bind {step : StepT SessionM Unit} {next : Unit → StepT SessionM Unit} (h : step.Prints)
    (hnext : (next ()).Prints) : (step >>= next).Prints := by
  intro session
  obtain ⟨hresult, hstore⟩ := h session
  rw [StepT.runIn_bind]
  rcases hrun : step.runIn session with ⟨result, session'⟩
  rw [hrun] at hresult hstore
  obtain rfl : result = .ok () := hresult
  exact ⟨(hnext session').1, (hnext session').2.trans hstore⟩

theorem forM {α : Type} {items : List α} {step : α → StepT SessionM Unit}
    (h : ∀ item, (step item).Prints) : (items.forM step).Prints := by
  induction items with
  | nil => exact pure
  | cons item items ih => exact (h item).bind ih

end StepT.Prints

section Writing

variable (files : FileSystem)

theorem prints_printLine (text : String) : (@printLine SessionM _ files.host text).Prints :=
  fun _ => ⟨rfl, rfl⟩

theorem prints_remark (quiet : Bool) (text : String) :
    (@remark SessionM _ files.host quiet text).Prints := by
  cases quiet
  · exact prints_printLine files text
  · exact .pure

/-- The tables for the terminal are only printed. -/
theorem prints_present_console (quiet : Bool) (config : Config) (records : Option (List Record))
    (footprint : Option Footprint) :
    (@present SessionM _ files.host quiet config records footprint .console).Prints := by
  unfold present
  dsimp only
  split
  on_goal 1 =>
    refine (prints_remark files quiet _).bind ((prints_remark files quiet _).bind
      ((prints_printLine files _).bind ?_))
  -- With or without results, the table of the footprint comes last, if there is one.
  all_goals
    cases footprint with
    | none => exact .pure
    | some footprint => exact prints_printLine files _

/-! ### Steps that write -/

variable {files}

/-- **An update of a report** that can be read and rewritten goes through. -/
theorem exists_runIn_updateReport (h : files.IsReliable) {path : String} {session : Session}
    (hrewrite : files.CanRewrite session.store path) (tables : Tables) : ∃ result session',
      StepT.runIn (@updateReport SessionM _ files.host path tables) session = (result, session') ∧
      match result with
      | .ok _ => files.Presented session.store tables (.report path) session'.store
      | .error failure => failure.IsUnread ∧ session'.store = session.store := by
  rw [runIn_updateReport_hostOf]
  cases htext : textOf (files.read session.store path) with
  | error fault => exact ⟨_, _, rfl, trivial, rfl⟩
  | ok document =>
    obtain ⟨contents, hread⟩ : ∃ contents, files.read session.store path = .ok contents := by
      cases hread : files.read session.store path with
      | error fault => simp [hread, textOf] at htext
      | ok contents => exact ⟨contents, rfl⟩
    have hstore : session.store.text path = .ok document := by
      rw [Store.text, h.read hread, ← hread, htext]
    dsimp only
    split_ifs with heq
    · exact ⟨_, _, rfl, document, htext, by rw [heq]; exact hstore, fun _ _ => rfl⟩
    · -- The report has been read, so it can be rewritten.
      have hok := hrewrite contents hread (Text.encode (tables.applyTo document).text.toList)
      have hwrite := h.write hok
      rw [FileSystem.writeFile, Session.warned]
      dsimp only
      rw [hok]
      exact ⟨_, _, rfl, document, htext, text_of_write hstore hwrite,
        fun place hplace => Store.at?_of_write hwrite hplace⟩

/-- **Putting the tables where the view wants them** goes through, unless there is no report. -/
theorem exists_runIn_present (h : files.IsReliable) {view : View} {session : Session}
    (hrewrite : ∀ path, view = .report path → files.CanRewrite session.store path) (quiet : Bool)
    (config : Config) (records : Option (List Record)) (footprint : Option Footprint) :
    ∃ result session',
      StepT.runIn (@present SessionM _ files.host quiet config records footprint view) session =
        (result, session') ∧
      match result with
      | .ok () =>
        files.Presented session.store (.ofInputs config records footprint) view session'.store
      | .error failure => failure.IsUnread ∧ session'.store = session.store := by
  cases view with
  | report path =>
    obtain ⟨result, session', hrun, hresult⟩ :=
      exists_runIn_updateReport h (hrewrite path rfl) (.ofInputs config records footprint)
    unfold present
    dsimp only
    rw [StepT.runIn_bind, hrun]
    cases result with
    | error failure => exact ⟨_, _, rfl, hresult⟩
    | ok result =>
      have hprints : StepT.Prints (do
          @remark SessionM _ files.host quiet (path ++ ": " ++ decimal result.replaced.length ++
            " section(s) updated, " ++ decimal result.missing.length ++ " not found")
          result.missing.forM fun name =>
            @remark SessionM _ files.host quiet ("  missing markers: " ++ name)) :=
        (prints_remark files quiet _).bind (.forM fun name => prints_remark files quiet _)
      obtain ⟨hok, hstore⟩ := hprints session'
      exact ⟨_, _, Prod.ext hok rfl, by rw [hstore]; exact hresult⟩
  | markdown =>
    have hprints : StepT.Prints ((Tables.ofInputs config records footprint).named.forM
        fun table => @printLine SessionM _ files.host (table.2 ++ "\n")) :=
      .forM fun table => prints_printLine files _
    obtain ⟨hok, hstore⟩ := hprints session
    exact ⟨_, _, Prod.ext hok rfl, hstore⟩
  | console =>
    obtain ⟨hok, hstore⟩ := prints_present_console files quiet config records footprint session
    exact ⟨_, _, Prod.ext hok rfl, hstore⟩

/-- A dataset is written, or the files are as before. -/
theorem runIn_writeDataset (h : files.IsReliable) (path : String) (dataset : Dataset)
    (session : Session) :
    (∃ store, StepT.runIn (@writeDataset SessionM _ files.host path dataset) session =
      (.ok (), { session with store })) ∨
    ∃ fault, StepT.runIn (@writeDataset SessionM _ files.host path dataset) session =
        (.error (.unwritable path fault), session) ∧
      (files.write session.store path (Text.encode dataset.toText.toList)).1 = .error fault := by
  have hrun := runIn_writeOut files.read files.writeFile files.tagRefusal? path dataset.toText
    session
  rw [FileSystem.writeFile] at hrun
  rcases hwrite : files.write session.store path (Text.encode dataset.toText.toList) with
    ⟨fault | ⟨⟩, store⟩
  · rw [hwrite] at hrun
    obtain rfl : store = session.store := by
      have hstore := h.unchanged (congrArg Prod.fst hwrite)
      rwa [hwrite] at hstore
    exact Or.inr ⟨fault, hrun, rfl⟩
  · rw [hwrite] at hrun
    exact Or.inl ⟨store, hrun⟩

/-- What a run can fail with once it has its configuration and its inputs: the report cannot be
read, or the dataset cannot be written. -/
theorem exists_runIn_publish (h : files.IsReliable) {view : View} {session : Session}
    (hrewrite : ∀ path, view = .report path → files.CanRewrite session.store path) (quiet : Bool)
    (config : Config) (records : Option (List Record)) (footprint : Option Footprint)
    (dataset : Option String) : ∃ result session',
      StepT.runIn (@publish SessionM _ files.host quiet config records footprint view dataset)
        session = (result, session') ∧
      ∀ failure, result = .error failure →
        failure.IsUnread ∧ session'.store = session.store ∨
        ∃ path fault, dataset = some path ∧ failure = .unwritable path fault ∧
          files.Presented session.store (.ofInputs config records footprint) view session'.store ∧
          (files.write session'.store path (Text.encode (Dataset.ofRecords config.clock
            config.reference (records.getD []) footprint).toText.toList)).1 = .error fault := by
  obtain ⟨result, session', hrun, hresult⟩ :=
    exists_runIn_present h hrewrite quiet config records footprint
  unfold publish
  rw [StepT.runIn_bind, hrun]
  cases result with
  | error failure =>
    refine ⟨_, _, rfl, fun failure' heq => Or.inl ?_⟩
    obtain rfl : failure = failure' := Except.error.inj heq
    exact hresult
  | ok =>
    dsimp only at hresult ⊢
    cases dataset with
    | none => exact ⟨_, _, rfl, fun failure heq => by cases heq⟩
    | some path =>
      dsimp only
      rw [StepT.runIn_bind]
      rcases runIn_writeDataset h path (.ofRecords config.clock config.reference
        (records.getD []) footprint) session' with ⟨store, hwrite⟩ | ⟨fault, hwrite, hfault⟩
      · rw [hwrite]
        obtain ⟨hok, -⟩ := prints_remark files quiet ("Dataset written to " ++ path)
          { session' with store }
        exact ⟨_, _, Prod.ext hok rfl, fun failure heq => by cases heq⟩
      · rw [hwrite]
        refine ⟨_, _, rfl, fun failure heq => Or.inr ⟨path, fault, rfl, ?_, hresult, hfault⟩⟩
        exact (Except.error.inj heq).symm

end Writing

/-! ### The outcome of a run -/

/-- **The dataset is what failed**: it was to be written after the tables, from the same inputs, and
the system did not take it. -/
def FileSystem.FailsAtDataset (files : FileSystem) (arguments : Arguments) (store after : Store)
    (failure : Failure) : Prop :=
  ∃ log map view path fault config records footprint,
    arguments.task = .tabulate log map view (some path) ∧ failure = .unwritable path fault ∧
    files.configuration? store arguments = .ok config ∧
    files.inputs? store config log map = some (records, footprint) ∧
    files.Presented store (.ofInputs config records footprint) view after ∧
    (files.write after path (Text.encode (Dataset.ofRecords config.clock config.reference
      (records.getD []) footprint).toText.toList)).1 = .error fault

theorem Failure.IsUnread.exitCode_eq {failure : Failure} (h : failure.IsUnread) :
    (Ending.failure failure).exitCode = 1 := by
  cases failure <;> first | rfl | exact h.elim

theorem FileSystem.FailsAtDataset.exitCode_eq {files : FileSystem} {arguments : Arguments}
    {store after : Store} {failure : Failure}
    (h : files.FailsAtDataset arguments store after failure) :
    (Ending.failure failure).exitCode = 1 := by
  obtain ⟨_, _, _, path, fault, _, _, _, _, rfl, _⟩ := h
  rfl

/-- The configuration a run works with is valid. -/
theorem validate_of_configuration? {files : FileSystem} {store : Store} {arguments : Arguments}
    {config : Config} (h : files.configuration? store arguments = .ok config) :
    config.validate = .ok () := by
  unfold FileSystem.configuration? at h
  cases htaken : files.taken? store arguments.config with
  | error fault => simp [htaken, bind, Except.bind] at h
  | ok taken =>
    cases hvalid : (arguments.adjust taken).validate with
    | error fault => simp [htaken, hvalid, bind, Except.bind] at h
    | ok =>
      simp only [htaken, hvalid, bind, Except.bind, pure, Except.pure] at h
      rwa [← Except.ok.inj h]

section Run

variable {files : FileSystem} {arguments : Arguments} {store : Store} {config : Config}

/-- Without a configuration a run stops at once. -/
theorem run_of_configuration?_error {fault : ConfigFault}
    (hconfig : files.configuration? store arguments = .error fault) :
    ∃ warnings, files.run arguments store =
      (.failure (.config fault), (Session.start store).warned warnings) := by
  obtain ⟨warnings, hsettle⟩ := exists_runIn_settle files arguments (.start store)
  refine ⟨warnings, ?_⟩
  rw [FileSystem.run_eq, @perform_eq SessionM _ files.host, StepT.runIn_bind, hsettle]
  simp only [Session.start, hconfig, Except.mapError]

/-- A run that shows its configuration prints it and does nothing else. -/
theorem run_dumpConfig (hconfig : files.configuration? store arguments = .ok config)
    (htask : arguments.task = .dumpConfig) : ∃ warnings, files.run arguments store =
      match config.render? with
      | .ok text => (.success, ⟨store, [text], warnings⟩)
      | .error fault => (.failure (.config fault), ⟨store, [], warnings⟩) := by
  obtain ⟨warnings, hsettle⟩ := exists_runIn_settle files arguments (.start store)
  refine ⟨warnings, ?_⟩
  rw [FileSystem.run_eq, @perform_eq SessionM _ files.host, StepT.runIn_bind, hsettle]
  simp only [Session.start, hconfig, htask, Except.mapError]
  cases config.render? <;> rfl

section Tabulate

variable (hconfig : files.configuration? store arguments = .ok config) {log : String}
  {map dataset : Option String} {view : View}
  (htask : arguments.task = .tabulate log map view dataset)
include hconfig htask

/-- A run whose tag is refused stops before it reads its inputs. -/
theorem run_of_tagRefusal? {reason : String}
    (hrefusal : files.tagRefusal? config.logTag = some reason) :
    ∃ warnings, files.run arguments store =
      (.failure (.config (.refusedTag reason)), (Session.start store).warned warnings) := by
  obtain ⟨warnings, hsettle⟩ := exists_runIn_settle files arguments (.start store)
  obtain ⟨tag, -, htag, -⟩ := Config.exists_tag_catalog (validate_of_configuration? hconfig)
  refine ⟨warnings, ?_⟩
  rw [FileSystem.run_eq, @perform_eq SessionM _ files.host, StepT.runIn_bind, hsettle]
  simp only [Session.start, hconfig, htask, Except.mapError]
  rw [StepT.runIn_bind, runIn_searchTag files htag, hrefusal]

/-- A run that makes tables can fail at its inputs, at its report and at its dataset. -/
theorem exists_run_tabulate (h : files.IsReliable)
    (hrewrite : ∀ path, view = .report path → files.CanRewrite store path)
    (hrefusal : files.tagRefusal? config.logTag = none) : ∃ ending session,
      files.run arguments store = (ending, session) ∧ (ending = .success ∨ ∃ failure,
        ending = .failure failure ∧ (failure.IsUnread ∧ session.store = store ∨
          files.FailsAtDataset arguments store session.store failure)) := by
  obtain ⟨warnings, hsettle⟩ := exists_runIn_settle files arguments (.start store)
  obtain ⟨tag, catalog, htag, hcatalog⟩ :=
    Config.exists_tag_catalog (validate_of_configuration? hconfig)
  obtain ⟨result, more, hgather, hresult⟩ :=
    reads_gather files ((Session.start store).warned warnings) htag hcatalog log map
  rw [FileSystem.run_eq, @perform_eq SessionM _ files.host, StepT.runIn_bind, hsettle]
  simp only [Session.start] at hgather ⊢
  simp only [hconfig, htask, Except.mapError]
  rw [StepT.runIn_bind, runIn_searchTag files htag, hrefusal]
  dsimp only
  rw [StepT.runIn_bind, hgather]
  cases result with
  | error failure => exact ⟨_, _, rfl, Or.inr ⟨failure, rfl, Or.inl ⟨hresult, rfl⟩⟩⟩
  | ok inputs =>
    obtain ⟨records, footprint⟩ := inputs
    have hrewrite' : ∀ path, view = .report path → files.CanRewrite
      (((Session.mk store [] []).warned warnings).warned more).store path := hrewrite
    obtain ⟨result, session', hpublish, hfails⟩ :=
      exists_runIn_publish h hrewrite' arguments.quiet config records footprint dataset
    dsimp only
    rw [hpublish]
    cases result with
    | ok => exact ⟨_, _, rfl, Or.inl rfl⟩
    | error failure =>
      refine ⟨_, _, rfl, Or.inr ⟨failure, rfl, ?_⟩⟩
      rcases hfails failure rfl with hunread | ⟨path, fault, rfl, hfailure, hpresented, hwrite⟩
      · exact Or.inl hunread
      · exact Or.inr ⟨log, map, view, path, fault, config, records, footprint, htask, hfailure,
          hconfig, hresult, hpresented, hwrite⟩

end Tabulate

/-- **A rejected configuration** is all that such a run comes to. -/
theorem run_of_rejects (h : files.Rejects store arguments) : ∃ fault warnings,
    files.run arguments store =
      (.failure (.config fault), (Session.start store).warned warnings) := by
  rcases h with hfault | ⟨hconfig, htask, hrender⟩ | ⟨hconfig, htask, hrefusal⟩
  · exact ⟨_, run_of_configuration?_error hfault⟩
  · obtain ⟨warnings, hrun⟩ := run_dumpConfig hconfig htask
    rw [hrender] at hrun
    exact ⟨_, warnings, hrun⟩
  · exact ⟨_, run_of_tagRefusal? hconfig htask hrefusal⟩

/-- **A configuration that is not rejected** can be shown without a failure, or tables can be made
with it. -/
theorem exists_run_of_not_rejects (h : files.IsReliable)
    (hrewrite : ∀ log map path dataset, arguments.task = .tabulate log map (.report path) dataset →
      files.CanRewrite store path)
    (haccepts : ¬files.Rejects store arguments) : ∃ ending session,
      files.run arguments store = (ending, session) ∧
      (arguments.task = .dumpConfig → session.store = store) ∧
      (ending = .success ∨ ∃ failure, ending = .failure failure ∧
        (failure.IsUnread ∧ session.store = store ∨
          files.FailsAtDataset arguments store session.store failure)) := by
  cases hconfig : files.configuration? store arguments with
  | error fault => exact absurd (.invalid hconfig) haccepts
  | ok config =>
    cases htask : arguments.task with
    | dumpConfig =>
      obtain ⟨warnings, hrun⟩ := run_dumpConfig hconfig htask
      cases hrender : config.render? with
      | error fault => exact absurd (.unrepresentable hconfig htask hrender) haccepts
      | ok text =>
        rw [hrender] at hrun
        exact ⟨_, _, hrun, fun _ => rfl, Or.inl rfl⟩
    | tabulate log map view dataset =>
      cases hrefusal : files.tagRefusal? config.logTag with
      | some reason => exact absurd (.refusedTag hconfig htask hrefusal) haccepts
      | none =>
        have hview : ∀ path, view = .report path → files.CanRewrite store path := by
          rintro path rfl
          exact hrewrite log map path dataset htask
        obtain ⟨ending, session, hrun, hending⟩ :=
          exists_run_tabulate hconfig htask h hview hrefusal
        exact ⟨ending, session, hrun, fun hdump => (by cases hdump), hending⟩

end Run

/-- **A run that fails keeps the files**, whatever the system refuses to read, to create and, but
for the report, to rewrite. It ends with the exit code of wrong usage exactly if the configuration
is rejected, and then it has changed no file and printed nothing; showing the configuration never
changes a file. If it ends with the other exit code for failures, then an input or the report could
not be read, and no file has changed; or the dataset could not be written, and then no file has
changed but the report, which holds the new tables. -/
theorem run_keeps_files {files : FileSystem} (h : files.IsReliable) (arguments : Arguments)
    (store : Store)
    (hrewrite : ∀ log map path dataset, arguments.task = .tabulate log map (.report path) dataset →
      files.CanRewrite store path) :
    let ending := (files.run arguments store).1
    let session := (files.run arguments store).2
    (ending.exitCode = 2 ↔ files.Rejects store arguments) ∧
      (ending.exitCode = 2 → session.store = store ∧ session.output = []) ∧
      (arguments.task = .dumpConfig → session.store = store) ∧
      (ending.exitCode = 1 → ∃ failure, ending = .failure failure ∧
        (failure.IsUnread ∧ session.store = store ∨
          files.FailsAtDataset arguments store session.store failure)) := by
  by_cases hrejects : files.Rejects store arguments
  · obtain ⟨fault, warnings, hrun⟩ := run_of_rejects hrejects
    rw [hrun]
    exact ⟨iff_of_true rfl hrejects, fun _ => ⟨rfl, rfl⟩, fun _ => rfl, fun hcode => by cases hcode⟩
  · obtain ⟨ending, session, hrun, hdump, hending⟩ :=
      exists_run_of_not_rejects h hrewrite hrejects
    rw [hrun]
    -- No failure behind the configuration is wrong usage.
    have hexit : ending.exitCode ≠ 2 := by
      rcases hending with rfl | ⟨failure, rfl, ⟨hunread, -⟩ | hdataset⟩
      · simp [Ending.exitCode]
      · simp [hunread.exitCode_eq]
      · simp [hdataset.exitCode_eq]
    refine ⟨iff_of_false hexit hrejects, fun hcode => (hexit hcode).elim, hdump, fun hcode => ?_⟩
    rcases hending with rfl | hfailure
    · cases hcode
    · exact hfailure

/-- A dataset that cannot be written, because there is no such directory, or because there is such a
file and it is protected. The log is empty, so the section of the report comes to hold a table of
headers, and it keeps that table when the dataset fails. -/
theorem run_keeps_files_unwritable :
    let arguments (dataset : String) : Arguments := ⟨none, none, none, false,
      .tabulate "run.log" none (.report "r.md") (some dataset)⟩
    let store : Store := ⟨[(⟨.above 0, ["run.log"]⟩, .file []), (⟨.above 0, ["d.json"]⟩, .file []),
      (⟨.above 0, ["r.md"]⟩,
        .file (Text.encode "<!-- STACK_TABLE_START -->\n<!-- STACK_TABLE_END -->".toList))]⟩
    let files := FileSystem.protecting ["d.json"]
    files.IsReliable ∧ files.CanRewrite store "r.md" ∧ files.read store "d.json" = .ok [] ∧
      ∀ refused ∈ [("out/d.json", FileFault.notFound),
          ("d.json", .other "Permission denied (os error 13)")],
        let run := files.run (arguments refused.1) store
        run.1 = .failure (.unwritable refused.1 refused.2) ∧
          ¬files.Rejects store (arguments refused.1) ∧
          files.FailsAtDataset (arguments refused.1) store run.2.store
            (.unwritable refused.1 refused.2) := by
  intro arguments store files
  have hreliable : files.IsReliable := FileSystem.isReliable_protecting _
  have hrewrite : files.CanRewrite store "r.md" := FileSystem.canRewrite_protecting (by decide) _
  have hendings : ∀ refused ∈ [("out/d.json", FileFault.notFound),
      ("d.json", .other "Permission denied (os error 13)")],
        (files.run (arguments refused.1) store).1 =
          .failure (.unwritable refused.1 refused.2) := by
    decide +kernel
  refine ⟨hreliable, hrewrite, by decide +kernel, fun refused hrefused => ?_⟩
  have hending := hendings refused hrefused
  obtain ⟨hrejects, -, -, hfails⟩ := run_keeps_files hreliable (arguments refused.1) store <| by
    rintro log map path dataset ⟨⟩
    exact hrewrite
  refine ⟨hending, fun h => ?_, ?_⟩
  · exact absurd (hrejects.2 h) (by simp [hending, Ending.exitCode])
  · obtain ⟨failure, hfailure, ⟨hunread, -⟩ | hdataset⟩ :=
      hfails (by simp [hending, Ending.exitCode])
    · obtain rfl : Failure.unwritable refused.1 refused.2 = failure := by
        simpa [hending] using hfailure
      exact hunread.elim
    · obtain rfl : Failure.unwritable refused.1 refused.2 = failure := by
        simpa [hending] using hfailure
      exact hdataset

end FirmwareReport
