import FirmwareReport.Proofs.Report.Rows
import FirmwareReport.Proofs.Run.FileSystem

/-!
# A quiet run

A quiet run leaves out remarks and does everything else. Two runs that differ in that alone are
followed side by side, over any system of files. The invariant is that their sessions differ in what
was printed alone, and that the quiet one has printed some of the lines of the other, in order
(`FirmwareReport.Session.Thins`). A step of the one and a step of the other keep it and come to the
same value or failure (`FirmwareReport.StepT.Thins`), and so do steps one after the other
(`FirmwareReport.StepT.Thins.bind`). No step but a remark knows whether the run is quiet.
-/

namespace FirmwareReport

/-! ### Two sessions -/

/-- **A session like another that has printed more**: the same files and warnings, and some of the
same lines in the same order. -/
structure Session.Thins (quiet loud : Session) : Prop where
  store : quiet.store = loud.store
  warnings : quiet.warnings = loud.warnings
  output : quiet.output.Sublist loud.output
  /-- Whatever is printed ends its line. -/
  lines : ∀ text ∈ loud.output, ∃ line, text = line ++ "\n"

/-! ### Two steps -/

/-- **A step like another that may print more.** Both go through with the same value or stop with
the same failure. -/
def StepT.Thins {α : Type} (quiet loud : StepT SessionM α) : Prop :=
  ∀ ⦃s t : Session⦄, s.Thins t →
    (quiet.runIn s).1 = (loud.runIn t).1 ∧ (quiet.runIn s).2.Thins (loud.runIn t).2

namespace StepT.Thins

variable {α β : Type}

/-- A step that leaves the session alone. -/
theorem of_runIn_eq {step : StepT SessionM α} {result : Except Failure α}
    (h : ∀ session, step.runIn session = (result, session)) : step.Thins step := by
  intro s t hthin
  rw [h s, h t]
  exact ⟨rfl, hthin⟩

/-- **Steps one after the other.** -/
theorem bind {quiet loud : StepT SessionM α} {next next' : α → StepT SessionM β}
    (h : quiet.Thins loud) (hnext : ∀ a, (next a).Thins (next' a)) :
    (quiet >>= next).Thins (loud >>= next') := by
  intro s t hthin
  obtain ⟨hresult, hthin⟩ := h hthin
  rw [StepT.runIn_bind, StepT.runIn_bind]
  rcases hs : quiet.runIn s with ⟨result, s'⟩
  rcases ht : loud.runIn t with ⟨result', t'⟩
  rw [hs, ht] at hresult hthin
  obtain rfl : result = result' := hresult
  cases result with
  | error failure => exact ⟨rfl, hthin⟩
  | ok a => exact hnext a hthin

theorem pure (a : α) : StepT.Thins (Pure.pure a : StepT SessionM α) (Pure.pure a) :=
  of_runIn_eq fun _ => rfl

theorem throw (failure : Failure) :
    StepT.Thins (MonadExcept.throw failure : StepT SessionM α) (MonadExcept.throw failure) :=
  @of_runIn_eq _ _ (.error failure) fun _ => rfl

theorem ofExcept (result : Except Failure α) :
    StepT.Thins (StepT.ofExcept result : StepT SessionM α) (StepT.ofExcept result) :=
  of_runIn_eq fun _ => rfl

/-- Such steps for all of some items, in turn. -/
theorem forM {items : List α} {step step' : α → StepT SessionM Unit}
    (h : ∀ item, (step item).Thins (step' item)) : (items.forM step).Thins (items.forM step') := by
  induction items with
  | nil => exact pure ()
  | cons item items ih => exact (h item).bind fun _ => ih

end StepT.Thins

/-! ### What a run is made of -/

section Steps

variable (files : FileSystem)

theorem thins_readFile (path : String) :
    StepT.Thins (ExceptT.lift (@Host.readFile SessionM files.host path))
      (ExceptT.lift (@Host.readFile SessionM files.host path)) := by
  intro s t hthin
  refine ⟨?_, hthin⟩
  change Except.ok (files.read s.store path) = Except.ok (files.read t.store path)
  rw [hthin.store]

theorem thins_warn (warning : Warning) :
    StepT.Thins (@warn SessionM _ files.host warning) (@warn SessionM _ files.host warning) :=
  fun _ _ hthin => ⟨rfl, hthin.store, congrArg (· ++ [warning]) hthin.warnings, hthin.output,
    hthin.lines⟩

theorem thins_writeFile (path : String) (contents : List UInt8) :
    StepT.Thins (ExceptT.lift (@Host.writeFile SessionM files.host path contents))
      (ExceptT.lift (@Host.writeFile SessionM files.host path contents)) := by
  intro s t hthin
  have h : files.write s.store path contents = files.write t.store path contents := by
    rw [hthin.store]
  refine ⟨?_, congrArg (·.2) h, hthin.warnings, hthin.output, hthin.lines⟩
  change Except.ok (files.write s.store path contents).1 =
    Except.ok (files.write t.store path contents).1
  rw [h]

/-- A line that both print. -/
theorem thins_printLine (text : String) :
    StepT.Thins (@printLine SessionM _ files.host text)
      (@printLine SessionM _ files.host text) := by
  intro s t hthin
  refine ⟨rfl, hthin.store, hthin.warnings, hthin.output.append (List.Sublist.refl _), ?_⟩
  exact fun line hline => (List.mem_append.1 hline).elim (hthin.lines line) fun h =>
    ⟨text, List.mem_singleton.1 h⟩

/-- **A line that only one of them prints.** -/
theorem thins_remark (text : String) :
    StepT.Thins (@remark SessionM _ files.host true text)
      (@remark SessionM _ files.host false text) := by
  intro s t hthin
  refine ⟨rfl, hthin.store, hthin.warnings, ?_, ?_⟩
  · exact hthin.output.trans (List.sublist_append_left _ _)
  · exact fun line hline => (List.mem_append.1 hline).elim (hthin.lines line) fun h =>
      ⟨text, List.mem_singleton.1 h⟩

theorem thins_warnIdle (names : List String) :
    StepT.Thins (@warnIdle SessionM _ files.host names) (@warnIdle SessionM _ files.host names) :=
  .forM fun name => thins_warn files (.idleCategory name)

theorem thins_readText (path : String) :
    StepT.Thins (@readText SessionM _ files.host path) (@readText SessionM _ files.host path) := by
  refine (thins_readFile files path).bind fun result => ?_
  cases result with
  | error fault => exact .pure _
  | ok contents =>
    dsimp only
    cases Text.decode? contents <;> exact .pure _

theorem thins_readInput (role : Role) (path : String) :
    StepT.Thins (@readInput SessionM _ files.host role path)
      (@readInput SessionM _ files.host role path) := by
  refine (thins_readFile files path).bind fun result => ?_
  cases result with
  | ok contents => exact .pure _
  | error fault =>
    have hmissing := (thins_warn files (.inputMissing path)).bind fun _ =>
      StepT.Thins.pure (none : Option (List UInt8))
    cases role with
    | optional =>
      cases fault
      case notFound => exact hmissing
      all_goals exact (thins_warn files _).bind fun _ => .pure _
    | required =>
      cases fault
      case notFound => exact hmissing
      all_goals exact .throw _

theorem thins_writeOut (path text : String) :
    StepT.Thins (@writeOut SessionM _ files.host path text)
      (@writeOut SessionM _ files.host path text) := by
  refine (thins_writeFile files path _).bind fun result => ?_
  cases result with
  | ok => exact .pure ()
  | error fault => exact .throw _

theorem thins_loadConfig (path : String) :
    StepT.Thins (@loadConfig SessionM _ files.host path)
      (@loadConfig SessionM _ files.host path) := by
  refine (thins_readText files path).bind fun result => ?_
  cases result with
  | error fault => exact .throw _
  | ok text =>
    refine (thins_warnIdle files _).bind fun _ => ?_
    cases Config.parse text with
    | error fault => exact .throw _
    | ok config => exact .pure config

theorem thins_takeConfig (source : Option String) :
    StepT.Thins (@takeConfig SessionM _ files.host source)
      (@takeConfig SessionM _ files.host source) := by
  cases source with
  | none => exact .pure _
  | some path => exact thins_loadConfig files path

theorem thins_settle (arguments : Arguments) :
    StepT.Thins (@settle SessionM _ files.host arguments)
      (@settle SessionM _ files.host arguments) := by
  rw [@settle_eq SessionM _ files.host]
  exact (thins_takeConfig files _).bind fun config => (thins_warnIdle files _).bind fun _ =>
    (StepT.Thins.ofExcept _).bind fun _ => .pure _

theorem thins_updateReport (path : String) (tables : Tables) :
    StepT.Thins (@updateReport SessionM _ files.host path tables)
      (@updateReport SessionM _ files.host path tables) := by
  refine (thins_readText files path).bind fun result => ?_
  cases result with
  | error fault => exact .throw _
  | ok report =>
    refine .bind (.forM fun name => thins_warn files (.sectionMissing name)) fun _ => ?_
    dsimp only
    split
    · exact (thins_writeOut files path _).bind fun _ => .pure _
    · exact .pure _

theorem thins_present (config : Config) (records : Option (List Record))
    (footprint : Option Footprint) (view : View) :
    StepT.Thins (@present SessionM _ files.host true config records footprint view)
      (@present SessionM _ files.host false config records footprint view) := by
  unfold present
  cases view with
  | report path =>
    exact (thins_updateReport files path _).bind fun result =>
      (thins_remark files _).bind fun _ => .forM fun name => thins_remark files _
  | markdown => exact .forM fun table => thins_printLine files _
  | console =>
    dsimp only
    split
    on_goal 1 =>
      refine (thins_remark files _).bind fun _ => (thins_remark files _).bind fun _ =>
        (thins_printLine files _).bind fun _ => ?_
    -- With or without results, the table of the footprint comes last, if there is one.
    all_goals
      cases footprint with
      | none => exact .pure ()
      | some footprint => exact thins_printLine files _

theorem thins_loadRecords (tag : Log.Tag) (path : String) :
    StepT.Thins (@loadRecords SessionM _ files.host tag path)
      (@loadRecords SessionM _ files.host tag path) :=
  (thins_readInput files .required path).bind fun _ => .pure _

theorem thins_loadFootprint (catalog : Catalog) (path : String) :
    StepT.Thins (@loadFootprint SessionM _ files.host catalog path)
      (@loadFootprint SessionM _ files.host catalog path) := by
  refine (thins_readInput files .optional path).bind fun contents => ?_
  cases contents with
  | none => exact .pure _
  | some contents =>
    dsimp only
    cases Footprint.ofMap catalog contents none with
    | error message => exact .throw _
    | ok footprint => exact .pure _

theorem thins_loadMap (catalog : Catalog) (map : Option String) :
    StepT.Thins (@loadMap SessionM _ files.host catalog map)
      (@loadMap SessionM _ files.host catalog map) := by
  cases map with
  | none => exact .pure _
  | some path => exact thins_loadFootprint files catalog path

theorem thins_warnEmpty (log : String) (records : Option (List Record)) :
    StepT.Thins (@warnEmpty SessionM _ files.host log records)
      (@warnEmpty SessionM _ files.host log records) := by
  unfold warnEmpty
  split_ifs
  · exact thins_warn files _
  · exact .pure ()

theorem thins_tagRefusal? (tag : String) :
    StepT.Thins (ExceptT.lift (@Host.tagRefusal? SessionM files.host tag))
      (ExceptT.lift (@Host.tagRefusal? SessionM files.host tag)) :=
  fun _ _ hthin => ⟨rfl, hthin⟩

theorem thins_searchTag (config : Config) :
    StepT.Thins (@searchTag SessionM _ files.host config)
      (@searchTag SessionM _ files.host config) := by
  refine (StepT.Thins.ofExcept _).bind fun tag => ?_
  refine (thins_tagRefusal? files config.logTag).bind fun refusal => ?_
  cases refusal with
  | some reason => exact .throw _
  | none => exact .pure tag

theorem thins_gather (config : Config) (tag : Log.Tag) (log : String) (map : Option String) :
    StepT.Thins (@gather SessionM _ files.host config tag log map)
      (@gather SessionM _ files.host config tag log map) :=
  (thins_warnIdle files _).bind fun _ =>
    (StepT.Thins.ofExcept _).bind fun catalog => (thins_loadRecords files tag log).bind
    fun records => (thins_warnEmpty files log records).bind fun _ =>
    (thins_loadMap files catalog map).bind fun _ => .pure _

/-- The outputs of a quiet run lack remarks. -/
theorem thins_publish (config : Config) (records : Option (List Record))
    (footprint : Option Footprint) (view : View) (dataset : Option String) :
    StepT.Thins (@publish SessionM _ files.host true config records footprint view dataset)
      (@publish SessionM _ files.host false config records footprint view dataset) := by
  refine (thins_present files config records footprint view).bind fun _ => ?_
  cases dataset with
  | none => exact .pure ()
  | some path => exact (thins_writeOut files path _).bind fun _ => thins_remark files _

end Steps

/-! ### Two runs -/

/-- What is printed first comes first. -/
theorem foldl_append_cons (text : String) (texts : List String) :
    (text :: texts).foldl (· ++ ·) "" = text ++ texts.foldl (· ++ ·) "" := by
  rw [List.foldl_cons, String.empty_append]
  conv_lhs => rw [← String.append_empty (s := text)]
  exact List.foldl_assoc

/-- A line break ends a line. -/
theorem linesOf_append (line rest : String) :
    linesOf (line ++ "\n" ++ rest) = linesOf line ++ linesOf rest := by
  have hbreak : (line ++ "\n" ++ rest).toList = line.toList ++ '\n' :: rest.toList := by
    simp [String.toList_append]
  rw [linesOf, hbreak, List.splitOn_append_cons_self]
  rfl

/-- **Lines left out are left out of the text.** -/
theorem linesOf_sublist {quiet loud : List String} (h : quiet.Sublist loud)
    (hlines : ∀ text ∈ loud, ∃ line, text = line ++ "\n") :
    (linesOf (quiet.foldl (· ++ ·) "")).Sublist (linesOf (loud.foldl (· ++ ·) "")) := by
  induction h with
  | slnil => exact List.Sublist.refl _
  | @cons quiet loud text _ ih =>
    obtain ⟨⟨line, rfl⟩, hmore⟩ := List.forall_mem_cons.1 hlines
    rw [foldl_append_cons, linesOf_append]
    exact (ih hmore).trans (List.sublist_append_right _ _)
  | @cons_cons quiet loud text _ ih =>
    obtain ⟨⟨line, rfl⟩, hmore⟩ := List.forall_mem_cons.1 hlines
    rw [foldl_append_cons, foldl_append_cons, linesOf_append, linesOf_append]
    exact (List.Sublist.refl _).append (ih hmore)

/-- **A quiet run prints less and is the same otherwise**, over any system of files and from any
store: it ends the same way, with the same files and the same warnings, and the lines it prints are
some of the lines of the other run, in their order. -/
theorem run_quiet (files : FileSystem) (arguments : Arguments) (store : Store) :
    let quiet := files.run { arguments with quiet := true } store
    let loud := files.run { arguments with quiet := false } store
    quiet.1 = loud.1 ∧ quiet.2.store = loud.2.store ∧ quiet.2.warnings = loud.2.warnings ∧
      (linesOf quiet.2.printed).Sublist (linesOf loud.2.printed) := by
  intro quiet loud
  cases htask : arguments.task with
  | dumpConfig =>
    -- Nothing that shows the configuration looks at the flag.
    have heq : quiet = loud := by
      simp only [quiet, loud, FileSystem.run, Arguments.run, perform, htask]
      rfl
    rw [heq]
    exact ⟨rfl, rfl, rfl, List.Sublist.refl _⟩
  | tabulate log map view dataset =>
    have hthin : StepT.Thins (@perform SessionM _ files.host { arguments with quiet := true })
        (@perform SessionM _ files.host { arguments with quiet := false }) := by
      rw [@perform_eq SessionM _ files.host, @perform_eq SessionM _ files.host]
      simp only [htask]
      exact (thins_settle files _).bind fun config =>
        (thins_searchTag files config).bind fun tag =>
        (thins_gather files config tag log map).bind fun inputs =>
        thins_publish files config inputs.1 inputs.2 view dataset
    have hstart : (Session.start store).Thins (.start store) :=
      ⟨rfl, rfl, List.Sublist.refl _, by simp [Session.start]⟩
    obtain ⟨hresult, hsession⟩ := hthin hstart
    have hlines := linesOf_sublist hsession.output hsession.lines
    simp only [quiet, loud, FileSystem.run_eq]
    rcases hquiet : StepT.runIn (@perform SessionM _ files.host { arguments with quiet := true })
      (.start store) with ⟨result, session⟩
    rcases hloud : StepT.runIn (@perform SessionM _ files.host { arguments with quiet := false })
      (.start store) with ⟨result', session'⟩
    rw [hquiet, hloud] at hresult hsession hlines
    obtain rfl : result = result' := hresult
    rcases result with failure | ⟨⟩ <;>
      exact ⟨rfl, hsession.store, hsession.warnings, hlines⟩

end FirmwareReport
