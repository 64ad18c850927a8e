import FirmwareReport.Run.Steps
import FirmwareReport.Proofs.Files.Store
import FirmwareReport.Proofs.Report.Interference
import FirmwareReport.Proofs.Text.Utf8

/-!
# Updating a report

A step in a session is a function of the session (`FirmwareReport.StepT.runIn`), and steps one
after the other are evaluated one after the other (`FirmwareReport.StepT.runIn_bind`). So the update
of a report comes to a case distinction: on what is read, on whether the tables change it, and on
what becomes of the write (`FirmwareReport.runIn_updateReport`). After an update that goes through,
the file has the text of the result (`FirmwareReport.exists_of_updateReport`).

To tell a write from no write, files may be written in any way at all here
(`FirmwareReport.Session.hostWith`).
-/

namespace FirmwareReport

/-! ### Steps in a session -/

/-- What a step comes to in a session. -/
def StepT.runIn {α : Type} (step : StepT SessionM α) (session : Session) :
    Except Failure α × Session :=
  step.run session

section Steps

variable {α β : Type} {session : Session}

theorem StepT.runIn_pure (a : α) : (pure a : StepT SessionM α).runIn session = (.ok a, session) :=
  rfl

theorem StepT.runIn_bind (step : StepT SessionM α) (next : α → StepT SessionM β) :
    (step >>= next).runIn session = match step.runIn session with
      | (.ok a, session') => (next a).runIn session'
      | (.error failure, session') => (.error failure, session') := by
  have h : (step >>= next).runIn session =
      ExceptT.bindCont next (step.runIn session).1 (step.runIn session).2 := rfl
  rw [h]
  cases step.runIn session with
  | mk result session' => cases result <;> rfl

end Steps

/-- A session in which files are written in a way of their own. -/
@[reducible] def Session.hostWith
    (write : String → List UInt8 → SessionM (Except FileFault Unit)) : Host SessionM :=
  { (inferInstance : Host SessionM) with writeFile := write }

/-- A session in which files are read and written in ways of their own, and tags refused. -/
@[reducible] def Session.hostOf (read : Store → String → Except FileFault (List UInt8))
    (write : String → List UInt8 → SessionM (Except FileFault Unit))
    (refuse : String → Option String) : Host SessionM :=
  { Session.hostWith write with
    readFile := fun path session => (read session.store path, session)
    tagRefusal? := fun tag => pure (refuse tag) }

/-- A session with more warnings. -/
def Session.warned (session : Session) (warnings : List Warning) : Session :=
  { session with warnings := session.warnings ++ warnings }

section Host

variable (read : Store → String → Except FileFault (List UInt8))
  (write : String → List UInt8 → SessionM (Except FileFault Unit))
  (refuse : String → Option String)

theorem runIn_forM_warn {α : Type} (warning : α → Warning) (names : List α) (session : Session) :
    StepT.runIn (names.forM fun name =>
      @warn SessionM _ (Session.hostOf read write refuse) (warning name)) session =
        (.ok (), session.warned (names.map warning)) := by
  induction names generalizing session with
  | nil => simp [Session.warned, StepT.runIn_pure]
  | cons name names ih =>
    have hwarn : StepT.runIn (@warn SessionM _ (Session.hostOf read write refuse) (warning name))
        session = (.ok (), session.warned [warning name]) := rfl
    rw [List.forM_eq_forM] at ih ⊢
    rw [List.forM_cons, StepT.runIn_bind, hwarn]
    dsimp only
    rw [ih]
    simp [Session.warned]

/-- The text that was read, if it is one. -/
def textOf : Except FileFault (List UInt8) → Except FileFault String
  | .error fault => .error fault
  | .ok contents =>
    match Text.decode? contents with
    | none => .error .notText
    | some text => .ok (String.ofList text)

/-- The text of a file, if it is one. -/
def Store.text (store : Store) (path : String) : Except FileFault String :=
  textOf (store.read path)

theorem runIn_readText (path : String) (session : Session) :
    StepT.runIn (@readText SessionM _ (Session.hostOf read write refuse) path) session =
      (.ok (textOf (read session.store path)), session) := by
  unfold readText
  rw [StepT.runIn_bind]
  have hread : StepT.runIn (ExceptT.lift
      (@Host.readFile SessionM (Session.hostOf read write refuse) path)) session =
        (.ok (read session.store path), session) := rfl
  rw [hread, textOf.eq_def]
  dsimp only
  cases read session.store path with
  | error fault => rfl
  | ok contents =>
    dsimp only
    cases Text.decode? contents <;> rfl

theorem runIn_writeOut (path text : String) (session : Session) :
    StepT.runIn (@writeOut SessionM _ (Session.hostOf read write refuse) path text) session =
      match write path (Text.encode text.toList) session with
      | (.ok (), session') => (.ok (), session')
      | (.error fault, session') => (.error (.unwritable path fault), session') := by
  have hwrite : StepT.runIn (ExceptT.lift
      (@Host.writeFile SessionM (Session.hostOf read write refuse) path
        (Text.encode text.toList))) session =
      (.ok (write path (Text.encode text.toList) session).1,
        (write path (Text.encode text.toList) session).2) := rfl
  unfold writeOut
  rw [StepT.runIn_bind, hwrite]
  rcases write path (Text.encode text.toList) session with ⟨_ | _, session'⟩ <;> rfl

/-- **An update of a report**, step by step: what is read, what is warned of, and what is written if
there is anything to write. -/
theorem runIn_updateReport_hostOf (path : String) (tables : Tables) (session : Session) :
    StepT.runIn (@updateReport SessionM _ (Session.hostOf read write refuse) path tables) session =
      match textOf (read session.store path) with
      | .error fault => (.error (.reportUnreadable path fault), session)
      | .ok report =>
        let result := tables.applyTo report
        let warned := session.warned (result.missing.map .sectionMissing)
        if result.text = report then (.ok result, warned)
        else
          match write path (Text.encode result.text.toList) warned with
          | (.ok (), session') => (.ok result, session')
          | (.error fault, session') => (.error (.unwritable path fault), session') := by
  unfold updateReport
  rw [StepT.runIn_bind, runIn_readText]
  dsimp only
  cases textOf (read session.store path) with
  | error fault => rfl
  | ok report =>
    dsimp only
    rw [StepT.runIn_bind, runIn_forM_warn]
    by_cases heq : (tables.applyTo report).text = report
    · simp only [heq, ne_eq, not_true_eq_false, if_false, if_true]
      rfl
    · simp only [heq, ne_eq, not_false_eq_true, if_true, if_false]
      rw [StepT.runIn_bind, runIn_writeOut]
      rcases write path (Text.encode (tables.applyTo report).text.toList)
        (session.warned ((tables.applyTo report).missing.map .sectionMissing)) with
        ⟨_ | _, session'⟩ <;> rfl

/-- An update of a report in a store, which reads what the store has. -/
theorem runIn_updateReport (path : String) (tables : Tables) (session : Session) :
    StepT.runIn (@updateReport SessionM _ (Session.hostWith write) path tables) session =
      match session.store.text path with
      | .error fault => (.error (.reportUnreadable path fault), session)
      | .ok report =>
        let result := tables.applyTo report
        let warned := session.warned (result.missing.map .sectionMissing)
        if result.text = report then (.ok result, warned)
        else
          match write path (Text.encode result.text.toList) warned with
          | (.ok (), session') => (.ok result, session')
          | (.error fault, session') => (.error (.unwritable path fault), session') :=
  runIn_updateReport_hostOf Store.read write (fun _ => none) path tables session

end Host

/-! ### What an update leaves behind -/

/-- An empty report has no section. -/
theorem text_applyTo_empty (tables : Tables) : (tables.applyTo "").text = "" := by
  rw [← String.toList_inj, Tables.applyTo, toList_text_substitute]
  refine foldl_pass_eq_self fun table _ => ?_
  simp [startMarker]

/-- **A report that was written reads as the result.** -/
theorem text_of_write {store store' : Store} {path report : String} {tables : Tables}
    (htext : store.text path = .ok report)
    (hwrite : store.write path (Text.encode (tables.applyTo report).text.toList) = .ok store') :
    store'.text path = .ok (tables.applyTo report).text := by
  rcases Store.read_of_write hwrite with hread | ⟨rfl, hread⟩
  · simp [Store.text, textOf, hread]
  · -- A device reads as an empty report, which there is nothing to write to.
    have hempty : Text.decode? [] = some [] := rfl
    obtain rfl : "" = report := by simpa [Store.text, textOf, hread, hempty] using htext
    rw [htext, text_applyTo_empty]

/-- **After an update the file has the text of the result**, whether it was written or not. -/
theorem exists_of_updateReport {path : String} {tables : Tables} {session session' : Session}
    {result : Substitution}
    (h : StepT.runIn (updateReport path tables) session = (.ok result, session')) :
    ∃ report, session.store.text path = .ok report ∧ tables.applyTo report = result ∧
      session'.store.text path = .ok result.text := by
  have hrun : StepT.runIn (updateReport path tables) session = _ :=
    runIn_updateReport Host.writeFile path tables session
  rw [hrun] at h
  cases hreport : session.store.text path with
  | error fault => simp [hreport] at h
  | ok report =>
    simp only [hreport] at h
    by_cases heq : (tables.applyTo report).text = report
    · rw [if_pos heq] at h
      obtain ⟨rfl, rfl⟩ : tables.applyTo report = result ∧ _ = session' := by simpa using h
      exact ⟨report, rfl, rfl, hreport.trans (congrArg Except.ok heq.symm)⟩
    · rw [if_neg heq] at h
      -- The write of a session is that of its store.
      cases hwrite : session.store.write path (Text.encode (tables.applyTo report).text.toList) with
      | error fault => simp [Host.writeFile, Session.warned, hwrite] at h
      | ok store =>
        obtain ⟨rfl, rfl⟩ : tables.applyTo report = result ∧ _ = session' := by
          simpa [Host.writeFile, Session.warned, hwrite] using h
        exact ⟨report, rfl, rfl, text_of_write hreport hwrite⟩

end FirmwareReport
