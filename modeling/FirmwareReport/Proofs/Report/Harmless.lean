import FirmwareReport.Proofs.Benchmark.Keys
import FirmwareReport.Proofs.Report.Cells
import FirmwareReport.Proofs.Report.Interference

/-!
# Which names keep a second run from being a no-op

The tables of a report hold the names of the inputs, so a name may bring a marker into a table, and
then the next run finds it. What does no harm is `FirmwareReport.IsHarmless`, and nothing else is
harmless (`FirmwareReport.regenerates_iff_isHarmless`):

* the names of records have no marker of the tables of a log – these two hold the same names, so
  each has what is wrong in the other (`FirmwareReport.isPlain_of_isStable`);
* the names of modules have no marker, the opening one of their own table apart, and the tables of
  the log close the sections of that table (`FirmwareReport.isFilling_of_isStable`).

The last condition is on whole tables, since a section may begin in one row and end in another.
-/

namespace FirmwareReport

/-- The sections of the tables that are made of a log. -/
def logSections : List String := ["PERFORMANCE_TABLE", "STACK_TABLE"]

/-- The sections of a report, in the order of their passes. -/
def reportSections : List String := logSections ++ ["RESOURCE_TABLE"]

theorem isUnbracketed_of_mem_reportSections : ∀ name ∈ reportSections, IsUnbracketed name := by
  decide

theorem isCellMark_startMarker : ∀ name ∈ reportSections,
    IsCellMark (startMarker name).toList := by
  intro name hname
  have h : ∀ name ∈ reportSections,
      '|' ∉ (startMarker name).toList ∧ '\n' ∉ (startMarker name).toList := by decide
  have hmark := isMark_startMarker (isUnbracketed_of_mem_reportSections name hname)
  exact ⟨hmark, (h name hname).1, (h name hname).2⟩

theorem isCellMark_endMarker : ∀ name ∈ reportSections,
    IsCellMark (endMarker name).toList := by
  intro name hname
  have h : ∀ name ∈ reportSections,
      '|' ∉ (endMarker name).toList ∧ '\n' ∉ (endMarker name).toList := by decide
  have hmark := isMark_endMarker (isUnbracketed_of_mem_reportSections name hname)
  exact ⟨hmark, (h name hname).1, (h name hname).2⟩

theorem mem_reportSections_of_mem {name : String} (h : name ∈ logSections) :
    name ∈ reportSections :=
  List.mem_append_left _ h

/-! ### The tables of a log -/

/-- **The tables of a log**, if their run is stable, have no marker of each other and none of their
own: they hold the same markers, so that the first table has what would be wrong in the second one,
and the other way round. -/
theorem isPlain_of_isStable {performance stack : String}
    (hsame : ∀ {mark}, IsCellMark mark → (mark <:+: performance.toList ↔ mark <:+: stack.toList))
    (h : ∀ s, ¬(startMarker "RESOURCE_TABLE").toList <:+: s →
      IsStable [("PERFORMANCE_TABLE", performance), ("STACK_TABLE", stack)] s) :
    IsPlain logSections stack.toList := by
  obtain ⟨hfilling, hclosed⟩ := exclusions_of_isStable (by decide) (by decide) (by decide)
    (isMark_startMarker (by decide)) (by decide) h
  have hend : ∀ name ∈ logSections, ¬(endMarker name).toList <:+: performance.toList := by
    intro name hname
    rw [hsame (isCellMark_endMarker name (mem_reportSections_of_mem hname))]
    exact (hfilling name hname).2
  -- The first table closes the sections of the second one, but has no end for them.
  have hopening : ¬(startMarker "STACK_TABLE").toList <:+: stack.toList := by
    rw [← hsame (isCellMark_startMarker _ (by decide))]
    exact (hclosed (hend _ (by decide))).not_isInfix_startMarker (hend _ (by decide))
  intro name hname
  refine ⟨?_, (hfilling name hname).2⟩
  rcases eq_or_ne name "STACK_TABLE" with rfl | hne
  · exact hopening
  · exact (hfilling name hname).1 hne

/-! ### The table of a map -/

/-- The tables of a report, with the names of their sections. -/
def reportTables (performance stack resources : String) : List (String × String) :=
  [("PERFORMANCE_TABLE", performance), ("STACK_TABLE", stack), ("RESOURCE_TABLE", resources)]

theorem forall_mem_reportTables {performance stack resources : String}
    {p : String × String → Prop} : (∀ t ∈ reportTables performance stack resources, p t) ↔
      p ("PERFORMANCE_TABLE", performance) ∧ p ("STACK_TABLE", stack) ∧
        p ("RESOURCE_TABLE", resources) := by
  simp [reportTables]

theorem isUnbracketed_of_mem_reportTables {performance stack resources : String} :
    ∀ t ∈ reportTables performance stack resources, IsUnbracketed t.1 :=
  fun _ ht => isUnbracketed_of_mem_reportSections _ (List.mem_map_of_mem ht)

/-- The table of the map may be left out, if its section begins nowhere. -/
theorem isStable_log_of_reportTables {performance stack resources : String}
    (hperformance : ¬(startMarker "RESOURCE_TABLE").toList <:+: performance.toList)
    (hstack : ¬(startMarker "RESOURCE_TABLE").toList <:+: stack.toList) {s : List Char}
    (hs : ¬(startMarker "RESOURCE_TABLE").toList <:+: s)
    (h : IsStable (reportTables performance stack resources) s) :
    IsStable [("PERFORMANCE_TABLE", performance), ("STACK_TABLE", stack)] s := by
  have htables : ∀ t ∈ reportTables performance stack resources, t.1 ≠ "RESOURCE_TABLE" →
      ¬(startMarker "RESOURCE_TABLE").toList <:+: t.2.toList :=
    forall_mem_reportTables.2 ⟨fun _ => hperformance, fun _ => hstack, fun hne => absurd rfl hne⟩
  simpa [reportTables] using
    h.filter_ne isUnbracketed_of_mem_reportTables (Or.inl rfl) hs htables

section ReportTables

variable {performance stack resources : String}
  (hperformance : IsPlain logSections performance.toList)
  (hstack : IsPlain logSections stack.toList)
include hperformance hstack

/-- A table of the log may be left out, if the table of the map does not end its section. -/
theorem isStable_filter_reportTables {name : String} (hname : name ∈ logSections)
    (hresources : ¬(endMarker name).toList <:+: resources.toList) {s : List Char}
    (hs : ¬(endMarker name).toList <:+: s)
    (h : IsStable (reportTables performance stack resources) s) :
    IsStable ((reportTables performance stack resources).filter (·.1 ≠ name)) s := by
  refine h.filter_ne isUnbracketed_of_mem_reportTables (Or.inr rfl) hs ?_
  rw [forall_mem_reportTables]
  exact ⟨fun _ => (hperformance name hname).2, fun _ => (hstack name hname).2, fun _ => hresources⟩

/-- **The table of a map behind the tables of a log**, if their run is stable and these have no
marker of each other: it has no marker but its opening one, and these close its sections. -/
theorem isFilling_of_isStable (h : ∀ s, IsStable (reportTables performance stack resources) s) :
    IsFilling reportSections "RESOURCE_TABLE" resources.toList ∧
      IsClosed "RESOURCE_TABLE" performance.toList ∧ IsClosed "RESOURCE_TABLE" stack.toList := by
  have hend : ¬(endMarker "PERFORMANCE_TABLE").toList <:+: resources.toList := by
    have hstack : IsUnbracketed "STACK_TABLE" ∧ "STACK_TABLE" ≠ "PERFORMANCE_TABLE" ∧
        "STACK_TABLE" ≠ "RESOURCE_TABLE" := by decide
    have hbetween : ∀ t ∈ [("STACK_TABLE", stack)],
        IsUnbracketed t.1 ∧ t.1 ≠ "PERFORMANCE_TABLE" ∧ t.1 ≠ "RESOURCE_TABLE" :=
      List.forall_mem_singleton.2 hstack
    exact not_isInfix_endMarker_before (by decide) (by decide) (by decide) hbetween (h _)
  -- Now the performance table may be left out, and after that the stack table instead of it.
  have hlast : ∀ s, ¬(endMarker "PERFORMANCE_TABLE").toList <:+: s →
      IsStable [("STACK_TABLE", stack), ("RESOURCE_TABLE", resources)] s := fun s hs => by
    simpa [reportTables] using
      isStable_filter_reportTables hperformance hstack (by decide) hend hs (h s)
  obtain ⟨hfilling, hclosed⟩ := exclusions_of_isStable (by decide) (by decide) (by decide)
    (isMark_endMarker (by decide)) (by decide) hlast
  have hfirst : ∀ s, ¬(endMarker "STACK_TABLE").toList <:+: s →
      IsStable [("PERFORMANCE_TABLE", performance), ("RESOURCE_TABLE", resources)] s :=
    fun s hs => by
      simpa [reportTables] using isStable_filter_reportTables hperformance hstack (by decide)
        (hfilling _ (by decide)).2 hs (h s)
  obtain ⟨hfilling', hclosed'⟩ := exclusions_of_isStable (by decide) (by decide) (by decide)
    (isMark_endMarker (by decide)) (by decide) hfirst
  refine ⟨?_, hclosed' (hperformance _ (by decide)).2, hclosed (hstack _ (by decide)).2⟩
  obtain ⟨hname, -⟩ := List.forall_mem_cons.1 hfilling'
  exact List.forall_mem_cons.2 ⟨hname, hfilling⟩

end ReportTables

/-! ### Names and tables -/

/-- The performance table of some records. -/
def Config.performanceText (config : Config) (records : List Record) : String :=
  Markdown.performanceTable config.baselines config.reference config.clock
    (groups config.reference records)

/-- The stack table of some records. -/
def Config.stackText (config : Config) (records : List Record) : String :=
  Markdown.stackTable (firstSeen config.reference records)

/-- The resource table of a footprint. -/
def Config.resourceText (config : Config) (footprint : Footprint) : String :=
  Markdown.resourceTable config.flashCapacity config.ramCapacity footprint

/-- A key has a mark in one of its names. -/
def Key.HasMark (mark : List Char) (key : Key) : Prop :=
  mark <:+: key.algorithm.toList ∨ mark <:+: key.operation.toList

section Names

variable {config : Config} {records : List Record} {footprint : Footprint} {mark : List Char}

theorem isInfix_performanceText_iff (h : IsCellMark mark) :
    mark <:+: (config.performanceText records).toList ↔
      ∃ record ∈ records, record.key.HasMark mark :=
  (isInfix_performanceTable_iff h).trans (exists_mem_groups_iff (p := Key.HasMark mark))

theorem isInfix_stackText_iff (h : IsCellMark mark) :
    mark <:+: (config.stackText records).toList ↔ ∃ record ∈ records, record.key.HasMark mark :=
  (isInfix_stackTable_iff h).trans (exists_mem_firstSeen_iff (p := Key.HasMark mark))

/-- The two tables of a log hold the same marks. -/
theorem isInfix_performanceText_iff_stackText (h : IsCellMark mark) :
    mark <:+: (config.performanceText records).toList ↔
      mark <:+: (config.stackText records).toList := by
  rw [isInfix_stackText_iff h, isInfix_performanceText_iff h]

theorem isPlain_iff_forall_records {table : String}
    (h : ∀ {mark}, IsCellMark mark →
      (mark <:+: table.toList ↔ ∃ record ∈ records, record.key.HasMark mark)) :
    IsPlain logSections table.toList ↔ ∀ record ∈ records,
      IsPlain logSections record.algorithm.toList ∧
        IsPlain logSections record.operation.toList := by
  constructor
  · intro htable record hrecord
    have hmark : ∀ {mark}, IsCellMark mark → ¬mark <:+: table.toList →
        ¬mark <:+: record.algorithm.toList ∧ ¬mark <:+: record.operation.toList :=
      fun hmark hnot => not_or.1 fun hin => hnot ((h hmark).2 ⟨record, hrecord, hin⟩)
    refine ⟨fun name hname => ?_, fun name hname => ?_⟩ <;>
      have hstart := hmark (isCellMark_startMarker name (mem_reportSections_of_mem hname))
        (htable name hname).1 <;>
      have hend := hmark (isCellMark_endMarker name (mem_reportSections_of_mem hname))
        (htable name hname).2
    · exact ⟨hstart.1, hend.1⟩
    · exact ⟨hstart.2, hend.2⟩
  · intro hrecords name hname
    have hname' := mem_reportSections_of_mem hname
    constructor
    · rw [h (isCellMark_startMarker name hname')]
      rintro ⟨record, hrecord, hin | hin⟩
      · exact ((hrecords record hrecord).1 name hname).1 hin
      · exact ((hrecords record hrecord).2 name hname).1 hin
    · rw [h (isCellMark_endMarker name hname')]
      rintro ⟨record, hrecord, hin | hin⟩
      · exact ((hrecords record hrecord).1 name hname).2 hin
      · exact ((hrecords record hrecord).2 name hname).2 hin

theorem isPlain_performanceText_iff :
    IsPlain logSections (config.performanceText records).toList ↔ ∀ record ∈ records,
      IsPlain logSections record.algorithm.toList ∧ IsPlain logSections record.operation.toList :=
  isPlain_iff_forall_records fun h => isInfix_performanceText_iff h

theorem isPlain_stackText_iff :
    IsPlain logSections (config.stackText records).toList ↔ ∀ record ∈ records,
      IsPlain logSections record.algorithm.toList ∧ IsPlain logSections record.operation.toList :=
  isPlain_iff_forall_records fun h => isInfix_stackText_iff h

theorem isFilling_resourceText_iff :
    IsFilling reportSections "RESOURCE_TABLE" (config.resourceText footprint).toList ↔
      ∀ usage ∈ footprint.modules, IsFilling reportSections "RESOURCE_TABLE" usage.name.toList := by
  have hstart : ∀ name ∈ reportSections,
      ((startMarker name).toList <:+: (config.resourceText footprint).toList ↔ _) :=
    fun name hname => isInfix_resourceTable_iff (isCellMark_startMarker name hname)
  have hend : ∀ name ∈ reportSections,
      ((endMarker name).toList <:+: (config.resourceText footprint).toList ↔ _) :=
    fun name hname => isInfix_resourceTable_iff (isCellMark_endMarker name hname)
  constructor
  · intro htable usage husage name hname
    obtain ⟨hopening, hclosing⟩ := htable name hname
    rw [hstart name hname] at hopening
    rw [hend name hname] at hclosing
    exact ⟨fun hne hin => hopening hne ⟨usage, husage, hin⟩,
      fun hin => hclosing ⟨usage, husage, hin⟩⟩
  · intro hmodules name hname
    rw [hstart name hname, hend name hname]
    constructor
    · rintro hne ⟨usage, husage, hin⟩
      exact (hmodules usage husage name hname).1 hne hin
    · rintro ⟨usage, husage, hin⟩
      exact (hmodules usage husage name hname).2 hin

/-! ### The second run -/

/-- A second run over the same tables leaves every report as the first one has made it. -/
def Tables.Regenerates (tables : Tables) : Prop :=
  ∀ report : String,
    (tables.applyTo (tables.applyTo report).text).text = (tables.applyTo report).text

theorem Tables.regenerates_iff {tables : Tables} :
    tables.Regenerates ↔ ∀ s, IsStable tables.named s := by
  constructor
  · intro h s
    have hs := h (String.ofList s)
    rw [← String.toList_inj] at hs
    simpa only [applyTo, toList_text_substitute, String.toList_ofList, IsStable] using hs
  · intro h report
    rw [← String.toList_inj]
    simpa only [applyTo, toList_text_substitute, IsStable] using h report.toList

theorem named_ofInputs_log : (Tables.ofInputs config (some records) none).named =
    [("PERFORMANCE_TABLE", config.performanceText records),
      ("STACK_TABLE", config.stackText records)] := rfl

theorem named_ofInputs : (Tables.ofInputs config (some records) (some footprint)).named =
    reportTables (config.performanceText records) (config.stackText records)
      (config.resourceText footprint) := rfl

/-- **Names that do no harm.** A section whose pass comes later may be begun in a table, as long as
the table ends it as well. -/
structure IsHarmless (config : Config) (records : List Record) (footprint : Footprint) : Prop where
  /-- No name of a record has a marker of the tables of a log. -/
  names : ∀ record ∈ records, IsPlain logSections record.algorithm.toList ∧
    IsPlain logSections record.operation.toList
  /-- No name of a module has a marker, the opening one of its own table apart. -/
  modules : ∀ usage ∈ footprint.modules,
    IsFilling reportSections "RESOURCE_TABLE" usage.name.toList
  /-- The tables of a log close the sections of the table of a map. -/
  closed : IsClosed "RESOURCE_TABLE" (config.performanceText records).toList ∧
    IsClosed "RESOURCE_TABLE" (config.stackText records).toList

/-- What the log alone asks of its names. -/
theorem Tables.Regenerates.isPlain (h : (Tables.ofInputs config (some records) none).Regenerates) :
    ∀ record ∈ records, IsPlain logSections record.algorithm.toList ∧
      IsPlain logSections record.operation.toList := by
  have htwice := Tables.regenerates_iff.1 h
  rw [named_ofInputs_log] at htwice
  rw [← @isPlain_stackText_iff config]
  exact isPlain_of_isStable (fun h => isInfix_performanceText_iff_stackText h) fun s _ => htwice s

/-- The same if the map brings in its table, but the log no section of it. -/
theorem Tables.Regenerates.isPlain_of_noOpening
    (h : (Tables.ofInputs config (some records) (some footprint)).Regenerates)
    (hnone : ∀ record ∈ records, ¬record.key.HasMark (startMarker "RESOURCE_TABLE").toList) :
    ∀ record ∈ records, IsPlain logSections record.algorithm.toList ∧
      IsPlain logSections record.operation.toList := by
  have hopening := isCellMark_startMarker "RESOURCE_TABLE" (by decide)
  have hperformance : ¬(startMarker "RESOURCE_TABLE").toList <:+:
      (config.performanceText records).toList := by
    rw [isInfix_performanceText_iff hopening]
    exact fun ⟨record, hrecord, hin⟩ => hnone record hrecord hin
  have hstack := mt (isInfix_performanceText_iff_stackText hopening).2 hperformance
  rw [← @isPlain_stackText_iff config]
  refine isPlain_of_isStable (fun h => isInfix_performanceText_iff_stackText h) fun s hs => ?_
  have hstable := Tables.regenerates_iff.1 h s
  rw [named_ofInputs] at hstable
  exact isStable_log_of_reportTables hperformance hstack hs hstable

/-- What the map asks in addition. -/
theorem Tables.Regenerates.isHarmless
    (h : (Tables.ofInputs config (some records) (some footprint)).Regenerates)
    (hnames : ∀ record ∈ records, IsPlain logSections record.algorithm.toList ∧
      IsPlain logSections record.operation.toList) : IsHarmless config records footprint := by
  obtain ⟨hmodules, hclosed⟩ := isFilling_of_isStable (isPlain_performanceText_iff.2 hnames)
    (isPlain_stackText_iff.2 hnames) (Tables.regenerates_iff.1 h)
  exact ⟨hnames, isFilling_resourceText_iff.1 hmodules, hclosed⟩

/-- **Harmless names make the second run a no-op**, whichever of the inputs are there. -/
theorem IsHarmless.regenerates (h : IsHarmless config records footprint)
    {log : Option (List Record)} (hlog : log = none ∨ log = some records)
    {map : Option Footprint} (hmap : map = none ∨ map = some footprint) :
    (Tables.ofInputs config log map).Regenerates := by
  have hperformance : IsPlain logSections (config.performanceText records).toList :=
    isPlain_performanceText_iff.2 h.names
  have hstack : IsPlain logSections (config.stackText records).toList :=
    isPlain_stackText_iff.2 h.names
  have hresources : IsFilling reportSections "RESOURCE_TABLE"
      (config.resourceText footprint).toList := isFilling_resourceText_iff.2 h.modules
  have hlogNames : ∀ name ∈ logSections, IsUnbracketed name := by decide
  have hlogTables : [("PERFORMANCE_TABLE", config.performanceText records),
      ("STACK_TABLE", config.stackText records)].map Prod.fst = logSections := rfl
  rw [Tables.regenerates_iff]
  intro s
  -- Only with both inputs do sections inside of tables come up; each input alone has plain tables.
  rcases hlog with rfl | rfl <;> rcases hmap with rfl | rfl
  · rfl
  · exact pass_pass (by decide) (hresources _ (by decide)).2 s
  · rw [named_ofInputs_log]
    refine foldl_pass_foldl_pass hlogNames hlogTables hlogTables ?_ s
    refine List.forall_mem_append.2 ⟨?_, ?_⟩ <;> simp only [List.forall_mem_cons] <;>
      exact ⟨hperformance.isFilling _, hstack.isFilling _, List.forall_mem_nil _⟩
  · have hplain : IsPlain logSections (config.resourceText footprint).toList := fun name hname => by
      have hne : ∀ name ∈ logSections, name ≠ "RESOURCE_TABLE" := by decide
      obtain ⟨hopening, hclosing⟩ := hresources name (mem_reportSections_of_mem hname)
      exact ⟨hopening (hne name hname), hclosing⟩
    refine foldl_pass_foldl_pass_of_isClosed hlogNames (by decide) (by decide) hlogTables ?_ ?_
      hplain (hresources _ (by decide)).2 s
    · simp only [List.forall_mem_cons]
      exact ⟨hperformance, hstack, List.forall_mem_nil _⟩
    · simp only [List.forall_mem_cons]
      exact ⟨h.closed.1, h.closed.2, List.forall_mem_nil _⟩

/-- **When a second run is a no-op**: on every report, with the log and the map or with one of them
alone, exactly if the names are harmless. -/
theorem regenerates_iff_isHarmless :
    (∀ log ∈ [none, some records], ∀ map ∈ [none, some footprint],
      (Tables.ofInputs config log map).Regenerates) ↔ IsHarmless config records footprint := by
  constructor
  · intro h
    have hlog := h (some records) (by simp) none (by simp)
    exact (h (some records) (by simp) (some footprint) (by simp)).isHarmless hlog.isPlain
  · intro h log hlog map hmap
    exact h.regenerates (by simpa using hlog) (by simpa using hmap)

end Names

end FirmwareReport
