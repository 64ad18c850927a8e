import Mathlib.Tactic.Ring
import FirmwareReport.Proofs.Config.Representable
import FirmwareReport.Proofs.Toml.Line
import FirmwareReport.Proofs.Toml.Table

/-!
# Configurations are read as they were written

The text of a configuration is a document without dotted keys: a line for each number, string and
empty list, and behind them a section for each category and each baseline
(`FirmwareReport.Config.read?_render`). What this document says is the configuration
(`FirmwareReport.Config.entries?_document`, `FirmwareReport.Config.ofEntries?_entries`). A list
without elements has no sections, so it has a line of its own, and the standard list does not take
its place.

So writing and reading are inverse (`FirmwareReport.Config.text_roundTrip`), as far as a document
can hold the numbers.
-/

namespace FirmwareReport

open Toml

/-! ### What a configuration is written as -/

/-- A category as a table. -/
def Category.entries (category : Category) : Entries :=
  [("name", .text category.name), ("patterns", .array (category.patterns.map .text))]

/-- A baseline as a table. -/
def Baseline.entries (baseline : Baseline) : Entries :=
  [("algorithm", .text baseline.algorithm), ("operation", .text baseline.operation),
   ("cycles", .scalar (.integer baseline.cycles))]

namespace Config

/-- The entry of a list without elements. -/
def emptyListEntry {α : Type} (name : String) (list : List α) : Entries :=
  if list.isEmpty then [(name, .array [])] else []

/-- The entries of a configuration that are no elements of lists. -/
def plainEntries (config : Config) : Entries :=
  [("clock_hz", .scalar (.integer config.clock)),
   ("flash_capacity_bytes", .scalar (.integer config.flashCapacity)),
   ("ram_capacity_bytes", .scalar (.integer config.ramCapacity)),
   ("log_tag", .text config.logTag), ("reference_prefix", .text config.reference)] ++
  emptyListEntry "categories" config.categories ++ emptyListEntry "baselines" config.baselines

/-- The elements of the lists of a configuration. -/
def elementSections (config : Config) : List Section :=
  (config.categories.map Category.entries).map (.ofElement "categories") ++
    (config.baselines.map Baseline.entries).map (.ofElement "baselines")

/-- **A configuration as a table.** -/
def entries (config : Config) : Entries :=
  (config.plainEntries.withTables "categories" (config.categories.map Category.entries)).withTables
    "baselines" (config.baselines.map Baseline.entries)

end Config

section Lines

open Config

theorem hasLines_emptyListLine {α : Type} (name : String) (hname : IsBareName name.toList)
    (list : List α) : HasLines (emptyListLine name list)
      ((emptyListEntry name list).assignments.map Line.assignment) := by
  unfold emptyListLine emptyListEntry
  cases list.isEmpty with
  | true => exact hasLines_line name hname (writes_quotedList [])
  | false => exact .nil

theorem hasLines_categoryLines (category : Category) :
    HasLines (categoryLines category) (Section.ofElement "categories" category.entries).lines :=
  ((hasLines_elementHeader "categories" (by decide)).append
    (hasLines_line "name" (by decide) (writes_quoted _))).append
    (hasLines_line "patterns" (by decide) (writes_quotedList _))

theorem hasLines_baselineLines {baseline : Baseline} (h : baseline.cycles < signedLimit) :
    HasLines (baselineLines baseline) (Section.ofElement "baselines" baseline.entries).lines :=
  (((hasLines_elementHeader "baselines" (by decide)).append
    (hasLines_line "algorithm" (by decide) (writes_quoted _))).append
    (hasLines_line "operation" (by decide) (writes_quoted _))).append
    (hasLines_line "cycles" (by decide) (writes_toDigits h))

end Lines

namespace Config

variable {config : Config}

theorem hasLines_render (h : config.isRepresentable = true) :
    HasLines config.render (config.plainEntries.assignments.map Line.assignment ++
      config.elementSections.flatMap Section.lines) := by
  obtain ⟨hclock, hflash, hram, hcycles⟩ := isRepresentable_iff.1 h
  have hplain := ((((((hasLines_line "clock_hz" (by decide) (writes_toDigits hclock)).append
    (hasLines_line "flash_capacity_bytes" (by decide) (writes_toDigits hflash))).append
    (hasLines_line "ram_capacity_bytes" (by decide) (writes_toDigits hram))).append
    (hasLines_line "log_tag" (by decide) (writes_quoted config.logTag))).append
    (hasLines_line "reference_prefix" (by decide) (writes_quoted config.reference))).append
    (hasLines_emptyListLine "categories" (by decide) config.categories)).append
    (hasLines_emptyListLine "baselines" (by decide) config.baselines)
  have hcategories := HasLines.flatMap fun category (_ : category ∈ config.categories) =>
    hasLines_categoryLines category
  have hbaselines := HasLines.flatMap fun baseline (hb : baseline ∈ config.baselines) =>
    hasLines_baselineLines (hcycles baseline hb)
  have hlines : config.elementSections.flatMap Section.lines =
      (config.categories.flatMap fun category =>
        (Section.ofElement "categories" category.entries).lines) ++
      config.baselines.flatMap fun baseline =>
        (Section.ofElement "baselines" baseline.entries).lines := by
    simp [elementSections, List.flatMap_map]
  rw [hlines, ← List.append_assoc, plainEntries]
  simp only [Entries.assignments, List.map_append]
  exact (hplain.append hcategories).append hbaselines

/-- **The text of a configuration is its document.** -/
theorem read?_render (h : config.isRepresentable = true) : Document.read? config.render =
    some ⟨config.plainEntries.assignments, config.elementSections⟩ := by
  have hlines := (hasLines_render h).lines?_eq
  have hmark : ∃ t, config.render = 'c' :: t := ⟨_, rfl⟩
  obtain ⟨t, ht⟩ := hmark
  rw [ht] at hlines ⊢
  unfold Document.read?
  split
  · simp_all
  · dsimp only
    rw [hlines, Option.map_some, ofLines_append_sections]

/-! ### What a configuration is read from -/

theorem names_plainEntries : config.plainEntries.names =
    ["clock_hz", "flash_capacity_bytes", "ram_capacity_bytes", "log_tag", "reference_prefix"] ++
      (if config.categories = [] then ["categories"] else []) ++
      (if config.baselines = [] then ["baselines"] else []) := by
  unfold plainEntries emptyListEntry
  cases config.categories <;> cases config.baselines <;> rfl

/-- **The document of a configuration says what the configuration is.** -/
theorem entries?_document :
    Document.entries? ⟨config.plainEntries.assignments, config.elementSections⟩ =
      some config.entries := by
  have hplain : config.plainEntries.names.Nodup := by
    rw [names_plainEntries]
    split_ifs <;> decide
  have hcategories : config.categories.map Category.entries ≠ [] →
      "categories" ∉ config.plainEntries.names := by
    intro h
    have hne : config.categories ≠ [] := by simpa using h
    rw [names_plainEntries, if_neg hne]
    split_ifs <;> decide
  have hbaselines : config.baselines.map Baseline.entries ≠ [] →
      "baselines" ∉ (config.plainEntries.withTables "categories"
        (config.categories.map Category.entries)).names := by
    intro h
    have hne : config.baselines ≠ [] := by simpa using h
    rw [Entries.names_withTables, names_plainEntries, if_neg hne]
    split_ifs <;> decide
  have hcategory : ∀ element ∈ config.categories.map Category.entries, element.names.Nodup := by
    intro element helement
    obtain ⟨category, -, rfl⟩ := List.mem_map.1 helement
    exact show ["name", "patterns"].Nodup by decide
  have hbaseline : ∀ element ∈ config.baselines.map Baseline.entries, element.names.Nodup := by
    intro element helement
    obtain ⟨baseline, -, rfl⟩ := List.mem_map.1 helement
    exact show ["algorithm", "operation", "cycles"].Nodup by decide
  rw [Document.entries?, Entries.assignAll?_assignments hplain, Option.bind_eq_bind,
    Option.bind_some, elementSections, List.foldlM_append,
    foldlM_enter?_elements hcategories hcategory, Option.bind_eq_bind, Option.bind_some,
    foldlM_enter?_elements hbaselines hbaseline]
  rfl

/-- Items that are read one by one. -/
theorem mapM_map {α β : Type} {write : α → β} {read? : β → Option α}
    (h : ∀ a, read? (write a) = some a) (list : List α) :
    (list.map write).mapM read? = some list := by
  have hread : read? ∘ write = fun a => pure a := funext h
  rw [List.mapM_map, hread, List.mapM_pure, List.map_id']
  rfl

theorem ofEntries?_category (category : Category) :
    Category.ofEntries? category.entries = some category := by
  have hpatterns := mapM_map (fun s => show Item.text? (.text s) = some s from rfl)
    category.patterns
  simp [Category.ofEntries?, Category.entries, Entries.find?, Entries.getD?, List.lookup_cons,
    Item.text?, Item.texts?, hpatterns]

theorem ofEntries?_baseline (baseline : Baseline) :
    Baseline.ofEntries? baseline.entries = some baseline := rfl

/-- A list is found in the table, with its elements or without any. -/
theorem getD?_list {α : Type} {name : String} {write : α → Entries}
    {ofEntries? : Entries → Option α} {ofItems? : List Item → Option α} {entries : Entries}
    {list missing : List α} (h : ∀ a, ofEntries? (write a) = some a)
    (hentry : entries.find? name =
      some (if list = [] then .array [] else .tables (list.map write))) :
    entries.getD? name (Item.elements? ofEntries? ofItems?) missing = some list := by
  rw [Entries.getD?, hentry]
  by_cases hnil : list = []
  · subst hnil
    rfl
  · rw [if_neg hnil]
    exact mapM_map h list

/-- **The table of a configuration** is read as the configuration. -/
theorem ofEntries?_entries : ofEntries? config.entries = some config := by
  have hcategories : config.entries.find? "categories" = some (if config.categories = [] then
      .array [] else .tables (config.categories.map Category.entries)) := by
    unfold entries plainEntries emptyListEntry Entries.withTables
    cases config.categories <;> cases config.baselines <;> rfl
  have hbaselines : config.entries.find? "baselines" = some (if config.baselines = [] then
      .array [] else .tables (config.baselines.map Baseline.entries)) := by
    unfold entries plainEntries emptyListEntry Entries.withTables
    cases config.categories <;> cases config.baselines <;> rfl
  have hnames : config.entries.all (fun entry => fieldNames.contains entry.1) = true := by
    unfold entries plainEntries emptyListEntry Entries.withTables
    cases config.categories <;> cases config.baselines <;> rfl
  have hplain : (config.entries.find? "clock_hz" = some (.scalar (.integer config.clock)) ∧
      config.entries.find? "flash_capacity_bytes" =
        some (.scalar (.integer config.flashCapacity)) ∧
      config.entries.find? "ram_capacity_bytes" = some (.scalar (.integer config.ramCapacity))) ∧
      config.entries.find? "log_tag" = some (.text config.logTag) ∧
      config.entries.find? "reference_prefix" = some (.text config.reference) := by
    unfold entries plainEntries emptyListEntry Entries.withTables
    cases config.categories <;> cases config.baselines <;>
      exact ⟨⟨rfl, rfl, rfl⟩, rfl, rfl⟩
  obtain ⟨⟨hclock, hflash, hram⟩, htag, hreference⟩ := hplain
  rw [ofEntries?, getD?_list ofEntries?_category hcategories,
    getD?_list ofEntries?_baseline hbaselines, hnames]
  simp only [Entries.getD?, hclock, hflash, hram, htag, hreference]
  rfl

/-- **What is written is read**, if a document can hold it. -/
theorem parse_render (hvalid : config.validate = .ok ()) (h : config.isRepresentable = true) :
    parse (String.ofList config.render) = .ok config := by
  have hread : read? (String.ofList config.render) = some config := by
    simp only [read?, String.toList_ofList, read?_render h, Option.bind_eq_bind, Option.bind_some,
      entries?_document, ofEntries?_entries]
  rw [parse, hread]
  dsimp only
  rw [hvalid]

/-! ### There and back -/

/-- **The numbers of a configuration are signed words.** -/
structure IsSigned (config : Config) : Prop where
  clock : config.clock < 2 ^ 63
  flashCapacity : config.flashCapacity < 2 ^ 63
  ramCapacity : config.ramCapacity < 2 ^ 63
  baselines : ∀ b ∈ config.baselines, b.cycles < 2 ^ 63

theorem isSigned_iff : config.IsSigned ↔ config.isRepresentable = true := by
  rw [isRepresentable_iff]
  exact ⟨fun h => ⟨h.clock, h.flashCapacity, h.ramCapacity, h.baselines⟩,
    fun ⟨hclock, hflash, hram, hcycles⟩ => ⟨hclock, hflash, hram, hcycles⟩⟩

theorem exists_render?_of_isRepresentable (hvalid : config.validate = .ok ())
    (h : config.isRepresentable = true) :
    ∃ text, config.render? = .ok text ∧ parse text = .ok config :=
  ⟨_, if_pos h, parse_render hvalid h⟩

/-- What was read is valid and has small numbers. -/
theorem of_parse {text : String} (h : parse text = .ok config) :
    config.validate = .ok () ∧ config.isRepresentable = true := by
  unfold parse at h
  split at h
  · cases h
  · next other hread =>
    split at h
    · next hvalid =>
      cases h
      exact ⟨hvalid, isRepresentable_of_read? hread⟩
    · cases h

/-- **Writing and reading a configuration are inverse.** A valid configuration whose numbers are
signed words has a text, and this text is read as that configuration; one with a larger number has
no text. In particular what was read from any text can be written and read again. -/
theorem text_roundTrip (hvalid : config.validate = .ok ()) :
    (config.IsSigned → ∃ text, config.render? = .ok text ∧ parse text = .ok config) ∧
      (¬config.IsSigned → config.render? = .error .unrepresentable) ∧
      ∀ text other, parse text = .ok other →
        ∃ text', other.render? = .ok text' ∧ parse text' = .ok other := by
  refine ⟨fun h => ?_, fun h => ?_, fun text other h => ?_⟩
  · exact exists_render?_of_isRepresentable hvalid (isSigned_iff.1 h)
  · rw [isSigned_iff] at h
    exact if_neg h
  · obtain ⟨hvalid, hsigned⟩ := of_parse h
    exact exists_render?_of_isRepresentable hvalid hsigned

/-- A configuration with a list that is empty, a string for each kind of quotes, and the greatest of
the numbers. -/
theorem text_roundTrip_quotes :
    let config : Config :=
      { clock := 2 ^ 63 - 1, flashCapacity := 1, ramCapacity := 1, logTag := "C:\\",
        reference := "\"\"\"\x7f'''\n\"\"",
        categories := [⟨"it's", []⟩, ⟨"it's a \"\\\"", ["\r\n", "''\n'", "\x00"]⟩],
        baselines := [] }
    config.validate = .ok () ∧ config.IsSigned ∧
      ∃ text, config.render? = .ok text ∧ parse text = .ok config := by
  intro config
  have hvalue : config.valueFault? = none := by decide
  have hvalid : config.validate = .ok () := by
    rw [validate, hvalue]
    rfl
  have hsigned : config.IsSigned := ⟨by decide, by decide, by decide, List.forall_mem_nil _⟩
  exact ⟨hvalid, hsigned, (text_roundTrip hvalid).1 hsigned⟩

end Config

end FirmwareReport
