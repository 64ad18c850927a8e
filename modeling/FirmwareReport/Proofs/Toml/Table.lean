import Mathlib.Data.List.Nodup
import Mathlib.Tactic.SplitIfs
import FirmwareReport.Toml.Document

/-!
# Tables without dots

A document without dotted keys, whose headers are those of the elements of lists, says what stands
in it: its assignments are the entries of a table, name by name
(`FirmwareReport.Toml.Entries.assignAll?_assignments`), and the elements of a list are gathered
under its name (`FirmwareReport.Toml.foldlM_enter?_elements`). All that is asked is that no name
comes twice.
-/

namespace FirmwareReport.Toml

namespace Entries

variable {name : String} {change : Option Item → Option Item} {entries : Entries} {item : Item}

/-- The names of a table. -/
def names (entries : Entries) : List String :=
  entries.map (·.1)

/-! ### Changing one entry -/

/-- A new name comes last. -/
theorem update?_of_notMem (h : name ∉ entries.names) :
    entries.update? name change = (change none).map fun item => entries ++ [(name, item)] := by
  induction entries with
  | nil => rfl
  | cons entry entries ih =>
    simp only [names, List.map_cons, List.mem_cons, not_or] at h
    rw [update?, if_neg (Ne.symm h.1), ih h.2, Option.map_map]
    rfl

theorem update?_concat (h : name ∉ entries.names) :
    update? name change (entries ++ [(name, item)]) =
      (change (some item)).map fun item => entries ++ [(name, item)] := by
  induction entries with
  | nil => exact if_pos rfl
  | cons entry entries ih =>
    simp only [names, List.map_cons, List.mem_cons, not_or] at h
    rw [List.cons_append, update?, if_neg (Ne.symm h.1), ih h.2, Option.map_map]
    rfl

/-! ### Assignments -/

/-- The assignments that make a table. -/
def assignments (entries : Entries) : List Assignment :=
  entries.map fun entry => ⟨[], entry.1, entry.2⟩

/-- **A table is made by its assignments**, one after the other. -/
theorem assignAll?_append {more : Entries} (h : (entries ++ more).names.Nodup) :
    assignAll? more.assignments entries = some (entries ++ more) := by
  induction more generalizing entries with
  | nil => exact congrArg some (List.append_nil entries).symm
  | cons entry more ih =>
    have hnew : entry.1 ∉ entries.names := by
      simp only [names, List.map_append, List.map_cons, List.nodup_middle, List.nodup_cons,
        List.mem_append, not_or] at h ⊢
      exact h.1.1
    have hassign : entries.assign? [] entry.1 entry.2 = some (entries ++ [entry]) := by
      rw [assign?, update?_of_notMem hnew]
      rfl
    have hrest : (entries ++ [entry] ++ more).names.Nodup := by
      rwa [List.append_assoc, List.singleton_append]
    rw [assignAll?, assignments, List.map_cons, List.foldlM_cons, hassign]
    have hmore := ih hrest
    rwa [List.append_assoc, List.singleton_append] at hmore

theorem assignAll?_assignments (h : entries.names.Nodup) :
    assignAll? entries.assignments [] = some entries :=
  assignAll?_append h

/-! ### Lists of tables -/

/-- A table with a list of tables, unless the list is empty. -/
def withTables (name : String) (elements : List Entries) (entries : Entries) : Entries :=
  if elements = [] then entries else entries ++ [(name, .tables elements)]

theorem names_withTables (name : String) (elements : List Entries) (entries : Entries) :
    (entries.withTables name elements).names =
      entries.names ++ if elements = [] then [] else [name] := by
  unfold withTables
  split_ifs <;> simp [names]

end Entries

/-- The section of one element of a list of tables. -/
def Section.ofElement (name : String) (element : Entries) : Section :=
  ⟨true, [], name, element.assignments⟩

section Elements

variable {name : String} {entries element : Entries} {elements : List Entries}

/-- One more element. -/
theorem enter?_ofElement (hname : name ∉ entries.names) (helement : element.names.Nodup) :
    Section.enter? (entries.withTables name elements) (.ofElement name element) =
      some (entries.withTables name (elements ++ [element])) := by
  have hmade := Entries.assignAll?_assignments helement
  simp only [Section.enter?, Section.ofElement, Entries.place?, if_true, Entries.withTables,
    hmade, Option.map_some]
  by_cases hnil : elements = []
  · rw [if_pos hnil, Entries.update?_of_notMem hname]
    simp [hnil]
  · rw [if_neg hnil, Entries.update?_concat hname]
    simp

/-- **The elements of a list are gathered under its name.** -/
theorem foldlM_enter?_elements (hname : elements ≠ [] → name ∉ entries.names)
    (helements : ∀ element ∈ elements, element.names.Nodup) :
    (elements.map (Section.ofElement name)).foldlM Section.enter? entries =
      some (entries.withTables name elements) := by
  by_cases hnil : elements = []
  · subst hnil
    rfl
  replace hname := hname hnil
  clear hnil
  suffices h : ∀ before : List Entries,
      (elements.map (Section.ofElement name)).foldlM Section.enter?
        (entries.withTables name before) = some (entries.withTables name (before ++ elements)) from
    h []
  intro before
  induction elements generalizing before with
  | nil => simp
  | cons element elements ih =>
    obtain ⟨helement, helements⟩ := List.forall_mem_cons.1 helements
    rw [List.map_cons, List.foldlM_cons, enter?_ofElement hname helement]
    simpa using ih helements (before ++ [element])

end Elements

/-! ### Lines of a document -/

/-- The lines of a section. -/
def Section.lines (s : Section) : List Line :=
  .header s.element s.path s.name :: s.assignments.map Line.assignment

theorem ofLines_assignment (a : Assignment) (lines : List Line) :
    Document.ofLines (.assignment a :: lines) =
      { Document.ofLines lines with top := a :: (Document.ofLines lines).top } := rfl

theorem ofLines_header (element : Bool) (path : List String) (name : String) (lines : List Line) :
    Document.ofLines (.header element path name :: lines) =
      ⟨[], ⟨element, path, name, (Document.ofLines lines).top⟩ ::
        (Document.ofLines lines).sections⟩ := rfl

/-- The lines of assignments stand at the front of a document. -/
theorem ofLines_append_assignments (top : List Assignment) (lines : List Line) :
    Document.ofLines (top.map Line.assignment ++ lines) =
      { Document.ofLines lines with top := top ++ (Document.ofLines lines).top } := by
  induction top with
  | nil => rfl
  | cons a top ih =>
    rw [List.map_cons, List.cons_append, ofLines_assignment, ih]
    rfl

/-- **A document is made of its lines.** -/
theorem ofLines_append_sections (top : List Assignment) (sections : List Section) :
    Document.ofLines (top.map Line.assignment ++ sections.flatMap Section.lines) =
      ⟨top, sections⟩ := by
  suffices h : Document.ofLines (sections.flatMap Section.lines) = ⟨[], sections⟩ by
    rw [ofLines_append_assignments, h, List.append_nil]
  induction sections with
  | nil => rfl
  | cons s sections ih =>
    have hbelow := ofLines_append_assignments s.assignments (sections.flatMap Section.lines)
    rw [ih] at hbelow
    rw [List.flatMap_cons, Section.lines, List.cons_append, ofLines_header, hbelow,
      List.append_nil]

end FirmwareReport.Toml
