import FirmwareReport.Report.Tables
import FirmwareReport.Proofs.Report.Figures
import FirmwareReport.Proofs.Report.Marker

/-!
# What the tables of a report hold

A table is put together of lines and its lines of cells, with bars and blanks in between. A mark
without a bar and without a newline finds no place across the borders: it stands in a table exactly
if it stands in a cell (`FirmwareReport.isInfix_joinLines_iff`,
`FirmwareReport.isInfix_tableRow_iff`). Most cells hold numbers and fixed words, in which there is
no bracket. What is left are the names, so a table has a mark exactly if one of its names has it:

* `FirmwareReport.isInfix_performanceTable_iff`, `FirmwareReport.isInfix_stackTable_iff`: an
  algorithm or an operation of a record;
* `FirmwareReport.isInfix_resourceTable_iff`: a module.
-/

namespace FirmwareReport

open Text

/-- A mark that fits into a cell. -/
structure IsCellMark (mark : List Char) : Prop where
  isMark : IsMark mark
  noBar : '|' ∉ mark
  noNewline : '\n' ∉ mark

variable {mark : List Char}

/-! ### Lines and cells -/

/-- **A text of lines** has what one of its lines has. -/
theorem isInfix_joinLines_iff (h : IsCellMark mark) {lines : List String} :
    mark <:+: (joinLines lines).toList ↔ ∃ line ∈ lines, mark <:+: line.toList := by
  rw [joinLines, String.toList_intercalate]
  induction lines with
  | nil => simp [h.isMark.ne_nil]
  | cons line lines ih =>
    cases lines with
    | nil => simp
    | cons next lines =>
      rw [List.exists_mem_cons_iff, ← ih, List.map_cons, List.map_cons,
        List.intercalate_cons_cons, List.append_assoc]
      exact isInfix_append_cons_iff h.noNewline

theorem isInfix_intercalate_iff (h : IsCellMark mark) {cells : List String} :
    mark <:+: (" | ".intercalate cells).toList ↔ ∃ cell ∈ cells, mark <:+: cell.toList := by
  rw [String.toList_intercalate]
  induction cells with
  | nil => simp [h.isMark.ne_nil]
  | cons cell cells ih =>
    cases cells with
    | nil => simp
    | cons next cells =>
      have hbar : " | ".toList = [' '] ++ '|' :: [' '] := by decide
      rw [List.exists_mem_cons_iff, ← ih, List.map_cons, List.map_cons,
        List.intercalate_cons_cons, ← List.map_cons, hbar, ← List.append_assoc, List.append_assoc,
        List.cons_append, isInfix_append_cons_iff h.noBar, List.singleton_append,
        h.isMark.isInfix_cons_iff (by decide), h.isMark.isInfix_concat_iff (by decide)]

/-- **A row** has what one of its cells has. -/
theorem isInfix_tableRow_iff (h : IsCellMark mark) {cells : List String} :
    mark <:+: (tableRow cells).toList ↔ ∃ cell ∈ cells, mark <:+: cell.toList := by
  have htext : (tableRow cells).toList =
      '|' :: ' ' :: ((" | ".intercalate cells).toList ++ [' '] ++ ['|']) := by
    simp [tableRow]
  have hbar : '|' ≠ '<' ∧ '|' ≠ '>' ∧ ' ' ≠ '<' ∧ ' ' ≠ '>' := by decide
  rw [htext, h.isMark.isInfix_cons_iff hbar.1, h.isMark.isInfix_cons_iff hbar.2.2.1,
    h.isMark.isInfix_concat_iff hbar.2.1, h.isMark.isInfix_concat_iff hbar.2.2.2,
    isInfix_intercalate_iff h]

/-! ### The tables -/

section Tables

variable (h : IsCellMark mark)
include h

theorem not_exists_isInfix {texts : List String} (htexts : ∀ s ∈ texts, '<' ∉ s.toList) :
    ¬∃ s ∈ texts, mark <:+: s.toList := by
  rintro ⟨s, hs, hin⟩
  exact h.isMark.not_isInfix_of_notMem (htexts s hs) hin

/-- A row for a name and numbers. -/
theorem isInfix_tableRow_one_iff {name : String} {cells : List String}
    (hcells : ∀ cell ∈ cells, '<' ∉ cell.toList) :
    mark <:+: (tableRow (name :: cells)).toList ↔ mark <:+: name.toList := by
  rw [isInfix_tableRow_iff h, List.exists_mem_cons_iff, or_iff_left (not_exists_isInfix h hcells)]

/-- **A row for a key** has what one of its names has. -/
theorem IsRowOf.isInfix_iff {key : Key} {row : String} (hrow : IsRowOf key row) :
    mark <:+: row.toList ↔ mark <:+: key.algorithm.toList ∨ mark <:+: key.operation.toList := by
  obtain ⟨figures, -, rfl, hfigures⟩ := hrow
  rw [isInfix_tableRow_iff h, List.exists_mem_cons_iff, List.exists_mem_cons_iff,
    or_iff_left (not_exists_isInfix h (hfigures '<' (by decide)))]

/-- A table is two lines of heading, rows, and what stands below them. -/
theorem isInfix_table_iff {α : Type} {heading alignment : String} {below : List String}
    {row : α → String} {rows : List α} (hheading : '<' ∉ heading.toList)
    (halignment : '<' ∉ alignment.toList) (hbelow : ∀ line ∈ below, '<' ∉ line.toList) :
    mark <:+: (joinLines (heading :: alignment :: (rows.map row ++ below))).toList ↔
      ∃ r ∈ rows, mark <:+: (row r).toList := by
  have hrows : (∃ line ∈ rows.map row ++ below, mark <:+: line.toList) ↔
      (∃ r ∈ rows, mark <:+: (row r).toList) ∨ ∃ line ∈ below, mark <:+: line.toList := by
    simp only [List.mem_append, or_and_right, exists_or, List.mem_map, exists_exists_and_eq_and]
  rw [isInfix_joinLines_iff h, List.exists_mem_cons_iff, List.exists_mem_cons_iff,
    or_iff_right (h.isMark.not_isInfix_of_notMem hheading),
    or_iff_right (h.isMark.not_isInfix_of_notMem halignment), hrows,
    or_iff_left (not_exists_isInfix h hbelow)]

/-- **The performance table** has what one of its names has. -/
theorem isInfix_performanceTable_iff {baselines : List Baseline} {reference : String}
    {clock : Nat} {groups : List Group} :
    mark <:+: (Markdown.performanceTable baselines reference clock groups).toList ↔
      ∃ group ∈ groups, mark <:+: group.algorithm.toList ∨ mark <:+: group.operation.toList := by
  rw [Markdown.performanceTable, ← List.append_nil (groups.map _),
    isInfix_table_iff h (by decide) (by decide) (List.forall_mem_nil _)]
  simp only [(isRowOf_performanceRow _ _ _ _).isInfix_iff h, Group.key]

/-- **The stack table** has what one of its names has. -/
theorem isInfix_stackTable_iff {records : List Record} :
    mark <:+: (Markdown.stackTable records).toList ↔
      ∃ record ∈ records,
        mark <:+: record.algorithm.toList ∨ mark <:+: record.operation.toList := by
  rw [Markdown.stackTable, ← List.append_nil (records.map _),
    isInfix_table_iff h (by decide) (by decide) (List.forall_mem_nil _)]
  simp only [(isRowOf_stackRow _).isInfix_iff h, Record.key]

/-- **The resource table** has what one of its names has. -/
theorem isInfix_resourceTable_iff {flashCapacity ramCapacity : Nat} {footprint : Footprint} :
    mark <:+: (Markdown.resourceTable flashCapacity ramCapacity footprint).toList ↔
      ∃ usage ∈ footprint.modules, mark <:+: usage.name.toList := by
  have hrow : ∀ usage : Usage,
      mark <:+: (tableRow [usage.name, thousands usage.flash, thousands usage.ram]).toList ↔
        mark <:+: usage.name.toList := fun usage =>
    isInfix_tableRow_one_iff h (by simpa using
      ⟨notMem_thousands (by decide) _, notMem_thousands (by decide) _⟩)
  rw [Markdown.resourceTable, List.cons_append, List.cons_append,
    isInfix_table_iff h (by decide) (by decide) ?_]
  · simp only [hrow]
  · have hc : IsForeign '<' := by decide
    have htotal : '<' ∉ (tableRow ["**TOTAL**", bold (thousands footprint.totalFlash),
        bold (thousands footprint.totalRam)]).toList := by
      refine notMem_tableRow hc ?_
      simp only [List.forall_mem_cons]
      exact ⟨by decide, notMem_bold hc (notMem_thousands hc _),
        notMem_bold hc (notMem_thousands hc _), List.forall_mem_nil _⟩
    simp only [List.forall_mem_cons]
    exact ⟨htotal, by decide, by decide, by decide, notMem_memoryRow hc (by decide) _ _,
      notMem_memoryRow hc (by decide) _ _, List.forall_mem_nil _⟩

end Tables

end FirmwareReport
