import Mathlib.Data.List.Dedup
import FirmwareReport.Proofs.Benchmark.Keys
import FirmwareReport.Proofs.Config.Validation
import FirmwareReport.Proofs.Log.Names
import FirmwareReport.Proofs.Report.Figures
import FirmwareReport.Report.Tables

/-!
# The rows of the tables of a log

A table is read line by line, so a name with a line break in it would make two rows of one. No name
that comes out of a log has one (`FirmwareReport.Log.newline_notMem_of_mem_records`), and none of
the figures has, so the lines of a table are its two lines of heading and a row for each key
(`FirmwareReport.IsRowOf.listsKeys`). The performance table takes its rows from the groups, the
stack table from the records seen first. These have the same keys in the same order, hence the two
tables match row by row (`FirmwareReport.rows_match`).
-/

namespace FirmwareReport

/-- The lines of a text, from newline to newline. -/
def linesOf (text : String) : List (List Char) :=
  text.toList.splitOn '\n'

/-- The text that a row of a key begins with. -/
def Key.rowHead (key : Key) : String :=
  "| " ++ key.algorithm ++ " | " ++ key.operation ++ " | "

/-- **A table lists some keys**: below two lines of heading it has one row for each, which begins
with its names. -/
structure ListsKeys (keys : List Key) (table : String) : Prop where
  length : (linesOf table).length = 2 + keys.length
  rows : List.Forall₂ (fun key row => key.rowHead.toList <+: row) keys ((linesOf table).drop 2)

/-! ### Lines and rows -/

/-- **Lines put together are the lines of the text**, if there is no line break in them. -/
theorem linesOf_joinLines {lines : List String} (hne : lines ≠ [])
    (h : ∀ line ∈ lines, '\n' ∉ line.toList) :
    linesOf (joinLines lines) = lines.map String.toList := by
  rw [linesOf, joinLines, String.toList_intercalate]
  exact List.splitOn_intercalate '\n' (List.forall_mem_map.2 h) (by simpa using hne)

/-- A row begins with the names of its key. -/
theorem IsRowOf.isPrefix {key : Key} {row : String} (h : IsRowOf key row) :
    key.rowHead.toList <+: row.toList := by
  obtain ⟨figures, hne, rfl, -⟩ := h
  obtain ⟨figure, figures, rfl⟩ := List.exists_cons_of_ne_nil hne
  simp only [Key.rowHead, tableRow, String.toList_append, String.toList_intercalate, List.map_cons,
    List.intercalate_cons_cons, List.append_assoc, List.prefix_append_right_inj]
  exact List.prefix_append _ _

/-- **A heading and a row for each of some items** make a table that lists their keys. -/
theorem IsRowOf.listsKeys {α : Type} {heading alignment : String} {items : List α} {key : α → Key}
    {row : α → String} (hrow : ∀ item, IsRowOf (key item) (row item))
    (hnames : ∀ item ∈ items, '\n' ∉ (key item).algorithm.toList ∧
      '\n' ∉ (key item).operation.toList)
    (hheading : '\n' ∉ heading.toList) (halignment : '\n' ∉ alignment.toList) :
    ListsKeys (items.map key) (joinLines (heading :: alignment :: items.map row)) := by
  have hlines : linesOf (joinLines (heading :: alignment :: items.map row)) =
      heading.toList :: alignment.toList :: items.map fun item => (row item).toList := by
    rw [linesOf_joinLines (List.cons_ne_nil _ _), List.map_cons, List.map_cons, List.map_map]
    · rfl
    · simp only [List.forall_mem_cons, List.forall_mem_map]
      exact ⟨hheading, halignment, fun item hitem =>
        (hrow item).notMem (by decide) (hnames item hitem).1 (hnames item hitem).2⟩
  constructor
  · simp only [hlines, List.length_cons, List.length_map]
    omega
  · rw [hlines, List.drop_succ_cons, List.drop_succ_cons, List.drop_zero,
      List.forall₂_map_left_iff, List.forall₂_map_right_iff, List.forall₂_same]
    exact fun item _ => (hrow item).isPrefix

/-! ### The tables of a log -/

section Tables

variable {records : List Record} (hnames : ∀ record ∈ records,
  '\n' ∉ record.algorithm.toList ∧ '\n' ∉ record.operation.toList) (reference : String)
include hnames

/-- The names of the rows come from the records. -/
theorem newline_notMem_of_mem_rowKeys {key : Key} (h : key ∈ rowKeys reference records) :
    '\n' ∉ key.algorithm.toList ∧ '\n' ∉ key.operation.toList := by
  obtain ⟨record, hrecord, rfl⟩ := mem_rowKeys.1 h
  exact hnames record hrecord

/-- **The performance table** lists the keys of the rows. -/
theorem listsKeys_performanceTable (baselines : List Baseline) (clock : Nat) :
    ListsKeys (rowKeys reference records)
      (Markdown.performanceTable baselines reference clock (groups reference records)) := by
  refine IsRowOf.listsKeys (fun group => isRowOf_performanceRow _ _ _ group)
    (fun group hgroup => ?_) (by decide) (by decide)
  exact newline_notMem_of_mem_rowKeys hnames reference (List.mem_map_of_mem hgroup)

/-- **The stack table** lists the keys of the rows. -/
theorem listsKeys_stackTable :
    ListsKeys (rowKeys reference records) (Markdown.stackTable (firstSeen reference records)) := by
  rw [← map_key_firstSeen]
  refine IsRowOf.listsKeys (fun record => isRowOf_stackRow record)
    (fun record hrecord => ?_) (by decide) (by decide)
  refine newline_notMem_of_mem_rowKeys hnames reference ?_
  rw [← map_key_firstSeen]
  exact List.mem_map_of_mem hrecord

end Tables

/-- The keys of the rows are the keys of the records, each once. -/
theorem rowKeys_perm (reference : String) (records : List Record) :
    (rowKeys reference records).Perm (records.map Record.key).dedup := by
  refine (List.perm_ext_iff_of_nodup (nodup_rowKeys reference records) (List.nodup_dedup _)).2 ?_
  intro key
  rw [mem_rowKeys, List.mem_dedup, List.mem_map]

/-- **The tables of a log match row by row.** A valid configuration makes both tables of any log,
whatever its bytes; and both list the same keys in the same order, those of its records, each
once. -/
theorem rows_match {config : Config} (hvalid : config.validate = .ok ()) (log : List UInt8)
    (footprint : Option Footprint) :
    ∃ tag performance stack, config.tag = .ok tag ∧
      (Tables.ofInputs config (some (Log.records tag log)) footprint).performance =
        some performance ∧
      (Tables.ofInputs config (some (Log.records tag log)) footprint).stack = some stack ∧
      ∃ keys : List Key, keys.Perm ((Log.records tag log).map Record.key).dedup ∧
        InRowOrder config.reference id keys ∧
        ListsKeys keys performance ∧ ListsKeys keys stack := by
  obtain ⟨tag, -, htag, -⟩ := Config.exists_tag_catalog hvalid
  have hnames : ∀ record ∈ Log.records tag log,
      '\n' ∉ record.algorithm.toList ∧ '\n' ∉ record.operation.toList :=
    fun _ => Log.newline_notMem_of_mem_records
  exact ⟨tag, _, _, htag, rfl, rfl, rowKeys config.reference (Log.records tag log),
    rowKeys_perm _ _, inRowOrder_rowKeys _ _, listsKeys_performanceTable hnames _ _ _,
    listsKeys_stackTable hnames _⟩

/-- A log with a damaged byte, a bar in the names, a carriage return in one of them and a second
result of one key. -/
def barredLog : List UInt8 :=
  [0xff] ++ Text.encode ("UART >> A | B: x took 1 cycles, Stack: 2 bytes\n" ++
    "UART >> A: B | x\ry took 3 cycles, Stack: 4 bytes\n" ++
    "UART >> A | B: x took 5 cycles, Stack: 6 bytes\n").toList

/-- The standard configuration is valid, and such a log has a row for each key in either table. -/
theorem rows_match_standard : Config.standard.validate = .ok () ∧
    ∃ tag performance stack, Config.standard.tag = .ok tag ∧
      (Tables.ofInputs Config.standard (some (Log.records tag barredLog)) none).performance =
        some performance ∧
      (Tables.ofInputs Config.standard (some (Log.records tag barredLog)) none).stack =
        some stack ∧
      ∃ keys : List Key, keys.Perm ((Log.records tag barredLog).map Record.key).dedup ∧
        InRowOrder Config.standard.reference id keys ∧
        ListsKeys keys performance ∧ ListsKeys keys stack :=
  ⟨by rfl, rows_match (by rfl) barredLog none⟩

end FirmwareReport
