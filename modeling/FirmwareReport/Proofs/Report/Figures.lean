import FirmwareReport.Report.Markdown
import FirmwareReport.Proofs.Number.Digits

/-!
# Figures in a table

The rows of a table hold names and figures. A name may be any text, but a figure is written with
digits and a few signs, whatever its value. So what a table holds apart from these signs it has from
its names: a **foreign** character (`FirmwareReport.IsForeign`), such as an angle bracket or a
newline, is in no figure and in no fixed word.

In both tables of a log a row lists a key: its two names and behind them figures
(`FirmwareReport.IsRowOf`).
-/

namespace FirmwareReport

/-- What a table is written with, names apart. -/
def isTableSign (c : Char) : Bool :=
  c.isDigit || c == ',' || doubleSigns.contains c || "| *x~%KBNobaselin".toList.contains c

/-- **A foreign character**: no figure and no fixed word has it. -/
def IsForeign (c : Char) : Prop :=
  isTableSign c = false

instance (c : Char) : Decidable (IsForeign c) :=
  inferInstanceAs (Decidable (_ = _))

/-! ### Figures -/

section Figures

variable {c : Char} (hc : IsForeign c)
include hc

theorem IsForeign.notMem {s : List Char} (h : s.all isTableSign = true) : c ∉ s := by
  intro hmem
  exact Bool.false_ne_true (hc.symm.trans (List.all_eq_true.1 h c hmem))

theorem notMem_thousands (n : Nat) : c ∉ (thousands n).toList := by
  refine hc.notMem (List.all_eq_true.2 fun d hd => ?_)
  rcases isDigit_of_mem_thousands hd with rfl | hdigit
  · decide
  · simp [isTableSign, hdigit]

theorem notMem_fixedPlaces (places : Nat) (x : Float) : c ∉ (fixedPlaces places x).toList := by
  refine hc.notMem (List.all_eq_true.2 fun d hd => ?_)
  rcases isDigit_of_mem_fixedPlaces hd with hsign | hdigit
  · simp [isTableSign, hsign]
  · simp [isTableSign, hdigit]

theorem notMem_bold {s : String} (h : c ∉ s.toList) : c ∉ (bold s).toList := by
  have hstars : c ∉ "**".toList := hc.notMem (by decide)
  simp only [bold, String.toList_append, List.mem_append, not_or]
  exact ⟨⟨hstars, h⟩, hstars⟩

theorem notMem_cell (speedup : Speedup) : c ∉ speedup.cell.toList := by
  cases speedup with
  | ratio value =>
    have hstars : c ∉ "**".toList := hc.notMem (by decide)
    have htimes : c ∉ "x**".toList := hc.notMem (by decide)
    simp only [Speedup.cell, String.toList_append, List.mem_append, not_or]
    exact ⟨⟨hstars, notMem_fixedPlaces hc 2 value⟩, htimes⟩
  | reference => exact hc.notMem (by decide)
  | noBaseline => exact hc.notMem (by decide)

/-! ### Rows -/

theorem notMem_tableRow {cells : List String} (h : ∀ cell ∈ cells, c ∉ cell.toList) :
    c ∉ (tableRow cells).toList := by
  have hbar : c ∉ " | ".toList := hc.notMem (by decide)
  have hcells : c ∉ (" | ".intercalate cells).toList := by
    rw [String.toList_intercalate]
    induction cells with
    | nil => exact List.not_mem_nil
    | cons cell cells ih =>
      obtain ⟨hcell, hcells⟩ := List.forall_mem_cons.1 h
      cases cells with
      | nil => simpa using hcell
      | cons next cells =>
        have ih := ih hcells
        rw [List.map_cons] at ih
        rw [List.map_cons, List.map_cons, List.intercalate_cons_cons]
        simp only [List.mem_append, not_or]
        exact ⟨⟨hcell, hbar⟩, ih⟩
  have hopening : c ∉ "| ".toList := hc.notMem (by decide)
  have hclosing : c ∉ " |".toList := hc.notMem (by decide)
  simp only [tableRow, String.toList_append, List.mem_append, not_or]
  exact ⟨⟨hopening, hcells⟩, hclosing⟩

theorem notMem_memoryRow {name : String} (hname : c ∉ name.toList) (used capacity : Nat) :
    c ∉ (Markdown.memoryRow name used capacity).toList := by
  have hkilobytes : c ∉ " KB".toList := hc.notMem (by decide)
  have htilde : c ∉ "~".toList := hc.notMem (by decide)
  have hpercent : c ∉ "%".toList := hc.notMem (by decide)
  have hsize : c ∉ ("~" ++ fixedPlaces 1 (Float.ofNat used / 1024) ++ " KB").toList := by
    simp only [String.toList_append, List.mem_append, not_or]
    exact ⟨⟨htilde, notMem_fixedPlaces hc 1 _⟩, hkilobytes⟩
  refine notMem_tableRow hc ?_
  simp only [List.forall_mem_cons, String.toList_append, List.mem_append, not_or]
  exact ⟨notMem_bold hc hname, notMem_bold hc (notMem_thousands hc used), notMem_bold hc hsize,
    ⟨notMem_thousands hc _, hkilobytes⟩, ⟨⟨htilde, notMem_fixedPlaces hc 1 _⟩, hpercent⟩,
    List.forall_mem_nil _⟩

end Figures

/-! ### Rows of a key -/

/-- **A row lists a key**: its two names, and behind them figures. -/
def IsRowOf (key : Key) (row : String) : Prop :=
  ∃ figures : List String, figures ≠ [] ∧
    row = tableRow (key.algorithm :: key.operation :: figures) ∧
    ∀ c, IsForeign c → ∀ figure ∈ figures, c ∉ figure.toList

theorem isRowOf_performanceRow (baselines : List Baseline) (reference : String) (clock : Nat)
    (group : Group) :
    IsRowOf group.key (Markdown.performanceRow baselines reference clock group) := by
  refine ⟨_, List.cons_ne_nil _ _, rfl, fun c hc => ?_⟩
  simp only [List.forall_mem_cons]
  refine ⟨?_, ?_, notMem_fixedPlaces hc _ _, notMem_cell hc _, List.forall_mem_nil _⟩
  · split
    · exact notMem_thousands hc _
    · exact hc.notMem (by decide)
  · split
    · exact notMem_bold hc (notMem_thousands hc _)
    · exact notMem_thousands hc _

theorem isRowOf_stackRow (record : Record) :
    IsRowOf record.key (tableRow [record.algorithm, record.operation, thousands record.stack]) :=
  ⟨_, List.cons_ne_nil _ _, rfl, fun _ hc =>
    List.forall_mem_singleton.2 (notMem_thousands hc record.stack)⟩

/-- A foreign character of a row comes from its names. -/
theorem IsRowOf.notMem {key : Key} {row : String} (h : IsRowOf key row) {c : Char}
    (hc : IsForeign c) (halgorithm : c ∉ key.algorithm.toList)
    (hoperation : c ∉ key.operation.toList) : c ∉ row.toList := by
  obtain ⟨figures, -, rfl, hfigures⟩ := h
  refine notMem_tableRow hc ?_
  simp only [List.forall_mem_cons]
  exact ⟨halgorithm, hoperation, hfigures c hc⟩

end FirmwareReport
