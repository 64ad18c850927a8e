import FirmwareReport.Proofs.Text.Utf8

/-!
# The lines of a text

A line ends with its line break, and what stands behind the last line break is a line too unless
it is empty: `FirmwareReport.Text.lines`. Bytes have lines as characters do, and the lines of bytes,
decoded one by one, are the lines of the decoded bytes
(`FirmwareReport.Text.map_decodeLossy_lines`).

Proofs about lines go from the front, one line break at a time (`FirmwareReport.Text.lineRec`).
-/

namespace FirmwareReport.Text

/-- A text is cut at its first line break, if it has one. -/
theorem lineRec {α : Type} {motive : List α → Prop} (newline : α)
    (last : ∀ s, newline ∉ s → motive s)
    (line : ∀ s rest, newline ∉ s → motive rest → motive (s ++ newline :: rest))
    (s : List α) : motive s := by
  induction hn : s.length using Nat.strongRecOn generalizing s with
  | ind n ih =>
    by_cases hmem : newline ∈ s
    · obtain ⟨front, rest, rfl, hfront⟩ := List.eq_append_cons_of_mem hmem
      refine line front rest hfront (ih rest.length ?_ rest rfl)
      rw [← hn, List.length_append, List.length_cons]
      omega
    · exact last s hmem

section Lines

variable {α : Type} [BEq α]

/-- **The finished lines** of a text, each with its line break. -/
def finishedLines (newline : α) (s : List α) : List (List α) :=
  (s.splitOn newline).dropLast.map (· ++ [newline])

/-- What stands behind the last line break. -/
def unfinishedLine (newline : α) (s : List α) : List α :=
  (s.splitOn newline).getLast (List.splitOn_ne_nil newline s)

/-- **The lines of a text**: the finished ones, and the unfinished one if it is not empty. -/
def lines (newline : α) (s : List α) : List (List α) :=
  finishedLines newline s ++
    if (unfinishedLine newline s).isEmpty then [] else [unfinishedLine newline s]

variable [LawfulBEq α] {newline : α} {s : List α}

theorem finishedLines_of_notMem (h : newline ∉ s) : finishedLines newline s = [] := by
  rw [finishedLines, List.splitOn_eq_singleton h]
  rfl

theorem finishedLines_append (h : newline ∉ s) (rest : List α) :
    finishedLines newline (s ++ newline :: rest) =
      (s ++ [newline]) :: finishedLines newline rest := by
  rw [finishedLines, finishedLines, List.splitOn_append_cons_self_of_not_mem h,
    List.dropLast_cons_of_ne_nil (List.splitOn_ne_nil newline rest), List.map_cons]

theorem lines_of_notMem (h : newline ∉ s) : lines newline s = if s.isEmpty then [] else [s] := by
  have hlast : unfinishedLine newline s = s := by
    simp [unfinishedLine, List.splitOn_eq_singleton h]
  rw [lines, finishedLines_of_notMem h, hlast, List.nil_append]

theorem lines_append (h : newline ∉ s) (rest : List α) :
    lines newline (s ++ newline :: rest) = (s ++ [newline]) :: lines newline rest := by
  have hlast : unfinishedLine newline (s ++ newline :: rest) = unfinishedLine newline rest := by
    simp [unfinishedLine, List.splitOn_append_cons_self_of_not_mem h,
      List.getLast_cons (List.splitOn_ne_nil newline rest)]
  rw [lines, lines, finishedLines_append h, hlast, List.cons_append]

end Lines

/-! ### Decoding line by line -/

theorem decodeLossy_append_singleton_newline (bytes : List UInt8) :
    decodeLossy (bytes ++ [0x0a]) = decodeLossy bytes ++ ['\n'] :=
  decodeLossy_append_newline bytes []

/-- **Decoding commutes with cutting into lines.** -/
theorem map_decodeLossy_lines (bytes : List UInt8) :
    (lines 0x0a bytes).map decodeLossy = lines '\n' (decodeLossy bytes) := by
  induction bytes using lineRec (0x0a : UInt8) with
  | last bytes h =>
    rw [lines_of_notMem h, lines_of_notMem (notMem_decodeLossy h)]
    cases bytes with
    | nil => rfl
    | cons byte bytes =>
      have hne : decodeLossy (byte :: bytes) ≠ [] := decodeLossy_ne_nil (List.cons_ne_nil _ _)
      simp [hne]
  | line bytes rest h ih =>
    rw [lines_append h, decodeLossy_append_newline, lines_append (notMem_decodeLossy h),
      List.map_cons, ih, decodeLossy_append_singleton_newline]

end FirmwareReport.Text
