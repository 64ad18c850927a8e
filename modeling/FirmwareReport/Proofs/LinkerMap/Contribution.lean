import FirmwareReport.Proofs.LinkerMap.Reading

/-!
# What a map contributes

A map says how many bytes of which sections come from which object files. Read without a reader,
each line says so by itself and by the lines in front of it: a continuation belongs to the section
in force, the one **named last** in front of it (`FirmwareReport.LinkerMap.contribution?`). A line
whose size does not fit into a word contributes nothing, but a section it names is in force from
there on.

The entries that a reader hands out are these contributions, in order
(`FirmwareReport.LinkerMap.map_fst_entriesFrom`). The invariant is that the cursor holds the
section in force.
-/

namespace FirmwareReport.LinkerMap

open Text

/-- The section that a line names: a full line or a header names one. -/
def Line.named? : Line → Option String
  | .full name _ _ | .header name => some name
  | .continuation _ _ | .unrecognized => none

/-- The section in force behind some lines: the one that is named last. -/
def inForce (lines : List Line) : Option String :=
  (lines.filterMap Line.named?).getLast?

/-- The value of the digits of a size, however large. -/
def sizeValue (size : String) : Nat :=
  positional 16 (size.toList.drop 2)

/-- So many bytes of a section, if their number fits into a word. -/
def entryOf? (name size path : String) : Option Entry :=
  if sizeValue size < wordLimit then some ⟨name, sizeValue size, path⟩ else none

/-- **What a line contributes** behind others. -/
def contribution? (before : List Line) : Line → Option Entry
  | .full name size path => entryOf? name size path
  | .continuation size path => (inForce before).bind fun name => entryOf? name size path
  | .header _ | .unrecognized => none

/-- **What lines contribute**, each behind those in front of it. -/
def contributions (lines : List Line) : List Entry :=
  lines.zipIdx.filterMap fun p => contribution? (lines.take p.2) p.1

/-! ### Line by line -/

/-- What lines contribute behind others. -/
def contributionsBehind (before lines : List Line) : List Entry :=
  (lines.zipIdx before.length).filterMap fun p => contribution? ((before ++ lines).take p.2) p.1

theorem contributions_eq_behind (lines : List Line) :
    contributions lines = contributionsBehind [] lines := rfl

theorem contributionsBehind_cons (before : List Line) (line : Line) (lines : List Line) :
    contributionsBehind before (line :: lines) =
      (contribution? before line).toList ++ contributionsBehind (before ++ [line]) lines := by
  have htake : (before ++ [line] ++ lines).take before.length = before := by simp
  rw [contributionsBehind, contributionsBehind, List.zipIdx_cons, List.filterMap_cons,
    List.append_cons, htake, List.length_append, List.length_singleton]
  cases contribution? before line <;> rfl

/-- A line without a shape contributes nothing at the end. -/
theorem contributionsBehind_append_unrecognized (before lines : List Line) :
    contributionsBehind before (lines ++ [.unrecognized]) = contributionsBehind before lines := by
  induction lines generalizing before with
  | nil => rfl
  | cons line lines ih =>
    rw [List.cons_append, contributionsBehind_cons, contributionsBehind_cons, ih]

/-! ### The cursor holds the section in force -/

theorem inForce_append (lines : List Line) (line : Line) :
    inForce (lines ++ [line]) = line.named?.or (inForce lines) := by
  rw [inForce, List.filterMap_append, List.getLast?_append]
  cases h : line.named? <;> simp [h, inForce]

/-- A size as the grammar has it is worth its digits. -/
theorem sizeBytes?_of_isHexWord {size : List Char} (h : IsHexWord size) :
    sizeBytes? size = word? 16 (size.drop 2) := by
  obtain ⟨digits, rfl, hne, hall⟩ := h
  -- A numeral may have a sign, but the grammar lets none through.
  have hplus : ∀ rest, digits ≠ '+' :: rest := by
    rintro rest rfl
    exact absurd hall (by simp [isDigitOf, digitValue?])
  change unsigned? 16 digits = word? 16 digits
  rw [unsigned?]
  · simp [hne, hall]
  · exact hplus

theorem toOption_ofSize {name size path : String} (h : IsHexWord size.toList) :
    (Outcome.ofSize name size path).toOption = entryOf? name size path := by
  rw [Outcome.ofSize, sizeBytes?_of_isHexWord h, entryOf?, sizeValue, word?]
  by_cases hlt : positional 16 (size.toList.drop 2) < wordLimit <;> simp [hlt, Outcome.toOption]

theorem IsSizeAndPath.isHexWord {s size path : List Char} (h : IsSizeAndPath s size path) :
    IsHexWord size := by
  obtain ⟨_, _, _, -, -, hword, -⟩ := h
  exact hword

/-- **One line**: the cursor goes on holding the section in force, and what comes out is what the
line contributes. -/
theorem advance_of_current {cursor : Cursor} {before : List Line}
    (h : cursor.current = inForce before) (text : List Char) :
    (cursor.advance text).2.current = inForce (before ++ [Line.ofText text]) ∧
      (cursor.advance text).1.toOption = contribution? before (Line.ofText text) := by
  rw [inForce_append, Cursor.advance]
  rcases shape_ofText text with hshape | hnone
  · generalize Line.ofText text = line, trimEnd text = trimmed at hshape
    cases hshape with
    | full hlead hname hgap hs => exact ⟨rfl, toOption_ofSize hs.isHexWord⟩
    | header hlead hname => exact ⟨rfl, rfl⟩
    | continuation hgap hs =>
      simp only [Line.named?, Option.none_or, contribution?]
      cases hcurrent : cursor.current with
      | none => simp [← h, hcurrent, Outcome.toOption]
      | some name => simp [← h, hcurrent, toOption_ofSize hs.isHexWord]
  · rw [hnone]
    exact ⟨h, rfl⟩

/-- **All lines**: what a reader hands out is what its lines contribute. -/
theorem map_fst_entriesFrom {cursor : Cursor} {before : List Line}
    (h : cursor.current = inForce before) (stats : Stats) (pending : List (List UInt8)) :
    (entriesFrom cursor stats pending).map Prod.fst =
      contributionsBehind before (pending.map fun piece => Line.ofText (decodeLossy piece)) := by
  -- The lines read so far go to `before`, and the cursor holds the section in force behind them.
  induction pending generalizing cursor before stats with
  | nil => rfl
  | cons line pending ih =>
    obtain ⟨hcurrent, hentry⟩ := advance_of_current h (decodeLossy line)
    rcases hadvance : cursor.advance (decodeLossy line) with ⟨outcome, cursor'⟩
    rw [hadvance] at hcurrent hentry
    rw [List.map_cons, contributionsBehind_cons, ← hentry, entriesFrom_cons hadvance,
      List.map_append, ih hcurrent]
    cases outcome.toOption <;> rfl

/-- **The entries of a map** are what the lines of the text contribute. -/
theorem map_fst_entriesFrom_linePieces (bytes : List UInt8) :
    (entriesFrom .start .zero (linePieces bytes)).map Prod.fst =
      contributions (((decodeLossy bytes).splitOn '\n').map Line.ofText) := by
  obtain ⟨empty, hempty, hlines⟩ := map_ofText_splitOn bytes
  have hstart : Cursor.start.current = inForce [] := rfl
  rw [map_fst_entriesFrom hstart, contributions_eq_behind, hlines]
  rcases hempty with rfl | rfl
  · rw [List.append_nil]
  · rw [contributionsBehind_append_unrecognized]

/-- **The entries that a reader of the map hands out** are what the lines contribute. -/
theorem Reader.map_fst_entries_ofSource (bytes : List UInt8) :
    (Reader.ofSource bytes none).entries.1.map Prod.fst =
      contributions (((decodeLossy bytes).splitOn '\n').map Line.ofText) := by
  rw [(entries_eq _).1, ← map_fst_entriesFrom_linePieces, List.map_map]
  rfl

end FirmwareReport.LinkerMap
