import FirmwareReport.LinkerMap.Reader
import FirmwareReport.Proofs.Text.Lines
import FirmwareReport.Proofs.LinkerMap.Shape

/-!
# A whole map, read at once

A reader takes a map in pieces, decodes each on its own and hands out one entry at a time. Nothing
of this shows in what comes out.

* The pieces, decoded, are the lines of the map decoded as a whole
  (`FirmwareReport.LinkerMap.map_ofText_splitOn`); an empty line at the end has no shape.
* Each call hands out the entry of the next line that has one
  (`FirmwareReport.LinkerMap.Reader.next_cases`), so a fold over a reader is a fold over the entries
  that the lines hand out (`FirmwareReport.LinkerMap.Reader.fold_eq_foldl`).
-/

namespace FirmwareReport.LinkerMap

open Text

/-! ### Pieces and lines -/

theorem linePieces_of_notMem {bytes : List UInt8} (h : 0x0a ∉ bytes) :
    linePieces bytes = if bytes = [] then [] else [bytes] := by
  induction bytes with
  | nil => rfl
  | cons byte bytes ih =>
    obtain ⟨hbyte, hbytes⟩ : 0x0a ≠ byte ∧ 0x0a ∉ bytes := by simpa using h
    have ih := ih hbytes
    simp only [linePieces, List.foldr_cons] at ih ⊢
    -- The bytes behind are no piece or one, and a byte in front joins that one.
    rw [ih, if_neg hbyte.symm]
    split
    · next heq =>
      have hnil : bytes = [] := by
        by_contra hne
        simp [hne] at heq
      simp [hnil]
    · next piece pieces heq =>
      split at heq
      · cases heq
      · obtain ⟨rfl, rfl⟩ := List.cons_eq_cons.1 heq
        simp

/-- A newline ends a piece. -/
theorem linePieces_append_newline {bytes : List UInt8} (h : 0x0a ∉ bytes) (rest : List UInt8) :
    linePieces (bytes ++ 0x0a :: rest) = (bytes ++ [0x0a]) :: linePieces rest := by
  induction bytes with
  | nil => rfl
  | cons byte bytes ih =>
    obtain ⟨hbyte, hbytes⟩ : 0x0a ≠ byte ∧ 0x0a ∉ bytes := by simpa using h
    have ih := ih hbytes
    simp only [linePieces, List.cons_append, List.foldr_cons] at ih ⊢
    rw [ih, if_neg hbyte.symm]

/-- **The pieces are the lines of the bytes.** -/
theorem linePieces_eq_lines (bytes : List UInt8) : linePieces bytes = lines 0x0a bytes := by
  induction bytes using lineRec (0x0a : UInt8) with
  | last bytes h =>
    rw [linePieces_of_notMem h, lines_of_notMem h]
    cases bytes <;> rfl
  | line bytes rest h ih => rw [linePieces_append_newline h, lines_append h, ih]

/-- **The complete pieces are the finished lines.** -/
theorem filter_isComplete_linePieces (bytes : List UInt8) :
    (linePieces bytes).filter isComplete = finishedLines 0x0a bytes := by
  induction bytes using lineRec (0x0a : UInt8) with
  | last bytes h =>
    rw [linePieces_of_notMem h, finishedLines_of_notMem h]
    split
    · rfl
    · have hlast : isComplete bytes = false := by
        rw [isComplete, beq_eq_false_iff_ne]
        exact fun heq => h (List.mem_of_getLast? heq)
      simp [hlast]
  | line bytes rest h ih =>
    have hlast : isComplete (bytes ++ [0x0a]) = true := by simp [isComplete]
    rw [linePieces_append_newline h, finishedLines_append h, List.filter_cons_of_pos hlast, ih]

theorem ofText_append_newline (s : List Char) : Line.ofText (s ++ ['\n']) = Line.ofText s := by
  rw [Line.ofText, Line.ofText, trimEnd_append (by decide)]

/-- **Cutting before decoding or after** makes no difference to the shapes: but for an empty line
at the end, which has none. -/
theorem map_ofText_splitOn (bytes : List UInt8) :
    ∃ empty, (empty = [] ∨ empty = [Line.unrecognized]) ∧
      ((decodeLossy bytes).splitOn '\n').map Line.ofText =
        (linePieces bytes).map (fun piece => Line.ofText (decodeLossy piece)) ++ empty := by
  induction bytes using lineRec (0x0a : UInt8) with
  | last bytes h =>
    rw [linePieces_of_notMem h, List.splitOn_eq_singleton (notMem_decodeLossy h)]
    split
    · next hnil =>
      subst hnil
      exact ⟨[.unrecognized], Or.inr rfl, by decide⟩
    · exact ⟨[], Or.inl rfl, rfl⟩
  | line bytes rest h ih =>
    obtain ⟨empty, hempty, heq⟩ := ih
    refine ⟨empty, hempty, ?_⟩
    rw [linePieces_append_newline h, decodeLossy_append_newline,
      List.splitOn_append_cons_self_of_not_mem (notMem_decodeLossy h), List.map_cons, List.map_cons,
      heq, decodeLossy_append_singleton_newline, ofText_append_newline, List.cons_append]

/-! ### Entries -/

/-- The entry of an outcome, if it has one. -/
def Outcome.toOption : Outcome → Option Entry
  | .entry e => some e
  | .oversized | .orphan | .nothing => none

/-- What lines contribute, fed to a cursor one by one. -/
def Cursor.outcomes (cursor : Cursor) : List (List Char) → List Outcome
  | [] => []
  | text :: texts => (cursor.advance text).1 :: (cursor.advance text).2.outcomes texts

/-- The entries that lines hand out, each with the counts at that moment. -/
def entriesFrom (cursor : Cursor) (stats : Stats) : List (List UInt8) → List (Entry × Stats)
  | [] => []
  | line :: pending =>
    match cursor.advance (decodeLossy line) with
    | (.entry entry, cursor) =>
      (entry, stats.count (.entry entry)) ::
        entriesFrom cursor (stats.count (.entry entry)) pending
    | (outcome, cursor) => entriesFrom cursor (stats.count outcome) pending

section Step

variable {cursor cursor' : Cursor} {line : List UInt8} {outcome : Outcome}
  (h : cursor.advance (decodeLossy line) = (outcome, cursor'))
include h

/-- **One line** hands out its entry, if it has one, and moves the cursor and the counts. -/
theorem entriesFrom_cons (stats : Stats) (pending : List (List UInt8)) :
    entriesFrom cursor stats (line :: pending) =
      (outcome.toOption.map (·, stats.count outcome)).toList ++
        entriesFrom cursor' (stats.count outcome) pending := by
  rw [entriesFrom, h]
  cases outcome <;> rfl

theorem Reader.nextFrom_cons (failure : Option String) (stats : Stats)
    (pending : List (List UInt8)) :
    Reader.nextFrom failure cursor stats (line :: pending) = match outcome.toOption with
      | some entry => (some (.ok entry), ⟨pending, failure, cursor', stats.count outcome⟩)
      | none => Reader.nextFrom failure cursor' (stats.count outcome) pending := by
  rw [Reader.nextFrom, h]
  cases outcome <;> rfl

end Step

namespace Reader

/-- The lines that are still to be read, decoded. -/
def texts (r : Reader) : List (List Char) :=
  r.pending.map decodeLossy

/-- The entries still to be handed out, each with the counts at that moment. -/
def remaining (r : Reader) : List (Entry × Stats) :=
  entriesFrom r.cursor r.stats r.pending

/-- The counts when all is read. -/
def finalStats (r : Reader) : Stats :=
  (r.cursor.outcomes r.texts).foldl Stats.count r.stats

/-- **One call** hands out the next entry, with the counts at that moment; if there is none, the
failure or nothing, and the reader is at its end. -/
theorem next_cases (r : Reader) :
    (∃ entry r', r.next = (some (.ok entry), r') ∧
      r.remaining = (entry, r'.stats) :: r'.remaining ∧ r'.failure = r.failure ∧
      r'.finalStats = r.finalStats) ∨
    ∃ cursor, r.next = (r.failure.map .error, ⟨[], none, cursor, r.finalStats⟩) ∧
      r.remaining = [] := by
  obtain ⟨pending, failure, cursor, stats⟩ := r
  induction pending generalizing cursor stats with
  | nil =>
    refine Or.inr ⟨cursor, ?_, rfl⟩
    cases failure <;> rfl
  | cons line pending ih =>
    rcases hadvance : cursor.advance (decodeLossy line) with ⟨outcome, cursor'⟩
    have hfinal : finalStats ⟨line :: pending, failure, cursor, stats⟩ =
        finalStats ⟨pending, failure, cursor', stats.count outcome⟩ := by
      simp only [finalStats, texts, List.map_cons, Cursor.outcomes, hadvance, List.foldl_cons]
    rw [next, nextFrom_cons hadvance, remaining, entriesFrom_cons hadvance, hfinal]
    cases outcome.toOption with
    | some entry => exact Or.inl ⟨entry, _, rfl, rfl, rfl, rfl⟩
    | none => exact ih cursor' (stats.count outcome)

/-- **A reader, call by call**: from the reader after a call to the one in front of it. -/
theorem callRec {motive : Reader → Prop}
    (entry : ∀ (r : Reader) (entry : Entry) (r' : Reader), r.next = (some (.ok entry), r') →
      r.remaining = (entry, r'.stats) :: r'.remaining → r'.failure = r.failure →
      r'.finalStats = r.finalStats → motive r' → motive r)
    (last : ∀ (r : Reader) (cursor : Cursor),
      r.next = (r.failure.map .error, ⟨[], none, cursor, r.finalStats⟩) → r.remaining = [] →
      motive r)
    (r : Reader) : motive r := by
  induction hn : r.remaining.length generalizing r with
  | zero =>
    rcases next_cases r with ⟨e, r', -, hremaining, -⟩ | ⟨cursor, hnext, hremaining⟩
    · simp [hremaining] at hn
    · exact last r cursor hnext hremaining
  | succ n ih =>
    rcases next_cases r with ⟨e, r', hnext, hremaining, hfailure, hfinal⟩ | ⟨cursor, -, hremaining⟩
    · have hlength : r'.remaining.length = n := by simpa [hremaining] using hn
      exact entry r e r' hnext hremaining hfailure hfinal (ih r' hlength)
    · simp [hremaining] at hn

variable {σ : Type} (step : σ → Entry → Stats → σ)

theorem fold_eq_next (state : σ) (r : Reader) : r.fold step state =
    match r.next with
    | (some (.ok entry), r') => r'.fold step (step state entry r'.stats)
    | (some (.error message), r') => (state, some message, r')
    | (none, r') => (state, none, r') := by
  rw [fold]
  split <;> simp [*]

/-- **A fold over a reader** is a fold over the entries of its lines, and fails as its source
does. -/
theorem fold_eq_foldl (state : σ) (r : Reader) :
    (r.fold step state).1 =
        (entriesFrom r.cursor r.stats r.pending).foldl (fun s p => step s p.1 p.2) state ∧
      (r.fold step state).2.1 = r.failure := by
  rw [← remaining]
  induction r using callRec generalizing state with
  | entry r entry r' hnext hremaining hfailure hfinal ih =>
    rw [fold_eq_next, hnext, hremaining, List.foldl_cons, ← hfailure]
    exact ih (step state entry r'.stats)
  | last r cursor hnext hremaining =>
    rw [fold_eq_next, hnext, hremaining]
    cases r.failure <;> exact ⟨rfl, rfl⟩

/-- A fold over a reader leaves the counts of all its lines. -/
theorem stats_fold (state : σ) (r : Reader) : (r.fold step state).2.2.stats = r.finalStats := by
  induction r using callRec generalizing state with
  | entry r entry r' hnext hremaining hfailure hfinal ih =>
    rw [fold_eq_next, hnext, ← hfinal]
    exact ih (step state entry r'.stats)
  | last r cursor hnext hremaining =>
    rw [fold_eq_next, hnext]
    cases r.failure <;> rfl

/-- **All entries at once**, each with the number of its line. -/
theorem entries_eq (r : Reader) :
    r.entries.1 = r.remaining.map (fun p => (p.1, p.2.lines)) ∧
      r.entries.2.2.stats = r.finalStats := by
  refine ⟨?_, stats_fold _ _ r⟩
  -- The entries are collected in front, and reversed at the end.
  rw [entries, ← List.reverse_inj, List.reverse_reverse, (fold_eq_foldl _ [] r).1]
  simp [remaining, ← List.map_reverse]

end Reader

end FirmwareReport.LinkerMap
