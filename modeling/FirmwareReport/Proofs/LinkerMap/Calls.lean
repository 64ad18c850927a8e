import FirmwareReport.Footprint
import FirmwareReport.Proofs.LinkerMap.Contribution

/-!
# Reading a map call by call

A reader answers one call at a time. Each answer can be said without the reader: feed the lines of
the source to one cursor (`FirmwareReport.LinkerMap.Cursor.outcomes`); the calls hand out the
entries that come out, in order, then the failure if there is one, and then nothing any more
(`FirmwareReport.LinkerMap.Reader.call_eq`). A source that fails has its finished lines only
(`FirmwareReport.LinkerMap.sourceLines`).

The counts are said without the cursor too. When the k-th entry is handed out, as many lines are
counted as its line has in front of it and one more; when all is read, the counts are those of the
shapes of the lines, each taken behind the others in front of it
(`FirmwareReport.LinkerMap.accountOf`). Both are put together in
`FirmwareReport.LinkerMap.Reader.call_ofSource`.

All this depends on the decoded lines alone, so a reader of bytes and a reader of the decoded text
give the same answers (`FirmwareReport.LinkerMap.Reader.ofSource_agrees_ofText`).
-/

namespace FirmwareReport

namespace Footprint

open LinkerMap

/-- **A map has a footprint** unless its source fails. -/
theorem ofMap_eq_error_iff {catalog : Catalog} {bytes : List UInt8} {failure : Option String}
    {message : String} :
    ofMap catalog bytes failure = .error message ↔ failure = some message := by
  have hfailure := (Reader.fold_eq_foldl (fun (ledger : Ledger) entry _ => ledger.charge entry)
    (Ledger.start catalog) (Reader.ofSource bytes failure)).2
  rw [ofMap]
  rcases hfold : (Reader.ofSource bytes failure).fold
    (fun (ledger : Ledger) entry _ => ledger.charge entry) (Ledger.start catalog)
    with ⟨ledger, failed, rest⟩
  rw [hfold] at hfailure
  obtain rfl : failed = failure := hfailure
  cases failed <;> simp

end Footprint

namespace LinkerMap

open Text

/-! ### Lines, fed to a cursor one by one -/

/-- The entries among some outcomes, each with the number of its line; the first line has the
number `first`. -/
def numberedEntries (first : Nat) (outcomes : List Outcome) : List (Entry × Nat) :=
  (outcomes.zipIdx first).filterMap fun p => p.1.toOption.map (·, p.2)

/-- **The entries of some lines**, each with the number of its line. -/
def entriesOfLines (texts : List (List Char)) : List (Entry × Nat) :=
  numberedEntries 1 (Cursor.start.outcomes texts)

/-- Each line with the lines in front of it, of which `before` are in front of all. -/
def eachBehind (before : List Line) : List Line → List (List Line × Line)
  | [] => []
  | line :: lines => (before, line) :: eachBehind (before ++ [line]) lines

/-- **A contribution of an oversized number of bytes**: a full line, or a continuation with a
section in force, whose size does not fit into a word. -/
def Line.isOversizedBehind (before : List Line) : Line → Bool
  | .full _ size _ => wordLimit ≤ sizeValue size
  | .continuation size _ => (inForce before).isSome && wordLimit ≤ sizeValue size
  | .header _ | .unrecognized => false

/-- **An orphan**: a continuation without a section in force. -/
def Line.isOrphanBehind (before : List Line) : Line → Bool
  | .continuation _ _ => (inForce before).isNone
  | .full _ _ _ | .header _ | .unrecognized => false

/-- **The account of some lines**: how many they are, how many entries they have, and how many of
them are oversized or orphans. -/
def accountOf (texts : List (List Char)) : Stats where
  lines := texts.length
  entries := (entriesOfLines texts).length
  malformed := (eachBehind [] (texts.map Line.ofText)).countP fun p => p.2.isOversizedBehind p.1
  orphans := (eachBehind [] (texts.map Line.ofText)).countP fun p => p.2.isOrphanBehind p.1

/-- **The lines of a source**, decoded: all of them, or those that are finished if the source
fails. -/
def sourceLines (bytes : List UInt8) (failure : Option String) : List (List Char) :=
  match failure with
  | none => (lines 0x0a bytes).map decodeLossy
  | some _ => (finishedLines 0x0a bytes).map decodeLossy

/-! ### The account of a cursor -/

theorem numberedEntries_cons (first : Nat) (outcome : Outcome) (outcomes : List Outcome) :
    numberedEntries first (outcome :: outcomes) =
      (outcome.toOption.map (·, first)).toList ++ numberedEntries (first + 1) outcomes := by
  rw [numberedEntries, List.zipIdx_cons, List.filterMap_cons]
  cases outcome.toOption <;> rfl

/-- Counting outcome by outcome. -/
theorem foldl_count (stats : Stats) (first : Nat) (outcomes : List Outcome) :
    outcomes.foldl Stats.count stats =
      ⟨stats.lines + outcomes.length, stats.entries + (numberedEntries first outcomes).length,
        stats.malformed + outcomes.count .oversized, stats.orphans + outcomes.count .orphan⟩ := by
  induction outcomes generalizing stats first with
  | nil => rfl
  | cons outcome outcomes ih =>
    rw [List.foldl_cons, ih _ (first + 1), numberedEntries_cons, List.length_append]
    cases outcome <;> simp [Stats.count, Outcome.toOption] <;> omega

theorem ofSize_eq_oversized_iff {name size path : String} (h : IsHexWord size.toList) :
    Outcome.ofSize name size path = .oversized ↔ wordLimit ≤ sizeValue size := by
  rw [Outcome.ofSize, sizeBytes?_of_isHexWord h, sizeValue, word?]
  rcases Nat.lt_or_ge (positional 16 (size.toList.drop 2)) wordLimit with hlt | hge
  · simp [hlt, Nat.not_le.2 hlt]
  · simp [hge, Nat.not_lt.2 hge]

theorem ofSize_ne_orphan (name size path : String) : Outcome.ofSize name size path ≠ .orphan := by
  rw [Outcome.ofSize]
  cases sizeBytes? size.toList <;> simp

/-- **One line**: what the cursor makes of it is said by its shape and the lines in front of it. -/
theorem advance_eq_iff_of_current {cursor : Cursor} {before : List Line}
    (h : cursor.current = inForce before) (text : List Char) :
    ((cursor.advance text).1 = .oversized ↔
        (Line.ofText text).isOversizedBehind before = true) ∧
      ((cursor.advance text).1 = .orphan ↔ (Line.ofText text).isOrphanBehind before = true) := by
  rw [Cursor.advance]
  rcases shape_ofText text with hshape | hnone
  · generalize Line.ofText text = line, trimEnd text = trimmed at hshape
    cases hshape with
    | full hlead hname hgap hs =>
      simp [Line.isOversizedBehind, Line.isOrphanBehind, ofSize_eq_oversized_iff hs.isHexWord,
        ofSize_ne_orphan]
    | header hlead hname => simp [Line.isOversizedBehind, Line.isOrphanBehind]
    | continuation hgap hs =>
      cases hcurrent : cursor.current with
      | none => simp [Line.isOversizedBehind, Line.isOrphanBehind, ← h, hcurrent]
      | some name =>
        simp [Line.isOversizedBehind, Line.isOrphanBehind, ← h, hcurrent,
          ofSize_eq_oversized_iff hs.isHexWord, ofSize_ne_orphan]
  · simp [hnone, Line.isOversizedBehind, Line.isOrphanBehind]

/-- **All lines**: the outcomes of a kind are as many as the lines of that kind. -/
theorem count_outcomes {cursor : Cursor} {before : List Line}
    (h : cursor.current = inForce before) (texts : List (List Char)) :
    (cursor.outcomes texts).count .oversized =
        (eachBehind before (texts.map Line.ofText)).countP (fun p => p.2.isOversizedBehind p.1) ∧
      (cursor.outcomes texts).count .orphan =
        (eachBehind before (texts.map Line.ofText)).countP (fun p => p.2.isOrphanBehind p.1) := by
  -- The lines fed so far go to `before`, and the cursor holds the section in force behind them.
  induction texts generalizing cursor before with
  | nil => exact ⟨rfl, rfl⟩
  | cons text texts ih =>
    obtain ⟨hoversized, horphan⟩ := advance_eq_iff_of_current h text
    obtain ⟨ihOversized, ihOrphan⟩ := ih (advance_of_current h text).1
    rw [List.map_cons, eachBehind, Cursor.outcomes, List.count_cons, List.count_cons,
      List.countP_cons, List.countP_cons, ihOversized, ihOrphan]
    simp only [beq_iff_eq, hoversized, horphan, and_self]

/-- A cursor that has been fed all lines has counted their account. -/
theorem foldl_count_outcomes (texts : List (List Char)) :
    (Cursor.start.outcomes texts).foldl Stats.count .zero = accountOf texts := by
  have hlength : ∀ (cursor : Cursor), (cursor.outcomes texts).length = texts.length := by
    intro cursor
    induction texts generalizing cursor with
    | nil => rfl
    | cons text texts ih => rw [Cursor.outcomes, List.length_cons, ih, List.length_cons]
  have hstart : Cursor.start.current = inForce [] := rfl
  obtain ⟨hoversized, horphan⟩ := count_outcomes hstart texts
  rw [foldl_count _ 1, hlength, hoversized, horphan, accountOf, entriesOfLines]
  simp only [Stats.zero, Nat.zero_add]

/-! ### One call after another -/

/-- The answer to a call behind so many others, and the reader after it. -/
def Reader.call (r : Reader) : Nat → Option (Except String Entry) × Reader
  | 0 => r.next
  | k + 1 => r.next.2.call k

theorem map_lines_entriesFrom (cursor : Cursor) (stats : Stats) (pending : List (List UInt8)) :
    (entriesFrom cursor stats pending).map (fun p => (p.1, p.2.lines)) =
      numberedEntries (stats.lines + 1) (cursor.outcomes (pending.map decodeLossy)) := by
  induction pending generalizing cursor stats with
  | nil => rfl
  | cons line pending ih =>
    rcases hadvance : cursor.advance (decodeLossy line) with ⟨outcome, cursor'⟩
    have hlines : (stats.count outcome).lines = stats.lines + 1 := by cases outcome <;> rfl
    rw [entriesFrom_cons hadvance, List.map_append, ih, hlines, List.map_cons, Cursor.outcomes,
      hadvance, numberedEntries_cons]
    cases outcome.toOption <;> simp [hlines]

namespace Reader

/-- **All calls**: the entries in order, then the failure if there is one, then nothing; the counts
stay as they are when all is read. -/
theorem call_eq (r : Reader) (k : Nat) :
    ((r.call k).1 = match r.remaining[k]? with
      | some p => some (.ok p.1)
      | none => if k = r.remaining.length then r.failure.map .error else none) ∧
    (r.call k).2.stats = (r.remaining[k]?.map Prod.snd).getD r.finalStats := by
  induction k generalizing r with
  | zero =>
    rcases next_cases r with ⟨entry, r', hnext, hremaining, -, -⟩ | ⟨cursor, hnext, hremaining⟩
    · simp [call, hnext, hremaining]
    · simp [call, hnext, hremaining]
  | succ k ih =>
    obtain ⟨hanswer, hstats⟩ := ih r.next.2
    rw [call, hanswer, hstats]
    rcases next_cases r with ⟨entry, r', hnext, hremaining, hfailure, hfinal⟩ |
      ⟨cursor, hnext, hremaining⟩
    · simp [hnext, hremaining, hfailure, hfinal]
    · have hend : remaining ⟨[], none, cursor, r.finalStats⟩ = [] := rfl
      have hfinal : finalStats ⟨[], none, cursor, r.finalStats⟩ = r.finalStats := rfl
      simp [hnext, hremaining, hend, hfinal]

/-! ### A source of bytes -/

theorem texts_ofSource (bytes : List UInt8) (failure : Option String) :
    (ofSource bytes failure).texts = sourceLines bytes failure := by
  cases failure with
  | none => rw [texts, ofSource, linePieces_eq_lines, sourceLines]
  | some message => rw [texts, ofSource, filter_isComplete_linePieces, sourceLines]

theorem map_lines_remaining_ofSource (bytes : List UInt8) (failure : Option String) :
    (ofSource bytes failure).remaining.map (fun p => (p.1, p.2.lines)) =
      entriesOfLines (sourceLines bytes failure) := by
  rw [remaining, map_lines_entriesFrom, entriesOfLines, ← texts_ofSource]
  rfl

theorem finalStats_ofSource (bytes : List UInt8) (failure : Option String) :
    (ofSource bytes failure).finalStats = accountOf (sourceLines bytes failure) := by
  rw [← foldl_count_outcomes, ← texts_ofSource]
  rfl

/-- **What a reader answers**, when its source delivers the first `n` bytes and then ends or fails:
the entries of the lines, each while the line it stands in is the last one counted; then the
failure, once; and then nothing. In the end the counts are the account of the lines, and a failure
is the only reason for a map to have no footprint. -/
theorem call_ofSource (bytes : List UInt8) (n : Nat) (failure : Option String) :
    (∀ (k : Nat) (entry : Entry) (line : Nat),
      (entriesOfLines (sourceLines (bytes.take n) failure))[k]? = some (entry, line) →
        ((ofSource (bytes.take n) failure).call k).1 = some (.ok entry) ∧
          ((ofSource (bytes.take n) failure).call k).2.stats.lines = line) ∧
    (∀ k, (accountOf (sourceLines (bytes.take n) failure)).entries ≤ k →
      ((ofSource (bytes.take n) failure).call k).1 =
          (if k = (accountOf (sourceLines (bytes.take n) failure)).entries then
            failure.map .error else none) ∧
        ((ofSource (bytes.take n) failure).call k).2.stats =
          accountOf (sourceLines (bytes.take n) failure)) ∧
    ∀ (catalog : Catalog) (message : String),
      Footprint.ofMap catalog (bytes.take n) failure = .error message ↔
        failure = some message := by
  generalize bytes.take n = delivered
  have hentries := map_lines_remaining_ofSource delivered failure
  have hlength : (accountOf (sourceLines delivered failure)).entries =
      (ofSource delivered failure).remaining.length := by
    rw [accountOf, ← hentries, List.length_map]
  refine ⟨fun k entry line hentry => ?_, fun k hle => ?_, fun _ _ => Footprint.ofMap_eq_error_iff⟩
  · obtain ⟨hanswer, hstats⟩ := call_eq (ofSource delivered failure) k
    rw [← hentries, List.getElem?_map, Option.map_eq_some_iff] at hentry
    obtain ⟨⟨entry', stats⟩, hremaining, heq⟩ := hentry
    obtain ⟨rfl, rfl⟩ : entry' = entry ∧ stats.lines = line := by simpa using heq
    rw [hanswer, hstats, hremaining]
    exact ⟨rfl, rfl⟩
  · obtain ⟨hanswer, hstats⟩ := call_eq (ofSource delivered failure) k
    rw [hlength] at hle ⊢
    rw [hanswer, hstats, List.getElem?_eq_none hle, ← finalStats_ofSource]
    exact ⟨rfl, rfl⟩

/-- A source that fails in front of a line break, with an orphan, an oversized size and one with
zeros in front among its lines. -/
theorem call_ofSource_failing :
    ∃ r, r = ofSource ((encode (" 0x0 0x1 a\n.bss 0x0 0x8 b\n 0x0 0x10000000000000000 c\n" ++
        " 0x0 0x00000000000000001F8 d\nLOAD\n").toList).take 86) (some "gone") ∧
      (r.call 0).1 = some (.ok ⟨".bss", 8, "b"⟩) ∧ (r.call 0).2.stats.lines = 2 ∧
      (r.call 1).1 = some (.ok ⟨".bss", 504, "d"⟩) ∧ (r.call 1).2.stats.lines = 4 ∧
      (r.call 2).1 = some (.error "gone") ∧ (r.call 2).2.stats = ⟨4, 2, 1, 1⟩ ∧
      (r.call 3).1 = none := by
  obtain ⟨bytes, hbytes⟩ : ∃ bytes, bytes =
      encode (" 0x0 0x1 a\n.bss 0x0 0x8 b\n 0x0 0x10000000000000000 c\n" ++
        " 0x0 0x00000000000000001F8 d\nLOAD\n").toList := ⟨_, rfl⟩
  have hentries : entriesOfLines (sourceLines (bytes.take 86) (some "gone")) =
      [(⟨".bss", 8, "b"⟩, 2), (⟨".bss", 504, "d"⟩, 4)] := by
    subst hbytes
    decide +kernel
  have haccount : accountOf (sourceLines (bytes.take 86) (some "gone")) = ⟨4, 2, 1, 1⟩ := by
    subst hbytes
    decide +kernel
  obtain ⟨hhanded, hend, -⟩ := call_ofSource bytes 86 (some "gone")
  rw [hentries] at hhanded
  rw [haccount] at hend
  obtain ⟨hfirst, hfirstLine⟩ := hhanded 0 _ _ rfl
  obtain ⟨hsecond, hsecondLine⟩ := hhanded 1 _ _ rfl
  obtain ⟨hfailure, hstats⟩ := hend 2 le_rfl
  rw [← hbytes]
  exact ⟨_, rfl, hfirst, hfirstLine, hsecond, hsecondLine, hfailure, hstats,
    (hend 3 (by decide)).1⟩

/-! ### Bytes and text -/

/-- What a reader hands out depends on its decoded lines. -/
theorem entriesFrom_congr {pending pending' : List (List UInt8)}
    (h : pending.map decodeLossy = pending'.map decodeLossy) (cursor : Cursor) (stats : Stats) :
    entriesFrom cursor stats pending = entriesFrom cursor stats pending' := by
  induction pending generalizing pending' cursor stats with
  | nil =>
    obtain rfl := List.map_eq_nil_iff.1 h.symm
    rfl
  | cons line pending ih =>
    cases pending' with
    | nil => cases h
    | cons line' pending' =>
      obtain ⟨hline, h⟩ := List.cons_eq_cons.1 h
      rcases hadvance : cursor.advance (decodeLossy line) with ⟨outcome, cursor'⟩
      rw [entriesFrom_cons hadvance, entriesFrom_cons (hline ▸ hadvance), ih h]

/-- **Bytes and the text they are decoded to are read alike**: the same entries from lines of the
same number, the same counts, and the same answer to every call. Decoding line by line is decoding
the whole and cutting it then. -/
theorem ofSource_agrees_ofText (bytes : List UInt8) :
    (ofSource bytes none).entries.1 = (ofText (decodeLossy bytes)).entries.1 ∧
    (ofSource bytes none).entries.2.2.stats = (ofText (decodeLossy bytes)).entries.2.2.stats ∧
    (∀ k, ((ofSource bytes none).call k).1 = ((ofText (decodeLossy bytes)).call k).1 ∧
      ((ofSource bytes none).call k).2.stats = ((ofText (decodeLossy bytes)).call k).2.stats) ∧
    (lines 0x0a bytes).map decodeLossy = lines '\n' (decodeLossy bytes) := by
  have htexts : (ofSource bytes none).texts = (ofText (decodeLossy bytes)).texts := by
    rw [ofText, texts_ofSource, texts_ofSource, sourceLines, sourceLines, map_decodeLossy_lines,
      map_decodeLossy_lines, decodeLossy_encode]
  have hremaining : (ofSource bytes none).remaining = (ofText (decodeLossy bytes)).remaining :=
    entriesFrom_congr htexts .start .zero
  have hfinal : (ofSource bytes none).finalStats = (ofText (decodeLossy bytes)).finalStats := by
    rw [finalStats, htexts]
    rfl
  refine ⟨?_, ?_, fun k => ?_, map_decodeLossy_lines bytes⟩
  · rw [(entries_eq _).1, (entries_eq _).1, hremaining]
  · rw [(entries_eq _).2, (entries_eq _).2, hfinal]
  · obtain ⟨hanswer, hstats⟩ := call_eq (ofSource bytes none) k
    obtain ⟨hanswer', hstats'⟩ := call_eq (ofText (decodeLossy bytes)) k
    rw [hanswer, hstats, hanswer', hstats', hremaining, hfinal]
    exact ⟨rfl, rfl⟩

end Reader

end LinkerMap

end FirmwareReport
