import Mathlib.Logic.Relation
import FirmwareReport.Proofs.Footprint.Exact
import FirmwareReport.Proofs.LinkerMap.Calls

/-!
# Noise and line endings

A map passes through tools that break its lines differently, pad them, or put lines of their own
between those of the linker. A reader does not notice: it hands out the same entries, and counts as
many oversized sizes and as many orphans (`FirmwareReport.LinkerMap.Reader.entries_of_edits`).

What such a tool may do is `FirmwareReport.LinkerMap.Edit`, one change at a time. What a reader
makes of a map is `FirmwareReport.LinkerMap.told`: the outcomes of its lines, without those that say
nothing. No edit changes it, for every cursor that the map may be read with. This is to be shown for
a map of one line only, since a line in front of the place of the edit tells the same in both maps
and leaves the same cursor (`FirmwareReport.LinkerMap.told_append_congr`).

Edits are made to bytes and lines are read from characters. An edit behind a character that is cut
off stays an edit when the bytes are decoded, for the cut-off character ends there in either case
(`FirmwareReport.Text.decodeLossy_append_encode`).
-/

namespace FirmwareReport.LinkerMap

open Text

/-! ### Edits -/

/-- **An edit** that leaves a map as it reads. -/
inductive Edit : List UInt8 → List UInt8 → Prop
  /-- A line that has no shape is put in where a line begins. -/
  | noise {front noise rest : List UInt8} (hfront : front = [] ∨ front.getLast? = some 0x0a)
      (hnoise : 0x0a ∉ noise) (hshape : Line.ofText (decodeLossy noise) = .unrecognized) :
      Edit (front ++ rest) (front ++ (noise ++ 0x0a :: rest))
  /-- White space is put in where a line ends, in front of its line break. -/
  | blanks {front rest : List UInt8} {blanks : List Char} (hblanks : isAllBlank blanks = true)
      (hnewline : '\n' ∉ blanks) :
      Edit (front ++ 0x0a :: rest) (front ++ (encode blanks ++ 0x0a :: rest))
  /-- A line break is put in at the end. -/
  | final (bytes : List UInt8) : Edit bytes (bytes ++ [0x0a])

/-! ### What a text tells -/

/-- **What a text tells** to a cursor: the outcomes of its lines, without those that say nothing. -/
def told (cursor : Cursor) (text : List Char) : List Outcome :=
  (cursor.outcomes (lines '\n' text)).filter (· ≠ .nothing)

theorem ofText_append_of_isAllBlank {blanks : List Char} (h : isAllBlank blanks = true)
    (s : List Char) : Line.ofText (s ++ blanks) = Line.ofText s := by
  rw [Line.ofText, Line.ofText, trimEnd_append h]

/-- A cursor looks at the shape of a line. -/
theorem advance_congr {text text' : List Char} (h : Line.ofText text = Line.ofText text')
    (cursor : Cursor) : cursor.advance text = cursor.advance text' := by
  rw [Cursor.advance, Cursor.advance, h]

theorem advance_of_unrecognized {text : List Char} (h : Line.ofText text = .unrecognized)
    (cursor : Cursor) : cursor.advance text = (.nothing, cursor) := by
  rw [Cursor.advance, h]

section Told

variable {s : List Char} (h : '\n' ∉ s)
include h

/-- **The first line** tells its outcome, and the others what they tell behind it. -/
theorem told_append (cursor : Cursor) (rest : List Char) : told cursor (s ++ '\n' :: rest) =
    [(cursor.advance s).1].filter (· ≠ .nothing) ++ told (cursor.advance s).2 rest := by
  rw [told, lines_append h, Cursor.outcomes, advance_congr (ofText_append_newline s), told,
    ← List.filter_append, List.singleton_append]

theorem told_of_notMem (cursor : Cursor) :
    told cursor s = [(cursor.advance s).1].filter (· ≠ .nothing) := by
  rw [told, lines_of_notMem h]
  split
  · next hnil =>
    have hshape : Line.ofText [] = .unrecognized := by decide
    rw [List.isEmpty_iff.1 hnil, advance_of_unrecognized hshape]
    rfl
  · rfl

end Told

/-- **What stands in front of the line of an edit** does not matter. -/
theorem told_append_congr {text text' : List Char}
    (h : ∀ cursor s, '\n' ∉ s → told cursor (s ++ text) = told cursor (s ++ text'))
    (cursor : Cursor) (front : List Char) :
    told cursor (front ++ text) = told cursor (front ++ text') := by
  induction front using lineRec '\n' generalizing cursor with
  | last s hs => exact h cursor s hs
  | line s rest hs ih =>
    rw [List.append_assoc, List.append_assoc, List.cons_append, List.cons_append, told_append hs,
      told_append hs, ih]

/-! ### Each edit -/

section Edits

variable (cursor : Cursor)

/-- A line without a shape tells nothing. -/
theorem told_noise {noise : List Char} (hnoise : '\n' ∉ noise)
    (hshape : Line.ofText noise = .unrecognized) (rest : List Char) :
    told cursor (noise ++ '\n' :: rest) = told cursor rest := by
  rw [told_append hnoise, advance_of_unrecognized hshape]
  rfl

/-- White space at the end of a line tells nothing. -/
theorem told_blanks {blanks : List Char} (hblanks : isAllBlank blanks = true)
    (hnewline : '\n' ∉ blanks) (front rest : List Char) :
    told cursor (front ++ (blanks ++ '\n' :: rest)) = told cursor (front ++ '\n' :: rest) := by
  refine told_append_congr (fun cursor s hs => ?_) cursor front
  have hline : '\n' ∉ s ++ blanks := by simp [hs, hnewline]
  rw [← List.append_assoc, told_append hline, told_append hs,
    advance_congr (ofText_append_of_isAllBlank hblanks s)]

/-- A line break at the end tells nothing. -/
theorem told_final (text : List Char) : told cursor (text ++ ['\n']) = told cursor text := by
  have hfinal : ∀ cursor s, '\n' ∉ s → told cursor (s ++ ['\n']) = told cursor (s ++ []) := by
    intro cursor s hs
    rw [told_append hs, List.append_nil s, told_of_notMem hs]
    exact List.append_nil _
  rw [told_append_congr hfinal, List.append_nil]

/-- **One edit** leaves what is told. -/
theorem Edit.told_eq {bytes bytes' : List UInt8} (h : Edit bytes bytes') :
    told cursor (decodeLossy bytes') = told cursor (decodeLossy bytes) := by
  cases h with
  | @noise front noise rest hfront hnoise hshape =>
    have hline : ∀ cursor, told cursor (decodeLossy (noise ++ 0x0a :: rest)) =
        told cursor (decodeLossy rest) := by
      intro cursor
      rw [decodeLossy_append_newline, told_noise cursor (notMem_decodeLossy hnoise) hshape]
    rcases hfront with rfl | hlast
    · exact hline cursor
    · -- The line in front ends with a line break, so the noise is a line by itself.
      obtain ⟨front, rfl⟩ := List.getLast?_eq_some_iff.1 hlast
      rw [List.append_assoc, List.append_assoc, List.singleton_append, List.singleton_append,
        decodeLossy_append_newline front, decodeLossy_append_newline front]
      refine told_append_congr (fun cursor s hs => ?_) cursor _
      rw [told_append hs, told_append hs, hline]
  | blanks hblanks hnewline =>
    rw [← List.append_assoc, decodeLossy_append_newline, decodeLossy_append_encode,
      List.append_assoc, told_blanks cursor hblanks hnewline, ← decodeLossy_append_newline]
  | final =>
    rw [decodeLossy_append_singleton_newline, told_final]

/-- **Any number of edits**, one after the other, leave what is told. -/
theorem told_eq_of_edits {bytes bytes' : List UInt8} (h : Relation.ReflTransGen Edit bytes bytes') :
    told cursor (decodeLossy bytes') = told cursor (decodeLossy bytes) := by
  induction h with
  | refl => rfl
  | tail _ hedit ih => rw [hedit.told_eq, ih]

end Edits

/-! ### What a reader makes of it -/

theorem map_fst_numberedEntries (first : Nat) (outcomes : List Outcome) :
    (numberedEntries first outcomes).map Prod.fst = outcomes.filterMap Outcome.toOption := by
  induction outcomes generalizing first with
  | nil => rfl
  | cons outcome outcomes ih =>
    rw [numberedEntries_cons, List.map_append, ih, List.filterMap_cons]
    cases outcome.toOption <;> rfl

theorem count_told {outcome : Outcome} (h : outcome ≠ .nothing) (cursor : Cursor)
    (text : List Char) :
    (told cursor text).count outcome = (cursor.outcomes (lines '\n' text)).count outcome :=
  List.count_filter (decide_eq_true h)

namespace Reader

theorem map_fst_entries (r : Reader) : r.entries.1.map Prod.fst = r.remaining.map Prod.fst := by
  rw [(entries_eq r).1, List.map_map]
  rfl

theorem texts_ofSource_eq_lines (bytes : List UInt8) :
    (ofSource bytes none).texts = lines '\n' (decodeLossy bytes) := by
  rw [texts_ofSource, sourceLines, map_decodeLossy_lines]

/-- **The entries** of a map are those among the outcomes that it tells. -/
theorem map_fst_remaining_ofSource (bytes : List UInt8) :
    (ofSource bytes none).remaining.map Prod.fst =
      (told .start (decodeLossy bytes)).filterMap Outcome.toOption := by
  have hfst : (ofSource bytes none).remaining.map Prod.fst =
      (entriesOfLines (sourceLines bytes none)).map Prod.fst := by
    rw [← map_lines_remaining_ofSource, List.map_map]
    rfl
  rw [hfst, entriesOfLines, map_fst_numberedEntries, ← texts_ofSource, texts_ofSource_eq_lines,
    told, List.filterMap_filter]
  refine List.filterMap_congr fun outcome _ => ?_
  cases outcome <;> rfl

/-- **The oversized sizes and the orphans** of a map are those that it tells. -/
theorem finalStats_ofSource_eq_count (bytes : List UInt8) :
    (ofSource bytes none).finalStats.malformed =
        (told .start (decodeLossy bytes)).count .oversized ∧
      (ofSource bytes none).finalStats.orphans =
        (told .start (decodeLossy bytes)).count .orphan := by
  rw [finalStats, texts_ofSource_eq_lines, foldl_count _ 1, count_told (by decide),
    count_told (by decide)]
  exact ⟨Nat.zero_add _, Nat.zero_add _⟩

/-- What a reader answers to a call, if its source does not fail. -/
theorem call_of_failure_eq_none {r : Reader} (h : r.failure = none) (k : Nat) :
    (r.call k).1 = (r.remaining.map Prod.fst)[k]?.map .ok := by
  rw [(call_eq r k).1, h, List.getElem?_map]
  cases r.remaining[k]? <;> simp

/-- **A reader does not notice edits**: every call is answered alike, the entries are the same in
the same order, as many sizes are oversized and as many continuations orphans, and so the footprint
is the same for every catalog. -/
theorem entries_of_edits {bytes bytes' : List UInt8}
    (h : Relation.ReflTransGen Edit bytes bytes') :
    (∀ k, ((ofSource bytes' none).call k).1 = ((ofSource bytes none).call k).1) ∧
    (ofSource bytes' none).entries.1.map Prod.fst = (ofSource bytes none).entries.1.map Prod.fst ∧
    (ofSource bytes' none).entries.2.2.stats.malformed =
      (ofSource bytes none).entries.2.2.stats.malformed ∧
    (ofSource bytes' none).entries.2.2.stats.orphans =
      (ofSource bytes none).entries.2.2.stats.orphans ∧
    ∀ catalog, Footprint.ofMap catalog bytes' none = Footprint.ofMap catalog bytes none := by
  have htold := told_eq_of_edits .start h
  have hremaining : (ofSource bytes' none).remaining.map Prod.fst =
      (ofSource bytes none).remaining.map Prod.fst := by
    rw [map_fst_remaining_ofSource, map_fst_remaining_ofSource, htold]
  have hentries : (ofSource bytes' none).entries.1.map Prod.fst =
      (ofSource bytes none).entries.1.map Prod.fst := by
    rw [map_fst_entries, map_fst_entries, hremaining]
  refine ⟨fun k => ?_, hentries, ?_, ?_, fun catalog => ?_⟩
  · rw [call_of_failure_eq_none rfl, call_of_failure_eq_none rfl, hremaining]
  · rw [(entries_eq _).2, (entries_eq _).2, (finalStats_ofSource_eq_count _).1,
      (finalStats_ofSource_eq_count _).1, htold]
  · rw [(entries_eq _).2, (entries_eq _).2, (finalStats_ofSource_eq_count _).2,
      (finalStats_ofSource_eq_count _).2, htold]
  · rw [Footprint.ofMap_eq_foldl, Footprint.ofMap_eq_foldl, hentries]

/-- A wrapped entry whose path ends with a character that is cut off: white space that begins with
the same bytes is put in behind it, and a line without a shape between its two lines. -/
theorem entries_of_edits_damaged : ∃ bytes bytes' : List UInt8,
    bytes = encode ".text.poly\n 0x0 0x1F8 a".toList ++ [0xe2, 0x80] ∧
    bytes' = encode ".text.poly\r\nLOAD\n 0x0 0x1F8 a".toList ++
      [0xe2, 0x80, 0xe2, 0x80, 0x83, 0x0a] ∧
    Relation.ReflTransGen Edit bytes bytes' ∧
    (ofSource bytes' none).entries.1.map Prod.fst = [⟨".text.poly", 504, "a\uFFFD"⟩] := by
  obtain ⟨wrapped, hwrapped⟩ : ∃ wrapped, wrapped =
      encode " 0x0 0x1F8 a".toList ++ [0xe2, 0x80] := ⟨_, rfl⟩
  have hfinal := Edit.final (encode ".text.poly".toList ++ 0x0a :: wrapped)
  have hreturn : Edit (encode ".text.poly".toList ++ 0x0a :: (wrapped ++ [0x0a]))
      (encode ".text.poly".toList ++ (encode ['\r'] ++ 0x0a :: (wrapped ++ [0x0a]))) :=
    .blanks (by decide) (by decide)
  have hnoise : Edit (encode ".text.poly\r\n".toList ++ (wrapped ++ [0x0a]))
      (encode ".text.poly\r\n".toList ++ (encode "LOAD".toList ++ 0x0a :: (wrapped ++ [0x0a]))) :=
    .noise (Or.inr (by decide)) (by decide) (by decide +kernel)
  have hspace : Edit (encode ".text.poly\r\nLOAD\n".toList ++ wrapped ++ [0x0a])
      (encode ".text.poly\r\nLOAD\n".toList ++ wrapped ++ (encode ['\u2003'] ++ [0x0a])) :=
    .blanks (by decide) (by decide)
  have hedits := (((Relation.ReflTransGen.single hfinal).tail hreturn).tail hnoise).tail hspace
  refine ⟨_, _, ?_, ?_, hedits, ?_⟩
  · rw [hwrapped]
    decide +kernel
  · rw [hwrapped]
    decide +kernel
  · rw [(entries_of_edits hedits).2.1, map_fst_entries, map_fst_remaining_ofSource, hwrapped]
    decide +kernel

end Reader

end FirmwareReport.LinkerMap
