import FirmwareReport.Proofs.Log.ResultLine
import FirmwareReport.Proofs.Text.Utf8

/-!
# Printed records survive a noisy log

A log is bytes, in lines that are either noise – any bytes in which the tag cannot be read – or
printed results, `FirmwareReport.Log.IsLogOf`. Reading it gives the printed records in order, none
lost, added or merged (`FirmwareReport.Log.records_of_isLogOf`).

The text is followed from the left, and the invariant is where a search stands: at the front of a
line. Noise is passed over up to the next front
(`FirmwareReport.Log.resultsIn_append_of_not_isInfix`), as no tag begins in it – not even one that
ends in the next line, since the tag holds no line break. A printed result is found at the front
of its line (`FirmwareReport.Log.Printout.IsReadable.resultAt?_text`): the run of tags takes every
copy of the tag, as what stands behind the last gap is neither white space nor a tag. What trails
the result is then noise again.
-/

namespace FirmwareReport.Log

open Text

variable {tag : Tag}

theorem Tag.text_ne_nil (tag : Tag) : tag.text ≠ [] :=
  List.length_pos_iff.1 tag.length_pos

/-! ### Noise -/

/-- **Noise is passed over**: a text without the tag, up to the end of its line. -/
theorem resultsIn_append_of_not_isInfix (hnewline : '\n' ∉ tag.text) {s rest : List Char}
    (hs : ¬tag.text <:+: s) (hrest : StopsAt (· != '\n') rest) :
    resultsIn tag (s ++ rest) = resultsIn tag rest := by
  induction s with
  | nil => rfl
  | cons c s ih =>
    obtain ⟨hfront, hs⟩ := not_or.1 (mt List.infix_cons_iff.2 hs)
    -- A tag that begins here ends before the line does.
    have hafter : after? tag.text (c :: s ++ rest) = none := by
      refine after?_eq_none_iff.2 fun hpre => hfront ?_
      cases rest with
      | nil => simpa using hpre
      | cons d rest =>
        obtain rfl : d = '\n' := by simpa using stopsAt_cons.1 hrest
        exact isPrefix_of_isPrefix_append_cons hnewline hpre
    rw [List.cons_append] at hafter ⊢
    rw [resultsIn_cons, resultAt?, hafter, ← ih hs]
    rfl

/-- A line break is passed over. -/
theorem resultsIn_newline_cons (hnewline : '\n' ∉ tag.text) (rest : List Char) :
    resultsIn tag ('\n' :: rest) = resultsIn tag rest := by
  have hafter : after? tag.text ('\n' :: rest) = none := by
    refine after?_eq_none_iff.2 fun hpre => ?_
    have hnil : tag.text <+: [] := isPrefix_of_isPrefix_append_cons hnewline hpre
    exact tag.text_ne_nil (List.prefix_nil.1 hnil)
  rw [resultsIn_cons, resultAt?, hafter]
  rfl

/-! ### Runs of tags -/

/-- Where neither white space nor a tag stands, the rest of the result is read. -/
theorem behindTag?_of_untagged? {s : List Char} {result : Result × List Char}
    (hblank : StopsAt isBlank s) (htag : ¬tag.text <+: s) (h : untagged? s = some result) :
    behindTag? tag s = some result := by
  cases s with
  | nil => cases h
  | cons c s =>
    rw [behindTag?_cons, if_neg (by simp [stopsAt_cons.1 hblank]), resultAt?,
      after?_eq_none_iff.2 htag, h]
    rfl

/-- White space behind a tag is skipped. -/
theorem behindTag?_append_of_isAllBlank {gap s : List Char} {result : Result × List Char}
    (hgap : isAllBlank gap = true) (h : behindTag? tag s = some result) :
    behindTag? tag (gap ++ s) = some result := by
  induction gap with
  | nil => exact h
  | cons c gap ih =>
    obtain ⟨hc, hgap⟩ : isBlank c = true ∧ isAllBlank gap = true := by
      simpa [isAllBlank] using hgap
    rw [List.cons_append, behindTag?_cons, if_pos hc, ih hgap]
    rfl

/-- A further tag is skipped. -/
theorem behindTag?_append_tag (hhead : StopsAt isBlank tag.text) {s : List Char}
    {result : Result × List Char} (h : behindTag? tag s = some result) :
    behindTag? tag (tag.text ++ s) = some result := by
  have hresult : resultAt? tag (tag.text ++ s) = some result := by
    rw [resultAt?, after?_append, Option.bind_some, h]
  cases htext : tag.text with
  | nil => exact absurd htext tag.text_ne_nil
  | cons c text =>
    rw [htext] at hhead hresult
    rw [List.cons_append] at hresult ⊢
    rw [behindTag?_cons, if_neg (by simp [stopsAt_cons.1 hhead]), hresult]
    rfl

/-- **A run of tags is skipped**, with the white space in it. -/
theorem behindTag?_tags (hhead : StopsAt isBlank tag.text) {gaps : List (List Char)}
    {s : List Char} {result : Result × List Char}
    (hgaps : ∀ gap ∈ gaps, isAllBlank gap = true) (h : behindTag? tag s = some result) :
    behindTag? tag (Printout.tags tag gaps ++ s) = some result := by
  induction gaps with
  | nil => exact h
  | cons gap gaps ih =>
    obtain ⟨hgap, hgaps⟩ := List.forall_mem_cons.1 hgaps
    rw [Printout.tags, List.flatMap_cons, List.append_assoc, List.append_assoc]
    exact behindTag?_append_tag hhead (behindTag?_append_of_isAllBlank hgap (ih hgaps))

/-! ### Printed results -/

/-- A result at the front of a text is the first one. -/
theorem resultsIn_of_resultAt? {s rest : List Char} {result : Result}
    (h : resultAt? tag s = some (result, rest)) :
    resultsIn tag s = result :: resultsIn tag rest := by
  cases s with
  | nil => exact absurd (length_of_resultAt? h) (Nat.not_lt_zero _)
  | cons c s =>
    rw [resultsIn_cons, h]
    rfl

namespace Printout.IsReadable

variable {printout : Printout} {rest : List Char}

/-- The tag does not stand behind the tags, not even in part: it holds no line break. -/
theorem not_isPrefix_body_append (h : printout.IsReadable tag) (hnewline : '\n' ∉ tag.text)
    (hrest : StopsAt (· != '\n') rest) : ¬tag.text <+: printout.body ++ rest := by
  intro hpre
  refine h.tag_not_isInfix_body (List.IsPrefix.isInfix ?_)
  cases rest with
  | nil => simpa using hpre
  | cons d rest =>
    obtain rfl : d = '\n' := by simpa using stopsAt_cons.1 hrest
    exact isPrefix_of_isPrefix_append_cons hnewline hpre

/-- **A printed result is found at the front of its line.** -/
theorem resultAt?_text (h : printout.IsReadable tag) (hnewline : '\n' ∉ tag.text)
    (hhead : StopsAt isBlank tag.text) (hrest : StopsAt (· != '\n') rest) :
    resultAt? tag (printout.text tag ++ rest) =
      some (printout.result, printout.trailing ++ rest) := by
  have hbody := behindTag?_of_untagged? (h.stopsAt_body rest)
    (h.not_isPrefix_body_append hnewline hrest) (h.untagged?_body rest)
  have hgaps := h.isAllBlank_of_mem_gaps
  cases hprintout : printout.gaps with
  | nil => exact absurd hprintout h.gaps_ne_nil
  | cons gap gaps =>
    rw [hprintout] at hgaps
    obtain ⟨hgap, hgaps⟩ := List.forall_mem_cons.1 hgaps
    have hbehind := behindTag?_append_of_isAllBlank hgap (behindTag?_tags hhead hgaps hbody)
    rw [resultAt?, text, hprintout, tags, List.flatMap_cons, List.append_assoc, List.append_assoc,
      List.append_assoc, after?_append, Option.bind_some]
    exact hbehind

/-- The results of a text that begins with a printed result. -/
theorem resultsIn_text (h : printout.IsReadable tag) (hnewline : '\n' ∉ tag.text)
    (hhead : StopsAt isBlank tag.text) (hrest : StopsAt (· != '\n') rest) :
    resultsIn tag (printout.text tag ++ rest) = printout.result :: resultsIn tag rest := by
  have htrailing : ¬tag.text <:+: printout.trailing := by
    refine fun htag => h.tag_not_isInfix_body (htag.trans ?_)
    simp only [body, ← List.append_assoc]
    exact (List.suffix_append _ _).isInfix
  rw [resultsIn_of_resultAt? (h.resultAt?_text hnewline hhead hrest),
    resultsIn_append_of_not_isInfix hnewline htrailing hrest]

end Printout.IsReadable

/-! ### Logs -/

/-- **A log of some records**, as the bytes of its lines: noise, in which the tag cannot be read,
and printed results, one for each record and in their order. -/
inductive IsLogOf (tag : Tag) : List Record → List (List UInt8) → Prop
  | nil : IsLogOf tag [] []
  | noise {records : List Record} {lines : List (List UInt8)} {bytes : List UInt8}
      (hbytes : ¬tag.text <:+: decodeLossy bytes) (hlines : IsLogOf tag records lines) :
      IsLogOf tag records (bytes :: lines)
  | result {records : List Record} {lines : List (List UInt8)} {bytes : List UInt8}
      {printout : Printout} (hprintout : printout.IsReadable tag)
      (hbytes : decodeLossy bytes = printout.text tag) (hlines : IsLogOf tag records lines) :
      IsLogOf tag (printout.record :: records) (bytes :: lines)

/-- The text of a log is the text of its first line, and then what the other lines hold. -/
theorem exists_decodeLossy_intercalate (hnewline : '\n' ∉ tag.text) (bytes : List UInt8)
    (lines : List (List UInt8)) :
    ∃ rest, decodeLossy ([0x0a].intercalate (bytes :: lines)) = decodeLossy bytes ++ rest ∧
      StopsAt (· != '\n') rest ∧
      resultsIn tag rest = resultsIn tag (decodeLossy ([0x0a].intercalate lines)) := by
  cases lines with
  | nil =>
    refine ⟨[], ?_, stopsAt_nil _, rfl⟩
    rw [List.intercalate_singleton, List.append_nil]
  | cons second lines =>
    refine ⟨'\n' :: decodeLossy ([0x0a].intercalate (second :: lines)), ?_,
      stopsAt_cons.2 (by decide), resultsIn_newline_cons hnewline _⟩
    rw [List.intercalate_cons_cons, List.append_assoc, List.singleton_append,
      decodeLossy_append_newline]

/-- **The records of a log are those printed in it**, in order, whatever noise stands between,
behind and around them. -/
theorem records_of_isLogOf (hnewline : '\n' ∉ tag.text) (hhead : StopsAt isBlank tag.text)
    {records : List Record} {lines : List (List UInt8)} (h : IsLogOf tag records lines) :
    Log.records tag ([0x0a].intercalate lines) = records := by
  rw [Log.records, recordsIn_eq_filterMap]
  -- At the front of each line the search starts anew, with the lines behind as its text.
  induction h with
  | nil => simp [decodeLossy, pieces, piecesFrom, resultsIn]
  | @noise records lines bytes hbytes _ ih =>
    obtain ⟨rest, hdecode, hrest, hresults⟩ :=
      exists_decodeLossy_intercalate hnewline bytes lines
    rw [hdecode, resultsIn_append_of_not_isInfix hnewline hbytes hrest, hresults, ih]
  | @result records lines bytes printout hprintout hbytes _ ih =>
    obtain ⟨rest, hdecode, hrest, hresults⟩ :=
      exists_decodeLossy_intercalate hnewline bytes lines
    rw [hdecode, hbytes, hprintout.resultsIn_text hnewline hhead hrest,
      List.filterMap_cons_some hprintout.record?_result, hresults, ih]

/-- A damaged byte in front, a repeated tag, an operation that ends like the clause begins, zeros in
front of a number, and a damaged byte behind the result. -/
theorem records_of_isLogOf_damaged :
    Log.records ⟨"UART >>".toList, by decide⟩ ([0x0a].intercalate [[0x80],
      encode "UART >> UART >>KEM: Gen took took 007 cycles, Stack: 5 bytes".toList ++ [0xff]]) =
        [⟨"KEM", "Gen took", 7, 5⟩] := by
  have hprintout : Printout.IsReadable ⟨"UART >>".toList, by decide⟩
      ⟨⟨"KEM", "Gen took", 7, 5⟩, [" ".toList, []], "007".toList, "5".toList, ['\uFFFD']⟩ := by
    constructor
    case cycles_writes => exact ⟨by decide, by decide, by decide⟩
    case stack_writes => exact ⟨by decide, by decide, by decide⟩
    all_goals decide
  exact records_of_isLogOf (by decide) (stopsAt_cons.2 (by decide))
    (.noise (by decide) (.result hprintout (by decide) .nil))

end FirmwareReport.Log
