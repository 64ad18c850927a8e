import FirmwareReport.Proofs.Log.Grammar
import FirmwareReport.Proofs.Log.RoundTrip

/-!
# Results and line breaks

Behind a tag any white space is skipped, line breaks included, so a tag at the end of a line is the
tag of what stands on the next line too. That is the only way in which lines depend on each other.
Cut a text behind its lines, but not behind one that ends in a tag and white space: the records of
the text are those of the **blocks**, one after the other
(`FirmwareReport.Log.recordsIn_eq_flatMap_blocks`). Where no line ends so, the blocks are the lines
(`FirmwareReport.Log.blocks_eq_splitOn`).

What carries this is that a run of tags ends before the line does, if something stands behind its
last tag (`FirmwareReport.Log.behindTag?_append_newline`). All else of a result is settled within
one line.
-/

namespace FirmwareReport.Log

open Text

variable {tag : Tag} {s : List Char}

/-- **A text that ends in a tag**, with nothing but white space behind it. -/
def EndsInTag (tag : Tag) (s : List Char) : Prop :=
  ∃ gap, isAllBlank gap = true ∧ tag.text ++ gap <:+ s

instance (tag : Tag) (s : List Char) : Decidable (EndsInTag tag s) :=
  decidable_of_iff (∃ back ∈ s.tails, (after? tag.text back).any isAllBlank = true) <| by
    simp only [List.mem_tails, Option.any_eq_true, after?_eq_some_iff]
    constructor
    · rintro ⟨back, hback, gap, rfl, hgap⟩
      exact ⟨gap, hgap, hback⟩
    · rintro ⟨gap, hgap, hback⟩
      exact ⟨tag.text ++ gap, hback, gap, rfl, hgap⟩

theorem EndsInTag.of_isSuffix {back : List Char} (h : EndsInTag tag back) (hback : back <:+ s) :
    EndsInTag tag s := by
  obtain ⟨gap, hgap, hsuffix⟩ := h
  exact ⟨gap, hgap, hsuffix.trans hback⟩

/-! ### One line break -/

section NewlineFree

variable (hnewline : '\n' ∉ tag.text)
include hnewline

/-- **A run of tags ends before the line does**, unless the line ends in a tag: where something
stands on the line behind the tag, the result is settled within the line. -/
theorem behindTag?_append_newline (hs : isAllBlank s = false) (hends : ¬EndsInTag tag s)
    (t : List Char) : behindTag? tag (s ++ '\n' :: t) =
      (behindTag? tag s).map fun p => (p.1, p.2 ++ '\n' :: t) := by
  induction hn : s.length using Nat.strongRecOn generalizing s with
  | ind n ih =>
    subst hn
    cases s with
    | nil => cases hs
    | cons c s =>
      -- Behind a blank or a tag something still stands on the line.
      have hblank : (if isBlank c then behindTag? tag (s ++ '\n' :: t) else none) =
          (if isBlank c then behindTag? tag s else none).map fun p => (p.1, p.2 ++ '\n' :: t) := by
        split
        · next hc =>
          have hs : isAllBlank s = false := by simpa [isAllBlank, hc] using hs
          have hends : ¬EndsInTag tag s := fun h => hends (h.of_isSuffix (List.suffix_cons c s))
          exact ih s.length (by simp) hs hends rfl
        · rfl
      have htag : resultAt? tag (c :: s ++ '\n' :: t) =
          (resultAt? tag (c :: s)).map fun p => (p.1, p.2 ++ '\n' :: t) := by
        rw [resultAt?, resultAt?, after?_append_newline hnewline]
        cases hafter : after? tag.text (c :: s) with
        | none => rfl
        | some rest =>
          have heq := after?_eq_some_iff.1 hafter
          have hlength := congrArg List.length heq
          have hpos := tag.length_pos
          rw [List.length_append] at hlength
          have hrest : isAllBlank rest = false := by
            rw [Bool.eq_false_iff]
            intro hall
            exact hends ⟨rest, hall, heq ▸ List.suffix_rfl⟩
          have hends : ¬EndsInTag tag rest := fun h =>
            hends (h.of_isSuffix (heq ▸ List.suffix_append _ rest))
          exact ih rest.length (by omega) hrest hends rfl
      have huntagged := untagged?_append_newline (c :: s) t
      rw [List.cons_append] at htag huntagged ⊢
      rw [behindTag?_cons, behindTag?_cons, hblank, htag, huntagged]
      simp only [Option.orElse_eq_orElse, Option.orElse_eq_or, Option.map_or]

theorem resultAt?_append_newline (hends : ¬EndsInTag tag s) (t : List Char) :
    resultAt? tag (s ++ '\n' :: t) =
      (resultAt? tag s).map fun p => (p.1, p.2 ++ '\n' :: t) := by
  rw [resultAt?, resultAt?, after?_append_newline hnewline]
  cases hafter : after? tag.text s with
  | none => rfl
  | some rest =>
    obtain rfl := after?_eq_some_iff.1 hafter
    have hrest : isAllBlank rest = false := by
      rw [Bool.eq_false_iff]
      intro hall
      exact hends ⟨rest, hall, List.suffix_rfl⟩
    exact behindTag?_append_newline hnewline hrest
      (fun h => hends (h.of_isSuffix (List.suffix_append _ rest))) t

/-- **A line break parts the results**, unless a tag stands in front of it. -/
theorem resultsIn_append_newline (hends : ¬EndsInTag tag s) (t : List Char) :
    resultsIn tag (s ++ '\n' :: t) = resultsIn tag s ++ resultsIn tag t := by
  induction hn : s.length using Nat.strongRecOn generalizing s with
  | ind n ih =>
    subst hn
    cases s with
    | nil => rw [List.nil_append, resultsIn_newline_cons hnewline, resultsIn, List.nil_append]
    | cons c s =>
      have hresult := resultAt?_append_newline hnewline hends t
      rw [List.cons_append] at hresult ⊢
      rw [resultsIn_cons, resultsIn_cons, hresult]
      cases hfound : resultAt? tag (c :: s) with
      | none =>
        exact ih s.length (by simp) (fun h => hends (h.of_isSuffix (List.suffix_cons c s))) rfl
      | some found =>
        obtain ⟨result, rest⟩ := found
        have hrest := ih rest.length (length_of_resultAt? hfound)
          (fun h => hends (h.of_isSuffix (isSuffix_of_resultAt? hfound))) rfl
        simp [hrest]

theorem recordsIn_append_newline (hends : ¬EndsInTag tag s) (t : List Char) :
    recordsIn tag (s ++ '\n' :: t) = recordsIn tag s ++ recordsIn tag t := by
  simp only [recordsIn_eq_filterMap, resultsIn_append_newline hnewline hends, List.filterMap_append]

end NewlineFree

/-! ### Blocks of lines -/

/-- The blocks of some lines, the first of them behind the lines that `block` holds. -/
def blocksBehind (tag : Tag) (block : List Char) : List (List Char) → List (List Char)
  | [] => [block]
  | line :: lines =>
    if EndsInTag tag block then blocksBehind tag (block ++ '\n' :: line) lines
    else block :: blocksBehind tag line lines

/-- **The blocks of a text**: its lines, each joined with what is in front of it if that ends in a
tag and white space. -/
def blocks (tag : Tag) (text : List Char) : List (List Char) :=
  match text.splitOn '\n' with
  | [] => []
  | line :: lines => blocksBehind tag line lines

theorem intercalate_newline_cons (line : List Char) (lines : List (List Char)) :
    ['\n'].intercalate (line :: lines) = line ++ lines.flatMap ('\n' :: ·) := by
  induction lines generalizing line with
  | nil => simp
  | cons second lines ih =>
    rw [List.intercalate_cons_cons, ih, List.flatMap_cons]
    simp

theorem recordsIn_blocksBehind (hnewline : '\n' ∉ tag.text) (block : List Char)
    (lines : List (List Char)) : recordsIn tag (block ++ lines.flatMap ('\n' :: ·)) =
      (blocksBehind tag block lines).flatMap (recordsIn tag) := by
  induction lines generalizing block with
  | nil => simp [blocksBehind]
  | cons line lines ih =>
    rw [List.flatMap_cons, List.cons_append, blocksBehind]
    split
    · rw [← ih, List.append_assoc, List.cons_append]
    · next hends => rw [recordsIn_append_newline hnewline hends, ih, List.flatMap_cons]

/-- **The records of a text are those of its blocks**, in order. -/
theorem recordsIn_eq_flatMap_blocks (hnewline : '\n' ∉ tag.text) (text : List Char) :
    recordsIn tag text = (blocks tag text).flatMap (recordsIn tag) := by
  have htext : ['\n'].intercalate (text.splitOn '\n') = text := List.intercalate_splitOn '\n'
  rw [blocks]
  split
  · next hlines => exact absurd hlines (List.splitOn_ne_nil '\n' text)
  · next line lines hlines =>
    rw [← recordsIn_blocksBehind hnewline, ← intercalate_newline_cons, ← hlines, htext]

/-- A blank line and a line with a tag alone join the result below them; the lines in front of them
and behind do not. -/
theorem recordsIn_eq_flatMap_blocks_joined :
    blocks ⟨"UART >>".toList, by decide⟩
        "boot\nUART >> \n\r\nA: B took 1 cycles, Stack: 2 bytes\nC: D".toList =
        ["boot".toList, "UART >> \n\r\nA: B took 1 cycles, Stack: 2 bytes".toList,
          "C: D".toList] ∧
      recordsIn ⟨"UART >>".toList, by decide⟩
        "boot\nUART >> \n\r\nA: B took 1 cycles, Stack: 2 bytes\nC: D".toList =
          [⟨"A", "B", 1, 2⟩] := by
  have hblocks : blocks ⟨"UART >>".toList, by decide⟩
      "boot\nUART >> \n\r\nA: B took 1 cycles, Stack: 2 bytes\nC: D".toList =
        ["boot".toList, "UART >> \n\r\nA: B took 1 cycles, Stack: 2 bytes".toList,
          "C: D".toList] := by
    decide +kernel
  refine ⟨hblocks, ?_⟩
  rw [recordsIn_eq_flatMap_blocks (by decide), hblocks]
  decide +kernel

/-- **Not every line is read by itself**: a tag alone on a line, and a result without a tag below
it, make a record. -/
theorem recordsIn_ne_flatMap_lines :
    ∃ (tag : Tag) (text : List Char), '\n' ∉ tag.text ∧
      (text.splitOn '\n').flatMap (recordsIn tag) = [] ∧ recordsIn tag text = [⟨"A", "B", 1, 2⟩] :=
  ⟨⟨"UART >>".toList, by decide⟩, "UART >>\nA: B took 1 cycles, Stack: 2 bytes".toList,
    by decide, by decide +kernel, by decide +kernel⟩

/-- **Where no line but the last ends in a tag, the blocks are the lines.** -/
theorem blocks_eq_splitOn {text : List Char}
    (h : ∀ line ∈ (text.splitOn '\n').dropLast, ¬EndsInTag tag line) :
    blocks tag text = text.splitOn '\n' := by
  have hbehind : ∀ (line : List Char) (lines : List (List Char)),
      (∀ l ∈ (line :: lines).dropLast, ¬EndsInTag tag l) →
        blocksBehind tag line lines = line :: lines := by
    intro line lines hlines
    induction lines generalizing line with
    | nil => rfl
    | cons second lines ih =>
      rw [List.dropLast_cons_cons, List.forall_mem_cons] at hlines
      rw [blocksBehind, if_neg hlines.1, ih second hlines.2]
  rw [blocks]
  split
  · next hlines => exact hlines.symm
  · next line lines hlines =>
    rw [hlines] at h ⊢
    exact hbehind line lines h

end FirmwareReport.Log
