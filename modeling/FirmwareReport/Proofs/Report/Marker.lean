import FirmwareReport.Proofs.Text.Search
import FirmwareReport.Report.Substitution

/-!
# Markers do not overlap

A **mark** is a text between angle brackets with no angle bracket inside, and the markers of a
section are marks as long as its name has none (`FirmwareReport.isMark_startMarker`,
`FirmwareReport.isMark_endMarker`). Two marks never overlap: an occurrence begins at a `<` and ends
at the next `>`. So wherever texts and marks stand side by side, no mark forms across a border:

* a search for a mark passes over a text without it, if a `<` follows or nothing
  (`FirmwareReport.IsMark.passes_of_not_isInfix`);
* it passes over any other mark (`FirmwareReport.IsMark.passes_of_ne`).
-/

namespace FirmwareReport

open Text

/-- **A mark**: a text between angle brackets, with none inside. -/
def IsMark (s : List Char) : Prop :=
  ∃ inner, s = '<' :: (inner ++ ['>']) ∧ '<' ∉ inner ∧ '>' ∉ inner

/-- A text that begins with an opening bracket, if it is not empty. -/
def BeginsWithMark (s : List Char) : Prop :=
  s = [] ∨ ∃ t, s = '<' :: t

theorem beginsWithMark_append {s : List Char} (h : IsMark s) (rest : List Char) :
    BeginsWithMark (s ++ rest) := by
  obtain ⟨inner, rfl, -, -⟩ := h
  exact Or.inr ⟨_, rfl⟩

namespace IsMark

variable {mark other : List Char}

theorem ne_nil (h : IsMark mark) : mark ≠ [] := by
  obtain ⟨inner, rfl, -, -⟩ := h
  simp

theorem not_isInfix_nil (h : IsMark mark) : ¬mark <:+: [] := by
  simpa using h.ne_nil

/-- A mark begins with a bracket, and has no other of that kind. -/
theorem exists_eq_cons (h : IsMark mark) : ∃ tail, mark = '<' :: tail ∧ '<' ∉ tail := by
  obtain ⟨inner, rfl, hinner, -⟩ := h
  exact ⟨_, rfl, by simpa using hinner⟩

/-- A mark that stands in front is the one whose bracket stands there. -/
theorem eq_of_isPrefix (h : IsMark mark) (h' : IsMark other) {rest : List Char}
    (hpre : mark <+: other ++ rest) : mark = other := by
  obtain ⟨inner, rfl, -, hgt⟩ := h
  obtain ⟨inner', rfl, -, hgt'⟩ := h'
  have hpre' : inner ++ ['>'] <+: inner' ++ '>' :: rest := by
    simpa [List.append_assoc] using hpre
  have hle : inner <+: inner' :=
    isPrefix_of_isPrefix_append_cons hgt ((List.prefix_append _ _).trans hpre')
  obtain ⟨t, rfl⟩ := hle
  cases t with
  | nil => simp
  | cons c t =>
    obtain rfl : c = '>' := by
      simpa [List.append_assoc, List.prefix_append_right_inj, eq_comm] using hpre'
    exact absurd (by simp) hgt'

/-- A search for a mark passes over a text without an opening bracket. -/
theorem passes_of_not_mem (h : IsMark mark) {s : List Char} (hs : '<' ∉ s) (rest : List Char) :
    Passes mark s rest := by
  obtain ⟨tail, rfl, -⟩ := h.exists_eq_cons
  induction s with
  | nil => exact Passes.nil
  | cons c s ih =>
    obtain ⟨hc, hs⟩ : '<' ≠ c ∧ '<' ∉ s := by simpa using hs
    exact Passes.cons (fun hpre => hc (List.cons_prefix_cons.1 hpre).1) (ih hs)

/-- **A search for a mark passes over a text without it**: an occurrence that began in the text
would run into the bracket behind it. -/
theorem passes_of_not_isInfix (h : IsMark mark) {s rest : List Char} (hs : ¬mark <:+: s)
    (hrest : BeginsWithMark rest) : Passes mark s rest := by
  induction s with
  | nil => exact Passes.nil
  | cons c s ih =>
    refine Passes.cons (fun hpre => hs (List.IsPrefix.isInfix ?_))
      (ih fun hin => hs (hin.trans (List.suffix_cons c s).isInfix))
    rcases hrest with rfl | ⟨rest, rfl⟩
    · simpa using hpre
    · obtain ⟨tail, rfl, htail⟩ := h.exists_eq_cons
      obtain ⟨rfl, htl⟩ := List.cons_prefix_cons.1 hpre
      exact List.cons_prefix_cons.2 ⟨rfl, isPrefix_of_isPrefix_append_cons htail htl⟩

/-- **A search for a mark passes over any other mark.** -/
theorem passes_of_ne (h : IsMark mark) (h' : IsMark other) (hne : mark ≠ other)
    (rest : List Char) : Passes mark other rest := by
  obtain ⟨tail, rfl, htail⟩ := h'.exists_eq_cons
  exact Passes.cons (fun hpre => hne (h.eq_of_isPrefix h' hpre)) (h.passes_of_not_mem htail rest)

/-- A character in front of a text makes no mark with it. -/
theorem isInfix_cons_iff (h : IsMark mark) {c : Char} (hc : c ≠ '<') {s : List Char} :
    mark <:+: c :: s ↔ mark <:+: s := by
  obtain ⟨tail, rfl, -⟩ := h.exists_eq_cons
  exact isInfix_cons_iff_of_head hc

/-- A character behind a text makes no mark with it. -/
theorem isInfix_concat_iff (h : IsMark mark) {c : Char} (hc : c ≠ '>') {s : List Char} :
    mark <:+: s ++ [c] ↔ mark <:+: s := by
  obtain ⟨inner, rfl, -, -⟩ := h
  rw [← List.cons_append]
  exact isInfix_concat_iff_of_last hc

/-- Where there is no opening bracket there is no mark. -/
theorem not_isInfix_of_notMem (h : IsMark mark) {s : List Char} (hs : '<' ∉ s) : ¬mark <:+: s := by
  obtain ⟨tail, rfl, -⟩ := h.exists_eq_cons
  exact fun hin => hs (hin.subset List.mem_cons_self)

/-- A mark does not form where a text meets a bracket. -/
theorem isInfix_append_iff (h : IsMark mark) {s rest : List Char} (hrest : BeginsWithMark rest) :
    mark <:+: s ++ rest ↔ mark <:+: s ∨ mark <:+: rest := by
  constructor
  · intro hin
    by_contra hnot
    obtain ⟨hs, hrest'⟩ := not_or.1 hnot
    have hcut := h.passes_of_not_isInfix hs hrest
    rw [Passes, cut?_eq_none_iff.2 hrest', Option.map_none, cut?_eq_none_iff] at hcut
    exact hcut hin
  · rintro (hin | hin)
    · exact hin.trans (List.prefix_append s rest).isInfix
    · exact hin.trans (List.suffix_append s rest).isInfix

/-- In front of a text a mark is itself, or is not there. -/
theorem isInfix_mark_append_iff (h : IsMark mark) (h' : IsMark other) {rest : List Char} :
    mark <:+: other ++ rest ↔ mark = other ∨ mark <:+: rest := by
  rcases eq_or_ne mark other with rfl | hne
  · exact iff_of_true (List.prefix_append mark rest).isInfix (Or.inl rfl)
  · have hcut := h.passes_of_ne h' hne rest
    rw [Passes] at hcut
    rw [← occursIn_iff_isInfix, ← occursIn_iff_isInfix, occursIn, occursIn, hcut,
      Option.isSome_map, or_iff_right hne]

/-- A mark holds no other. -/
theorem isInfix_iff_eq (h : IsMark mark) (h' : IsMark other) : mark <:+: other ↔ mark = other := by
  have hiff : mark <:+: other ++ [] ↔ mark = other ∨ mark <:+: [] := h.isInfix_mark_append_iff h'
  rwa [List.append_nil, or_iff_left h.not_isInfix_nil] at hiff

/-- Behind a text a mark is itself, or is not there. -/
theorem isInfix_append_mark_iff (h : IsMark mark) (h' : IsMark other) {s : List Char} :
    mark <:+: s ++ other ↔ mark <:+: s ∨ mark = other := by
  have hbegins : BeginsWithMark other := by simpa using beginsWithMark_append h' []
  rw [h.isInfix_append_iff hbegins, h.isInfix_iff_eq h']

end IsMark

/-! ### The markers of a section -/

theorem toList_startMarker (name : String) : (startMarker name).toList =
    '<' :: (("!-- ".toList ++ (name.toList ++ "_START --".toList)) ++ ['>']) := by
  simp [startMarker]

theorem toList_endMarker (name : String) : (endMarker name).toList =
    '<' :: (("!-- ".toList ++ (name.toList ++ "_END --".toList)) ++ ['>']) := by
  simp [endMarker]

theorem isMark_startMarker {name : String} (h : '<' ∉ name.toList ∧ '>' ∉ name.toList) :
    IsMark (startMarker name).toList :=
  ⟨_, toList_startMarker name, by simp [h], by simp [h]⟩

theorem isMark_endMarker {name : String} (h : '<' ∉ name.toList ∧ '>' ∉ name.toList) :
    IsMark (endMarker name).toList :=
  ⟨_, toList_endMarker name, by simp [h], by simp [h]⟩

theorem startMarker_ne {name other : String} (h : name ≠ other) :
    (startMarker name).toList ≠ (startMarker other).toList := by
  simpa [toList_startMarker, String.toList_inj] using h

theorem endMarker_ne {name other : String} (h : name ≠ other) :
    (endMarker name).toList ≠ (endMarker other).toList := by
  simpa [toList_endMarker, String.toList_inj] using h

/-- The two kinds of markers differ in what stands in front of their last five characters. -/
theorem startMarker_ne_endMarker (name other : String) :
    (startMarker name).toList ≠ (endMarker other).toList := by
  intro h
  have h := congrArg (fun s => s.reverse.take 5) h
  simp [toList_startMarker, toList_endMarker] at h

end FirmwareReport
