import FirmwareReport.Proofs.Report.Dissection
import FirmwareReport.Proofs.Text.Offset

/-!
# Replacing sections by byte offsets

A document can be regenerated in place, as bytes: find the opening marker, find the closing one in
what follows, copy what stands in front, write the section anew, and go on with what stands behind.
`FirmwareReport.Splice.turn?` is one turn of that loop. All its offsets count bytes, from the
beginning of what is left or from the end of an opening marker, and where one of them were to cut
through a character the turn would have no answer.

It always has one, since the offsets come from searches: a turn fills the first section of what is
left or stops if there is none (`FirmwareReport.Splice.turn?_of_section?`,
`FirmwareReport.Splice.turn?_of_section?_eq_none`). A section takes away its opening marker at least
from what is left, so the loop ends, and it ends with what `FirmwareReport.replaceSection?` answers
(`FirmwareReport.Splice.ends_replaceSection?`). What that is for the document as a whole, its
leftmost dissection says (`FirmwareReport.replaceSection?_exact`).
-/

namespace FirmwareReport

open Text

/-- **Where the loop stands**: what it has written, what is left of the document, and whether a
section was found so far. -/
structure Splice where
  written : List Char
  rest : List Char
  found : Bool
deriving DecidableEq, Repr

namespace Splice

/-- What a turn of the loop comes to. -/
inductive Turn
  /-- There is no section left. -/
  | stop
  /-- A section was filled, and the loop goes on. -/
  | again (next : Splice)
deriving DecidableEq, Repr

/-- What the loop answers where it stops. -/
def answer (now : Splice) : Option (List Char) :=
  if now.found then some (now.written ++ now.rest) else none

section Loop

variable (opening closing filling : List Char)

/-- **One turn of the loop**, by offsets in bytes; nothing if it cuts through a character. -/
def turn? (now : Splice) : Option Turn :=
  match offset? opening now.rest with
  | none => some .stop
  | some start => do
    let inside := start + (encode opening).length
    let (_, behind) ← splitAt? inside now.rest
    match offset? closing behind with
    | none => some .stop
    | some length =>
      let (before, _) ← splitAt? start now.rest
      let (_, after) ← splitAt? (inside + length + (encode closing).length) now.rest
      some (.again ⟨now.written ++ before ++ opening ++ filling ++ closing, after, true⟩)

/-- **The loop ends with an answer**: after some turns that go on there is one that stops. -/
inductive Ends : Splice → Option (List Char) → Prop
  | stop {now : Splice} (h : now.turn? opening closing filling = some .stop) : Ends now now.answer
  | again {now next : Splice} {answer : Option (List Char)}
      (h : now.turn? opening closing filling = some (.again next)) (hnext : Ends next answer) :
      Ends now answer

end Loop

/-- The loop has one answer at most. -/
theorem Ends.unique {opening closing filling : List Char} {now : Splice}
    {answer other : Option (List Char)} (h : Ends opening closing filling now answer)
    (h' : Ends opening closing filling now other) : answer = other := by
  induction h with
  | stop hturn =>
    cases h' with
    | stop _ => rfl
    | again hturn' _ =>
      rw [hturn] at hturn'
      cases hturn'
  | again hturn _ ih =>
    cases h' with
    | stop hturn' =>
      rw [hturn] at hturn'
      cases hturn'
    | again hturn' hnext =>
      rw [hturn] at hturn'
      cases hturn'
      exact ih hnext

/-! ### One turn -/

section Turns

variable {opening closing : List Char} (hopening : opening ≠ []) (hclosing : closing ≠ [])
  (filling : List Char) {now : Splice}
include hopening hclosing

/-- **A turn stops where there is no section.** -/
theorem turn?_of_section?_eq_none (h : section? opening closing now.rest = none) :
    now.turn? opening closing filling = some .stop := by
  unfold turn?
  rw [offset?_eq_map_cut? hopening]
  cases hopen : cut? opening now.rest with
  | none => rfl
  | some p =>
    obtain ⟨before, behind⟩ := p
    have hsplit : splitAt? ((encode before).length + (encode opening).length) now.rest =
        some (before ++ opening, behind) := by
      rw [splitAt?_eq_some_iff, encode_append, List.length_append]
      exact ⟨eq_of_cut? hopen, rfl⟩
    have hclose : cut? closing behind = none := by
      cases hclose : cut? closing behind with
      | none => rfl
      | some q =>
        rw [section?_eq_some_iff.2 ⟨behind, hopen, hclose⟩] at h
        cases h
    simp [hsplit, offset?_eq_map_cut? hclosing, hclose]

/-- **A turn fills the first section**, and goes on behind it. -/
theorem turn?_of_section? {before body after : List Char}
    (h : section? opening closing now.rest = some (before, body, after)) :
    now.turn? opening closing filling =
      some (.again ⟨now.written ++ before ++ opening ++ filling ++ closing, after, true⟩) := by
  obtain ⟨behind, hopen, hclose⟩ := section?_eq_some_iff.1 h
  have hrest := eq_of_cut? hopen
  have hbehind := eq_of_cut? hclose
  have hinside : splitAt? ((encode before).length + (encode opening).length) now.rest =
      some (before ++ opening, behind) := by
    rw [splitAt?_eq_some_iff, encode_append, List.length_append]
    exact ⟨hrest, rfl⟩
  have hbefore : splitAt? (encode before).length now.rest = some (before, opening ++ behind) := by
    rw [splitAt?_eq_some_iff, hrest, List.append_assoc]
    exact ⟨rfl, rfl⟩
  have hafter : splitAt? ((encode before).length + (encode opening).length +
      (encode body).length + (encode closing).length) now.rest =
        some (before ++ opening ++ (body ++ closing), after) := by
    rw [splitAt?_eq_some_iff, hrest, hbehind]
    simp [encode_append, Nat.add_assoc]
  unfold turn?
  simp [offset?_eq_map_cut? hopening, offset?_eq_map_cut? hclosing, hopen, hclose, hinside, hbefore,
    hafter]

/-! ### The loop -/

/-- Once a section is found, the loop writes what a pass makes of the rest. -/
theorem ends_of_found (hpos : 0 < opening.length) (written s : List Char) :
    Ends opening closing filling ⟨written, s, true⟩
      (some (written ++ refill closing filling hpos s)) := by
  induction hn : s.length using Nat.strongRecOn generalizing written s with
  | ind n ih =>
    subst hn
    cases hsection : (section? opening closing s) with
    | none =>
      rw [refill_of_section?_eq_none hsection]
      exact .stop (turn?_of_section?_eq_none hopening hclosing filling hsection)
    | some p =>
      obtain ⟨before, body, after⟩ := p
      have hlength := length_of_section? hsection
      have hends := ih after.length (by omega)
        (written ++ before ++ opening ++ filling ++ closing) after rfl
      rw [refill_of_section? hsection]
      refine .again (turn?_of_section? hopening hclosing filling hsection) ?_
      simpa using hends

end Turns

/-- **The loop ends, with a document in which the sections of the name are replaced.** -/
theorem ends_replaceSection? (document name table : String) :
    Ends (startMarker name).toList (endMarker name).toList (FirmwareReport.filling table)
      ⟨[], document.toList, false⟩
      ((replaceSection? document name table).map String.toList) := by
  have hopening : (startMarker name).toList ≠ [] := by simp [startMarker]
  have hclosing : (endMarker name).toList ≠ [] := by simp [endMarker]
  rw [replaceSection?_eq]
  cases hsection : (section? (startMarker name).toList (endMarker name).toList document.toList) with
  | none => exact .stop (turn?_of_section?_eq_none hopening hclosing _ hsection)
  | some p =>
    obtain ⟨before, body, after⟩ := p
    refine .again (turn?_of_section? hopening hclosing _ hsection) ?_
    have hends := ends_of_found hopening hclosing (FirmwareReport.filling table)
      (length_startMarker_pos name)
      ([] ++ before ++ (startMarker name).toList ++ FirmwareReport.filling table ++
        (endMarker name).toList) after
    simpa [pass, refill_of_section? hsection] using hends

end Splice

/-- **The sections of a name are replaced exactly where they stand leftmost.** There is no answer
exactly if no opening marker has an end behind it. Else there is one way to take the document apart
at its leftmost sections, at one at least, and the answer is the document with the table between
the markers of each, all other text as it was. By offsets in bytes a loop comes to its end with that
answer and no other, and cuts through no character on the way. -/
theorem replaceSection?_exact (document name table : String) :
    (replaceSection? document name table = none ↔
      ¬HasSection (startMarker name).toList (endMarker name).toList document.toList) ∧
    (HasSection (startMarker name).toList (endMarker name).toList document.toList →
      ∃ d : Dissection, d.text (startMarker name).toList (endMarker name).toList = document.toList ∧
        d.IsLeftmost (startMarker name).toList (endMarker name).toList ∧ 0 < d.size ∧
        (∀ other : Dissection,
          other.text (startMarker name).toList (endMarker name).toList = document.toList →
            other.IsLeftmost (startMarker name).toList (endMarker name).toList → other = d) ∧
        replaceSection? document name table = some (String.ofList
          ((d.fill (filling table)).text (startMarker name).toList (endMarker name).toList))) ∧
    ∀ answer, Splice.Ends (startMarker name).toList (endMarker name).toList (filling table)
        ⟨[], document.toList, false⟩ answer ↔
      answer = (replaceSection? document name table).map String.toList := by
  have hpos := length_startMarker_pos name
  have hends := Splice.ends_replaceSection? document name table
  refine ⟨?_, fun hsection => ?_, fun answer => ⟨fun h => h.unique hends, fun h => h ▸ hends⟩⟩
  · rw [replaceSection?_eq, Option.map_eq_none_iff, section?_eq_none_iff]
  · obtain ⟨d, hd, htext⟩ := exists_isLeftmost hpos (endMarker name).toList document.toList
    refine ⟨d, htext, hd, hd.size_pos_iff.2 (htext ▸ hsection),
      fun other hother h => h.unique hd (hother.trans htext.symm), ?_⟩
    have hsome : (section? (startMarker name).toList (endMarker name).toList
        document.toList).isSome := by
      rw [Option.isSome_iff_ne_none, ne_eq, section?_eq_none_iff, not_not]
      exact hsection
    obtain ⟨p, hp⟩ := Option.isSome_iff_exists.1 hsome
    rw [replaceSection?_eq, hp, Option.map_some, ← hd.refill_text (filling table) hpos, htext]
    rfl

/-- Markers that overlap themselves and each other: an end in front of the first opening marker,
half an opening marker behind it, two sections, and an opening marker without an end. -/
theorem replaceSection?_exact_overlapping :
    replaceSection? ("é<!-- A_START --><!-- A_END -->" ++
      "<!-- A_START --><!-- A_START --><!-- A_START -->x<!-- A_START --><!-- A_END -->" ++
      "ü<!-- A_START --><!-- A_START --><!-- A_START --><!-- A_END -->" ++
      "<!-- A_START --><!-- A_START -->") "A_START --><!-- A" "t" =
    some ("é<!-- A_START --><!-- A_END -->" ++
      "<!-- A_START --><!-- A_START -->\nt\n<!-- A_START --><!-- A_END -->" ++
      "ü<!-- A_START --><!-- A_START -->\nt\n<!-- A_START --><!-- A_END -->" ++
      "<!-- A_START --><!-- A_START -->") := by
  refine Exists.elim ((replaceSection?_exact _ _ _).2.1 ?_)
    fun d ⟨_, _, _, hunique, hanswer⟩ => hanswer.trans ?_
  · simp only [String.toList_append]
    decide +kernel
  · rw [← hunique (.cut "é<!-- A_START --><!-- A_END -->".toList "<!-- A_START -->x".toList
      (.cut "ü".toList [] (.tail "<!-- A_START --><!-- A_START -->".toList)))
      (by simp only [String.toList_append]; decide +kernel) (by decide +kernel)]
    decide +kernel

end FirmwareReport
