import FirmwareReport.Proofs.Report.Refill

/-!
# The leftmost sections of a document

A pass takes a document apart at sections: gaps, and between them what stands between two markers
(`FirmwareReport.Dissection`). A document may be taken apart in many ways, since an opening marker
may stand inside a section, or two occurrences of a marker overlap. One way is **leftmost**
(`FirmwareReport.Dissection.IsLeftmost`): each section begins at the first opening marker behind the
section before it and ends at the first closing marker behind that, and in what is left over no
opening marker has an end behind it.

Every document has exactly one leftmost dissection (`FirmwareReport.exists_isLeftmost`,
`FirmwareReport.Dissection.IsLeftmost.unique`), and a pass fills the sections of that one
(`FirmwareReport.Dissection.IsLeftmost.refill_text`). Nothing is asked of the markers here but that
the opening one is not empty, so they may overlap themselves and each other.
-/

namespace FirmwareReport

open Text

variable {opening closing : List Char}

/-! ### The first section -/

/-- **A document has a section** if a closing marker stands somewhere behind an opening one. -/
def HasSection (opening closing s : List Char) : Prop :=
  ∃ before body after, s = before ++ opening ++ (body ++ closing ++ after)

/-- The first section begins at the first opening marker and ends at the first end behind it. -/
theorem section?_eq_some_iff_isFirst {s before body after : List Char} :
    (section? opening closing s = some (before, body, after)) ↔
      s = before ++ opening ++ (body ++ closing ++ after) ∧
        IsFirst opening before (body ++ closing ++ after) ∧ IsFirst closing body after := by
  simp only [section?_eq_some_iff, cut?_eq_some_iff]
  constructor
  · rintro ⟨rest, ⟨rfl, hopening⟩, rfl, hclosing⟩
    exact ⟨rfl, hopening, hclosing⟩
  · rintro ⟨rfl, hopening, hclosing⟩
    exact ⟨_, ⟨rfl, hopening⟩, rfl, hclosing⟩

/-- **A first section is found if there is any**: the end of another one stands behind the first
opening marker too. -/
theorem section?_eq_none_iff {s : List Char} :
    (section? opening closing s) = none ↔ ¬HasSection opening closing s := by
  constructor
  · rintro hnone ⟨before, body, after, rfl⟩
    cases hopen : cut? opening (before ++ opening ++ (body ++ closing ++ after)) with
    | none => exact cut?_eq_none_iff.1 hopen (List.infix_append before opening _)
    | some p =>
      obtain ⟨front, rest⟩ := p
      obtain ⟨heq, hfirst⟩ := cut?_eq_some_iff.1 hopen
      have hsuffix := (hfirst.isPrefix_and_isSuffix heq.symm).2
      cases hclose : cut? closing rest with
      | none =>
        exact cut?_eq_none_iff.1 hclose
          ((List.infix_append body closing after).trans hsuffix.isInfix)
      | some q =>
        rw [section?_eq_some_iff.2 ⟨rest, hopen, hclose⟩] at hnone
        cases hnone
  · intro hno
    cases hsection : (section? opening closing s) with
    | none => rfl
    | some p =>
      obtain ⟨before, body, after⟩ := p
      exact absurd ⟨before, body, after, (section?_eq_some_iff_isFirst.1 hsection).1⟩ hno

instance (opening closing s : List Char) : Decidable (HasSection opening closing s) :=
  decidable_of_iff _ (not_congr section?_eq_none_iff |>.trans not_not)

/-! ### Dissections -/

/-- **A document taken apart at sections.** -/
inductive Dissection
  /-- What stands behind the last section. -/
  | tail (text : List Char)
  /-- A section: what stands in front of it, what it holds, and what follows it. -/
  | cut (before body : List Char) (rest : Dissection)
deriving DecidableEq, Repr

namespace Dissection

/-- The document that was taken apart. -/
def text (opening closing : List Char) : Dissection → List Char
  | .tail text => text
  | .cut before body rest => before ++ opening ++ (body ++ closing ++ rest.text opening closing)

/-- How many sections there are. -/
def size : Dissection → Nat
  | .tail _ => 0
  | .cut _ _ rest => rest.size + 1

/-- The same text in every section. -/
def fill (filling : List Char) : Dissection → Dissection
  | .tail text => .tail text
  | .cut before _ rest => .cut before filling (rest.fill filling)

/-- **The sections are the leftmost ones.** -/
def IsLeftmost (opening closing : List Char) : Dissection → Prop
  | .tail text => ¬HasSection opening closing text
  | .cut before body rest =>
    IsFirst opening before (body ++ closing ++ rest.text opening closing) ∧
      IsFirst closing body (rest.text opening closing) ∧ rest.IsLeftmost opening closing

instance decidableIsLeftmost (opening closing : List Char) :
    (d : Dissection) → Decidable (d.IsLeftmost opening closing)
  | .tail text => inferInstanceAs (Decidable (¬HasSection opening closing text))
  | .cut _ _ rest =>
    have := decidableIsLeftmost opening closing rest
    inferInstanceAs (Decidable (_ ∧ _ ∧ _))

namespace IsLeftmost

theorem section?_tail {s : List Char} (h : (tail s).IsLeftmost opening closing) :
    (section? opening closing s) = none := section?_eq_none_iff.2 h

theorem section?_cut {before body : List Char} {rest : Dissection}
    (h : (cut before body rest).IsLeftmost opening closing) :
    (section? opening closing ((cut before body rest).text opening closing)) =
      some (before, body, rest.text opening closing) := by
  rw [section?_eq_some_iff_isFirst]
  exact ⟨rfl, h.1, h.2.1⟩

/-- **A document is taken apart at its leftmost sections in one way.** -/
theorem unique {d other : Dissection} (h : d.IsLeftmost opening closing)
    (h' : other.IsLeftmost opening closing)
    (htext : d.text opening closing = other.text opening closing) : d = other := by
  induction d generalizing other with
  | tail s =>
    cases other with
    | tail s' =>
      obtain rfl : s = s' := htext
      rfl
    | cut before' body' rest' =>
      have hsection := h'.section?_cut
      rw [← htext, text, h.section?_tail] at hsection
      cases hsection
  | cut before body rest ih =>
    have hsection := h.section?_cut
    cases other with
    | tail s' =>
      rw [htext, text, h'.section?_tail] at hsection
      cases hsection
    | cut before' body' rest' =>
      rw [htext, h'.section?_cut] at hsection
      obtain ⟨rfl, rfl, hrest⟩ : before' = before ∧ body' = body ∧
        rest'.text opening closing = rest.text opening closing := by simpa using hsection
      rw [ih h.2.2 h'.2.2 hrest.symm]

/-- There are sections to take it apart at exactly if it has any. -/
theorem size_pos_iff {d : Dissection} (h : d.IsLeftmost opening closing) :
    0 < d.size ↔ HasSection opening closing (d.text opening closing) := by
  cases d with
  | tail s => exact iff_of_false (Nat.lt_irrefl 0) h
  | cut before body rest => exact iff_of_true (Nat.succ_pos _) ⟨before, body, _, rfl⟩

/-- **A pass fills the leftmost sections**, and leaves everything between them as it is. -/
theorem refill_text {d : Dissection} (h : d.IsLeftmost opening closing) (filling : List Char)
    (hpos : 0 < opening.length) :
    refill closing filling hpos (d.text opening closing) =
      (d.fill filling).text opening closing := by
  induction d with
  | tail s => exact refill_of_section?_eq_none h.section?_tail
  | cut before body rest ih =>
    rw [refill_of_section? h.section?_cut, ih h.2.2]
    simp [fill, text]

end IsLeftmost

end Dissection

/-- **Every document can be taken apart at its leftmost sections.** -/
theorem exists_isLeftmost (hpos : 0 < opening.length) (closing s : List Char) :
    ∃ d : Dissection, d.IsLeftmost opening closing ∧ d.text opening closing = s := by
  induction hn : s.length using Nat.strongRecOn generalizing s with
  | ind n ih =>
    subst hn
    cases hsection : (section? opening closing s) with
    | none => exact ⟨.tail s, section?_eq_none_iff.1 hsection, rfl⟩
    | some p =>
      obtain ⟨before, body, after⟩ := p
      obtain ⟨rfl, hopening, hclosing⟩ := section?_eq_some_iff_isFirst.1 hsection
      have hlength := length_of_section? hsection
      obtain ⟨d, hd, rfl⟩ := ih after.length (by omega) after rfl
      exact ⟨.cut before body d, ⟨hopening, hclosing, hd⟩, rfl⟩

end FirmwareReport
