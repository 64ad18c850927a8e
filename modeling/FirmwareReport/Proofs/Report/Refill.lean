import FirmwareReport.Proofs.Report.Marker

/-!
# One pass over a document, section by section

`FirmwareReport.replaceSection?` goes through a document with what it has written so far at
hand, and answers with nothing if there is no section. Read as a function from documents to
documents it is `FirmwareReport.refill`: the text in front of the first section, the section with
its new filling, and the rest refilled (`FirmwareReport.refill_of_section?`); a document without a
section stays as it is. Substituting several tables is one such pass after the other
(`FirmwareReport.toList_text_substitute`).
-/

namespace FirmwareReport

open Text

variable {opening closing : List Char}

/-! ### The first section -/

/-- The first section begins at the first opening marker and ends at the first closing marker
behind it. -/
theorem section?_eq_some_iff {s before body after : List Char} :
    (section? opening closing s = some (before, body, after)) ↔
      ∃ rest, cut? opening s = some (before, rest) ∧ cut? closing rest = some (body, after) := by
  simp only [section?, Option.bind_eq_bind, Option.bind_eq_some_iff, Option.pure_def,
    Option.some.injEq, Prod.mk.injEq, Prod.exists]
  constructor
  · rintro ⟨b, rest, h, c, a, h', rfl, rfl, rfl⟩
    exact ⟨rest, h, h'⟩
  · rintro ⟨rest, h, h'⟩
    exact ⟨before, rest, h, body, after, h', rfl, rfl, rfl⟩

theorem section?_eq_none_of_cut?_opening {s : List Char} (h : cut? opening s = none) :
    (section? opening closing s) = none := by
  simp [section?, h]

theorem section?_eq_none_of_cut?_closing {s before rest : List Char}
    (h : cut? opening s = some (before, rest)) (h' : cut? closing rest = none) :
    (section? opening closing s) = none := by
  simp [section?, h, h']

/-- What is passed over on the way to a section stands in front of it. -/
theorem section?_append_of_passes {s rest : List Char} (h : Passes opening s rest) :
    (section? opening closing (s ++ rest)) =
      (section? opening closing rest).map fun p => (s ++ p.1, p.2) := by
  rw [Passes] at h
  cases hrest : cut? opening rest with
  | none => simp [section?, h, hrest]
  | some p =>
    obtain ⟨before, behind⟩ := p
    simp only [section?, h, hrest, Option.map_some, Option.bind_eq_bind, Option.bind_some]
    cases cut? closing behind <;> simp

/-! ### A pass as a function -/

section Pass

variable (closing) (filling : List Char) (hpos : 0 < opening.length)

/-- **The document with a filling in every section**, as it is if it has none. -/
def refill (s : List Char) : List Char :=
  (refillFrom? opening closing filling hpos [] s).getD s

variable {closing filling hpos}

theorem refillFrom?_of_section?_eq_none {s : List Char}
    (h : section? opening closing s = none) (done : List (List Char)) :
    refillFrom? opening closing filling hpos done s =
      if done.isEmpty then none else some ((s :: done).reverse.flatten) := by
  rw [refillFrom?]
  split
  · next h' => simp [h] at h'
  · rfl

theorem refillFrom?_of_section? {s before body after : List Char}
    (h : section? opening closing s = some (before, body, after)) (done : List (List Char)) :
    refillFrom? opening closing filling hpos done s =
      refillFrom? opening closing filling hpos
        ((before ++ opening ++ filling ++ closing) :: done) after := by
  rw [refillFrom?]
  split
  · next h' =>
    obtain ⟨rfl, rfl, rfl⟩ : _ = before ∧ _ = body ∧ _ = after := by simpa [h'] using h
    rfl
  · next h' => simp [h] at h'

theorem refill_of_section?_eq_none {s : List Char} (h : section? opening closing s = none) :
    refill closing filling hpos s = s := by
  rw [refill, refillFrom?_of_section?_eq_none h]
  simp

/-- What is written already stays in front. -/
theorem refillFrom?_of_ne_nil {done : List (List Char)} (hdone : done ≠ []) (s : List Char) :
    refillFrom? opening closing filling hpos done s =
      some (done.reverse.flatten ++ refill closing filling hpos s) := by
  induction hn : s.length using Nat.strongRecOn generalizing s done with
  | ind n ih =>
    subst hn
    cases h : section? opening closing s with
    | none =>
      rw [refill_of_section?_eq_none h, refillFrom?_of_section?_eq_none h]
      simp [hdone]
    | some p =>
      obtain ⟨before, body, after⟩ := p
      have hlt : after.length < s.length := by
        have := length_of_section? h
        omega
      rw [refill, refillFrom?_of_section? h, refillFrom?_of_section? h,
        ih _ hlt (by simp) after rfl, ih _ hlt (by simp) after rfl]
      simp

/-- **A pass, one section at a time.** -/
theorem refill_of_section? {s before body after : List Char}
    (h : section? opening closing s = some (before, body, after)) :
    refill closing filling hpos s =
      before ++ (opening ++ (filling ++ (closing ++ refill closing filling hpos after))) := by
  rw [refill, refillFrom?_of_section? h, refillFrom?_of_ne_nil (by simp)]
  simp

/-- What is passed over on the way to the first section stays as it is. -/
theorem refill_append_of_passes {s rest : List Char} (h : Passes opening s rest) :
    refill closing filling hpos (s ++ rest) = s ++ refill closing filling hpos rest := by
  have hsection : (section? opening closing (s ++ rest)) =
      (section? opening closing rest).map fun p => (s ++ p.1, p.2) := section?_append_of_passes h
  cases hrest : section? opening closing rest with
  | none =>
    rw [refill_of_section?_eq_none hrest, refill_of_section?_eq_none (by simp [hsection, hrest])]
  | some p =>
    obtain ⟨before, body, after⟩ := p
    rw [refill_of_section? hrest, refill_of_section? (by rw [hsection, hrest]; rfl)]
    simp

end Pass

/-! ### Passes one after the other -/

/-- The text that a table puts between the markers of its section. -/
def filling (table : String) : List Char :=
  '\n' :: (table.toList ++ ['\n'])

/-- One pass over a document, for a table with the name of its section. -/
def pass (s : List Char) (table : String × String) : List Char :=
  refill (endMarker table.1).toList (filling table.2) (length_startMarker_pos table.1) s

theorem toList_filling (table : String) : ("\n" ++ table ++ "\n").toList = filling table := by
  simp [filling]

/-- **A section is replaced by a pass**, if there is one. -/
theorem replaceSection?_eq (document name table : String) : replaceSection? document name table =
    (section? (startMarker name).toList (endMarker name).toList document.toList).map fun _ =>
      String.ofList (pass document.toList (name, table)) := by
  rw [replaceSection?, toList_filling]
  cases h : section? (startMarker name).toList (endMarker name).toList document.toList with
  | none => rw [refillFrom?_of_section?_eq_none h]; rfl
  | some p =>
    obtain ⟨before, body, after⟩ := p
    rw [refillFrom?_of_section? h, refillFrom?_of_ne_nil (by simp), pass, refill_of_section? h]
    simp

theorem toList_text_step (s : Substitution) (table : String × String) :
    (s.step table.1 table.2).text.toList = pass s.text.toList table := by
  rw [Substitution.step, replaceSection?_eq]
  cases h : section? (startMarker table.1).toList (endMarker table.1).toList s.text.toList with
  | none => exact (refill_of_section?_eq_none h).symm
  | some p => exact String.toList_ofList

/-- **Substituting tables is one pass after the other.** -/
theorem toList_text_substitute (document : String) (tables : List (String × String)) :
    (substitute document tables).text.toList = tables.foldl pass document.toList := by
  suffices h : ∀ s : Substitution,
      (tables.foldl (fun s table => s.step table.1 table.2) s).text.toList =
        tables.foldl pass s.text.toList from h _
  induction tables with
  | nil => exact fun _ => rfl
  | cons table tables ih =>
    intro s
    rw [List.foldl_cons, List.foldl_cons, ih, toList_text_step]

end FirmwareReport
