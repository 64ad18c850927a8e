import FirmwareReport.LinkerMap.Line
import FirmwareReport.Proofs.Text.Blank

/-!
# The grammar of map lines

The shapes of `FirmwareReport.LinkerMap.Line` as a grammar, without a direction of reading:
`FirmwareReport.LinkerMap.Shape` says of a text without white space at its end that it is one of
the three, with these parts. The recognisers read forwards and take as much as they can, and that
comes to the same thing (`FirmwareReport.LinkerMap.hasShape_iff`), since a name or a number is
followed by white space or nothing, and a path begins behind all the white space there is.

The same facts make the grammar unambiguous: a text is a line of one shape only and in one way, so
it does not matter which shape is looked for first (`FirmwareReport.LinkerMap.ofText_exact`).
-/

namespace FirmwareReport.LinkerMap

open Text

/-! ### The parts of a line -/

/-- A dot and one or more letters, digits, dots or underscores. -/
def IsSectionName (s : List Char) : Prop :=
  ∃ stem, s = '.' :: stem ∧ stem ≠ [] ∧ stem.all isNameChar = true

/-- `0x` and one or more hexadecimal digits. -/
def IsHexWord (s : List Char) : Prop :=
  ∃ digits, s = '0' :: 'x' :: digits ∧ digits ≠ [] ∧ digits.all (isDigitOf 16) = true

/-- One or more blanks. -/
def IsGap (s : List Char) : Prop :=
  s ≠ [] ∧ isAllBlank s = true

/-- A text within a line that does not begin with a blank. -/
def IsPath (s : List Char) : Prop :=
  s ≠ [] ∧ StopsAt isBlank s ∧ '\n' ∉ s

/-- Address, blanks, size, blanks, path. -/
def IsSizeAndPath (s size path : List Char) : Prop :=
  ∃ address gap gap', IsHexWord address ∧ IsGap gap ∧ IsHexWord size ∧ IsGap gap' ∧ IsPath path ∧
    s = address ++ (gap ++ (size ++ (gap' ++ path)))

/-- **The three shapes**, on a text without white space at its end. -/
inductive Shape : List Char → Line → Prop
  | full {lead gap s : List Char} {name size path : String} (hlead : isAllBlank lead = true)
      (hname : IsSectionName name.toList) (hgap : IsGap gap)
      (hs : IsSizeAndPath s size.toList path.toList) :
      Shape (lead ++ (name.toList ++ (gap ++ s))) (.full name size path)
  | header {lead : List Char} {name : String} (hlead : isAllBlank lead = true)
      (hname : IsSectionName name.toList) : Shape (lead ++ name.toList) (.header name)
  | continuation {gap s : List Char} {size path : String} (hgap : IsGap gap)
      (hs : IsSizeAndPath s size.toList path.toList) : Shape (gap ++ s) (.continuation size path)

theorem not_shape_unrecognized {s : List Char} : ¬Shape s .unrecognized := by
  intro h
  cases h

/-- **The shape of a line as the grammar has it**: what is left without the white space at the end
is one of the three, or none. -/
def HasShape (text : List Char) (line : Line) : Prop :=
  Shape (trimEnd text) line ∨ line = .unrecognized ∧ ∀ other, ¬Shape (trimEnd text) other

/-! ### Each part stops the one in front of it -/

theorem le_toNat_of_isNameChar {c : Char} (h : isNameChar c = true) :
    0x2e ≤ c.toNat ∧ c.toNat ≤ 0x7a := by
  unfold isNameChar Char.isAlphanum Char.isAlpha Char.isUpper Char.isLower Char.isDigit at h
  simp only [Bool.or_eq_true, Bool.and_eq_true, decide_eq_true_eq, beq_iff_eq, ge_iff_le,
    UInt32.le_iff_toNat_le] at h
  rcases h with (((h | h) | h) | rfl) | rfl
  · exact ⟨Nat.le_trans (by decide) h.1, Nat.le_trans h.2 (by decide)⟩
  · exact ⟨Nat.le_trans (by decide) h.1, Nat.le_trans h.2 (by decide)⟩
  · exact ⟨Nat.le_trans (by decide) h.1, Nat.le_trans h.2 (by decide)⟩
  · decide
  · decide

theorem le_toNat_of_isDigitOf {c : Char} (h : isDigitOf 16 c = true) :
    0x30 ≤ c.toNat ∧ c.toNat ≤ 0x66 := by
  have hle : ∀ {a b : Char}, a ≤ b → a.toNat ≤ b.toNat := fun h => h
  unfold isDigitOf digitValue? at h
  split_ifs at h with h₁ h₂ h₃
  · exact ⟨hle h₁.1, Nat.le_trans (hle h₁.2) (by decide)⟩
  · exact ⟨Nat.le_trans (by decide) (hle h₂.1), hle h₂.2⟩
  · exact ⟨Nat.le_trans (by decide) (hle h₃.1), Nat.le_trans (hle h₃.2) (by decide)⟩

/-- A name ends where white space begins. -/
theorem isNameChar_of_isBlank {c : Char} (h : isBlank c = true) : isNameChar c = false := by
  rw [Bool.eq_false_iff]
  intro hname
  have := le_toNat_of_isNameChar hname
  rw [isBlank_iff] at h
  omega

/-- A number ends where white space begins. -/
theorem isDigitOf_of_isBlank {c : Char} (h : isBlank c = true) : isDigitOf 16 c = false := by
  rw [Bool.eq_false_iff]
  intro hdigit
  have := le_toNat_of_isDigitOf hdigit
  rw [isBlank_iff] at h
  omega

theorem IsGap.exists_eq_cons {gap : List Char} (h : IsGap gap) :
    ∃ c blanks, gap = c :: blanks ∧ isBlank c = true ∧ isAllBlank blanks = true := by
  obtain ⟨hne, hblank⟩ := h
  cases gap with
  | nil => exact absurd rfl hne
  | cons c blanks =>
    obtain ⟨hc, hblanks⟩ : isBlank c = true ∧ isAllBlank blanks = true := by
      simpa [isAllBlank] using hblank
    exact ⟨c, blanks, rfl, hc, hblanks⟩

/-- White space stops whatever has none. -/
theorem IsGap.stopsAt {p : Char → Bool} (hp : ∀ {c}, isBlank c = true → p c = false)
    {gap : List Char} (h : IsGap gap) (rest : List Char) : StopsAt p (gap ++ rest) := by
  obtain ⟨c, blanks, rfl, hc, -⟩ := h.exists_eq_cons
  exact stopsAt_cons.2 (hp hc)

theorem IsSectionName.stopsAt {name : List Char} (h : IsSectionName name) (rest : List Char) :
    StopsAt isBlank (name ++ rest) := by
  obtain ⟨stem, rfl, -, -⟩ := h
  exact stopsAt_cons.2 (by decide)

theorem IsHexWord.stopsAt {word : List Char} (h : IsHexWord word) (rest : List Char) :
    StopsAt isBlank (word ++ rest) := by
  obtain ⟨digits, rfl, -, -⟩ := h
  exact stopsAt_cons.2 (by decide)

/-! ### The recognisers of the parts -/

/-- **A section name** is taken as far as it goes. -/
theorem sectionName?_eq_some_iff {s name rest : List Char} :
    sectionName? s = some (name, rest) ↔
      s = name ++ rest ∧ IsSectionName name ∧ StopsAt isNameChar rest := by
  constructor
  · intro h
    unfold sectionName? at h
    split at h
    · next s =>
      simp only at h
      split at h
      · cases h
      · next hne =>
        obtain ⟨rfl, rfl⟩ := Prod.mk.injEq .. ▸ Option.some.inj h
        obtain ⟨heq, hall, hstop⟩ := span_iff.1 ⟨rfl, rfl⟩
        exact ⟨congrArg _ heq, ⟨_, rfl, by simpa using hne, hall⟩, hstop⟩
    · cases h
  · rintro ⟨rfl, ⟨stem, rfl, hne, hall⟩, hstop⟩
    obtain ⟨htake, hdrop⟩ := span_iff.2 ⟨rfl, hall, hstop⟩
    rw [List.cons_append, sectionName?]
    simp [htake, hdrop, hne]

/-- **A hexadecimal number** is taken as far as it goes. -/
theorem hexWord?_eq_some_iff {s word rest : List Char} :
    hexWord? s = some (word, rest) ↔
      s = word ++ rest ∧ IsHexWord word ∧ StopsAt (isDigitOf 16) rest := by
  constructor
  · intro h
    unfold hexWord? at h
    split at h
    · next s =>
      simp only at h
      split at h
      · cases h
      · next hne =>
        obtain ⟨rfl, rfl⟩ := Prod.mk.injEq .. ▸ Option.some.inj h
        obtain ⟨heq, hall, hstop⟩ := span_iff.1 ⟨rfl, rfl⟩
        exact ⟨congrArg (fun t => '0' :: 'x' :: t) heq, ⟨_, rfl, by simpa using hne, hall⟩, hstop⟩
    · cases h
  · rintro ⟨rfl, ⟨digits, rfl, hne, hall⟩, hstop⟩
    obtain ⟨htake, hdrop⟩ := span_iff.2 ⟨rfl, hall, hstop⟩
    rw [List.cons_append, List.cons_append, hexWord?]
    simp [htake, hdrop, hne]

/-- **Blanks** are all passed over. -/
theorem blanks?_eq_some_iff {s rest : List Char} :
    blanks? s = some rest ↔ ∃ gap, IsGap gap ∧ StopsAt isBlank rest ∧ s = gap ++ rest := by
  constructor
  · intro h
    cases s with
    | nil => cases h
    | cons c s =>
      rw [blanks?] at h
      split at h
      · next hc =>
        obtain ⟨lead, hlead, hstop, rfl⟩ := trimStart_eq_iff.1 (Option.some.inj h)
        exact ⟨c :: lead, ⟨by simp, by simpa [isAllBlank, hc] using hlead⟩, hstop, rfl⟩
      · cases h
  · rintro ⟨gap, hgap, hstop, rfl⟩
    obtain ⟨c, blanks, rfl, hc, hblanks⟩ := hgap.exists_eq_cons
    rw [List.cons_append, blanks?, if_pos hc, trimStart_append hblanks hstop]

theorem path?_eq_some_iff {s path : List Char} :
    path? s = some path ↔ s = path ∧ path ≠ [] ∧ '\n' ∉ path := by
  rw [path?]
  split
  · next h =>
    refine iff_of_false (by simp) ?_
    rintro ⟨rfl, hne, hnewline⟩
    simp [hne, hnewline] at h
  · next h =>
    simp only [Bool.or_eq_true, List.isEmpty_iff, List.contains_iff_mem, not_or] at h
    constructor
    · intro heq
      obtain rfl := Option.some.inj heq
      exact ⟨rfl, h⟩
    · rintro ⟨rfl, -⟩
      rfl

/-- **Address, size and path**: each part ends where the blanks behind it begin. -/
theorem sizeAndPath?_eq_some_iff {s : List Char} {size path : String} :
    sizeAndPath? s = some (size, path) ↔ IsSizeAndPath s size.toList path.toList := by
  simp only [sizeAndPath?, Option.bind_eq_bind, Option.bind_eq_some_iff, Option.pure_def,
    Option.some.injEq, Prod.mk.injEq, Prod.exists, hexWord?_eq_some_iff, blanks?_eq_some_iff,
    path?_eq_some_iff]
  constructor
  · rintro ⟨address, t, ⟨rfl, haddress, -⟩, u, ⟨gap, hgap, -, rfl⟩, word, v, ⟨rfl, hword, -⟩, w,
      ⟨gap', hgap', hstop, rfl⟩, p, ⟨rfl, hne, hnewline⟩, rfl, rfl⟩
    refine ⟨address, gap, gap', haddress, hgap, ?_, hgap', ?_, ?_⟩ <;>
      simp only [String.toList_ofList]
    · exact hword
    · exact ⟨hne, hstop, hnewline⟩
  · rintro ⟨address, gap, gap', haddress, hgap, hword, hgap', ⟨hne, hstop, hnewline⟩, rfl⟩
    exact ⟨address, _, ⟨rfl, haddress, hgap.stopsAt isDigitOf_of_isBlank _⟩, _,
      ⟨gap, hgap, hword.stopsAt _, rfl⟩, size.toList, _,
      ⟨rfl, hword, hgap'.stopsAt isDigitOf_of_isBlank _⟩, path.toList,
      ⟨gap', hgap', hstop, rfl⟩, path.toList, ⟨rfl, hne, hnewline⟩,
      String.ofList_toList, String.ofList_toList⟩

theorem IsSizeAndPath.stopsAt {s size path : List Char} (h : IsSizeAndPath s size path) :
    StopsAt isBlank s := by
  obtain ⟨address, gap, gap', haddress, -, -, -, -, rfl⟩ := h
  exact haddress.stopsAt _

/-! ### The recognisers of the shapes -/

/-- **A full line** is one by the grammar. -/
theorem full?_eq_some_iff {line : List Char} {shape : Line} : full? line = some shape ↔
    Shape line shape ∧ ∃ name size path, shape = .full name size path := by
  simp only [full?, Option.bind_eq_bind, Option.bind_eq_some_iff, Option.pure_def,
    Option.some.injEq, Prod.exists, sectionName?_eq_some_iff, blanks?_eq_some_iff,
    sizeAndPath?_eq_some_iff]
  constructor
  · rintro ⟨name, t, ⟨hline, hname, -⟩, s, ⟨gap, hgap, -, rfl⟩, size, path, hs, rfl⟩
    obtain ⟨lead, hlead, -, rfl⟩ := trimStart_eq_iff.1 hline
    obtain ⟨name, rfl⟩ : ∃ word : String, name = word.toList := ⟨.ofList name, by simp⟩
    rw [String.ofList_toList]
    exact ⟨.full hlead hname hgap hs, _, _, _, rfl⟩
  · rintro ⟨hshape, name, size, path, rfl⟩
    cases hshape with
    | full hlead hname hgap hs =>
      rw [trimStart_append hlead (hname.stopsAt _)]
      exact ⟨name.toList, _, ⟨rfl, hname, hgap.stopsAt isNameChar_of_isBlank _⟩, _,
        ⟨_, hgap, hs.stopsAt, rfl⟩, size, path, hs, by rw [String.ofList_toList]⟩

/-- Nothing stands behind the name of a header. -/
theorem sectionName?_of_header {lead name : List Char} (hlead : isAllBlank lead = true)
    (hname : IsSectionName name) : sectionName? (trimStart (lead ++ name)) = some (name, []) := by
  have hstop := hname.stopsAt []
  rw [List.append_nil] at hstop
  rw [trimStart_append hlead hstop, sectionName?_eq_some_iff]
  exact ⟨(List.append_nil name).symm, hname, stopsAt_nil _⟩

/-- **A header** is one by the grammar, if no white space is left at the end of the line. -/
theorem header?_trimEnd_eq_some_iff {text : List Char} {shape : Line} :
    header? (trimEnd text) = some shape ↔
      Shape (trimEnd text) shape ∧ ∃ name, shape = .header name := by
  simp only [header?, Option.bind_eq_bind, Option.bind_eq_some_iff, Prod.exists]
  constructor
  · rintro ⟨name, rest, hsection, h⟩
    obtain ⟨hline, hname, -⟩ := sectionName?_eq_some_iff.1 hsection
    split at h
    · next hrest =>
      obtain rfl := Option.some.inj h
      obtain ⟨lead, hlead, -, heq⟩ := trimStart_eq_iff.1 hline
      rw [← List.append_assoc] at heq
      obtain rfl := eq_nil_of_trimEnd_eq_append hrest heq
      obtain ⟨name, rfl⟩ : ∃ word : String, name = word.toList := ⟨.ofList name, by simp⟩
      rw [heq, List.append_nil, String.ofList_toList]
      exact ⟨.header hlead hname, _, rfl⟩
    · cases h
  · rintro ⟨hshape, name, rfl⟩
    generalize trimEnd text = line at hshape
    cases hshape with
    | header hlead hname =>
      exact ⟨name.toList, [], sectionName?_of_header hlead hname, by simp [isAllBlank]⟩

/-- **A continuation** is one by the grammar. -/
theorem continuation?_eq_some_iff {line : List Char} {shape : Line} :
    continuation? line = some shape ↔
      Shape line shape ∧ ∃ size path, shape = .continuation size path := by
  simp only [continuation?, Option.bind_eq_bind, Option.bind_eq_some_iff, Option.pure_def,
    Option.some.injEq, Prod.exists, blanks?_eq_some_iff, sizeAndPath?_eq_some_iff]
  constructor
  · rintro ⟨s, ⟨gap, hgap, -, rfl⟩, size, path, hs, rfl⟩
    exact ⟨.continuation hgap hs, _, _, rfl⟩
  · rintro ⟨hshape, size, path, rfl⟩
    cases hshape with
    | continuation hgap hs => exact ⟨_, ⟨_, hgap, hs.stopsAt, rfl⟩, size, path, hs, rfl⟩

/-! ### The grammar is unambiguous -/

/-- A continuation begins with no section name. -/
theorem sectionName?_of_continuation {gap s size path : List Char} (hgap : IsGap gap)
    (hs : IsSizeAndPath s size path) : sectionName? (trimStart (gap ++ s)) = none := by
  rw [trimStart_append hgap.2 hs.stopsAt]
  obtain ⟨address, _, _, ⟨digits, rfl, -, -⟩, -, -, -, -, rfl⟩ := hs
  rfl

/-- **What has a shape is read as that shape**, so it has one only. -/
theorem Shape.ofText_eq {text : List Char} {shape : Line} (h : Shape (trimEnd text) shape) :
    Line.ofText text = shape := by
  have hheader := @header?_trimEnd_eq_some_iff text shape
  rw [Line.ofText]
  generalize trimEnd text = line at h hheader
  cases h with
  | full hlead hname hgap hs =>
    have hfull := full?_eq_some_iff.2 ⟨.full hlead hname hgap hs, _, _, _, rfl⟩
    simp [hfull]
  | @header lead name hlead hname =>
    have hsome := hheader.2 ⟨.header hlead hname, _, rfl⟩
    have hfull : full? (lead ++ name.toList) = none := by
      rw [full?, sectionName?_of_header hlead hname]
      rfl
    simp [hfull, hsome]
  | @continuation gap s _ _ hgap hs =>
    have hsome := continuation?_eq_some_iff.2 ⟨.continuation hgap hs, _, _, rfl⟩
    have hfull : full? (gap ++ s) = none := by
      rw [full?, sectionName?_of_continuation hgap hs]
      rfl
    have hnone : header? (gap ++ s) = none := by
      rw [header?, sectionName?_of_continuation hgap hs]
      rfl
    simp [hfull, hnone, hsome]

/-- What is read as a shape has it. -/
theorem shape_ofText (text : List Char) :
    Shape (trimEnd text) (Line.ofText text) ∨ Line.ofText text = .unrecognized := by
  cases hfull : full? (trimEnd text) with
  | some shape =>
    refine Or.inl ?_
    simpa [Line.ofText, hfull] using (full?_eq_some_iff.1 hfull).1
  | none =>
    cases hheader : header? (trimEnd text) with
    | some shape =>
      refine Or.inl ?_
      simpa [Line.ofText, hfull, hheader] using (header?_trimEnd_eq_some_iff.1 hheader).1
    | none =>
      cases hcontinuation : continuation? (trimEnd text) with
      | some shape =>
        refine Or.inl ?_
        simpa [Line.ofText, hfull, hheader, hcontinuation] using
          (continuation?_eq_some_iff.1 hcontinuation).1
      | none => exact Or.inr (by simp [Line.ofText, hfull, hheader, hcontinuation])

/-- **The recognisers follow the grammar.** -/
theorem hasShape_iff {text : List Char} {line : Line} :
    HasShape text line ↔ Line.ofText text = line := by
  constructor
  · rintro (h | ⟨rfl, hnone⟩)
    · exact h.ofText_eq
    · exact (shape_ofText text).resolve_left (hnone _)
  · rintro rfl
    rcases shape_ofText text with h | h
    · exact Or.inl h
    · refine Or.inr ⟨h, fun other hother => ?_⟩
      rw [← hother.ofText_eq, h] at hother
      exact not_shape_unrecognized hother

/-! ### In any order -/

/-- The recognisers of the three shapes, in the order in which they are tried. -/
def recognisers : List (List Char → Option Line) :=
  [full?, header?, continuation?]

/-- The shape that the first of some recognisers finds which finds one. -/
def firstShape (order : List (List Char → Option Line)) (line : List Char) : Line :=
  (order.findSome? (· line)).getD .unrecognized

/-- Each recogniser keeps to the grammar. -/
theorem shape_of_mem_recognisers {recogniser : List Char → Option Line}
    (hmem : recogniser ∈ recognisers) {text : List Char} {shape : Line}
    (h : recogniser (trimEnd text) = some shape) : Shape (trimEnd text) shape := by
  simp only [recognisers, List.mem_cons, List.not_mem_nil, or_false] at hmem
  rcases hmem with rfl | rfl | rfl
  · exact (full?_eq_some_iff.1 h).1
  · exact (header?_trimEnd_eq_some_iff.1 h).1
  · exact (continuation?_eq_some_iff.1 h).1

/-- **Whichever recogniser is tried first**, the shape that is found is the same. -/
theorem firstShape_eq_ofText {order : List (List Char → Option Line)}
    (horder : order.Perm recognisers) (text : List Char) :
    firstShape order (trimEnd text) = Line.ofText text := by
  rw [firstShape]
  cases hfound : order.findSome? (· (trimEnd text)) with
  | some shape =>
    obtain ⟨recogniser, hmem, hshape⟩ := List.exists_of_findSome?_eq_some hfound
    exact (shape_of_mem_recognisers (horder.mem_iff.1 hmem) hshape).ofText_eq.symm
  | none =>
    have hnone : ∀ recogniser ∈ recognisers, recogniser (trimEnd text) = none :=
      fun recogniser hmem =>
        List.findSome?_eq_none_iff.1 hfound recogniser (horder.mem_iff.2 hmem)
    simp only [recognisers, List.forall_mem_cons] at hnone
    obtain ⟨hfull, hheader, hcontinuation, -⟩ := hnone
    simp [Line.ofText, hfull, hheader, hcontinuation]

theorem ofText_eq_iff_shape {text : List Char} {line : Line} (hline : line ≠ .unrecognized) :
    Line.ofText text = line ↔ Shape (trimEnd text) line := by
  rw [← hasShape_iff]
  exact or_iff_left fun h => hline h.1

/-- **The shape of a line is that of the grammar, and the grammar is unambiguous**: the line has at
most one shape, with at most one name, size and path, so the order in which the shapes are tried
does not matter. -/
theorem ofText_exact (text : List Char) :
    (∀ name size path, Line.ofText text = .full name size path ↔
      Shape (trimEnd text) (.full name size path)) ∧
    (∀ name, Line.ofText text = .header name ↔ Shape (trimEnd text) (.header name)) ∧
    (∀ size path, Line.ofText text = .continuation size path ↔
      Shape (trimEnd text) (.continuation size path)) ∧
    (Line.ofText text = .unrecognized ↔ ∀ line, ¬Shape (trimEnd text) line) ∧
    (∀ line other, Shape (trimEnd text) line → Shape (trimEnd text) other → line = other) ∧
    ∀ order, order.Perm recognisers → firstShape order (trimEnd text) = Line.ofText text := by
  refine ⟨fun name size path => ofText_eq_iff_shape (by simp), fun name => ofText_eq_iff_shape
    (by simp), fun size path => ofText_eq_iff_shape (by simp), ?_, ?_, ?_⟩
  · constructor
    · intro h line hline
      rw [← hline.ofText_eq, h] at hline
      exact not_shape_unrecognized hline
    · intro hnone
      exact (shape_ofText text).resolve_left (hnone _)
  · intro line other hline hother
    exact hline.ofText_eq.symm.trans hother.ofText_eq
  · exact fun order horder => firstShape_eq_ofText horder text

/-- Blanks of several kinds between the columns and in the path, and the recognisers tried from the
last to the first. -/
theorem ofText_exact_blanks :
    recognisers.reverse.Perm recognisers ∧
      firstShape recognisers.reverse
        (trimEnd "\u2003.text.poly\n0x0\u00a00x1F8\ta  b.o\r\n".toList) =
          .full ".text.poly" "0x1F8" "a  b.o" ∧
      ∀ line, Shape (trimEnd "\u2003.text.poly\n0x0\u00a00x1F8\ta  b.o\r\n".toList) line →
        line = .full ".text.poly" "0x1F8" "a  b.o" := by
  have hline : Line.ofText "\u2003.text.poly\n0x0\u00a00x1F8\ta  b.o\r\n".toList =
      .full ".text.poly" "0x1F8" "a  b.o" := by
    decide +kernel
  have hperm : recognisers.reverse.Perm recognisers := List.reverse_perm recognisers
  obtain ⟨hfull, -, -, -, hunique, horder⟩ :=
    ofText_exact "\u2003.text.poly\n0x0\u00a00x1F8\ta  b.o\r\n".toList
  refine ⟨hperm, ?_, fun line h => hunique line _ h ((hfull _ _ _).1 hline)⟩
  rw [horder _ hperm, hline]

end FirmwareReport.LinkerMap
