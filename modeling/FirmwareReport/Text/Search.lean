/-!
# Finding one text inside another

Three searches on lists of characters serve every recogniser of the library:

* `after? literal s`: what follows `literal` at the very start of `s`;
* `cut? literal s`: the text before the **first** occurrence of `literal` and
  the text behind it, so that `s` is the two with `literal` in between;
* `shortestRun? accept s`: the shortest run free of newlines in front of a rest
  that `accept` takes.
-/

namespace FirmwareReport.Text

/-- What follows `literal` at the start of a text, if the text starts with it. -/
def after? : (literal s : List Char) → Option (List Char)
  | [], s => some s
  | _ :: _, [] => none
  | a :: literal, c :: s => if a = c then after? literal s else none

theorem after?_eq_some_iff {literal s rest : List Char} :
    after? literal s = some rest ↔ s = literal ++ rest := by
  induction literal generalizing s with
  | nil => simp [after?, eq_comm]
  | cons a literal ih =>
    cases s with
    | nil => simp [after?]
    | cons c s =>
      by_cases h : a = c
      · subst h
        simp [after?, ih]
      · simp [after?, h, Ne.symm h]

@[simp] theorem after?_append (literal rest : List Char) :
    after? literal (literal ++ rest) = some rest :=
  after?_eq_some_iff.2 rfl

theorem length_of_after? {literal s rest : List Char} (h : after? literal s = some rest) :
    literal.length + rest.length = s.length := by
  rw [after?_eq_some_iff.1 h, List.length_append]

/-! ### The first occurrence -/

/-- The search behind `cut?`; `before` holds the characters passed over, last one
first, so that a long text costs no stack. -/
def cutFrom? (literal before : List Char) : List Char → Option (List Char × List Char)
  | [] => if literal.isEmpty then some (before.reverse, []) else none
  | c :: s =>
    match after? literal (c :: s) with
    | some rest => some (before.reverse, rest)
    | none => cutFrom? literal (c :: before) s

/-- Cut a text at the first occurrence of `literal`: what stands before it, and
what stands behind it. -/
def cut? (literal s : List Char) : Option (List Char × List Char) :=
  cutFrom? literal [] s

/-- Whether `literal` occurs in a text; the empty one occurs everywhere. -/
def occursIn (literal s : List Char) : Bool :=
  (cut? literal s).isSome

theorem cutFrom?_eq_map (literal before s : List Char) :
    cutFrom? literal before s = (cut? literal s).map fun p => (before.reverse ++ p.1, p.2) := by
  unfold cut?
  suffices h : ∀ before' : List Char, cutFrom? literal (before' ++ before) s =
      (cutFrom? literal before' s).map fun p => (before.reverse ++ p.1, p.2) by
    simpa using h []
  induction s with
  | nil =>
    intro before'
    unfold cutFrom?
    split <;> simp
  | cons c s ih =>
    intro before'
    unfold cutFrom?
    split
    · simp
    · simpa using ih (c :: before')

theorem cut?_nil (literal : List Char) :
    cut? literal [] = if literal.isEmpty then some ([], []) else none := rfl

/-- **The search, one character at a time**: an occurrence at the front is the
first one; without it the front character belongs to what stands before. -/
theorem cut?_cons (literal : List Char) (c : Char) (s : List Char) :
    cut? literal (c :: s) = match after? literal (c :: s) with
      | some rest => some ([], rest)
      | none => (cut? literal s).map fun p => (c :: p.1, p.2) := by
  rw [cut?, cutFrom?]
  split
  · rfl
  · rw [cutFrom?_eq_map]
    rfl

/-- A cut puts the text back together. -/
theorem eq_of_cut? {literal s before rest : List Char} (h : cut? literal s = some (before, rest)) :
    s = before ++ literal ++ rest := by
  induction s generalizing before with
  | nil =>
    rw [cut?_nil] at h
    split at h
    · next he =>
      obtain ⟨rfl, rfl⟩ : [] = before ∧ [] = rest := by simpa using h
      simpa using (List.isEmpty_iff.1 he).symm
    · simp at h
  | cons c s ih =>
    rw [cut?_cons] at h
    split at h
    · next r hr =>
      obtain ⟨rfl, rfl⟩ : [] = before ∧ r = rest := by simpa using h
      simpa using after?_eq_some_iff.1 hr
    · obtain ⟨⟨b, r⟩, hb, heq⟩ := Option.map_eq_some_iff.1 h
      obtain ⟨rfl, rfl⟩ : c :: b = before ∧ r = rest := by simpa using heq
      simpa using ih hb

theorem length_of_cut? {literal s before rest : List Char}
    (h : cut? literal s = some (before, rest)) :
    before.length + literal.length + rest.length = s.length := by
  rw [eq_of_cut? h]
  simp [Nat.add_assoc]

/-! ### Runs within a line -/

/-- The shortest run free of newlines in front of a rest that `accept` takes,
with what `accept` made of that rest. -/
def shortestRun? {α : Type} (accept : List Char → Option α) :
    List Char → Option (List Char × α)
  | [] => (accept []).map ([], ·)
  | c :: s =>
    match accept (c :: s) with
    | some a => some ([], a)
    | none => if c = '\n' then none else (shortestRun? accept s).map fun p => (c :: p.1, p.2)

end FirmwareReport.Text
