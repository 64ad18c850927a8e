/-!
# White space

Which characters count as white space, and the trimming that goes with it. The
set is the Unicode property `White_Space`, which is larger than the one core's
`Char.isWhitespace` knows: a log line or a map line may carry a no-break space
or a next-line control, and both have to be trimmed off.

Texts are handled as lists of characters here and in every recogniser of the
library; `String` is the type of the fields that hold a finished text.
-/

namespace FirmwareReport.Text

/-- The ranges of the Unicode property `White_Space`, both ends included. -/
def blankRanges : List (Nat × Nat) :=
  [(0x09, 0x0d), (0x20, 0x20), (0x85, 0x85), (0xa0, 0xa0), (0x1680, 0x1680),
   (0x2000, 0x200a), (0x2028, 0x2029), (0x202f, 0x202f), (0x205f, 0x205f), (0x3000, 0x3000)]

/-- Whether a character is white space. -/
def isBlank (c : Char) : Bool :=
  blankRanges.any fun range => range.1 ≤ c.toNat && c.toNat ≤ range.2

/-- The text without its leading white space. -/
def trimStart (s : List Char) : List Char :=
  s.dropWhile isBlank

/-- The text without its trailing white space: a blank goes exactly when nothing
is kept behind it. -/
def trimEnd (s : List Char) : List Char :=
  s.foldr (fun c kept => if kept.isEmpty && isBlank c then [] else c :: kept) []

/-- The text without white space at either end. -/
def trim (s : List Char) : List Char :=
  trimEnd (trimStart s)

/-- Whether a text holds nothing but white space. -/
def isAllBlank (s : List Char) : Bool :=
  s.all isBlank

/-! ### What trimming does -/

@[simp] theorem trimEnd_nil : trimEnd [] = [] := rfl

theorem trimEnd_cons (c : Char) (s : List Char) :
    trimEnd (c :: s) = if (trimEnd s).isEmpty && isBlank c then [] else c :: trimEnd s := rfl

/-- Nothing is left of a text exactly when it is all white space. -/
theorem trimEnd_eq_nil_iff {s : List Char} : trimEnd s = [] ↔ isAllBlank s = true := by
  induction s with
  | nil => simp [isAllBlank]
  | cons c s ih =>
    rw [trimEnd_cons]
    by_cases hs : trimEnd s = [] <;> by_cases hc : isBlank c = true <;>
      simp_all [isAllBlank]

/-- Only white space is cut off. -/
theorem exists_trimEnd_append (s : List Char) :
    ∃ cut, isAllBlank cut = true ∧ s = trimEnd s ++ cut := by
  induction s with
  | nil => exact ⟨[], rfl, rfl⟩
  | cons c s ih =>
    rw [trimEnd_cons]
    split
    · next h =>
      obtain ⟨hs, hc⟩ : trimEnd s = [] ∧ isBlank c = true := by simpa using h
      have hall : isAllBlank s = true := trimEnd_eq_nil_iff.1 hs
      refine ⟨c :: s, ?_, rfl⟩
      simp only [isAllBlank, List.all_cons, Bool.and_eq_true] at hall ⊢
      exact ⟨hc, hall⟩
    · obtain ⟨cut, hcut, heq⟩ := ih
      exact ⟨cut, hcut, by rw [List.cons_append, ← heq]⟩

end FirmwareReport.Text
