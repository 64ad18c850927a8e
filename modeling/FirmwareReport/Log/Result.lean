import FirmwareReport.Number.Numeral
import FirmwareReport.Text.Blank
import FirmwareReport.Text.Search

/-!
# Result lines of a log

The firmware prints one line per timed operation, behind a literal tag:

    UART >> ML-KEM-512: Keygen took 5152020 cycles, Stack: 4096 bytes

A capture of that line is rarely clean. The serial bridge repeats the tag, other
lines stand in between, and noise may stand in front of the tag or behind the
last word. So a **result** may start anywhere in the text:

* one tag or more, each followed by any white space, line breaks included;
* the algorithm, up to the first `: `, and the operation, up to the first clause
  ` took … cycles, Stack: … bytes` – the shortest runs there are, both within
  one line.

A tag may itself begin or end with white space, so that it is not always clear
where a run of tags ends. The rule is to go on as far as possible: behind a tag,
first skip as many blanks as there are, then try another tag, and only then read
the algorithm; if nothing comes of it, step back over a blank and try again
(`behindTag?`). Results are looked for from the left, each search starting where the
last result ended (`resultsIn`).
-/

namespace FirmwareReport.Log

open Text

/-- The literal in front of every result: any text with something visible in it. -/
structure Tag where
  text : List Char
  visible : isAllBlank text = false

/-- A text as a tag. The search here takes any tag; an engine that has a limit for its patterns may
refuse a long one. -/
def Tag.ofString? (s : String) : Option Tag :=
  if h : isAllBlank s.toList = false then some ⟨s.toList, h⟩ else none

/-- A tag is not empty. -/
theorem Tag.length_pos (tag : Tag) : 0 < tag.text.length := by
  obtain ⟨text, visible⟩ := tag
  cases text with
  | nil => simp [isAllBlank] at visible
  | cons => simp

/-- A result as it stands in the log. -/
structure Result where
  algorithm : List Char
  operation : List Char
  /-- The digits of the cycle count. -/
  cycles : List Char
  /-- The digits of the stack size. -/
  stack : List Char
deriving DecidableEq, Repr

/-! ### What stands behind the tags -/

/-- A run of decimal digits, and what follows it. -/
def digits? (s : List Char) : Option (List Char × List Char) :=
  let digits := s.takeWhile (isDigitOf 10)
  if digits.isEmpty then none else some (digits, s.dropWhile (isDigitOf 10))

/-- The closing clause of a result: the digits of cycles and of stack, and what follows. -/
def clause? (s : List Char) : Option (List Char × List Char × List Char) := do
  let s ← after? " took ".toList s
  let (cycles, s) ← digits? s
  let s ← after? " cycles, Stack: ".toList s
  let (stack, s) ← digits? s
  let s ← after? " bytes".toList s
  return (cycles, stack, s)

/-- The closing clause as it is written, from the digits of cycles and of stack. -/
def clauseText (cycles stack : List Char) : List Char :=
  " took ".toList ++ (cycles ++ (" cycles, Stack: ".toList ++ (stack ++ " bytes".toList)))

/-- A result without its tags, and what follows it. The first `: ` of the line ends the
algorithm: if no clause stands behind it, none stands behind a later one. -/
def untagged? (s : List Char) : Option (Result × List Char) := do
  let (algorithm, s) ← shortestRun? (after? ": ".toList) s
  let (operation, cycles, stack, s) ← shortestRun? clause? s
  return (⟨algorithm, operation, cycles, stack⟩, s)

/-! ### Nothing is read twice -/

theorem eq_of_digits? {s digits rest : List Char} (h : digits? s = some (digits, rest)) :
    s = digits ++ rest := by
  simp only [digits?] at h
  split at h
  · simp at h
  · obtain ⟨rfl, rfl⟩ : _ = digits ∧ _ = rest := by simpa using h
    exact List.takeWhile_append_dropWhile.symm

/-- A clause stands in the text as it is written. -/
theorem eq_of_clause? {s cycles stack rest : List Char}
    (h : clause? s = some (cycles, stack, rest)) : s = clauseText cycles stack ++ rest := by
  simp only [clause?, Option.bind_eq_bind, Option.bind_eq_some_iff, Option.pure_def,
    Option.some.injEq, Prod.mk.injEq, Prod.exists] at h
  obtain ⟨s₁, h₁, c, s₂, h₂, s₃, h₃, d, s₄, h₄, s₅, h₅, rfl, rfl, rfl⟩ := h
  rw [after?_eq_some_iff.1 h₁, eq_of_digits? h₂, after?_eq_some_iff.1 h₃, eq_of_digits? h₄,
    after?_eq_some_iff.1 h₅]
  simp [clauseText]

theorem length_of_clause? {s cycles stack rest : List Char}
    (h : clause? s = some (cycles, stack, rest)) : rest.length ≤ s.length := by
  rw [eq_of_clause? h]
  simp

theorem length_of_shortestRun? {α : Type} {accept : List Char → Option α} (size : α → Nat)
    (haccept : ∀ s a, accept s = some a → size a ≤ s.length) {s run : List Char} {a : α}
    (h : shortestRun? accept s = some (run, a)) : size a ≤ s.length := by
  induction s generalizing run with
  | nil =>
    obtain ⟨b, hb, heq⟩ := Option.map_eq_some_iff.1 h
    obtain ⟨-, rfl⟩ : _ ∧ b = a := by simpa using heq
    exact haccept _ _ hb
  | cons c s ih =>
    simp only [shortestRun?] at h
    split at h
    · next b hb =>
      obtain ⟨-, rfl⟩ : _ ∧ b = a := by simpa using h
      exact haccept _ _ hb
    · split at h
      · simp at h
      · obtain ⟨⟨run', b⟩, hb, heq⟩ := Option.map_eq_some_iff.1 h
        obtain ⟨-, rfl⟩ : _ ∧ b = a := by simpa using heq
        exact Nat.le_succ_of_le (ih hb)

theorem length_of_untagged? {s rest : List Char} {result : Result}
    (h : untagged? s = some (result, rest)) : rest.length ≤ s.length := by
  simp only [untagged?, Option.bind_eq_bind, Option.bind_eq_some_iff, Option.pure_def,
    Option.some.injEq, Prod.mk.injEq, Prod.exists] at h
  obtain ⟨a, s₁, h₁, o, c, d, s₂, h₂, -, rfl⟩ := h
  have h₁ := length_of_shortestRun? List.length
    (fun s r hr => by have := length_of_after? hr; omega) h₁
  have h₂ : s₂.length ≤ s₁.length := length_of_shortestRun? (fun p => p.2.2.length)
    (fun s ⟨c, d, r⟩ hr => length_of_clause? hr) h₂
  omega

/-! ### Runs of tags -/

/-- The result behind a tag that has just been read, and what follows it: blanks are
skipped first, then further tags read, then the rest of the result. -/
def behindTag? (tag : Tag) : List Char → Option (Result × List Char)
  | [] => none
  | c :: s =>
    (if isBlank c then behindTag? tag s else none) <|>
    (match _h : after? tag.text (c :: s) with
      | some rest => behindTag? tag rest
      | none => none) <|>
    untagged? (c :: s)
termination_by s => s.length
decreasing_by
  · simp
  · have := length_of_after? _h
    have := tag.length_pos
    omega

theorem length_of_behindTag? {tag : Tag} {s rest : List Char} {result : Result}
    (h : behindTag? tag s = some (result, rest)) : rest.length ≤ s.length := by
  induction hn : s.length using Nat.strongRecOn generalizing s with
  | ind n ih =>
    subst hn
    cases s with
    | nil => simp [behindTag?] at h
    | cons c s =>
      rw [behindTag?] at h
      simp only [Option.orElse_eq_orElse, Option.orElse_eq_or, Option.or_eq_some_iff] at h
      rcases h with h | ⟨-, h | ⟨-, h⟩⟩
      · split at h
        · have := ih s.length (by simp) h rfl
          simp; omega
        · simp at h
      · split at h
        · next rest' h' =>
          have := length_of_after? h'
          have := tag.length_pos
          have := ih rest'.length (by omega) h rfl
          omega
        · simp at h
      · exact length_of_untagged? h

/-- The result that starts at the front of a text, and what follows it. -/
def resultAt? (tag : Tag) (s : List Char) : Option (Result × List Char) :=
  (after? tag.text s).bind (behindTag? tag)

theorem length_of_resultAt? {tag : Tag} {s rest : List Char} {result : Result}
    (h : resultAt? tag s = some (result, rest)) : rest.length < s.length := by
  obtain ⟨s₁, h₁, h₂⟩ := Option.bind_eq_some_iff.1 h
  have := length_of_after? h₁
  have := length_of_behindTag? h₂
  have := tag.length_pos
  omega

/-- **All results of a text**, from the left, none overlapping another. -/
def resultsIn (tag : Tag) : List Char → List Result
  | [] => []
  | c :: s =>
    match _h : resultAt? tag (c :: s) with
    | some (result, rest) => result :: resultsIn tag rest
    | none => resultsIn tag s
termination_by s => s.length
decreasing_by
  · exact length_of_resultAt? _h
  · simp

end FirmwareReport.Log
