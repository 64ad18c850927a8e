import FirmwareReport.Log.Result

/-!
# Finding the results of a log in one pass

`resultsIn` says what the results of a text are. Read as a program it goes over the same
characters again and again: a run of tags with nothing behind it is tried from each of
its tags, and each try ends at each of its tags in turn. This module finds the same
results in one pass from the end of the text to its front.

The pass leaves a **mark** at every character. A mark holds all that can be found from
there on: the operation that would start there, the result without tags, the result
behind a tag that ends there, and all results of the text. Each of the four follows in a few
steps from the marks further on (`Mark.before`), and since a found result goes on to the
results behind it, the mark at the front holds the results of the whole text.

Main statement: `search_eq_resultsIn`, the pass finds what `resultsIn` says.
-/

namespace FirmwareReport.Log

open Text

/-- What can be found in the text from some character on. -/
@[ext]
structure Mark where
  /-- The text from here on. -/
  text : List Char
  /-- The operation that starts here with the digits of its clause, and all results
  behind that clause. -/
  operation : Option (List Char × List Char × List Char × List Result)
  /-- The result without tags that starts here, and all results behind it. -/
  untagged : Option (Result × List Result)
  /-- The result behind a tag that ends here, and all results behind it. -/
  tagged : Option (List Result)
  /-- All results from here on. -/
  results : List Result

/-- The mark at the end of a text. -/
def Mark.last : Mark := ⟨[], none, none, none, []⟩

/-- The mark at the end of a literal whose first character stands in front of the marked
text. -/
def markBehind (literal : List Char) (marks : List Mark) : Mark :=
  marks.getD (literal.length - 1) .last

/-- The mark at a character, from the marks behind it. -/
def Mark.before (tag : Tag) (c : Char) (marks : List Mark) : Mark :=
  let next := marks.getD 0 .last
  let text := c :: next.text
  let operation :=
    match clause? text with
    | some (cycles, stack, _) =>
      some ([], cycles, stack, (markBehind (clauseText cycles stack) marks).results)
    | none =>
      if c = '\n' then none
      else next.operation.map fun (operation, rest) => (c :: operation, rest)
  let untagged :=
    match after? ": ".toList text with
    | some _ =>
      (markBehind ": ".toList marks).operation.map fun (operation, cycles, stack, results) =>
        (⟨[], operation, cycles, stack⟩, results)
    | none =>
      if c = '\n' then none
      else next.untagged.map fun (result, results) =>
        ({ result with algorithm := c :: result.algorithm }, results)
  let past := (after? tag.text text).bind fun _ => (markBehind tag.text marks).tagged
  { text, operation, untagged
    tagged := (if isBlank c then next.tagged else none) <|> past <|>
      untagged.map fun (result, results) => result :: results
    results := past.getD next.results }

/-- The marks at the characters of a text. -/
def marksOf (tag : Tag) (s : List Char) : List Mark :=
  s.foldr (fun c marks => Mark.before tag c marks :: marks) []

/-- **All results of a text**, found in one pass. -/
def search (tag : Tag) (s : List Char) : List Result :=
  ((marksOf tag s).getD 0 .last).results

/-! ### What the marks hold -/

/-- What the mark at the front of a text should hold. -/
def Mark.of (tag : Tag) (s : List Char) : Mark where
  text := s
  operation := (shortestRun? clause? s).map fun (operation, cycles, stack, rest) =>
    (operation, cycles, stack, resultsIn tag rest)
  untagged := (untagged? s).map fun (result, rest) => (result, resultsIn tag rest)
  tagged := (behindTag? tag s).map fun (result, rest) => result :: resultsIn tag rest
  results := resultsIn tag s

theorem Mark.of_nil (tag : Tag) : Mark.of tag [] = .last := by
  have hclause : clause? [] = none := rfl
  have huntagged : untagged? [] = none := rfl
  simp [Mark.of, Mark.last, shortestRun?, hclause, huntagged, behindTag?, resultsIn]

/-- The first `: ` of a line ends the algorithm. -/
theorem untagged?_cons (c : Char) (s : List Char) :
    untagged? (c :: s) = match after? ": ".toList (c :: s) with
      | some rest => (shortestRun? clause? rest).map fun (operation, cycles, stack, rest) =>
          (⟨[], operation, cycles, stack⟩, rest)
      | none =>
        if c = '\n' then none
        else (untagged? s).map fun (result, rest) =>
          ({ result with algorithm := c :: result.algorithm }, rest) := by
  simp only [untagged?, shortestRun?]
  cases after? ": ".toList (c :: s) with
  | some rest => cases hrun : shortestRun? clause? rest <;> simp [hrun]
  | none =>
    by_cases hc : c = '\n'
    · simp [hc]
    · simp only [hc, if_false]
      cases shortestRun? (after? ": ".toList) s with
      | none => rfl
      | some run =>
        obtain ⟨algorithm, rest⟩ := run
        cases hrest : shortestRun? clause? rest <;> simp [hrest]

/-- Behind a tag: blanks first, then another tag, then the rest of the result. -/
theorem behindTag?_cons (tag : Tag) (c : Char) (s : List Char) :
    behindTag? tag (c :: s) =
      ((if isBlank c then behindTag? tag s else none) <|> resultAt? tag (c :: s) <|>
        untagged? (c :: s)) := by
  rw [behindTag?, resultAt?]
  cases after? tag.text (c :: s) <;> rfl

/-- A result at the front comes first, and the others behind it. -/
theorem resultsIn_cons (tag : Tag) (c : Char) (s : List Char) :
    resultsIn tag (c :: s) =
      ((resultAt? tag (c :: s)).map fun (result, rest) => result :: resultsIn tag rest).getD
        (resultsIn tag s) := by
  rw [resultsIn]
  split
  · next h => rw [h]; rfl
  · next h => rw [h]; rfl

/-- Marks that are right at every end of a text give the right mark in front of it. -/
theorem Mark.before_eq_of {tag : Tag} {c : Char} {s : List Char} {marks : List Mark}
    (h : ∀ front rest, s = front ++ rest → marks.getD front.length .last = Mark.of tag rest) :
    Mark.before tag c marks = Mark.of tag (c :: s) := by
  have hnext : marks.getD 0 .last = Mark.of tag s := h [] s rfl
  have hbehind : ∀ {literal rest : List Char}, 0 < literal.length → c :: s = literal ++ rest →
      markBehind literal marks = Mark.of tag rest := by
    intro literal rest hpos heq
    cases literal with
    | nil => simp at hpos
    | cons d literal =>
      obtain ⟨-, hs⟩ : c = d ∧ s = literal ++ rest := by simpa using heq
      simpa [markBehind] using h literal rest hs
  have hafter : ∀ {literal rest : List Char}, 0 < literal.length →
      after? literal (c :: s) = some rest → markBehind literal marks = Mark.of tag rest :=
    fun hpos hrest => hbehind hpos (after?_eq_some_iff.1 hrest)
  have hoperation : (Mark.before tag c marks).operation = (Mark.of tag (c :: s)).operation := by
    simp only [Mark.before, hnext, Mark.of, shortestRun?]
    cases hclause : clause? (c :: s) with
    | some clause =>
      obtain ⟨cycles, stack, rest⟩ := clause
      have hpos : 0 < (clauseText cycles stack).length := by simp [clauseText]
      simp [hbehind hpos (eq_of_clause? hclause), Mark.of]
    | none =>
      by_cases hc : c = '\n'
      · simp [hc]
      · cases shortestRun? clause? s <;> simp [hc]
  have huntagged : (Mark.before tag c marks).untagged = (Mark.of tag (c :: s)).untagged := by
    simp only [Mark.before, hnext, Mark.of, untagged?_cons]
    cases hrest : after? ": ".toList (c :: s) with
    | some rest =>
      simp only [hafter (by decide) hrest, Mark.of]
      cases shortestRun? clause? rest <;> rfl
    | none =>
      by_cases hc : c = '\n'
      · simp [hc]
      · cases untagged? s <;> simp [hc]
  have hpast : ((after? tag.text (c :: s)).bind fun _ => (markBehind tag.text marks).tagged) =
      (resultAt? tag (c :: s)).map fun (result, rest) => result :: resultsIn tag rest := by
    rw [resultAt?]
    cases hrest : after? tag.text (c :: s) with
    | some rest => simp [hafter tag.length_pos hrest, Mark.of]
    | none => rfl
  have htagged : (Mark.before tag c marks).tagged = (Mark.of tag (c :: s)).tagged := by
    simp only [Mark.before, hnext] at huntagged ⊢
    rw [show (Mark.of tag s).text = s from rfl] at huntagged ⊢
    rw [huntagged, hpast]
    simp only [Mark.of, behindTag?_cons, Option.orElse_eq_orElse, Option.orElse_eq_or,
      Option.map_or, Option.map_map]
    cases isBlank c <;> rfl
  have hresults : (Mark.before tag c marks).results = (Mark.of tag (c :: s)).results := by
    simp only [Mark.of]
    rw [resultsIn_cons, ← hpast]
    simp only [Mark.before, hnext]
    rfl
  have htext : (Mark.before tag c marks).text = (Mark.of tag (c :: s)).text := by
    simp only [Mark.before, hnext, Mark.of]
  exact Mark.ext htext hoperation huntagged htagged hresults

/-- The mark at the end of a front of the text is that of the rest. -/
theorem getD_marksOf (tag : Tag) {s front rest : List Char} (h : s = front ++ rest) :
    (marksOf tag s).getD front.length .last = Mark.of tag rest := by
  induction s generalizing front rest with
  | nil =>
    obtain ⟨rfl, rfl⟩ := List.append_eq_nil_iff.1 h.symm
    exact (Mark.of_nil tag).symm
  | cons c s ih =>
    cases front with
    | nil =>
      subst h
      exact Mark.before_eq_of fun _ _ hs => ih hs
    | cons d front =>
      obtain ⟨rfl, rfl⟩ : c = d ∧ s = front ++ rest := by simpa using h
      exact ih rfl

/-- **The pass finds all results**, and no others. -/
theorem search_eq_resultsIn (tag : Tag) (s : List Char) : search tag s = resultsIn tag s := by
  rw [search, show 0 = ([] : List Char).length from rfl, getD_marksOf tag (List.nil_append s).symm]
  rfl

end FirmwareReport.Log
