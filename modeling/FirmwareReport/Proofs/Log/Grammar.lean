import FirmwareReport.Log.Search
import FirmwareReport.Proofs.Text.Blank
import FirmwareReport.Proofs.Text.Search

/-!
# What the recognisers of a result accept

The recognisers of `FirmwareReport.Log.Result` read forwards, so what they make of a text depends
on the text behind it too. This file says how far.

* A closing clause is what its digits write, no more and no less
  (`FirmwareReport.Log.clause?_eq_some_iff`). It holds no newline, so whether one stands in front of
  a text is settled within the first line (`FirmwareReport.Log.clause?_append_newline`).
* The result behind the tags is settled within the first line as well
  (`FirmwareReport.Log.untagged?_append_newline`). In front of it, the line may hold anything: a
  result is found there too (`FirmwareReport.Log.isSome_untagged?_append`), and where no `: ` begins
  in front, it is the same one with a longer algorithm (`FirmwareReport.Log.untagged?_append`).
* The result behind a tag is one that stands further on
  (`FirmwareReport.Log.exists_untagged?_of_behindTag?`), and if one stands right here, there is one
  (`FirmwareReport.Log.isSome_behindTag?`).
-/

namespace FirmwareReport

/-! ### Searches that end with the line -/

namespace Text

variable {s t : List Char}

theorem after?_append_newline {literal : List Char} (h : '\n' ∉ literal) (s t : List Char) :
    after? literal (s ++ '\n' :: t) = (after? literal s).map (· ++ '\n' :: t) := by
  cases hs : after? literal s with
  | some rest =>
    rw [Option.map_some, after?_eq_some_iff, after?_eq_some_iff.1 hs, List.append_assoc]
  | none =>
    rw [Option.map_none, after?_eq_none_iff]
    intro hpre
    exact after?_eq_none_iff.1 hs (isPrefix_of_isPrefix_append_cons h hpre)

/-- A run ends with its line, so if what is accepted is settled within the line, so is the run. -/
theorem shortestRun?_append_newline {α : Type} {accept : List Char → Option α} {extend : α → α}
    (haccept : ∀ s, accept (s ++ '\n' :: t) = (accept s).map extend) (s : List Char) :
    shortestRun? accept (s ++ '\n' :: t) =
      (shortestRun? accept s).map fun p => (p.1, extend p.2) := by
  induction s with
  | nil =>
    have h := haccept []
    rw [List.nil_append] at h
    rw [List.nil_append, shortestRun?, shortestRun?, h]
    cases accept [] <;> rfl
  | cons c s ih =>
    have h := haccept (c :: s)
    rw [List.cons_append] at h
    rw [List.cons_append, shortestRun?, shortestRun?, h]
    cases accept (c :: s) with
    | some a => rfl
    | none =>
      by_cases hc : c = '\n'
      · simp [hc]
      · simp [hc, ih, Function.comp_def]

/-- What a run leads to is accepted at the end of the run. -/
theorem exists_of_shortestRun? {α : Type} {accept : List Char → Option α} {run : List Char} {a : α}
    (h : shortestRun? accept s = some (run, a)) :
    ∃ rest, s = run ++ rest ∧ '\n' ∉ run ∧ accept rest = some a := by
  induction s generalizing run with
  | nil =>
    obtain ⟨b, hb, heq⟩ := Option.map_eq_some_iff.1 h
    obtain ⟨rfl, rfl⟩ : [] = run ∧ b = a := by simpa using heq
    exact ⟨[], rfl, List.not_mem_nil, hb⟩
  | cons c s ih =>
    rw [shortestRun?] at h
    split at h
    · next b hb =>
      obtain ⟨rfl, rfl⟩ : [] = run ∧ b = a := by simpa using h
      exact ⟨c :: s, rfl, List.not_mem_nil, hb⟩
    · split at h
      · cases h
      · next hc =>
        obtain ⟨⟨run', b⟩, hb, heq⟩ := Option.map_eq_some_iff.1 h
        obtain ⟨rfl, rfl⟩ : c :: run' = run ∧ b = a := by simpa using heq
        obtain ⟨rest, rfl, hrun, hrest⟩ := ih hb
        refine ⟨rest, rfl, ?_, hrest⟩
        rw [List.mem_cons, not_or]
        exact ⟨Ne.symm hc, hrun⟩

/-- What is accepted right here has no run in front of it. -/
theorem shortestRun?_of_eq_some {α : Type} {accept : List Char → Option α} {a : α}
    (h : accept s = some a) : shortestRun? accept s = some ([], a) := by
  cases s <;> simp [shortestRun?, h]

/-- There is a run in front of a run, as long as the line goes on. -/
theorem isSome_shortestRun?_append {α : Type} {accept : List Char → Option α} {front : List Char}
    (hfront : '\n' ∉ front) (h : (shortestRun? accept s).isSome) :
    (shortestRun? accept (front ++ s)).isSome := by
  induction front with
  | nil => exact h
  | cons c front ih =>
    obtain ⟨hc, hfront⟩ : '\n' ≠ c ∧ '\n' ∉ front := by simpa using hfront
    have ih := ih hfront
    rw [List.cons_append, shortestRun?]
    cases accept (c :: (front ++ s)) with
    | some a => rfl
    | none => simpa [hc.symm] using ih

end Text

namespace Log

open Text

/-! ### The closing clause -/

/-- Decimal digits, one at least. -/
def IsDigits (s : List Char) : Prop :=
  s ≠ [] ∧ s.all (isDigitOf 10) = true

theorem IsDigits.newline_notMem {s : List Char} (h : IsDigits s) : '\n' ∉ s := by
  intro hmem
  exact absurd (List.all_eq_true.1 h.2 '\n' hmem) (by decide)

theorem digits?_eq_some_iff {s run rest : List Char} :
    digits? s = some (run, rest) ↔
      s = run ++ rest ∧ IsDigits run ∧ StopsAt (isDigitOf 10) rest := by
  rw [digits?]
  constructor
  · intro h
    split at h
    · cases h
    · next hne =>
      obtain ⟨hrun, hrest⟩ : s.takeWhile (isDigitOf 10) = run ∧ s.dropWhile (isDigitOf 10) = rest :=
        by simpa using h
      obtain ⟨heq, hall, hstop⟩ := span_iff.1 ⟨hrun, hrest⟩
      rw [hrun, List.isEmpty_iff] at hne
      exact ⟨heq, ⟨hne, hall⟩, hstop⟩
  · rintro ⟨heq, ⟨hne, hall⟩, hstop⟩
    obtain ⟨hrun, hrest⟩ := span_iff.2 ⟨heq, hall, hstop⟩
    rw [hrun, hrest, if_neg (by simpa using hne)]

/-- **A clause is what its digits write.** -/
theorem clause?_eq_some_iff {s cycles stack rest : List Char} :
    clause? s = some (cycles, stack, rest) ↔
      s = clauseText cycles stack ++ rest ∧ IsDigits cycles ∧ IsDigits stack := by
  constructor
  · intro h
    refine ⟨eq_of_clause? h, ?_⟩
    simp only [clause?, Option.bind_eq_bind, Option.bind_eq_some_iff, Option.pure_def,
      Option.some.injEq, Prod.mk.injEq, Prod.exists] at h
    obtain ⟨s₁, -, c, s₂, hcycles, s₃, -, d, s₄, hstack, s₅, -, rfl, rfl, rfl⟩ := h
    exact ⟨(digits?_eq_some_iff.1 hcycles).2.1, (digits?_eq_some_iff.1 hstack).2.1⟩
  · rintro ⟨rfl, hcycles, hstack⟩
    -- What follows the digits in a clause is a blank, both times.
    have hlabel : digits? (cycles ++ (" cycles, Stack: ".toList ++
        (stack ++ (" bytes".toList ++ rest)))) =
          some (cycles, " cycles, Stack: ".toList ++ (stack ++ (" bytes".toList ++ rest))) :=
      digits?_eq_some_iff.2 ⟨rfl, hcycles, stopsAt_cons.2 (by decide)⟩
    have hunit : digits? (stack ++ (" bytes".toList ++ rest)) =
        some (stack, " bytes".toList ++ rest) :=
      digits?_eq_some_iff.2 ⟨rfl, hstack, stopsAt_cons.2 (by decide)⟩
    simp only [clause?, clauseText, List.append_assoc, after?_append, hlabel, hunit,
      Option.bind_eq_bind, Option.bind_some, Option.pure_def]

theorem newline_notMem_clauseText {cycles stack : List Char} (hcycles : IsDigits cycles)
    (hstack : IsDigits stack) : '\n' ∉ clauseText cycles stack := by
  simp only [clauseText, List.mem_append, not_or]
  exact ⟨by decide, hcycles.newline_notMem, by decide, hstack.newline_notMem, by decide⟩

/-- A clause is settled within its line. -/
theorem clause?_append_newline (s t : List Char) :
    clause? (s ++ '\n' :: t) = (clause? s).map fun p => (p.1, p.2.1, p.2.2 ++ '\n' :: t) := by
  cases hs : clause? s with
  | some p =>
    obtain ⟨cycles, stack, rest⟩ := p
    obtain ⟨rfl, hdigits⟩ := clause?_eq_some_iff.1 hs
    exact clause?_eq_some_iff.2 ⟨List.append_assoc _ _ _, hdigits⟩
  | none =>
    rw [Option.map_none, Option.eq_none_iff_forall_ne_some]
    rintro ⟨cycles, stack, rest⟩ h
    obtain ⟨heq, hcycles, hstack⟩ := clause?_eq_some_iff.1 h
    obtain ⟨rest', rfl⟩ := isPrefix_of_isPrefix_append_cons
      (newline_notMem_clauseText hcycles hstack) ⟨rest, heq.symm⟩
    exact absurd hs (by simp [clause?_eq_some_iff.2 ⟨rfl, hcycles, hstack⟩])

/-! ### The result behind the tags -/

/-- The parts of a result: the algorithm, `: `, the operation and the clause, all in one line. -/
theorem exists_of_untagged? {s rest : List Char} {result : Result}
    (h : untagged? s = some (result, rest)) :
    ∃ clause, s = result.algorithm ++ (": ".toList ++ (result.operation ++ clause)) ∧
      '\n' ∉ result.algorithm ∧ '\n' ∉ result.operation ∧
      clause? clause = some (result.cycles, result.stack, rest) := by
  simp only [untagged?, Option.bind_eq_bind, Option.bind_eq_some_iff, Option.pure_def,
    Option.some.injEq, Prod.mk.injEq, Prod.exists] at h
  obtain ⟨algorithm, s₁, halgorithm, operation, cycles, stack, s₂, hoperation, rfl, rfl⟩ := h
  obtain ⟨s₀, rfl, hnewline, hcolon⟩ := exists_of_shortestRun? halgorithm
  obtain ⟨clause, rfl, hnewline', hclause⟩ := exists_of_shortestRun? hoperation
  refine ⟨clause, ?_, hnewline, hnewline', hclause⟩
  rw [after?_eq_some_iff.1 hcolon]

theorem isSuffix_of_untagged? {s rest : List Char} {result : Result}
    (h : untagged? s = some (result, rest)) : rest <:+ s := by
  obtain ⟨clause, rfl, -, -, hclause⟩ := exists_of_untagged? h
  rw [(clause?_eq_some_iff.1 hclause).1]
  simp only [← List.append_assoc]
  exact List.suffix_append _ rest

/-- The result behind the tags is settled within its line. -/
theorem untagged?_append_newline (s t : List Char) :
    untagged? (s ++ '\n' :: t) = (untagged? s).map fun p => (p.1, p.2 ++ '\n' :: t) := by
  rw [untagged?, untagged?,
    shortestRun?_append_newline (fun s => after?_append_newline (by decide) s t)]
  cases shortestRun? (after? ": ".toList) s with
  | none => rfl
  | some p =>
    obtain ⟨algorithm, s₁⟩ := p
    simp only [Option.map_some, Option.bind_eq_bind, Option.bind_some,
      shortestRun?_append_newline (fun s => clause?_append_newline s t)]
    cases shortestRun? clause? s₁ <;> rfl

/-- A clause stands where a result does. -/
theorem isSome_shortestRun?_of_untagged? {s : List Char} (h : (untagged? s).isSome) :
    (shortestRun? clause? s).isSome := by
  obtain ⟨⟨result, rest⟩, hresult⟩ := Option.isSome_iff_exists.1 h
  obtain ⟨clause, rfl, halgorithm, hoperation, hclause⟩ := exists_of_untagged? hresult
  have hrun : (shortestRun? clause? clause).isSome := by
    rw [shortestRun?_of_eq_some hclause]
    rfl
  have hcolon : '\n' ∉ ": ".toList := by decide
  exact isSome_shortestRun?_append halgorithm
    (isSome_shortestRun?_append hcolon (isSome_shortestRun?_append hoperation hrun))

/-- **A result may begin anywhere in front of one**, as long as the line goes on. -/
theorem isSome_untagged?_append {front s : List Char} (hfront : '\n' ∉ front)
    (h : (untagged? s).isSome) : (untagged? (front ++ s)).isSome := by
  induction front with
  | nil => exact h
  | cons c front ih =>
    obtain ⟨hc, hfront⟩ : '\n' ≠ c ∧ '\n' ∉ front := by simpa using hfront
    have ih := ih hfront
    rw [List.cons_append, untagged?_cons]
    cases hafter : after? ": ".toList (c :: (front ++ s)) with
    | none => simpa [hc.symm] using ih
    | some rest =>
      -- The algorithm ends right here, and the clause is still to come.
      obtain ⟨rfl, hrest⟩ : c = ':' ∧ front ++ s = ' ' :: rest := by
        simpa using after?_eq_some_iff.1 hafter
      have hblank : after? ": ".toList (' ' :: rest) = none := rfl
      rw [hrest, untagged?_cons, hblank] at ih
      have hsome : (untagged? rest).isSome := by simpa using ih
      simpa using isSome_shortestRun?_of_untagged? hsome

/-- A text in which no `: ` begins, whatever stands behind it. -/
def ColonFree (s : List Char) : Prop :=
  ¬": ".toList <:+: s ++ [' ']

instance (s : List Char) : Decidable (ColonFree s) :=
  inferInstanceAs (Decidable (¬_))

namespace ColonFree

variable {s t : List Char}

theorem of_isSuffix (h : ColonFree t) (hs : s <:+ t) : ColonFree s := by
  intro hin
  obtain ⟨front, rfl⟩ := hs
  rw [ColonFree, List.append_assoc] at h
  exact h (hin.trans (List.suffix_append front _).isInfix)

theorem append (hs : ColonFree s) (ht : ColonFree t) : ColonFree (s ++ t) := by
  induction s with
  | nil => exact ht
  | cons c s ih =>
    obtain ⟨hfront, -⟩ := not_or.1 (mt List.infix_cons_iff.2 hs)
    rw [ColonFree, List.cons_append, List.cons_append, List.infix_cons_iff, not_or]
    refine ⟨?_, ih (hs.of_isSuffix (List.suffix_cons c s))⟩
    intro hpre
    -- The two characters of `: ` are the first one and, in front of `t`, the next or none.
    obtain ⟨rest, hrest⟩ := hpre
    obtain ⟨rfl, hrest⟩ : ':' = c ∧ ' ' :: rest = s ++ t ++ [' '] := by simpa using hrest
    refine hfront ?_
    cases s with
    | nil => exact ⟨[], rfl⟩
    | cons d s =>
      obtain ⟨rfl, -⟩ : ' ' = d ∧ rest = s ++ t ++ [' '] := by simpa using hrest
      exact ⟨s ++ [' '], rfl⟩

theorem of_isAllBlank (h : isAllBlank s = true) : ColonFree s := by
  intro hin
  have hmem : ':' ∈ s ++ [' '] := hin.subset (by decide)
  rw [List.mem_append, List.mem_singleton] at hmem
  rcases hmem with hmem | heq
  · exact absurd (List.all_eq_true.1 h ':' hmem) (by decide)
  · exact absurd heq (by decide)

theorem after?_eq_none {c : Char} (h : ColonFree (c :: s)) (t : List Char) :
    after? ": ".toList (c :: (s ++ t)) = none := by
  rw [after?_eq_none_iff]
  rintro ⟨rest, hrest⟩
  obtain ⟨rfl, hrest⟩ : ':' = c ∧ ' ' :: rest = s ++ t := by simpa using hrest
  refine h (List.IsPrefix.isInfix ?_)
  cases s with
  | nil => exact ⟨[], rfl⟩
  | cons d s =>
    obtain ⟨rfl, -⟩ : ' ' = d ∧ rest = s ++ t := by simpa using hrest
    exact ⟨s ++ [' '], rfl⟩

end ColonFree

/-- **What stands in front joins the algorithm**, if no `: ` begins in it. -/
theorem untagged?_append {front s : List Char} (hfront : '\n' ∉ front) (hcolon : ColonFree front) :
    untagged? (front ++ s) = (untagged? s).map fun p =>
      ({ p.1 with algorithm := front ++ p.1.algorithm }, p.2) := by
  induction front with
  | nil =>
    rw [List.nil_append]
    cases untagged? s <;> rfl
  | cons c front ih =>
    obtain ⟨hc, hfront⟩ : '\n' ≠ c ∧ '\n' ∉ front := by simpa using hfront
    have ih := ih hfront (hcolon.of_isSuffix (List.suffix_cons c front))
    rw [List.cons_append, untagged?_cons, hcolon.after?_eq_none, ih]
    simp [hc.symm, Function.comp_def]

/-! ### Behind a tag -/

variable {tag : Tag}

/-- If the rest of a result stands here, one is found. -/
theorem isSome_behindTag? {s : List Char} (h : (untagged? s).isSome) :
    (behindTag? tag s).isSome := by
  cases s with
  | nil => cases h
  | cons c s =>
    rw [behindTag?_cons]
    simp only [Option.orElse_eq_orElse, Option.orElse_eq_or, Option.isSome_or, h, Bool.or_true]

theorem untagged?_eq_none_of_behindTag? {s : List Char} (h : behindTag? tag s = none) :
    untagged? s = none := by
  rw [← Option.not_isSome_iff_eq_none]
  intro hsome
  have hbehind : (behindTag? tag s).isSome := isSome_behindTag? hsome
  rw [h] at hbehind
  cases hbehind

/-- **How a result is found behind a tag**: behind a blank, behind a further tag, or right here. -/
theorem behindTag?_cons_cases {c : Char} {s : List Char} {found : Result × List Char}
    (h : behindTag? tag (c :: s) = some found) :
    (isBlank c = true ∧ behindTag? tag s = some found) ∨
      (∃ rest, c :: s = tag.text ++ rest ∧ behindTag? tag rest = some found) ∨
      untagged? (c :: s) = some found := by
  rw [behindTag?_cons] at h
  simp only [Option.orElse_eq_orElse, Option.orElse_eq_or, Option.or_eq_some_iff] at h
  rcases h with h | ⟨-, h | ⟨-, h⟩⟩
  · exact Or.inl (by simpa using h)
  · obtain ⟨rest, hrest, hfound⟩ := Option.bind_eq_some_iff.1 h
    exact Or.inr (Or.inl ⟨rest, after?_eq_some_iff.1 hrest, hfound⟩)
  · exact Or.inr (Or.inr h)

/-- **What stands behind a tag** where a result is found: white space, further tags with white
space behind each, and the rest of the result. -/
theorem exists_run_of_behindTag? {s : List Char} {found : Result × List Char}
    (h : behindTag? tag s = some found) :
    ∃ gap gaps body, (∀ g ∈ gap :: gaps, isAllBlank g = true) ∧
      s = gap ++ (gaps.flatMap (tag.text ++ ·) ++ body) ∧ untagged? body = some found := by
  induction hn : s.length using Nat.strongRecOn generalizing s with
  | ind n ih =>
    subst hn
    cases s with
    | nil => simp [behindTag?] at h
    | cons c s =>
      rcases behindTag?_cons_cases h with ⟨hc, h⟩ | ⟨rest, heq, h⟩ | h
      · obtain ⟨gap, gaps, body, hblank, rfl, hbody⟩ := ih s.length (by simp) h rfl
        obtain ⟨hgap, hgaps⟩ := List.forall_mem_cons.1 hblank
        have hgap : isAllBlank (c :: gap) = true := by simpa [isAllBlank, hc] using hgap
        exact ⟨c :: gap, gaps, body, List.forall_mem_cons.2 ⟨hgap, hgaps⟩, rfl, hbody⟩
      · have hlength := congrArg List.length heq
        have hpos := tag.length_pos
        rw [List.length_append] at hlength
        obtain ⟨gap, gaps, body, hblank, rfl, hbody⟩ := ih rest.length (by omega) h rfl
        refine ⟨[], gap :: gaps, body, List.forall_mem_cons.2 ⟨rfl, hblank⟩, ?_, hbody⟩
        simp only [heq, List.flatMap_cons, List.nil_append, List.append_assoc]
      · exact ⟨[], [], c :: s, by simp [isAllBlank], rfl, h⟩

/-- **The rest of the result stands further on.** -/
theorem exists_untagged?_of_behindTag? {s : List Char} {found : Result × List Char}
    (h : behindTag? tag s = some found) : ∃ body, body <:+ s ∧ untagged? body = some found := by
  obtain ⟨gap, gaps, body, -, rfl, hbody⟩ := exists_run_of_behindTag? h
  exact ⟨body, (List.suffix_append _ body).trans (List.suffix_append gap _), hbody⟩

theorem resultAt?_eq_some_iff {s : List Char} {found : Result × List Char} :
    resultAt? tag s = some found ↔
      ∃ rest, s = tag.text ++ rest ∧ behindTag? tag rest = some found := by
  rw [resultAt?, Option.bind_eq_some_iff]
  simp only [after?_eq_some_iff]

theorem isSuffix_of_resultAt? {s rest : List Char} {result : Result}
    (h : resultAt? tag s = some (result, rest)) : rest <:+ s := by
  obtain ⟨behind, rfl, hbehind⟩ := resultAt?_eq_some_iff.1 h
  obtain ⟨body, hbody, hfound⟩ := exists_untagged?_of_behindTag? hbehind
  exact (isSuffix_of_untagged? hfound).trans (hbody.trans (List.suffix_append _ behind))

end Log

end FirmwareReport
