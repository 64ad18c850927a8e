import FirmwareReport.Proofs.Log.Grammar
import FirmwareReport.Proofs.Log.RoundTrip

/-!
# The leftmost results of a text

Said without a direction of reading, a result is a **span** of the text: tags with white space
behind each, an algorithm, `: `, an operation and a closing clause
(`FirmwareReport.Log.Span.StandsIn`). Spans overlap, and the same position may begin several. Those
that are read are the leftmost: each starts at the first position behind the one before it at which
any span starts, and with the end of its tags given, its names are the shortest there are
(`FirmwareReport.Log.IsLeftmost`). The records of a text are those of its leftmost spans, without
the ones whose numbers do not fit into a word
(`FirmwareReport.Log.exists_isLeftmost_recordsIn_eq`).

The search goes back over a run of tags: it tries the longest run first and then shorter ones. So
where a span starts it may find a span with other tags, but it does find one
(`FirmwareReport.Log.isSome_resultAt?_of_span`), and whatever it finds is a span of the text
(`FirmwareReport.Log.exists_span_of_resultAt?`).
-/

namespace FirmwareReport

namespace Text

/-- **A run is the shortest**: nothing is accepted in front of its end. -/
theorem length_le_of_shortestRun? {α : Type} {accept : List Char → Option α}
    {run front s : List Char} {a : α}
    (h : shortestRun? accept (front ++ s) = some (run, a)) (hs : (accept s).isSome) :
    run.length ≤ front.length := by
  induction front generalizing run with
  | nil =>
    obtain ⟨b, hb⟩ := Option.isSome_iff_exists.1 hs
    rw [List.nil_append, shortestRun?_of_eq_some hb] at h
    obtain ⟨rfl, -⟩ : [] = run ∧ b = a := by simpa using h
    exact le_rfl
  | cons c front ih =>
    rw [List.cons_append, shortestRun?] at h
    split at h
    · next b _ =>
      obtain ⟨rfl, -⟩ : [] = run ∧ b = a := by simpa using h
      exact Nat.zero_le _
    · split at h
      · cases h
      · obtain ⟨⟨run', b⟩, hrun, heq⟩ := Option.map_eq_some_iff.1 h
        obtain ⟨rfl, rfl⟩ : c :: run' = run ∧ b = a := by simpa using heq
        exact Nat.succ_le_succ (ih hrun)

end Text

namespace Log

open Text

variable {tag : Tag}

/-! ### Spans -/

/-- **Tags**, one or more, each with white space behind it or none. -/
def IsTagRun (tag : Tag) (s : List Char) : Prop :=
  ∃ gaps, gaps ≠ [] ∧ (∀ gap ∈ gaps, isAllBlank gap = true) ∧ s = Printout.tags tag gaps

/-- The text of a result behind its tags. -/
def Result.text (result : Result) : List Char :=
  result.algorithm ++ (": ".toList ++ (result.operation ++ clauseText result.cycles result.stack))

/-- **The parts of a result**: two names within a line, and the digits of two numbers. -/
structure Result.IsProper (result : Result) : Prop where
  newline_notMem_algorithm : '\n' ∉ result.algorithm
  newline_notMem_operation : '\n' ∉ result.operation
  isDigits_cycles : IsDigits result.cycles
  isDigits_stack : IsDigits result.stack

/-- A result in a text: where it starts, its tags and what is behind them. -/
structure Span where
  start : Nat
  tags : List Char
  result : Result
deriving DecidableEq, Repr

namespace Span

/-- The text of a span. -/
def text (span : Span) : List Char :=
  span.tags ++ span.result.text

/-- The position at which the tags of a span end. -/
def tagsStop (span : Span) : Nat :=
  span.start + span.tags.length

/-- The position at which a span ends. -/
def stop (span : Span) : Nat :=
  span.start + span.text.length

/-- **A span of a text.** -/
structure StandsIn (span : Span) (tag : Tag) (text : List Char) : Prop where
  isTagRun : IsTagRun tag span.tags
  isProper : span.result.IsProper
  isPrefix : span.text <+: text.drop span.start

/-- **The shortest names**: of all spans of the text whose tags end where those of this one do, it
has the shortest algorithm, and of those with its algorithm the shortest operation. -/
def IsShortest (span : Span) (tag : Tag) (text : List Char) : Prop :=
  ∀ other : Span, other.StandsIn tag text → other.tagsStop = span.tagsStop →
    span.result.algorithm.length ≤ other.result.algorithm.length ∧
      (other.result.algorithm = span.result.algorithm →
        span.result.operation.length ≤ other.result.operation.length)

/-- **The record of a span**: both names without white space around them and both numbers, if they
fit into a word. -/
def record? (span : Span) : Option Record :=
  let cycles := positional 10 span.result.cycles
  let stack := positional 10 span.result.stack
  if cycles < wordLimit ∧ stack < wordLimit then
    some ⟨String.ofList (trim span.result.algorithm), String.ofList (trim span.result.operation),
      cycles, stack⟩
  else none

end Span

/-- **The leftmost spans of a text** from a position on: each starts where any span starts first
behind the one before it, and none starts behind the last one. -/
inductive IsLeftmost (tag : Tag) (text : List Char) : Nat → List Span → Prop
  | nil {pos : Nat} (hnone : ∀ other : Span, other.StandsIn tag text → other.start < pos) :
      IsLeftmost tag text pos []
  | cons {pos : Nat} {span : Span} {spans : List Span} (hspan : span.StandsIn tag text)
      (hpos : pos ≤ span.start)
      (hfirst : ∀ other : Span, other.StandsIn tag text → pos ≤ other.start →
        span.start ≤ other.start)
      (hshortest : span.IsShortest tag text) (hspans : IsLeftmost tag text span.stop spans) :
      IsLeftmost tag text pos (span :: spans)

/-! ### Leftmost spans are in order -/

namespace IsLeftmost

variable {text : List Char} {pos : Nat} {spans : List Span}

theorem le_start (h : IsLeftmost tag text pos spans) : ∀ span ∈ spans, pos ≤ span.start := by
  induction h with
  | nil => exact fun _ hmem => (List.not_mem_nil hmem).elim
  | @cons pos span spans hspan hpos hfirst hshortest hspans ih =>
    have hstop : span.start ≤ span.stop := Nat.le_add_right _ _
    exact List.forall_mem_cons.2 ⟨hpos, fun other hother =>
      hpos.trans (hstop.trans (ih other hother))⟩

/-- **Leftmost spans do not overlap.** -/
theorem pairwise (h : IsLeftmost tag text pos spans) :
    spans.Pairwise fun span other => span.stop ≤ other.start := by
  induction h with
  | nil => exact .nil
  | cons hspan hpos hfirst hshortest hspans ih => exact .cons hspans.le_start ih

/-- A position at which no span starts is passed over. -/
theorem of_succ (h : IsLeftmost tag text (pos + 1) spans)
    (hnone : ∀ other : Span, other.StandsIn tag text → other.start ≠ pos) :
    IsLeftmost tag text pos spans := by
  cases h with
  | nil hbehind =>
    refine .nil fun other hother => ?_
    have := hnone other hother
    have := hbehind other hother
    omega
  | cons hspan hpos hfirst hshortest hspans =>
    refine .cons hspan (Nat.le_of_succ_le hpos) (fun other hother hle => ?_) hshortest hspans
    have := hnone other hother
    exact hfirst other hother (by omega)

end IsLeftmost

/-! ### What stands behind the tags -/

/-- A result without tags has its parts, and is the text up to what follows. -/
theorem isProper_of_untagged? {s rest : List Char} {result : Result}
    (h : untagged? s = some (result, rest)) : result.IsProper ∧ s = result.text ++ rest := by
  obtain ⟨clause, rfl, halgorithm, hoperation, hclause⟩ := exists_of_untagged? h
  obtain ⟨rfl, hcycles, hstack⟩ := clause?_eq_some_iff.1 hclause
  exact ⟨⟨halgorithm, hoperation, hcycles, hstack⟩, by simp only [Result.text, List.append_assoc]⟩

namespace Result.IsProper

variable {result : Result}

theorem isSome_clause? (h : result.IsProper) (rest : List Char) :
    (clause? (clauseText result.cycles result.stack ++ rest)).isSome := by
  rw [clause?_eq_some_iff.2 ⟨rfl, h.isDigits_cycles, h.isDigits_stack⟩]
  rfl

/-- Where a result stands, one is found. -/
theorem isSome_untagged? (h : result.IsProper) (rest : List Char) :
    (untagged? (result.text ++ rest)).isSome := by
  obtain ⟨clause, hclause⟩ := Option.isSome_iff_exists.1 (h.isSome_clause? rest)
  have hoperation : (shortestRun? clause? (result.operation ++
      (clauseText result.cycles result.stack ++ rest))).isSome :=
    isSome_shortestRun?_append h.newline_notMem_operation
      (by rw [shortestRun?_of_eq_some hclause]; rfl)
  obtain ⟨found, hfound⟩ := Option.isSome_iff_exists.1 hoperation
  simp only [Result.text, List.append_assoc]
  refine isSome_untagged?_append h.newline_notMem_algorithm ?_
  -- The algorithm may end right here, so one that ends here or earlier is found.
  rw [untagged?, shortestRun?_of_eq_some (after?_append ": ".toList _)]
  simp [hfound]

/-- **The names that are read are the shortest.** -/
theorem length_le_of_untagged? (h : result.IsProper) {found : Result} {rest rest' : List Char}
    (hfound : untagged? (result.text ++ rest) = some (found, rest')) :
    found.algorithm.length ≤ result.algorithm.length ∧
      (result.algorithm = found.algorithm →
        found.operation.length ≤ result.operation.length) := by
  simp only [Result.text, List.append_assoc, untagged?, Option.bind_eq_bind,
    Option.bind_eq_some_iff, Option.pure_def, Option.some.injEq, Prod.mk.injEq,
    Prod.exists] at hfound
  obtain ⟨algorithm, s, halgorithm, operation, cycles, stack, s', hoperation, rfl, rfl⟩ := hfound
  have hcolon : (after? ": ".toList (": ".toList ++ (result.operation ++
      (clauseText result.cycles result.stack ++ rest)))).isSome := by
    rw [after?_append]
    rfl
  refine ⟨length_le_of_shortestRun? halgorithm hcolon, fun heq => ?_⟩
  -- With the same algorithm, the operation is looked for in the same place.
  obtain ⟨t, hsplit, -, ht⟩ := exists_of_shortestRun? halgorithm
  rw [heq, List.append_cancel_left_eq] at hsplit
  rw [← hsplit, after?_append] at ht
  obtain rfl := Option.some.inj ht
  exact length_le_of_shortestRun? hoperation (h.isSome_clause? rest)

end Result.IsProper

/-! ### Runs of tags -/

theorem isSome_behindTag?_tag {s : List Char} (h : (behindTag? tag s).isSome) :
    (behindTag? tag (tag.text ++ s)).isSome := by
  have hresult : (resultAt? tag (tag.text ++ s)).isSome := by
    rwa [resultAt?, after?_append, Option.bind_some]
  cases htext : tag.text with
  | nil => exact absurd htext tag.text_ne_nil
  | cons c text =>
    rw [htext, List.cons_append] at hresult
    rw [List.cons_append, behindTag?_cons]
    simp only [Option.orElse_eq_orElse, Option.orElse_eq_or, Option.isSome_or, hresult,
      Bool.true_or, Bool.or_true]

theorem isSome_behindTag?_gap {gap s : List Char} (hgap : isAllBlank gap = true)
    (h : (behindTag? tag s).isSome) : (behindTag? tag (gap ++ s)).isSome := by
  obtain ⟨found, hfound⟩ := Option.isSome_iff_exists.1 h
  rw [behindTag?_append_of_isAllBlank hgap hfound]
  rfl

/-- **Behind a run of tags something is found**, if something is found behind its last one. -/
theorem isSome_resultAt?_tags {gaps : List (List Char)} {s : List Char} (hne : gaps ≠ [])
    (hgaps : ∀ gap ∈ gaps, isAllBlank gap = true) (h : (behindTag? tag s).isSome) :
    (resultAt? tag (Printout.tags tag gaps ++ s)).isSome := by
  have htags : ∀ gaps : List (List Char), (∀ gap ∈ gaps, isAllBlank gap = true) →
      (behindTag? tag (Printout.tags tag gaps ++ s)).isSome := by
    intro gaps hgaps
    induction gaps with
    | nil => exact h
    | cons gap gaps ih =>
      obtain ⟨hgap, hgaps⟩ := List.forall_mem_cons.1 hgaps
      rw [Printout.tags, List.flatMap_cons, List.append_assoc, List.append_assoc]
      exact isSome_behindTag?_tag (isSome_behindTag?_gap hgap (ih hgaps))
  cases gaps with
  | nil => exact absurd rfl hne
  | cons gap gaps =>
    obtain ⟨hgap, hgaps⟩ := List.forall_mem_cons.1 hgaps
    rw [Printout.tags, List.flatMap_cons, List.append_assoc, List.append_assoc, resultAt?,
      after?_append, Option.bind_some]
    exact isSome_behindTag?_gap hgap (htags gaps hgaps)

/-! ### One span -/

/-- **What is found is a span**, with the shortest names behind its tags. -/
theorem exists_span_of_resultAt? {s rest : List Char} {result : Result}
    (h : resultAt? tag s = some (result, rest)) :
    ∃ tags, IsTagRun tag tags ∧ result.IsProper ∧ s = tags ++ (result.text ++ rest) ∧
      untagged? (result.text ++ rest) = some (result, rest) := by
  obtain ⟨behind, rfl, hbehind⟩ := resultAt?_eq_some_iff.1 h
  obtain ⟨gap, gaps, body, hblank, rfl, hbody⟩ := exists_run_of_behindTag? hbehind
  obtain ⟨hproper, rfl⟩ := isProper_of_untagged? hbody
  refine ⟨Printout.tags tag (gap :: gaps), ⟨_, List.cons_ne_nil gap gaps, hblank, rfl⟩, hproper,
    ?_, hbody⟩
  simp only [Printout.tags, List.flatMap_cons, List.append_assoc]

/-- **Where a span starts, a result is found.** -/
theorem isSome_resultAt?_of_span {span : Span} {text : List Char}
    (h : span.StandsIn tag text) : (resultAt? tag (text.drop span.start)).isSome := by
  obtain ⟨rest, hrest⟩ := h.isPrefix
  obtain ⟨gaps, hne, hgaps, htags⟩ := h.isTagRun
  rw [← hrest, Span.text, htags, List.append_assoc]
  exact isSome_resultAt?_tags hne hgaps (isSome_behindTag? (h.isProper.isSome_untagged? rest))

/-- The record of a span is that of its result. -/
theorem Span.record?_eq (span : Span) : span.record? = span.result.record? := by
  rw [Span.record?, Result.record?, word?, word?]
  by_cases hcycles : positional 10 span.result.cycles < wordLimit <;>
    by_cases hstack : positional 10 span.result.stack < wordLimit <;>
      simp [hcycles, hstack]

/-! ### All spans -/

/-- **The results behind a position** are those of the leftmost spans from there on. -/
theorem exists_isLeftmost (tag : Tag) (text front s : List Char) (h : text = front ++ s) :
    ∃ spans, IsLeftmost tag text front.length spans ∧
      spans.map Span.result = resultsIn tag s := by
  fun_induction resultsIn tag s generalizing front with
  | case1 =>
    refine ⟨[], .nil fun other hother => ?_, rfl⟩
    by_contra hle
    have hsome := isSome_resultAt?_of_span hother
    rw [h, List.append_nil, List.drop_eq_nil_of_le (Nat.le_of_not_lt hle), resultAt?,
      after?_eq_none_iff.2 (by simpa using tag.text_ne_nil)] at hsome
    cases hsome
  | case2 c s result rest hfound ih =>
    obtain ⟨tags, htags, hproper, hs, huntagged⟩ := exists_span_of_resultAt? hfound
    have hdrop : text.drop front.length = tags ++ (result.text ++ rest) := by
      rw [h, List.drop_left, hs]
    let span : Span := ⟨front.length, tags, result⟩
    have htext : text = (front ++ span.text) ++ rest := by
      rw [h, hs, Span.text]
      simp only [List.append_assoc, span]
    obtain ⟨spans, hspans, hresults⟩ := ih (front ++ span.text) htext
    rw [List.length_append] at hspans
    refine ⟨span :: spans, .cons ⟨htags, hproper, rest, ?_⟩ le_rfl (fun _ _ hle => hle) ?_ hspans,
      congrArg (result :: ·) hresults⟩
    · rw [hdrop, Span.text, List.append_assoc]
    · -- Another span with tags up to the same position has its names in the same place.
      intro other hother hstop
      obtain ⟨rest', hrest'⟩ := hother.isPrefix
      have hbehind : text.drop span.tagsStop = result.text ++ rest := by
        rw [Span.tagsStop, ← List.drop_drop, hdrop, List.drop_left]
      have hbehind' : text.drop other.tagsStop = other.result.text ++ rest' := by
        rw [Span.tagsStop, ← List.drop_drop, ← hrest', Span.text, List.append_assoc,
          List.drop_left]
      rw [hstop, hbehind] at hbehind'
      rw [hbehind'] at huntagged
      exact hother.isProper.length_le_of_untagged? huntagged
  | case3 c s hnone ih =>
    obtain ⟨spans, hspans, hresults⟩ := ih (front ++ [c]) (by rw [h, List.append_cons])
    rw [List.length_append] at hspans
    refine ⟨spans, hspans.of_succ fun other hother hstart => ?_, hresults⟩
    have hsome := isSome_resultAt?_of_span hother
    rw [hstart, h, List.drop_left, hnone] at hsome
    cases hsome

/-- **The records of a text are those of its leftmost spans**, in order: one for each span whose
numbers fit into a word, and none for the others. -/
theorem exists_isLeftmost_recordsIn_eq (tag : Tag) (text : List Char) :
    ∃ spans, IsLeftmost tag text 0 spans ∧
      spans.Pairwise (fun span other => span.stop ≤ other.start) ∧
      recordsIn tag text = spans.filterMap Span.record? := by
  obtain ⟨spans, hspans, hresults⟩ := exists_isLeftmost tag text [] text rfl
  refine ⟨spans, hspans, hspans.pairwise, ?_⟩
  rw [recordsIn_eq_filterMap, ← hresults, List.filterMap_map]
  exact List.filterMap_congr fun span _ => (span.record?_eq).symm

/-- A number that is too large costs the span it stands in, and no other. -/
example : recordsIn ⟨"T".toList, by decide⟩
    ("T A: X took 99999999999999999999 cycles, Stack: 1 bytes" ++
      "TB: Y took 010 cycles, Stack: 2 bytes").toList = [⟨"B", "Y", 10, 2⟩] := by
  decide +kernel

end Log

end FirmwareReport
