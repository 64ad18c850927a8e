import FirmwareReport.Proofs.Log.Grammar
import FirmwareReport.Proofs.Log.RoundTrip

/-!
# Runs of tags

A serial bridge repeats the tag, and a run of tags should count as one. Whether it does depends on
the tag alone (`FirmwareReport.Log.runsAsOne_iff_standsAlone`): it has to begin with something
visible, and no `: ` may begin in it (`FirmwareReport.Log.Tag.StandsAlone`).

* A tag that begins with a blank is lost behind another one, because blanks are skipped before a
  further tag is looked for. What is left of it is then read as the beginning of the algorithm.
* If a `: ` begins in the tag, a run that leads to nothing is tried again with its last tag as
  the algorithm.

For a tag that stands alone, more tags in front find what the last one finds. If that is nothing,
a result may still be found in front, because the tag may overlap itself: copies of it, read from
some character inside the run, may end inside the payload. Such an overlap leads past the first
line break of the payload, and what is found behind does not depend on where it began
(`FirmwareReport.Log.behindTag?_of_overlap`). The last tag alone has such an overlap too
(`FirmwareReport.Log.exists_overlap`), so the first result is the same.
-/

namespace FirmwareReport.Log

open Text

variable {tag : Tag} {found : Result × List Char}

/-- **A tag that stands alone**: nothing of it can be taken for something else. -/
structure Tag.StandsAlone (tag : Tag) : Prop where
  stopsAt_isBlank : StopsAt isBlank tag.text
  colonFree : ColonFree tag.text

/-- **Any run of tags is one prefix**: with white space behind each of them, as much as there is on
the line, the records are those behind the last one. -/
def Tag.RunsAsOne (tag : Tag) : Prop :=
  ∀ (gaps : List (List Char)) (gap payload : List Char),
    (∀ g ∈ gaps, isAllBlank g = true ∧ '\n' ∉ g) → isAllBlank gap = true → '\n' ∉ gap →
      recordsIn tag (Printout.tags tag gaps ++ (tag.text ++ (gap ++ payload))) =
        recordsIn tag (tag.text ++ (gap ++ payload))

/-! ### The first result of a text -/

/-- A front in which no result starts is passed over. -/
theorem resultsIn_append_of_forall {front s : List Char}
    (h : ∀ back, back <:+ front → back ≠ [] → resultAt? tag (back ++ s) = none) :
    resultsIn tag (front ++ s) = resultsIn tag s := by
  induction front with
  | nil => rfl
  | cons c front ih =>
    have hfront := h (c :: front) List.suffix_rfl (List.cons_ne_nil c front)
    rw [List.cons_append] at hfront ⊢
    have ih := ih fun back hback => h back (hback.trans (List.suffix_cons c front))
    rw [resultsIn_cons, hfront, ← ih]
    rfl

/-- If only one result can start in a front, and it does, it is the first one. -/
theorem resultsIn_append_of_exists {front s : List Char}
    (hall : ∀ back, back <:+ front → back ≠ [] → ∀ other,
      resultAt? tag (back ++ s) = some other → other = found)
    (hex : ∃ back, back <:+ front ∧ back ≠ [] ∧ resultAt? tag (back ++ s) = some found) :
    resultsIn tag (front ++ s) = found.1 :: resultsIn tag found.2 := by
  induction front with
  | nil =>
    obtain ⟨back, hback, hne, -⟩ := hex
    exact absurd (List.suffix_nil.1 hback) hne
  | cons c front ih =>
    cases hfront : resultAt? tag (c :: front ++ s) with
    | some other =>
      obtain rfl := hall (c :: front) List.suffix_rfl (List.cons_ne_nil c front) other hfront
      exact resultsIn_of_resultAt? hfront
    | none =>
      rw [List.cons_append] at hfront ⊢
      rw [resultsIn_cons, hfront]
      refine ih (fun back hback => hall back (hback.trans (List.suffix_cons c front))) ?_
      obtain ⟨back, hback, hne, hfound⟩ := hex
      refine ⟨back, ?_, hne, hfound⟩
      rcases List.suffix_cons_iff.1 hback with rfl | hback
      · rw [List.cons_append, hfront] at hfound
        cases hfound
      · exact hback

/-! ### Overlaps -/

/-- A tag in front of a text ends inside the front of that text or overlaps its end. -/
theorem tag_append_cases {front s rest : List Char} (h : front ++ s = tag.text ++ rest) :
    front.length < tag.text.length ∨ ∃ front', front = tag.text ++ front' ∧ rest = front' ++ s := by
  rcases List.append_eq_append_iff.1 h with ⟨k, htag, -⟩ | ⟨front', hfront, hrest⟩
  · cases k with
    | nil => exact Or.inr ⟨[], by simpa using htag.symm, by simpa [htag] using h.symm⟩
    | cons c k =>
      left
      rw [htag, List.length_append, List.length_cons]
      omega
  · exact Or.inr ⟨front', hfront, hrest⟩

/-- **What is found in front of a payload, and not at its front, begins in an overlap**: with a copy
of the tag that ends inside the payload. -/
theorem exists_overlap {front payload : List Char} (hfront : '\n' ∉ front)
    (hcolon : ColonFree front) (hpayload : behindTag? tag payload = none)
    (h : behindTag? tag (front ++ payload) = some found) :
    ∃ back, back <:+ front ∧ back ≠ [] ∧ back.length < tag.text.length ∧
      resultAt? tag (back ++ payload) = some found := by
  induction hn : front.length using Nat.strongRecOn generalizing front with
  | ind n ih =>
    subst hn
    cases front with
    | nil =>
      rw [List.nil_append, hpayload] at h
      cases h
    | cons c front =>
      rw [List.cons_append] at h
      rcases behindTag?_cons_cases h with ⟨-, h⟩ | ⟨rest, heq, h⟩ | h
      · have hsuffix : front <:+ c :: front := List.suffix_cons c front
        obtain ⟨back, hback, hfound⟩ := ih front.length (by simp)
          (fun hmem => hfront (hsuffix.subset hmem)) (hcolon.of_isSuffix hsuffix) h rfl
        exact ⟨back, hback.trans hsuffix, hfound⟩
      · rw [← List.cons_append] at heq
        rcases tag_append_cases heq with hlt | ⟨front', hfront', rfl⟩
        · exact ⟨c :: front, List.suffix_rfl, List.cons_ne_nil c front, hlt,
            resultAt?_eq_some_iff.2 ⟨rest, heq, h⟩⟩
        · have hsuffix : front' <:+ c :: front := hfront' ▸ List.suffix_append _ front'
          have hlength := congrArg List.length hfront'
          have hpos := tag.length_pos
          rw [List.length_append] at hlength
          obtain ⟨back, hback, hfound⟩ := ih front'.length (by omega)
            (fun hmem => hfront (hsuffix.subset hmem)) (hcolon.of_isSuffix hsuffix) h rfl
          exact ⟨back, hback.trans hsuffix, hfound⟩
      · -- The algorithm would begin in the front, and its `: ` stand in the payload.
        have hnone : untagged? (c :: front ++ payload) = _ := untagged?_append hfront hcolon
        rw [untagged?_eq_none_of_behindTag? hpayload, Option.map_none, List.cons_append, h] at hnone
        cases hnone

theorem exists_overlap_of_resultAt? {front payload : List Char} (hfront : '\n' ∉ front)
    (hcolon : ColonFree front) (hpayload : behindTag? tag payload = none) (hne : front ≠ [])
    (h : resultAt? tag (front ++ payload) = some found) :
    ∃ back, back <:+ front ∧ back ≠ [] ∧ back.length < tag.text.length ∧
      resultAt? tag (back ++ payload) = some found := by
  obtain ⟨rest, heq, hrest⟩ := resultAt?_eq_some_iff.1 h
  rcases tag_append_cases heq with hlt | ⟨front', rfl, rfl⟩
  · exact ⟨front, List.suffix_rfl, hne, hlt, h⟩
  · have hsuffix : front' <:+ tag.text ++ front' := List.suffix_append _ front'
    obtain ⟨back, hback, hfound⟩ := exists_overlap (fun hmem => hfront (hsuffix.subset hmem))
      (hcolon.of_isSuffix hsuffix) hpayload hrest
    exact ⟨back, hback.trans hsuffix, hfound⟩

section NewlineFree

variable (hnewline : '\n' ∉ tag.text)
include hnewline

/-- What is found behind a tag is found behind the next line break, if no result stands on the
line. -/
theorem behindTag?_dropWhile {front s : List Char} (hfront : '\n' ∉ front)
    (hline : untagged? (front ++ s) = none) (h : behindTag? tag s = some found) :
    behindTag? tag (s.dropWhile (· != '\n')) = some found := by
  induction hn : s.length using Nat.strongRecOn generalizing front s with
  | ind n ih =>
    subst hn
    cases s with
    | nil => simp [behindTag?] at h
    | cons c s =>
      by_cases hc : c = '\n'
      · rwa [List.dropWhile_cons_of_neg (by simp [hc])]
      rcases behindTag?_cons_cases h with ⟨-, h⟩ | ⟨rest, heq, h⟩ | h
      · rw [List.dropWhile_cons_of_pos (by simpa using hc)]
        have hfront : '\n' ∉ front ++ [c] := by simpa [hfront] using Ne.symm hc
        have hline : untagged? (front ++ [c] ++ s) = none := by
          rwa [List.append_assoc, List.singleton_append]
        exact ih s.length (by simp) hfront hline h rfl
      · have hlength := congrArg List.length heq
        have hpos := tag.length_pos
        rw [List.length_append] at hlength
        have htag : ∀ d ∈ tag.text, (d != '\n') = true := by
          intro d hd
          rw [bne_iff_ne]
          rintro rfl
          exact hnewline hd
        rw [heq, List.dropWhile_append_of_pos htag]
        have hfront : '\n' ∉ front ++ tag.text := by
          rw [List.mem_append, not_or]
          exact ⟨hfront, hnewline⟩
        have hline : untagged? (front ++ tag.text ++ rest) = none := by
          rwa [List.append_assoc, ← heq]
        exact ih rest.length (by omega) hfront hline h rfl
      · have hsome : (untagged? (front ++ c :: s)).isSome :=
          isSome_untagged?_append hfront (by rw [h]; rfl)
        rw [hline] at hsome
        cases hsome

/-- **All overlaps lead to the same result**: the one behind the first line break of the payload. -/
theorem behindTag?_of_overlap {back payload : List Char} (hlt : back.length < tag.text.length)
    (hpayload : behindTag? tag payload = none)
    (h : resultAt? tag (back ++ payload) = some found) :
    behindTag? tag (payload.dropWhile (· != '\n')) = some found := by
  obtain ⟨rest, heq, hrest⟩ := resultAt?_eq_some_iff.1 h
  have huntagged := untagged?_eq_none_of_behindTag? hpayload
  rcases List.append_eq_append_iff.1 heq with ⟨k, htag, rfl⟩ | ⟨k, rfl, -⟩
  · have hk : '\n' ∉ k := by
      intro hmem
      rw [htag] at hnewline
      exact hnewline (List.mem_append_right back hmem)
    have hpass : ∀ d ∈ k, (d != '\n') = true := by
      intro d hd
      rw [bne_iff_ne]
      rintro rfl
      exact hk hd
    rw [List.dropWhile_append_of_pos hpass]
    exact behindTag?_dropWhile hnewline hk huntagged hrest
  · rw [List.length_append] at hlt
    omega

/-- **A tag in front of a tag changes nothing**, if the tag stands alone. -/
theorem resultsIn_tag_tag (hstands : tag.StandsAlone) {gap : List Char}
    (hgap : isAllBlank gap = true) (hgapline : '\n' ∉ gap) (payload : List Char) :
    resultsIn tag (tag.text ++ (gap ++ (tag.text ++ payload))) =
      resultsIn tag (tag.text ++ payload) := by
  cases hpayload : behindTag? tag payload with
  | some found =>
    have hlast : resultAt? tag (tag.text ++ payload) = some found :=
      resultAt?_eq_some_iff.2 ⟨payload, rfl, hpayload⟩
    have hboth : resultAt? tag (tag.text ++ (gap ++ (tag.text ++ payload))) = some found :=
      resultAt?_eq_some_iff.2 ⟨_, rfl, behindTag?_append_of_isAllBlank hgap
        (behindTag?_append_tag hstands.stopsAt_isBlank hpayload)⟩
    rw [resultsIn_of_resultAt? hlast, resultsIn_of_resultAt? hboth]
  | none =>
    have hfront : '\n' ∉ tag.text ++ (gap ++ tag.text) := by simp [hnewline, hgapline]
    have hcolon : ColonFree (tag.text ++ (gap ++ tag.text)) :=
      hstands.colonFree.append ((ColonFree.of_isAllBlank hgap).append hstands.colonFree)
    have hlast : tag.text <:+ tag.text ++ (gap ++ tag.text) :=
      (List.suffix_append gap tag.text).trans (List.suffix_append tag.text _)
    -- A result that starts anywhere in front starts in an overlap too, and so in the last tag.
    have hoverlap : ∀ back, back <:+ tag.text ++ (gap ++ tag.text) → back ≠ [] → ∀ other,
        resultAt? tag (back ++ payload) = some other →
          behindTag? tag (payload.dropWhile (· != '\n')) = some other ∧
            ∃ back', back' <:+ tag.text ∧ back' ≠ [] ∧
              resultAt? tag (back' ++ payload) = some other := by
      intro back hback hne other hother
      obtain ⟨back', hback', hne', hlt, hother'⟩ := exists_overlap_of_resultAt?
        (fun hmem => hfront (hback.subset hmem)) (hcolon.of_isSuffix hback) hpayload hne hother
      exact ⟨behindTag?_of_overlap hnewline hlt hpayload hother', back',
        List.suffix_of_suffix_length_le (hback'.trans hback) hlast hlt.le, hne', hother'⟩
    have hassoc : tag.text ++ (gap ++ (tag.text ++ payload)) =
        (tag.text ++ (gap ++ tag.text)) ++ payload := by simp only [List.append_assoc]
    rw [hassoc]
    by_cases hex : ∃ back, back <:+ tag.text ∧ back ≠ [] ∧
        ∃ found, resultAt? tag (back ++ payload) = some found
    · obtain ⟨back, hback, hne, found, hfound⟩ := hex
      have hsame : ∀ back, back <:+ tag.text ++ (gap ++ tag.text) → back ≠ [] → ∀ other,
          resultAt? tag (back ++ payload) = some other → other = found := by
        intro back' hback' hne' other hother
        have hother := (hoverlap back' hback' hne' other hother).1
        rw [(hoverlap back (hback.trans hlast) hne found hfound).1] at hother
        exact (Option.some.inj hother).symm
      rw [resultsIn_append_of_exists hsame ⟨back, hback.trans hlast, hne, hfound⟩,
        resultsIn_append_of_exists (fun b hb => hsame b (hb.trans hlast))
          ⟨back, hback, hne, hfound⟩]
    · have hnone : ∀ back, back <:+ tag.text ++ (gap ++ tag.text) → back ≠ [] →
          resultAt? tag (back ++ payload) = none := by
        intro back hback hne
        rw [Option.eq_none_iff_forall_ne_some]
        intro other hother
        obtain ⟨-, back', hback', hne', hother'⟩ := hoverlap back hback hne other hother
        exact hex ⟨back', hback', hne', other, hother'⟩
      rw [resultsIn_append_of_forall hnone,
        resultsIn_append_of_forall fun b hb => hnone b (hb.trans hlast)]

/-- **A run of tags is read as its last one.** -/
theorem resultsIn_tags (hstands : tag.StandsAlone) {gaps : List (List Char)}
    (hgaps : ∀ g ∈ gaps, isAllBlank g = true ∧ '\n' ∉ g) (payload : List Char) :
    resultsIn tag (Printout.tags tag gaps ++ (tag.text ++ payload)) =
      resultsIn tag (tag.text ++ payload) := by
  induction gaps with
  | nil => rfl
  | cons gap gaps ih =>
    obtain ⟨⟨hgap, hgapline⟩, hgaps⟩ := List.forall_mem_cons.1 hgaps
    -- Behind the first tag and its gap stands another tag, be it the last one or not.
    obtain ⟨rest, hrest⟩ : ∃ rest, Printout.tags tag gaps ++ (tag.text ++ payload) =
        tag.text ++ rest := by
      cases gaps with
      | nil => exact ⟨payload, rfl⟩
      | cons next gaps =>
        rw [Printout.tags, List.flatMap_cons, List.append_assoc, List.append_assoc]
        exact ⟨_, rfl⟩
    rw [← ih hgaps, hrest, Printout.tags, List.flatMap_cons, ← Printout.tags, List.append_assoc,
      List.append_assoc, hrest]
    exact resultsIn_tag_tag hnewline hstands hgap hgapline rest

end NewlineFree

/-! ### Tags that do not stand alone -/

/-- Behind a tag nothing is found in a payload without a result. -/
theorem resultsIn_tag_append_eq_nil {payload : List Char}
    (h : ∀ back, back <:+ payload → untagged? back = none) :
    resultsIn tag (tag.text ++ payload) = [] := by
  have hnone : ∀ back, back <:+ tag.text ++ payload → back ≠ [] →
      resultAt? tag (back ++ []) = none := by
    intro back hback _
    rw [List.append_nil, Option.eq_none_iff_forall_ne_some]
    intro found hfound
    obtain ⟨rest, rfl, hrest⟩ := resultAt?_eq_some_iff.1 hfound
    obtain ⟨body, hbody, hbodyFound⟩ := exists_untagged?_of_behindTag? hrest
    -- Wherever the tag begins, what is behind it is a part of the payload.
    have hlength : rest.length ≤ payload.length := by
      have hle := hback.length_le
      rw [List.length_append, List.length_append] at hle
      omega
    have hpayload : rest <:+ payload :=
      List.suffix_of_suffix_length_le ((List.suffix_append _ rest).trans hback)
        (List.suffix_append _ payload) hlength
    rw [h body (hbody.trans hpayload)] at hbodyFound
    cases hbodyFound
  have hresults := resultsIn_append_of_forall hnone
  rwa [List.append_nil, resultsIn] at hresults

/-- The end of a result, without a `: ` in front of its clause. -/
def hashed : List Char := "# took 1 cycles, Stack: 1 bytes".toList

/-- A payload that is no result, and becomes one behind a text that ends in a colon. -/
def headless : List Char := ' ' :: hashed

theorem untagged?_eq_none_of_headless : ∀ back, back <:+ headless → untagged? back = none := by
  have hall : ∀ back ∈ headless.tails, untagged? back = none := by decide +kernel
  intro back hback
  exact hall back ((List.mem_tails _ _).2 hback)

/-- The only clause behind a tag that holds none is that of the payload. -/
theorem eq_one_of_clause? (hclause : ∀ cycles stack, IsDigits cycles → IsDigits stack →
      ¬clauseText cycles stack <:+: tag.text)
    {s cycles stack rest : List Char} (hs : s <:+ tag.text ++ headless)
    (h : clause? s = some (cycles, stack, rest)) : cycles = ['1'] ∧ stack = ['1'] := by
  rcases Nat.lt_or_ge headless.length s.length with hlt | hle
  · obtain ⟨front, hfront⟩ := hs
    -- The clause would begin in the tag, and `#` is no part of a clause.
    obtain ⟨k, rfl, hk⟩ : ∃ k, s = k ++ headless ∧ k <:+ tag.text := by
      rcases List.append_eq_append_iff.1 hfront with ⟨k, htag, rfl⟩ | ⟨k, -, hpayload⟩
      · exact ⟨k, rfl, htag ▸ List.suffix_append front k⟩
      · have hlength := congrArg List.length hpayload
        rw [List.length_append] at hlength
        omega
    obtain ⟨heq, hcycles, hstack⟩ := clause?_eq_some_iff.1 h
    have hforeign : '#' ∉ clauseText cycles stack := by
      have hdigits : ∀ {digits : List Char}, IsDigits digits → '#' ∉ digits := by
        intro digits hdigits hmem
        exact absurd (List.all_eq_true.1 hdigits.2 '#' hmem) (by decide)
      simp only [clauseText, List.mem_append, not_or]
      exact ⟨by decide, hdigits hcycles, by decide, hdigits hstack, by decide⟩
    have hpre : clauseText cycles stack <+: k ++ [' '] := by
      have hpayload : k ++ headless =
          (k ++ [' ']) ++ '#' :: " took 1 cycles, Stack: 1 bytes".toList := by
        rw [List.append_assoc]
        rfl
      exact isPrefix_of_isPrefix_append_cons hforeign ⟨rest, by rw [← heq, hpayload]⟩
    have hend : clauseText cycles stack = " took ".toList ++ (cycles ++
        (" cycles, Stack: ".toList ++ (stack ++ " byte".toList))) ++ ['s'] := by
      simp [clauseText]
    refine absurd ?_ (hclause cycles stack hcycles hstack)
    rcases List.prefix_concat_iff.1 hpre with hwhole | hpre
    · rw [hend] at hwhole
      exact absurd (List.append_inj' hwhole rfl).2 (by decide)
    · exact hpre.isInfix.trans hk.isInfix
  · have hpayload : s <:+ headless :=
      List.suffix_of_suffix_length_le hs (List.suffix_append _ headless) hle
    have hall : ∀ back ∈ headless.tails, ∀ p ∈ clause? back, p.1 = ['1'] ∧ p.2.1 = ['1'] := by
      decide +kernel
    exact hall s ((List.mem_tails _ _).2 hpayload) _ h

/-- If a `: ` begins in the tag, the last of two tags can be read as the algorithm. -/
theorem isSome_untagged?_of_not_colonFree (hnewline : '\n' ∉ tag.text) (h : ¬ColonFree tag.text) :
    (untagged? (tag.text ++ headless)).isSome := by
  obtain ⟨front, back, heq⟩ := not_not.1 h
  have hline : '\n' ∉ front ++ ": ".toList ++ back := by
    rw [heq]
    simp [hnewline]
  rw [List.append_assoc, List.mem_append, List.mem_append, not_or, not_or] at hline
  have htext : tag.text ++ headless = front ++ (':' :: ' ' :: (back ++ hashed)) := by
    have hpayload : headless = [' '] ++ hashed := rfl
    rw [hpayload, ← List.append_assoc, ← heq]
    simp
  have hclause : (shortestRun? clause? (back ++ hashed)).isSome :=
    isSome_shortestRun?_append hline.2.2 (by decide +kernel)
  obtain ⟨p, hp⟩ := Option.isSome_iff_exists.1 hclause
  have hcolon : after? ": ".toList (':' :: ' ' :: (back ++ hashed)) = some (back ++ hashed) := rfl
  rw [htext]
  refine isSome_untagged?_append hline.1 ?_
  rw [untagged?_cons, hcolon]
  simp only [hp, Option.map_some, Option.isSome_some]

/-- **A `: ` that begins in the tag makes records**: two tags find one where one tag finds none. -/
theorem not_runsAsOne_of_not_colonFree (hnewline : '\n' ∉ tag.text)
    (hclause : ∀ cycles stack, IsDigits cycles → IsDigits stack →
      ¬clauseText cycles stack <:+: tag.text) (h : ¬ColonFree tag.text) : ¬tag.RunsAsOne := by
  intro hruns
  have hsome : (behindTag? tag (tag.text ++ headless)).isSome :=
    isSome_behindTag? (isSome_untagged?_of_not_colonFree hnewline h)
  obtain ⟨⟨result, rest⟩, hfound⟩ := Option.isSome_iff_exists.1 hsome
  have hfirst : resultAt? tag (tag.text ++ (tag.text ++ headless)) = some (result, rest) :=
    resultAt?_eq_some_iff.2 ⟨_, rfl, hfound⟩
  -- The numbers of that result are those of the payload, so they fit into words.
  obtain ⟨body, hbody, hbodyFound⟩ := exists_untagged?_of_behindTag? hfound
  obtain ⟨clause, hbodyEq, -, -, hbodyClause⟩ := exists_of_untagged? hbodyFound
  have hsuffix : clause <:+ tag.text ++ headless := by
    refine List.IsSuffix.trans ?_ hbody
    rw [hbodyEq]
    simp only [← List.append_assoc]
    exact List.suffix_append _ clause
  obtain ⟨hcycles, hstack⟩ := eq_one_of_clause? hclause hsuffix hbodyClause
  obtain ⟨record, hrecord⟩ : ∃ record, result.record? = some record := by
    rw [Result.record?, hcycles, hstack]
    exact ⟨_, rfl⟩
  have hlaw := hruns [[]] [] headless (by decide) rfl List.not_mem_nil
  simp only [Printout.tags, List.flatMap_cons, List.flatMap_nil, List.append_nil, List.nil_append,
    recordsIn_eq_filterMap, resultsIn_of_resultAt? hfirst, List.filterMap_cons_some hrecord,
    resultsIn_tag_append_eq_nil untagged?_eq_none_of_headless, List.filterMap_nil] at hlaw
  cases hlaw

/-- The rest of a result. -/
def ordinary : List Char := "x: y took 1 cycles, Stack: 1 bytes".toList

theorem untagged?_ordinary : untagged? ordinary = some (⟨['x'], ['y'], ['1'], ['1']⟩, []) := by
  decide +kernel

section BeginsBlank

variable (hblank : ¬StopsAt isBlank tag.text)
include hblank

/-- No tag that begins with a blank stands where something visible does. -/
theorem not_isPrefix_of_not_stopsAt {s : List Char} (hs : StopsAt isBlank s) :
    ¬tag.text <+: s := by
  rintro ⟨rest, rfl⟩
  refine hblank ?_
  intro c hc
  refine hs c ?_
  rw [List.head?_append, Option.mem_def.1 hc]
  rfl

theorem resultAt?_tag_ordinary :
    resultAt? tag (tag.text ++ ordinary) = some (⟨['x'], ['y'], ['1'], ['1']⟩, []) := by
  have hstop : StopsAt isBlank ordinary := stopsAt_cons.2 (by decide)
  exact resultAt?_eq_some_iff.2 ⟨ordinary, rfl, behindTag?_of_untagged? hstop
    (not_isPrefix_of_not_stopsAt hblank hstop) untagged?_ordinary⟩

/-- Behind another tag, what is left of the tag without its blanks joins the algorithm. -/
theorem resultAt?_tag_tag_ordinary (hnewline : '\n' ∉ tag.text) (hcolon : ColonFree tag.text) :
    resultAt? tag (tag.text ++ (tag.text ++ ordinary)) =
      some (⟨trimStart tag.text ++ ['x'], ['y'], ['1'], ['1']⟩, []) := by
  obtain ⟨lead, hlead, hcore, htext⟩ := trimStart_eq_iff.1 (Eq.refl (trimStart tag.text))
  generalize trimStart tag.text = core at hcore htext ⊢
  have hsuffix : core <:+ tag.text := htext ▸ List.suffix_append lead core
  have hfound : untagged? (core ++ ordinary) = some (⟨core ++ ['x'], ['y'], ['1'], ['1']⟩, []) := by
    rw [untagged?_append (fun hmem => hnewline (hsuffix.subset hmem)) (hcolon.of_isSuffix hsuffix),
      untagged?_ordinary]
    rfl
  have hstop : StopsAt isBlank (core ++ ordinary) := by
    cases core with
    | nil => exact stopsAt_cons.2 (by decide)
    | cons c core => exact stopsAt_cons.2 (stopsAt_cons.1 hcore)
  have hbehind := behindTag?_append_of_isAllBlank hlead
    (behindTag?_of_untagged? hstop (not_isPrefix_of_not_stopsAt hblank hstop) hfound)
  rw [← List.append_assoc, ← htext] at hbehind
  exact resultAt?_eq_some_iff.2 ⟨_, rfl, hbehind⟩

/-- **A tag that begins with a blank changes names.** -/
theorem not_runsAsOne_of_not_stopsAt (hnewline : '\n' ∉ tag.text) (hcolon : ColonFree tag.text) :
    ¬tag.RunsAsOne := by
  intro hruns
  have hrecord : ∀ algorithm, Result.record? ⟨algorithm, ['y'], ['1'], ['1']⟩ =
      some ⟨String.ofList (trim algorithm), "y", 1, 1⟩ := fun _ => rfl
  have hlaw := hruns [[]] [] ordinary (by decide) rfl List.not_mem_nil
  simp only [Printout.tags, List.flatMap_cons, List.flatMap_nil, List.append_nil, List.nil_append,
    recordsIn_eq_filterMap, resultsIn_of_resultAt? (resultAt?_tag_ordinary hblank),
    resultsIn_of_resultAt? (resultAt?_tag_tag_ordinary hblank hnewline hcolon), resultsIn,
    List.filterMap_cons_some (hrecord _), List.filterMap_nil, List.cons.injEq, Record.mk.injEq,
    String.ofList_inj] at hlaw
  -- Nothing is trimmed off the longer name, so the tag would be all blank.
  have hstart : trimStart (trimStart tag.text ++ ['x']) = trimStart tag.text ++ ['x'] := by
    refine trimStart_eq_iff.2 ⟨[], rfl, ?_, rfl⟩
    have hcore : StopsAt isBlank (trimStart tag.text) := stopsAt_dropWhile isBlank tag.text
    cases hcases : trimStart tag.text with
    | nil => exact stopsAt_cons.2 (by decide)
    | cons c core =>
      rw [hcases] at hcore
      exact stopsAt_cons.2 (stopsAt_cons.1 hcore)
  have htrim : trim (trimStart tag.text ++ ['x']) = trimStart tag.text ++ ['x'] := by
    rw [trim, hstart, trimEnd_concat (by decide)]
  have hname : trimStart tag.text ++ ['x'] = ['x'] := htrim.symm.trans hlaw.1.1
  have hnil : trimStart tag.text = [] := by simpa using hname
  obtain ⟨lead, hlead, -, htext⟩ := trimStart_eq_iff.1 hnil
  have hvisible := tag.visible
  rw [htext, List.append_nil, hlead] at hvisible
  cases hvisible

end BeginsBlank

/-! ### Which tags may be repeated -/

/-- **Repeating a tag that stands alone changes nothing.** Every other tag on one line shows when it
is repeated, unless it is a result's clause itself. -/
theorem runsAsOne_iff_standsAlone (hnewline : '\n' ∉ tag.text) :
    (tag.StandsAlone → tag.RunsAsOne) ∧
      ((∀ cycles stack, IsDigits cycles → IsDigits stack → ¬clauseText cycles stack <:+: tag.text) →
        (tag.RunsAsOne ↔ tag.StandsAlone)) := by
  have hruns : tag.StandsAlone → tag.RunsAsOne := by
    intro hstands gaps gap payload hgaps _ _
    rw [recordsIn_eq_filterMap, recordsIn_eq_filterMap, resultsIn_tags hnewline hstands hgaps]
  refine ⟨hruns, fun hclause => ⟨fun hruns => ?_, hruns⟩⟩
  have hcolon : ColonFree tag.text := by
    by_contra h
    exact not_runsAsOne_of_not_colonFree hnewline hclause h hruns
  refine ⟨?_, hcolon⟩
  by_contra h
  exact not_runsAsOne_of_not_stopsAt h hnewline hcolon hruns

/-- The usual tag may be repeated, a tag that ends in a colon may not. -/
theorem runsAsOne_iff_standsAlone_usual :
    Tag.RunsAsOne ⟨"UART >>".toList, by decide⟩ ∧ ¬Tag.RunsAsOne ⟨"LOG:".toList, by decide⟩ := by
  constructor
  · exact (runsAsOne_iff_standsAlone (by decide)).1 ⟨stopsAt_cons.2 (by decide), by decide⟩
  · intro hruns
    have hclause : ∀ cycles stack, IsDigits cycles → IsDigits stack →
        ¬clauseText cycles stack <:+: "LOG:".toList := by
      intro cycles stack _ _ hin
      have htook : " took ".toList <:+: "LOG:".toList :=
        (List.prefix_append " took ".toList _).isInfix.trans hin
      exact absurd htook (by decide)
    have hstands := ((runsAsOne_iff_standsAlone (by decide)).2 hclause).1 hruns
    exact absurd hstands.colonFree (by decide)

/-- **Not every tag may be repeated**: behind one `LOG:` there is no result, behind two of them the
second is the algorithm of one. -/
theorem recordsIn_tags_ne :
    recordsIn ⟨"LOG:".toList, by decide⟩ "LOG: LOG: x took 1 cycles, Stack: 2 bytes".toList =
        [⟨"LOG", "x", 1, 2⟩] ∧
      recordsIn ⟨"LOG:".toList, by decide⟩ "LOG: x took 1 cycles, Stack: 2 bytes".toList = [] :=
  ⟨by decide +kernel, by decide +kernel⟩

end FirmwareReport.Log
