import FirmwareReport.Proofs.Report.Regeneration

/-!
# Passes over documents of few markers

For a document whose markers are known one by one, a pass can be followed step by step. It does
nothing to a text without an opening marker or without an end, it fills a section that stands in
front (`FirmwareReport.pass_section`), and it goes over texts and marks that are not its own
(`FirmwareReport.pass_append`, `FirmwareReport.pass_mark_append`).

A text **closes** the sections of a name if every opening marker has an end behind it
(`FirmwareReport.IsClosed`). Over such a text a pass is done by the end of it, and what follows has
a pass of its own (`FirmwareReport.pass_append_of_isClosed`).
-/

namespace FirmwareReport

open Text

/-! ### What a pass does to a document of few markers -/

/-- What stands in a text is found there, and not in front of where it is found. -/
theorem exists_of_isInfix {mark s : List Char} (hne : mark ≠ []) (hin : mark <:+: s) :
    ∃ before rest, s = before ++ (mark ++ rest) ∧ ¬mark <:+: before := by
  cases hcut : cut? mark s with
  | none => exact absurd hin (cut?_eq_none_iff.1 hcut)
  | some p =>
    obtain ⟨before, rest⟩ := p
    obtain ⟨rfl, hfirst⟩ := cut?_eq_some_iff.1 hcut
    refine ⟨before, rest, List.append_assoc _ _ _, ?_⟩
    rintro ⟨front, behind, rfl⟩
    have hlength := hfirst front (behind ++ mark ++ rest) (by simp)
    have hpos := List.length_pos_iff.2 hne
    simp only [List.length_append] at hlength
    omega

section Pass

variable {name table : String}

/-- Without an end there is no section. -/
theorem pass_of_not_isInfix_endMarker {s : List Char} (h : ¬(endMarker name).toList <:+: s) :
    pass s (name, table) = s := by
  refine refill_of_section?_eq_none ?_
  cases hcut : cut? (startMarker name).toList s with
  | none => exact section?_eq_none_of_cut?_opening hcut
  | some p =>
    refine section?_eq_none_of_cut?_closing hcut (cut?_eq_none_iff.2 fun hin => h ?_)
    rw [eq_of_cut? hcut]
    exact hin.trans (List.suffix_append _ _).isInfix

/-- Without an opening there is no section. -/
theorem pass_of_not_isInfix_startMarker {s : List Char}
    (h : ¬(startMarker name).toList <:+: s) : pass s (name, table) = s :=
  refill_of_section?_eq_none (section?_eq_none_of_cut?_opening (cut?_eq_none_iff.2 h))

/-- A mark stands in what a document of one section is put together of, or is one of its markers. -/
theorem IsMark.isInfix_section_iff {mark : List Char} (h : IsMark mark)
    (hname : IsUnbracketed name) {before body after : List Char} :
    mark <:+: before ++ ((startMarker name).toList ++ (body ++
        ((endMarker name).toList ++ after))) ↔
      mark <:+: before ∨ mark = (startMarker name).toList ∨ mark <:+: body ∨
        mark = (endMarker name).toList ∨ mark <:+: after := by
  have hstart := isMark_startMarker hname
  have hend := isMark_endMarker hname
  rw [h.isInfix_append_iff (beginsWithMark_append hstart _), h.isInfix_mark_append_iff hstart,
    h.isInfix_append_iff (beginsWithMark_append hend _), h.isInfix_mark_append_iff hend]

/-- A pass brings in no mark but those of its table. -/
theorem IsMark.not_isInfix_pass {mark : List Char} (h : IsMark mark) (hname : IsUnbracketed name)
    {s : List Char} (hs : ¬mark <:+: s) (htable : ¬mark <:+: table.toList) :
    ¬mark <:+: pass s (name, table) := by
  induction hn : s.length using Nat.strongRecOn generalizing s with
  | ind n ih =>
    subst hn
    cases hsection : (section? (startMarker name).toList (endMarker name).toList s) with
    | none => rwa [pass, refill_of_section?_eq_none hsection]
    | some p =>
      obtain ⟨before, body, after⟩ := p
      obtain ⟨rest, hopen, hclose⟩ := section?_eq_some_iff.1 hsection
      have hs' := hs
      rw [eq_of_cut? hopen, eq_of_cut? hclose, List.append_assoc, List.append_assoc,
        h.isInfix_section_iff hname] at hs'
      have hlength := length_of_section? hsection
      have hpos := length_startMarker_pos name
      have hafter := ih after.length (by omega) (s := after) (fun hin => hs' (by tauto)) rfl
      rw [pass] at hafter
      rw [pass, refill_of_section? hsection, h.isInfix_section_iff hname, h.isInfix_filling_iff]
      tauto

variable (hname : IsUnbracketed name)
include hname

/-- A section in front is filled. -/
theorem pass_section {body : List Char} (h : ¬(endMarker name).toList <:+: body)
    (rest : List Char) :
    pass ((startMarker name).toList ++ (body ++ ((endMarker name).toList ++ rest))) (name, table) =
      (startMarker name).toList ++ (filling table ++ ((endMarker name).toList ++
        pass rest (name, table))) := by
  have hend := isMark_endMarker hname
  have hbody := hend.passes_of_not_isInfix h (beginsWithMark_append hend rest)
  exact refill_of_section? (section?_eq_some_iff.2
    ⟨_, cut?_append_self (isMark_startMarker hname).ne_nil _, cut?_of_passes hend.ne_nil hbody⟩)

/-- A section in front of a text without another one. -/
theorem pass_section_of_not_isInfix {body rest : List Char}
    (hbody : ¬(endMarker name).toList <:+: body) (hrest : ¬(startMarker name).toList <:+: rest) :
    pass ((startMarker name).toList ++ (body ++ ((endMarker name).toList ++ rest))) (name, table) =
      (startMarker name).toList ++ (filling table ++ ((endMarker name).toList ++ rest)) := by
  rw [pass_section hname hbody, pass_of_not_isInfix_startMarker hrest]

/-- What has no opening in front of a bracket stays as it is. -/
theorem pass_append {s rest : List Char} (hs : ¬(startMarker name).toList <:+: s)
    (hrest : BeginsWithMark rest) : pass (s ++ rest) (name, table) = s ++ pass rest (name, table) :=
  refill_append_of_passes ((isMark_startMarker hname).passes_of_not_isInfix hs hrest)

/-- A pass goes over any other mark. -/
theorem pass_mark_append {mark : List Char} (h : IsMark mark)
    (hne : (startMarker name).toList ≠ mark) (rest : List Char) :
    pass (mark ++ rest) (name, table) = mark ++ pass rest (name, table) :=
  refill_append_of_passes ((isMark_startMarker hname).passes_of_ne h hne rest)

/-- **A pass that fills with no end of its own can be made again.** -/
theorem pass_pass (htable : ¬(endMarker name).toList <:+: table.toList) (s : List Char) :
    pass (pass s (name, table)) (name, table) = pass s (name, table) := by
  have hnames : ∀ other ∈ [name], IsUnbracketed other := List.forall_mem_singleton.2 hname
  have htables : [(name, table)].map Prod.fst = [name] := rfl
  exact foldl_pass_foldl_pass hnames htables htables (by simpa [IsFilling] using htable) s

end Pass

/-! ### Texts that close their sections -/

/-- **A text closes the sections of a name** if every opening marker has an end behind it. -/
def IsClosed (name : String) (s : List Char) : Prop :=
  ∀ rest, (startMarker name).toList ++ rest <:+ s → (endMarker name).toList <:+: rest

section Closed

variable {name : String} {s : List Char}

theorem IsClosed.of_isSuffix {t : List Char} (h : IsClosed name s) (hsuffix : t <:+ s) :
    IsClosed name t := fun rest hrest => h rest (hrest.trans hsuffix)

theorem isClosed_of_not_isInfix (h : ¬(startMarker name).toList <:+: s) : IsClosed name s :=
  fun rest hrest => absurd ((List.prefix_append _ rest).isInfix.trans hrest.isInfix) h

/-- Without an end, a text that closes its sections has no opening either. -/
theorem IsClosed.not_isInfix_startMarker (h : IsClosed name s)
    (hend : ¬(endMarker name).toList <:+: s) : ¬(startMarker name).toList <:+: s := by
  rintro ⟨before, rest, rfl⟩
  have hsuffix : (startMarker name).toList ++ rest <:+
      before ++ (startMarker name).toList ++ rest := by
    rw [List.append_assoc]
    exact List.suffix_append _ _
  exact hend ((h rest hsuffix).trans (List.suffix_append _ _).isInfix)

variable (hname : IsUnbracketed name)
include hname

theorem IsClosed.cons (h : IsClosed name s) {c : Char} (hc : c ≠ '<') : IsClosed name (c :: s) := by
  intro rest hrest
  obtain ⟨inner, hstart, -, -⟩ := isMark_startMarker hname
  rcases List.suffix_cons_iff.1 hrest with heq | hrest
  · rw [hstart] at heq
    exact absurd (List.cons_eq_cons.1 heq).1.symm hc
  · exact h rest hrest

theorem IsClosed.concat (h : IsClosed name s) {c : Char} (hc : c ≠ '>') :
    IsClosed name (s ++ [c]) := by
  intro rest hrest
  obtain ⟨inner, hstart, -, -⟩ := isMark_startMarker hname
  obtain hnil | ⟨front, heq, hfront⟩ := List.suffix_concat_iff.1 hrest
  · rw [hstart] at hnil
    exact absurd hnil (by simp)
  -- The character belongs to what follows the marker, since it does not end it.
  rcases List.eq_nil_or_concat rest with rfl | ⟨front', d, rfl⟩
  · rw [hstart, List.append_nil, ← List.cons_append] at heq
    exact absurd (List.append_inj_right' heq rfl) (by simpa using hc.symm)
  · rw [List.concat_eq_append, ← List.append_assoc] at heq
    obtain ⟨rfl, -⟩ := List.append_inj' heq rfl
    rw [List.concat_eq_append]
    exact (h front' hfront).trans (List.prefix_append _ _).isInfix

theorem IsClosed.filling {table : String} (h : IsClosed name table.toList) :
    IsClosed name (filling table) :=
  (h.concat hname (by decide)).cons hname (by decide)

/-- A text that leaves a section open does so with an opening marker behind a text that does not. -/
theorem exists_of_not_isClosed (h : ¬IsClosed name s) :
    ∃ before rest, s = before ++ ((startMarker name).toList ++ rest) ∧ IsClosed name before ∧
      ¬(endMarker name).toList <:+: rest := by
  induction hn : s.length using Nat.strongRecOn generalizing s with
  | ind n ih =>
    subst hn
    simp only [IsClosed, not_forall] at h
    obtain ⟨rest, ⟨before, rfl⟩, hrest⟩ := h
    by_cases hbefore : IsClosed name before
    · exact ⟨before, rest, rfl, hbefore, hrest⟩
    · have hpos := length_startMarker_pos name
      obtain ⟨b, r, rfl, hb, hr⟩ := ih before.length (by simp; omega) hbefore rfl
      have hstart := isMark_startMarker hname
      have hend := isMark_endMarker hname
      refine ⟨b, r ++ ((startMarker name).toList ++ rest), by simp, hb, ?_⟩
      rw [hend.isInfix_append_iff (beginsWithMark_append hstart rest),
        hend.isInfix_mark_append_iff hstart]
      have hne := (startMarker_ne_endMarker name name).symm
      tauto

/-- **A pass over a text that closes its sections** ends with the text. -/
theorem pass_append_of_isClosed {table : String} (h : IsClosed name s) {rest : List Char}
    (hrest : BeginsWithMark rest) :
    pass (s ++ rest) (name, table) = pass s (name, table) ++ pass rest (name, table) := by
  induction hn : s.length using Nat.strongRecOn generalizing s with
  | ind n ih =>
    subst hn
    by_cases hin : (startMarker name).toList <:+: s
    · obtain ⟨before, behind, rfl, hbefore⟩ :=
        exists_of_isInfix (isMark_startMarker hname).ne_nil hin
      obtain ⟨body, after, rfl, hbody⟩ := exists_of_isInfix (isMark_endMarker hname).ne_nil
        (h behind (List.suffix_append _ _))
      have hafter : IsClosed name after := h.of_isSuffix <|
        (List.suffix_append _ _).trans <| (List.suffix_append _ _).trans <|
          (List.suffix_append _ _).trans (List.suffix_append _ _)
      have hpos := length_startMarker_pos name
      have hbegins := fun t => beginsWithMark_append (isMark_startMarker hname) t
      rw [pass_append hname hbefore (hbegins _), pass_section hname hbody]
      simp only [List.append_assoc]
      rw [pass_append hname hbefore (hbegins _), pass_section hname hbody,
        ih after.length (by simp; omega) hafter rfl]
    · rw [pass_append hname hin hrest, pass_of_not_isInfix_startMarker hin]

end Closed

end FirmwareReport
