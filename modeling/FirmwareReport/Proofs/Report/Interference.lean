import FirmwareReport.Proofs.Report.Nesting

/-!
# Tables with markers

A run of passes is **stable** on a document if a second one makes the same of it
(`FirmwareReport.IsStable`). It is stable on every document as long as no table has a marker of
another section, or the end marker of its own (`FirmwareReport.foldl_pass_foldl_pass`), or if the
markers belong to a name that comes last and the tables close its sections
(`FirmwareReport.foldl_pass_foldl_pass_of_isClosed`). Any other marker interferes: each of the
theorems below takes a document of two to four markers, on which a second run makes a difference.

* `FirmwareReport.not_isInfix_endMarker_self`: the end marker of its own section in a table;
* `FirmwareReport.not_isInfix_endMarker_before`, `FirmwareReport.not_isInfix_startMarker_before`: a
  marker of a section that has its pass before;
* `FirmwareReport.isClosed_of_before`: an opening marker without an end, of a section that has its
  pass later.

There may be more tables in the run than those two. If their markers occur neither in the document
nor in the two tables, their passes do nothing and they may be left out
(`FirmwareReport.IsStable.filter`). What two tables ask of each other is put together in
`FirmwareReport.exclusions_of_isStable`.
-/

namespace FirmwareReport

open Text

/-- **A run is stable** on a document if a second one makes the same of it. -/
def IsStable (tables : List (String × String)) (s : List Char) : Prop :=
  tables.foldl pass (tables.foldl pass s) = tables.foldl pass s

/-! ### Tables that may be left out -/

section Quiet

variable {tables : List (String × String)} {s : List Char} {t : String × String}

/-- **A table is quiet** in a document, next to other tables, if one of its markers stands neither
in the document nor in a table. -/
def IsQuiet (tables : List (String × String)) (s : List Char) (t : String × String) : Prop :=
  ∃ mark, (mark = (startMarker t.1).toList ∨ mark = (endMarker t.1).toList) ∧ ¬mark <:+: s ∧
    ∀ other ∈ tables, ¬mark <:+: other.2.toList

theorem IsQuiet.pass_eq_self (h : IsQuiet tables s t) : pass s t = s := by
  obtain ⟨mark, rfl | rfl, hs, -⟩ := h
  · exact pass_of_not_isInfix_startMarker hs
  · exact pass_of_not_isInfix_endMarker hs

/-- A run brings in no mark but those of its tables. -/
theorem IsMark.not_isInfix_foldl_pass {mark : List Char} (h : IsMark mark)
    (hnames : ∀ t ∈ tables, IsUnbracketed t.1) (hs : ¬mark <:+: s)
    (htables : ∀ t ∈ tables, ¬mark <:+: t.2.toList) : ¬mark <:+: tables.foldl pass s := by
  induction tables generalizing s with
  | nil => exact hs
  | cons t tables ih =>
    obtain ⟨ht, hnames⟩ := List.forall_mem_cons.1 hnames
    obtain ⟨hmark, htables⟩ := List.forall_mem_cons.1 htables
    exact ih hnames (h.not_isInfix_pass ht hs hmark) htables

/-- What is quiet next to tables is so after some of their passes, next to the others. -/
theorem IsQuiet.foldl_pass {others : List (String × String)} (ht : IsUnbracketed t.1)
    (hnames : ∀ other ∈ tables, IsUnbracketed other.1) (h : IsQuiet (tables ++ others) s t) :
    IsQuiet others (tables.foldl pass s) t := by
  obtain ⟨mark, hmark, hs, hothers⟩ := h
  obtain ⟨htables, hothers⟩ := List.forall_mem_append.1 hothers
  refine ⟨mark, hmark, ?_, hothers⟩
  rcases hmark with rfl | rfl
  · exact (isMark_startMarker ht).not_isInfix_foldl_pass hnames hs htables
  · exact (isMark_endMarker ht).not_isInfix_foldl_pass hnames hs htables

theorem foldl_pass_eq_self (h : ∀ t ∈ tables, ¬(startMarker t.1).toList <:+: s) :
    tables.foldl pass s = s := by
  induction tables with
  | nil => rfl
  | cons t tables ih =>
    obtain ⟨ht, htables⟩ := List.forall_mem_cons.1 h
    rw [List.foldl_cons, pass_of_not_isInfix_startMarker ht, ih htables]

/-- **Tables that are quiet next to the others may be left out.** -/
theorem foldl_pass_filter (hnames : ∀ t ∈ tables, IsUnbracketed t.1) (p : String × String → Bool)
    (hquiet : ∀ t ∈ tables, p t = false → IsQuiet (tables.filter p) s t) :
    tables.foldl pass s = (tables.filter p).foldl pass s := by
  induction tables generalizing s with
  | nil => rfl
  | cons t tables ih =>
    obtain ⟨ht, hnames⟩ := List.forall_mem_cons.1 hnames
    obtain ⟨hfirst, hquiet⟩ := List.forall_mem_cons.1 hquiet
    cases hp : p t with
    | false =>
      rw [List.filter_cons_of_neg (by simp [hp])] at hfirst hquiet ⊢
      rw [List.foldl_cons, (hfirst hp).pass_eq_self, ih hnames hquiet]
    | true =>
      rw [List.filter_cons_of_pos hp] at hquiet ⊢
      rw [List.foldl_cons, List.foldl_cons]
      refine ih hnames fun other hother hpother => ?_
      have hquiet' : IsQuiet ([t] ++ tables.filter p) s other := hquiet other hother hpother
      exact hquiet'.foldl_pass (hnames other hother) (List.forall_mem_singleton.2 ht)

/-- Whether a run is stable on a document does not depend on quiet tables either. -/
theorem IsStable.filter (h : IsStable tables s) (hnames : ∀ t ∈ tables, IsUnbracketed t.1)
    (p : String × String → Bool)
    (hquiet : ∀ t ∈ tables, p t = false → IsQuiet (tables.filter p) s t) :
    IsStable (tables.filter p) s := by
  have hfirst := foldl_pass_filter hnames p hquiet
  -- What is quiet in the document is quiet in what the first run makes of it.
  have hsecond := foldl_pass_filter hnames p fun t ht hp => by
    obtain ⟨mark, hmark, hs, htables⟩ := hquiet t ht hp
    have hquiet' : IsQuiet (tables.filter p ++ tables.filter p) s t :=
      ⟨mark, hmark, hs, List.forall_mem_append.2 ⟨htables, htables⟩⟩
    exact hquiet'.foldl_pass (hnames t ht) fun other hother =>
      hnames other (List.mem_of_mem_filter hother)
  rw [IsStable, ← hsecond, ← hfirst, h]

/-- **The table of a name may be left out** if one of the markers of the name stands neither in the
document nor in another table. -/
theorem IsStable.filter_ne (h : IsStable tables s) (hnames : ∀ t ∈ tables, IsUnbracketed t.1)
    {name : String} {mark : List Char}
    (hmark : mark = (startMarker name).toList ∨ mark = (endMarker name).toList)
    (hs : ¬mark <:+: s) (htables : ∀ t ∈ tables, t.1 ≠ name → ¬mark <:+: t.2.toList) :
    IsStable (tables.filter (·.1 ≠ name)) s := by
  refine h.filter hnames _ fun t _ ht => ?_
  obtain rfl : t.1 = name := by simpa using ht
  refine ⟨mark, hmark, hs, fun other hother => ?_⟩
  obtain ⟨hmem, hne⟩ := List.mem_filter.1 hother
  exact htables other hmem (by simpa using hne)

end Quiet

/-! ### Markers that make a difference -/

/-- A pass leaves a text alone or leaves an opening marker in it. -/
theorem pass_eq_self_or_isInfix {name : String} (hname : IsUnbracketed name) (table : String)
    (s : List Char) :
    pass s (name, table) = s ∨ (startMarker name).toList <:+: pass s (name, table) := by
  cases h : (section? (startMarker name).toList (endMarker name).toList s) with
  | none => exact Or.inl (refill_of_section?_eq_none h)
  | some p =>
    obtain ⟨before, body, after⟩ := p
    rw [pass, refill_of_section? h, (isMark_startMarker hname).isInfix_section_iff hname]
    exact Or.inr (Or.inr (Or.inl rfl))

/-- What every search passes over stays in front of a document. -/
theorem exists_foldl_pass_append {tables : List (String × String)} {front : List Char}
    (hfront : ∀ t ∈ tables, ∀ rest, Passes (startMarker t.1).toList front rest) (rest : List Char) :
    ∃ rest', tables.foldl pass (front ++ rest) = front ++ rest' := by
  induction tables generalizing rest with
  | nil => exact ⟨rest, rfl⟩
  | cons t tables ih =>
    obtain ⟨ht, hfront⟩ := List.forall_mem_cons.1 hfront
    rw [List.foldl_cons, pass, refill_append_of_passes (ht rest)]
    exact ih hfront _

/-- **A table with the end marker of its own section** makes the section longer every time: what
stands between the markers is the whole table the first time, and a part of it the second time. -/
theorem not_isInfix_endMarker_self {name table : String} (hname : IsUnbracketed name)
    (h : IsStable [(name, table)] ((startMarker name).toList ++ (endMarker name).toList)) :
    ¬(endMarker name).toList <:+: table.toList := by
  intro hin
  have hstart := isMark_startMarker hname
  have hend := isMark_endMarker hname
  have hfirst : pass ((startMarker name).toList ++ (endMarker name).toList) (name, table) =
      (startMarker name).toList ++ (filling table ++ (endMarker name).toList) := by
    simpa using pass_section_of_not_isInfix hname hend.not_isInfix_nil hstart.not_isInfix_nil
  rw [← hend.isInfix_filling_iff] at hin
  obtain ⟨body, behind, hbody, hnotIn⟩ := exists_of_isInfix hend.ne_nil hin
  have hsecond : pass ((startMarker name).toList ++ (filling table ++ (endMarker name).toList))
      (name, table) = (startMarker name).toList ++ (filling table ++ ((endMarker name).toList ++
        pass (behind ++ (endMarker name).toList) (name, table))) := by
    rw [hbody, List.append_assoc, List.append_assoc, pass_section hname hnotIn, ← hbody]
  simp only [IsStable, List.foldl_cons, List.foldl_nil] at h
  rw [hfirst, hsecond, List.append_cancel_left_eq, List.append_cancel_left_eq,
    List.append_right_eq_self] at h
  rcases pass_eq_self_or_isInfix hname table (behind ++ (endMarker name).toList) with heq | hin
  · rw [h] at heq
    exact hend.ne_nil (List.append_eq_nil_iff.1 heq.symm).2
  · rw [h] at hin
    exact hstart.not_isInfix_nil hin

/-- **An opening marker in front of a bracket** has no end behind it, once a run leaves the document
as it is: the pass would have put a newline in between, and the later ones leave it there. -/
theorem not_isInfix_of_foldl_pass_eq_self {name table : String} (hname : IsUnbracketed name)
    {tables : List (String × String)} (hnames : ∀ t ∈ tables, IsUnbracketed t.1)
    (hne : ∀ t ∈ tables, t.1 ≠ name) {s : List Char} (hs : BeginsWithMark s)
    (h : ((name, table) :: tables).foldl pass ((startMarker name).toList ++ s) =
      (startMarker name).toList ++ s) : ¬(endMarker name).toList <:+: s := by
  intro hin
  have hstart := isMark_startMarker hname
  obtain ⟨body, behind, heq, hbody⟩ := exists_of_isInfix (isMark_endMarker hname).ne_nil hin
  have hfront : ∀ t ∈ tables, ∀ rest,
      Passes (startMarker t.1).toList ((startMarker name).toList ++ ['\n']) rest := by
    intro t ht rest
    have hmark := isMark_startMarker (hnames t ht)
    exact (hmark.passes_of_ne hstart (startMarker_ne (hne t ht)) _).append
      (hmark.passes_of_not_mem (by decide) rest)
  have hpass : pass ((startMarker name).toList ++ s) (name, table) =
      (startMarker name).toList ++ ['\n'] ++ (table.toList ++ '\n' :: ((endMarker name).toList ++
        pass behind (name, table))) := by
    rw [heq, pass_section hname hbody, filling]
    simp
  obtain ⟨rest', hrest⟩ := exists_foldl_pass_append hfront (table.toList ++
    '\n' :: ((endMarker name).toList ++ pass behind (name, table)))
  rw [List.foldl_cons, hpass, hrest, List.append_assoc, List.append_cancel_left_eq] at h
  rcases hs with rfl | ⟨t, rfl⟩ <;> simp at h

/-- A filling ends in a newline, so no mark stands behind all of it. -/
theorem IsMark.filling_ne_append {mark : List Char} (h : IsMark mark) (table : String)
    (front : List Char) : filling table ≠ front ++ mark := by
  obtain ⟨inner, rfl, -, -⟩ := h
  rw [filling, ← List.cons_append, ← List.cons_append, ← List.append_assoc]
  exact fun heq => absurd (List.append_inj_right' heq rfl) (by decide)

/-- **A table with the end marker of an earlier section** ends that section in the second run, which
puts a newline behind its opening marker. -/
theorem not_isInfix_endMarker_before {a b A B : String} (ha : IsUnbracketed a)
    (hb : IsUnbracketed b) (hab : a ≠ b) {between : List (String × String)}
    (hbetween : ∀ t ∈ between, IsUnbracketed t.1 ∧ t.1 ≠ a ∧ t.1 ≠ b)
    (h : IsStable ((a, A) :: (between ++ [(b, B)]))
      ((startMarker a).toList ++ ((startMarker b).toList ++ (endMarker b).toList))) :
    ¬(endMarker a).toList <:+: B.toList := by
  have hSa := isMark_startMarker ha
  have hEa := isMark_endMarker ha
  have hSb := isMark_startMarker hb
  have hEb := isMark_endMarker hb
  have hne := startMarker_ne_endMarker
  -- The first run fills the later section and no other.
  have hopen : ¬(endMarker a).toList <:+:
      (startMarker a).toList ++ ((startMarker b).toList ++ (endMarker b).toList) := by
    rw [hEa.isInfix_mark_append_iff hSa, hEa.isInfix_mark_append_iff hSb, hEa.isInfix_iff_eq hEb,
      not_or, not_or]
    exact ⟨(hne a a).symm, (hne b a).symm, endMarker_ne hab⟩
  have hskip : between.foldl pass
      ((startMarker a).toList ++ ((startMarker b).toList ++ (endMarker b).toList)) =
      (startMarker a).toList ++ ((startMarker b).toList ++ (endMarker b).toList) := by
    refine foldl_pass_eq_self fun t ht => ?_
    obtain ⟨ht, hta, htb⟩ := hbetween t ht
    have hSt := isMark_startMarker ht
    rw [hSt.isInfix_mark_append_iff hSa, hSt.isInfix_mark_append_iff hSb, hSt.isInfix_iff_eq hEb,
      not_or, not_or]
    exact ⟨startMarker_ne hta, startMarker_ne htb, hne t.1 b⟩
  have hsection : pass ((startMarker b).toList ++ (endMarker b).toList) (b, B) =
      (startMarker b).toList ++ (filling B ++ (endMarker b).toList) := by
    simpa using pass_section_of_not_isInfix hb hEb.not_isInfix_nil hSb.not_isInfix_nil
  have hfirst : ((a, A) :: (between ++ [(b, B)])).foldl pass
      ((startMarker a).toList ++ ((startMarker b).toList ++ (endMarker b).toList)) =
      (startMarker a).toList ++ ((startMarker b).toList ++
        (filling B ++ (endMarker b).toList)) := by
    rw [List.foldl_cons, pass_of_not_isInfix_endMarker hopen, List.foldl_append, hskip,
      List.foldl_cons, List.foldl_nil, pass_mark_append hb hSa (startMarker_ne hab).symm, hsection]
  -- The second run would begin with the earlier section.
  have hlater : ∀ t ∈ between ++ [(b, B)], IsUnbracketed t.1 ∧ t.1 ≠ a := by
    refine List.forall_mem_append.2 ⟨fun t ht => ?_, List.forall_mem_singleton.2 ⟨hb, hab.symm⟩⟩
    exact ⟨(hbetween t ht).1, (hbetween t ht).2.1⟩
  rw [IsStable, hfirst] at h
  have hnotIn := not_isInfix_of_foldl_pass_eq_self ha (fun t ht => (hlater t ht).1)
    (fun t ht => (hlater t ht).2) (beginsWithMark_append hSb _) h
  rw [hEa.isInfix_mark_append_iff hSb, hEa.isInfix_append_mark_iff hEb,
    hEa.isInfix_filling_iff] at hnotIn
  exact fun hin => hnotIn (Or.inr (Or.inl hin))

/-! ### Two tables -/

section Two

variable {a b A B : String} (ha : IsUnbracketed a) (hb : IsUnbracketed b) (hab : a ≠ b)
include ha hb hab

/-- The earlier pass over a later section with its opening marker in the table: what it fills
begins there, and takes the end of the later section. -/
theorem pass_of_filling_eq_append {u v : List Char}
    (hB : filling B = u ++ ((startMarker a).toList ++ v)) (hu : ¬(startMarker a).toList <:+: u)
    (hv : ¬(endMarker a).toList <:+: v) :
    pass ((startMarker b).toList ++ (filling B ++ ((endMarker b).toList ++ (endMarker a).toList)))
        (a, A) =
      (startMarker b).toList ++ (u ++ ((startMarker a).toList ++
        (filling A ++ (endMarker a).toList))) := by
  have hSa := isMark_startMarker ha
  have hEa := isMark_endMarker ha
  have hfront : ¬(startMarker a).toList <:+: (startMarker b).toList ++ u := by
    rw [hSa.isInfix_mark_append_iff (isMark_startMarker hb)]
    exact not_or.2 ⟨startMarker_ne hab, hu⟩
  have hbody : ¬(endMarker a).toList <:+: v ++ (endMarker b).toList := by
    rw [hEa.isInfix_append_mark_iff (isMark_endMarker hb)]
    exact not_or.2 ⟨hv, endMarker_ne hab⟩
  have hsection : pass ((startMarker a).toList ++ (v ++ (endMarker b).toList ++
      (endMarker a).toList)) (a, A) =
      (startMarker a).toList ++ (filling A ++ (endMarker a).toList) := by
    simpa using pass_section_of_not_isInfix ha hbody hSa.not_isInfix_nil
  simp only [hB, List.append_assoc] at hsection ⊢
  rw [← List.append_assoc, pass_append ha hfront (beginsWithMark_append hSa _), hsection,
    List.append_assoc]

/-- The later pass does not give the end back: it finds another one in the table of the earlier
section, behind which the rest of that table stays, or none. -/
theorem pass_ne_of_not_isInfix {u : List Char} (hu : ¬(endMarker b).toList <:+: u) :
    pass ((startMarker b).toList ++ (u ++ ((startMarker a).toList ++
        (filling A ++ (endMarker a).toList)))) (b, B) ≠
      (startMarker b).toList ++ (filling B ++ ((endMarker b).toList ++ (endMarker a).toList)) := by
  intro h
  have hSa := isMark_startMarker ha
  have hEa := isMark_endMarker ha
  have hSb := isMark_startMarker hb
  have hEb := isMark_endMarker hb
  have hne := startMarker_ne_endMarker
  by_cases hA : (endMarker b).toList <:+: filling A
  · obtain ⟨x, y, hA, hx⟩ := exists_of_isInfix hEb.ne_nil hA
    have hbody : ¬(endMarker b).toList <:+: u ++ ((startMarker a).toList ++ x) := by
      rw [hEb.isInfix_append_iff (beginsWithMark_append hSa x), hEb.isInfix_mark_append_iff hSa]
      exact not_or.2 ⟨hu, not_or.2 ⟨(hne a b).symm, hx⟩⟩
    have hsection : pass _ (b, B) = _ := pass_section hb hbody (y ++ (endMarker a).toList)
    simp only [hA, List.append_assoc] at hsection h
    rw [hsection, List.append_cancel_left_eq, List.append_cancel_left_eq,
      List.append_cancel_left_eq] at h
    rcases pass_eq_self_or_isInfix hb B (y ++ (endMarker a).toList) with heq | hin
    · rw [h, List.self_eq_append_left] at heq
      rw [heq, List.append_nil] at hA
      exact hEb.filling_ne_append A x hA
    · rw [h, hSb.isInfix_iff_eq hEa] at hin
      exact hne b a hin
  · have hnotIn : ¬(endMarker b).toList <:+: (startMarker b).toList ++ (u ++
        ((startMarker a).toList ++ (filling A ++ (endMarker a).toList))) := by
      rw [hEb.isInfix_mark_append_iff hSb, hEb.isInfix_append_iff (beginsWithMark_append hSa _),
        hEb.isInfix_mark_append_iff hSa, hEb.isInfix_append_mark_iff hEa, not_or, not_or, not_or,
        not_or]
      exact ⟨(hne b b).symm, hu, (hne a b).symm, hA, (endMarker_ne hab).symm⟩
    rw [pass_of_not_isInfix_endMarker hnotIn] at h
    rw [h, ← List.nil_append ((startMarker b).toList ++ _), hEb.isInfix_section_iff hb] at hnotIn
    exact hnotIn (Or.inr (Or.inr (Or.inr (Or.inl rfl))))

/-- **A table with the opening marker of an earlier section**: in the second run the earlier section
begins in the table, and takes the end of the later one. -/
theorem not_isInfix_startMarker_before (hendA : ¬(endMarker a).toList <:+: B.toList)
    (hendB : ¬(endMarker b).toList <:+: B.toList)
    (h : IsStable [(a, A), (b, B)]
      ((startMarker b).toList ++ ((endMarker b).toList ++ (endMarker a).toList))) :
    ¬(startMarker a).toList <:+: B.toList := by
  intro hin
  have hSa := isMark_startMarker ha
  have hEa := isMark_endMarker ha
  have hSb := isMark_startMarker hb
  have hEb := isMark_endMarker hb
  have hne := startMarker_ne_endMarker
  -- The first run fills the later section, and leaves the end of the earlier one alone.
  have hskip : ¬(startMarker a).toList <:+:
      (startMarker b).toList ++ ((endMarker b).toList ++ (endMarker a).toList) := by
    rw [hSa.isInfix_mark_append_iff hSb, hSa.isInfix_mark_append_iff hEb, hSa.isInfix_iff_eq hEa,
      not_or, not_or]
    exact ⟨startMarker_ne hab, hne a b, hne a a⟩
  have hlone : ¬(startMarker b).toList <:+: (endMarker a).toList := by
    rw [hSb.isInfix_iff_eq hEa]
    exact hne b a
  have hfirst : [(a, A), (b, B)].foldl pass
      ((startMarker b).toList ++ ((endMarker b).toList ++ (endMarker a).toList)) =
      (startMarker b).toList ++ (filling B ++ ((endMarker b).toList ++ (endMarker a).toList)) := by
    rw [List.foldl_cons, pass_of_not_isInfix_startMarker hskip]
    exact pass_section_of_not_isInfix hb hEb.not_isInfix_nil hlone
  -- In the second run the earlier section begins in the table.
  rw [← hSa.isInfix_filling_iff] at hin
  rw [← hEa.isInfix_filling_iff] at hendA
  rw [← hEb.isInfix_filling_iff] at hendB
  obtain ⟨u, v, hB, hu⟩ := exists_of_isInfix hSa.ne_nil hin
  have hv : ¬(endMarker a).toList <:+: v := fun hin => hendA <| by
    rw [hB]
    exact hin.trans ((List.suffix_append _ _).trans (List.suffix_append _ _)).isInfix
  have hu' : ¬(endMarker b).toList <:+: u := fun hin => hendB <| by
    rw [hB]
    exact hin.trans (List.prefix_append _ _).isInfix
  rw [IsStable, hfirst, List.foldl_cons, pass_of_filling_eq_append ha hb hab hB hu hv,
    List.foldl_cons, List.foldl_nil] at h
  exact pass_ne_of_not_isInfix ha hb hab hu' h

/-- The later pass over a section whose table leaves a section of its own open: it is done with the
closed part, and goes on with the open one. -/
theorem pass_filling_of_eq_append {u v : List Char} (hu : IsClosed b u)
    (hA : A.toList = u ++ ((startMarker b).toList ++ v)) (rest : List Char) :
    pass ((startMarker a).toList ++ (filling A ++ rest)) (b, B) =
      (startMarker a).toList ++ (pass ('\n' :: u) (b, B) ++
        pass ((startMarker b).toList ++ (v ++ '\n' :: rest)) (b, B)) := by
  have hbegins := beginsWithMark_append (isMark_startMarker hb) (v ++ '\n' :: rest)
  have hclosed : IsClosed b ('\n' :: u) := hu.cons hb (by decide)
  rw [← pass_append_of_isClosed hb hclosed hbegins, filling, hA,
    pass_mark_append hb (isMark_startMarker ha) (startMarker_ne hab).symm]
  simp

/-- The end of a later section does not form between a table and the end of the earlier one. -/
theorem not_isInfix_append_endMarker {v : List Char} (hv : ¬(endMarker b).toList <:+: v) :
    ¬(endMarker b).toList <:+: v ++ '\n' :: (endMarker a).toList := by
  have hEb := isMark_endMarker hb
  rw [List.append_cons, hEb.isInfix_append_mark_iff (isMark_endMarker ha),
    hEb.isInfix_concat_iff (by decide)]
  exact not_or.2 ⟨hv, (endMarker_ne hab).symm⟩

/-- The first run fills the earlier section, and the open section in its table up to the end of a
later one that stands behind. -/
theorem foldl_pass_of_eq_append {u v : List Char} (hu : IsClosed b u)
    (hA : A.toList = u ++ ((startMarker b).toList ++ v)) (hv : ¬(endMarker b).toList <:+: v) :
    [(a, A), (b, B)].foldl pass ((startMarker a).toList ++
        ((endMarker a).toList ++ ((endMarker b).toList ++ (endMarker a).toList))) =
      (startMarker a).toList ++ (pass ('\n' :: u) (b, B) ++ ((startMarker b).toList ++
        (filling B ++ ((endMarker b).toList ++ (endMarker a).toList)))) := by
  have hSa := isMark_startMarker ha
  have hEa := isMark_endMarker ha
  have hne := startMarker_ne_endMarker
  have hlone : ¬(startMarker a).toList <:+: (endMarker b).toList ++ (endMarker a).toList := by
    rw [hSa.isInfix_mark_append_iff (isMark_endMarker hb), hSa.isInfix_iff_eq hEa]
    exact not_or.2 ⟨hne a b, hne a a⟩
  have hlater : ¬(startMarker b).toList <:+: (endMarker a).toList := by
    rw [(isMark_startMarker hb).isInfix_iff_eq hEa]
    exact hne b a
  have hearlier : pass _ (a, A) = _ := pass_section_of_not_isInfix ha hEa.not_isInfix_nil hlone
  have hsection : pass _ (b, B) = _ :=
    pass_section_of_not_isInfix hb (not_isInfix_append_endMarker ha hb hab hv) hlater
  rw [List.nil_append] at hearlier
  rw [List.foldl_cons, hearlier, List.foldl_cons, List.foldl_nil,
    pass_filling_of_eq_append ha hb hab hu hA, ← hsection]
  simp

/-- The second run fills the earlier section up to its end, so the open one has none behind it. -/
theorem foldl_pass_of_filled {u v : List Char} (hu : IsClosed b u)
    (hA : A.toList = u ++ ((startMarker b).toList ++ v)) (hv : ¬(endMarker b).toList <:+: v)
    (hends : ¬(endMarker a).toList <:+: u) (hendB : ¬(endMarker a).toList <:+: B.toList) :
    [(a, A), (b, B)].foldl pass ((startMarker a).toList ++ (pass ('\n' :: u) (b, B) ++
        ((startMarker b).toList ++ (filling B ++ ((endMarker b).toList ++
          (endMarker a).toList))))) =
      (startMarker a).toList ++ (pass ('\n' :: u) (b, B) ++ ((startMarker b).toList ++ (v ++
        '\n' :: (endMarker a).toList))) := by
  have hSb := isMark_startMarker hb
  have hEa := isMark_endMarker ha
  have hEb := isMark_endMarker hb
  have hne := startMarker_ne_endMarker
  have hfront : ¬(endMarker a).toList <:+: '\n' :: u := by
    rwa [hEa.isInfix_cons_iff (by decide)]
  have hfilled : ¬(endMarker a).toList <:+: pass ('\n' :: u) (b, B) ++ ((startMarker b).toList ++
      (filling B ++ (endMarker b).toList)) := by
    rw [hEa.isInfix_append_iff (beginsWithMark_append hSb _), hEa.isInfix_mark_append_iff hSb,
      hEa.isInfix_append_mark_iff hEb, hEa.isInfix_filling_iff, not_or, not_or, not_or]
    exact ⟨hEa.not_isInfix_pass hb hfront hendB, (hne b a).symm, hendB, endMarker_ne hab⟩
  have hearlier : pass _ (a, A) = _ :=
    pass_section_of_not_isInfix ha hfilled (isMark_startMarker ha).not_isInfix_nil
  have hopen : ¬(endMarker b).toList <:+:
      (startMarker b).toList ++ (v ++ '\n' :: (endMarker a).toList) := by
    rw [hEb.isInfix_mark_append_iff hSb]
    exact not_or.2 ⟨(hne b b).symm, not_isInfix_append_endMarker ha hb hab hv⟩
  simp only [List.append_assoc, List.append_nil] at hearlier
  rw [List.foldl_cons, hearlier, List.foldl_cons, List.foldl_nil,
    pass_filling_of_eq_append ha hb hab hu hA, pass_of_not_isInfix_endMarker hopen]

/-- **A table that leaves a section of a later name open**: the section takes the end of the
earlier one the first time, and finds none the second time. -/
theorem isClosed_of_before (hends : ¬(endMarker a).toList <:+: A.toList)
    (hendB : ¬(endMarker a).toList <:+: B.toList)
    (h : IsStable [(a, A), (b, B)] ((startMarker a).toList ++
      ((endMarker a).toList ++ ((endMarker b).toList ++ (endMarker a).toList)))) :
    IsClosed b A.toList := by
  by_contra hopen
  obtain ⟨u, v, hA, hu, hv⟩ := exists_of_not_isClosed hb hopen
  have hends' : ¬(endMarker a).toList <:+: u := fun hin => hends <| by
    rw [hA]
    exact hin.trans (List.prefix_append _ _).isInfix
  rw [IsStable, foldl_pass_of_eq_append ha hb hab hu hA hv,
    foldl_pass_of_filled ha hb hab hu hA hv hends' hendB, List.append_cancel_left_eq,
    List.append_cancel_left_eq, List.append_cancel_left_eq, List.append_cons,
    ← List.append_assoc, List.append_cancel_right_eq] at h
  -- What the second run leaves in the open section is no longer the table of the later one.
  have hin : (endMarker b).toList <:+: v ++ ['\n'] := h ▸ (List.suffix_append _ _).isInfix
  exact hv (((isMark_endMarker hb).isInfix_concat_iff (by decide)).1 hin)

/-- **What two tables ask of each other**, if their run is stable on all documents without a certain
foreign mark: the later one has none of the markers but its own opening one, and the earlier one
closes the sections of the later one. -/
theorem exclusions_of_isStable {mark : List Char} (hmark : IsMark mark)
    (hforeign : ∀ name ∈ [a, b],
      mark ≠ (startMarker name).toList ∧ mark ≠ (endMarker name).toList)
    (h : ∀ s, ¬mark <:+: s → IsStable [(a, A), (b, B)] s) :
    IsFilling [a, b] b B.toList ∧ (¬(endMarker a).toList <:+: A.toList → IsClosed b A.toList) := by
  have hSa := isMark_startMarker ha
  have hEa := isMark_endMarker ha
  have hSb := isMark_startMarker hb
  have hEb := isMark_endMarker hb
  obtain ⟨⟨hmSa, hmEa⟩, hforeign⟩ := List.forall_mem_cons.1 hforeign
  obtain ⟨hmSb, hmEb⟩ := List.forall_mem_singleton.1 hforeign
  have hendA : ¬(endMarker a).toList <:+: B.toList := by
    refine not_isInfix_endMarker_before ha hb hab (List.forall_mem_nil _) (h _ ?_)
    rw [hmark.isInfix_mark_append_iff hSa, hmark.isInfix_mark_append_iff hSb,
      hmark.isInfix_iff_eq hEb]
    exact not_or.2 ⟨hmSa, not_or.2 ⟨hmSb, hmEb⟩⟩
  have hendB : ¬(endMarker b).toList <:+: B.toList := by
    -- The earlier table is quiet in a section of the later one.
    have hskip : ¬(endMarker a).toList <:+: (startMarker b).toList ++ (endMarker b).toList := by
      rw [hEa.isInfix_mark_append_iff hSb, hEa.isInfix_iff_eq hEb]
      exact not_or.2 ⟨(startMarker_ne_endMarker b a).symm, endMarker_ne hab⟩
    have hstable : IsStable [(a, A), (b, B)]
        ((startMarker b).toList ++ (endMarker b).toList) := h _ <| by
      rw [hmark.isInfix_mark_append_iff hSb, hmark.isInfix_iff_eq hEb]
      exact not_or.2 ⟨hmSb, hmEb⟩
    simp only [IsStable, List.foldl_cons, List.foldl_nil, pass_of_not_isInfix_endMarker hskip,
      pass_of_not_isInfix_endMarker (hEa.not_isInfix_pass hb hskip hendA)] at hstable
    exact not_isInfix_endMarker_self hb hstable
  have hstartA : ¬(startMarker a).toList <:+: B.toList := by
    refine not_isInfix_startMarker_before ha hb hab hendA hendB (h _ ?_)
    rw [hmark.isInfix_mark_append_iff hSb, hmark.isInfix_mark_append_iff hEb,
      hmark.isInfix_iff_eq hEa]
    exact not_or.2 ⟨hmSb, not_or.2 ⟨hmEb, hmEa⟩⟩
  refine ⟨?_, fun hends => isClosed_of_before ha hb hab hends hendA (h _ ?_)⟩
  · rw [IsFilling, List.forall_mem_cons, List.forall_mem_singleton]
    exact ⟨⟨fun _ => hstartA, hendA⟩, fun hne => absurd rfl hne, hendB⟩
  · rw [hmark.isInfix_mark_append_iff hSa, hmark.isInfix_mark_append_iff hEa,
      hmark.isInfix_mark_append_iff hEb, hmark.isInfix_iff_eq hEa]
    exact not_or.2 ⟨hmSa, not_or.2 ⟨hmEa, not_or.2 ⟨hmEb, hmEa⟩⟩⟩

end Two

end FirmwareReport
