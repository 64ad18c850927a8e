import FirmwareReport.Proofs.Report.Pass

/-!
# Sections inside tables

A table may bring in sections of a name that has its pass later. If the name has its pass last and
the tables close its sections, a second run still changes nothing
(`FirmwareReport.foldl_pass_foldl_pass_of_isClosed`).

The last pass is not a pass over the outline for the other names, since its sections may begin or
end inside of theirs. But it leaves an outline behind: the tables get their own pass, some pieces
are swallowed, and a section that loses its opening is a closing marker from then on
(`FirmwareReport.exists_leavesOutline`). Nothing of this unsettles a name
(`FirmwareReport.Outline.Follows`). So the second run puts the tables back as they were, and the
last pass comes upon them again.
-/

namespace FirmwareReport

open Text

variable {names : List String} {fillings : String → List Char}

/-! ### Outlines with fewer sections -/

namespace Outline

variable {name : String} {piece : Piece} {gap gap' : List Char} {outline rest : Outline}

theorem behindEnd?_cons_eq_none_iff : behindEnd? name ((piece, gap) :: outline) = none ↔
    (piece ≠ .closing name ∧ piece ≠ .filled name) ∧ behindEnd? name outline = none := by
  rw [behindEnd?_eq_none_iff, behindEnd?_eq_none_iff, List.forall_mem_cons]

theorem settled_cons_iff : Settled name ((piece, gap) :: outline) ↔
    (piece = .opening name → behindEnd? name outline = none) ∧ Settled name outline := by
  rw [Settled, List.pairwise_cons, behindEnd?_eq_none_iff]
  refine and_congr_left fun _ => ⟨fun h heq later hlater => h later hlater heq, ?_⟩
  exact fun h later hlater heq => h heq later hlater

/-- **An outline follows another one** if it is settled for every name that the other one is
settled for, and has no end of a section that the other one does not have. -/
structure Follows (rest outline : Outline) : Prop where
  settled : ∀ {name}, Settled name outline → Settled name rest
  behindEnd? : ∀ {name}, behindEnd? name outline = none → behindEnd? name rest = none

namespace Follows

theorem refl (outline : Outline) : Follows outline outline := ⟨id, id⟩

theorem trans {behind : Outline} (h : Follows behind rest) (h' : Follows rest outline) :
    Follows behind outline := ⟨h.settled ∘ h'.settled, h.behindEnd? ∘ h'.behindEnd?⟩

theorem tail : Follows outline ((piece, gap) :: outline) :=
  ⟨fun h => (settled_cons_iff.1 h).2, fun h => (behindEnd?_cons_eq_none_iff.1 h).2⟩

theorem cons (h : Follows rest outline) :
    Follows ((piece, gap') :: rest) ((piece, gap) :: outline) := by
  constructor
  · intro name hsettled
    obtain ⟨hpiece, houtline⟩ := settled_cons_iff.1 hsettled
    exact settled_cons_iff.2 ⟨fun heq => h.behindEnd? (hpiece heq), h.settled houtline⟩
  · intro name hnone
    obtain ⟨hpiece, houtline⟩ := behindEnd?_cons_eq_none_iff.1 hnone
    exact behindEnd?_cons_eq_none_iff.2 ⟨hpiece, h.behindEnd? houtline⟩

/-- A section may lose its opening marker. -/
theorem closing {name : String} :
    Follows ((.closing name, gap) :: outline) ((.filled name, gap) :: outline) := by
  constructor
  · intro other hsettled
    exact settled_cons_iff.2 ⟨by simp, (settled_cons_iff.1 hsettled).2⟩
  · intro other hnone
    obtain ⟨⟨-, hfilled⟩, houtline⟩ := behindEnd?_cons_eq_none_iff.1 hnone
    refine behindEnd?_cons_eq_none_iff.2 ⟨⟨fun heq => hfilled ?_, by simp⟩, houtline⟩
    cases heq
    rfl

end Follows

theorem isInfix_text_of_mem {name : String} (h : (.filled name, gap) ∈ outline) :
    fillings name <:+: text fillings outline := by
  have hpiece : fillings name <:+: (Piece.filled name).text fillings ++ gap := by
    rw [Piece.text, List.append_assoc, List.append_assoc]
    exact (List.prefix_append _ _).isInfix.trans (List.suffix_append _ _).isInfix
  exact hpiece.trans (List.infix_of_mem_flatten (List.mem_map_of_mem h))

end Outline

theorem Piece.text_ne_nil (piece : Piece) (fillings : String → List Char) :
    piece.text fillings ≠ [] := by
  cases piece <;> simp [Piece.text, startMarker, endMarker]

theorem IsPlain.of_isPrefix {s t : List Char} (h : IsPlain names s) (hpre : t <+: s) :
    IsPlain names t := fun name hname =>
  ⟨fun hin => (h name hname).1 (hin.trans hpre.isInfix),
    fun hin => (h name hname).2 (hin.trans hpre.isInfix)⟩

/-! ### Marks in an outline -/

/-- A mark does not form behind a piece. -/
theorem IsMark.isInfix_text_append_iff {mark : List Char} (h : IsMark mark) {piece : Piece}
    (hpiece : IsUnbracketed piece.name) {rest : List Char} :
    mark <:+: piece.text fillings ++ rest ↔ mark <:+: piece.text fillings ∨ mark <:+: rest := by
  cases piece with
  | opening name =>
    have hstart : IsMark (startMarker name).toList := isMark_startMarker hpiece
    rw [Piece.text, h.isInfix_mark_append_iff hstart, h.isInfix_iff_eq hstart]
  | closing name =>
    have hend : IsMark (endMarker name).toList := isMark_endMarker hpiece
    rw [Piece.text, h.isInfix_mark_append_iff hend, h.isInfix_iff_eq hend]
  | filled name =>
    have hstart : IsMark (startMarker name).toList := isMark_startMarker hpiece
    have hend : IsMark (endMarker name).toList := isMark_endMarker hpiece
    simp only [Piece.text, List.append_assoc]
    rw [h.isInfix_mark_append_iff hstart, h.isInfix_append_iff (beginsWithMark_append hend rest),
      h.isInfix_mark_append_iff hend, h.isInfix_mark_append_iff hstart,
      h.isInfix_append_mark_iff hend, or_assoc, or_assoc]

/-- A mark that a piece is not made of can only stand in what it is filled with. -/
theorem IsMark.exists_filled_of_isInfix {mark : List Char} (h : IsMark mark) {piece : Piece}
    (hpiece : IsUnbracketed piece.name) (hmark : mark ∉ piece.markers)
    (hin : mark <:+: piece.text fillings) :
    ∃ name, piece = .filled name ∧ mark <:+: fillings name := by
  by_contra hnot
  have hpasses := h.passes_text hpiece (fun name heq hin => hnot ⟨name, heq, hin⟩) hmark []
  have hnil : ¬mark <:+: [] := by simpa using h.ne_nil
  rw [Passes, List.append_nil, cut?_eq_none_iff.2 hnil, Option.map_none,
    cut?_eq_none_iff] at hpasses
  exact hpasses hin

/-- **What a last pass leaves behind** of an outline and the text in front of it: an outline again,
in which every table has had the pass by itself. If the tables are put back as they were, the same
pass makes the same of it. -/
structure LeavesOutline (names : List String) (fillings : String → List Char)
    (table : String × String) (lead : List Char) (outline : Outline) (lead' : List Char)
    (rest : Outline) : Prop where
  isPlain : IsPlain names lead'
  isProper : Outline.IsProper names rest
  follows : rest.Follows outline
  pass_eq : pass (lead ++ Outline.text fillings outline) table =
    lead' ++ Outline.text (fun name => pass (fillings name) table) rest
  pass_again : pass (lead' ++ Outline.text fillings rest) table =
    pass (lead ++ Outline.text fillings outline) table

section Last

variable {last : String} (hlast : IsUnbracketed last) (hnotMem : last ∉ names)
  (hnames : ∀ name ∈ names, IsUnbracketed name)
  (hplain : ∀ name ∈ names, IsPlain names (fillings name))
include hlast hnotMem hnames hplain

omit hplain in
/-- A section of another name is plain if its parts are. -/
theorem isPlain_section {before body after : List Char} (hbefore : IsPlain names before)
    (hbody : IsPlain names body) (hafter : IsPlain names after) :
    IsPlain names (before ++ ((startMarker last).toList ++ (body ++
      ((endMarker last).toList ++ after)))) := by
  intro name hname
  have hne : name ≠ last := fun heq => hnotMem (heq ▸ hname)
  rw [(isMark_startMarker (hnames name hname)).isInfix_section_iff hlast,
    (isMark_endMarker (hnames name hname)).isInfix_section_iff hlast]
  have hstart := startMarker_ne hne
  have hend := endMarker_ne hne
  have hstart' := startMarker_ne_endMarker name last
  have hend' := (startMarker_ne_endMarker last name).symm
  obtain ⟨hbefore, hbefore'⟩ := hbefore name hname
  obtain ⟨hbody, hbody'⟩ := hbody name hname
  obtain ⟨hafter, hafter'⟩ := hafter name hname
  tauto

/-- **Behind an end that stands in an outline** there is an outline again: the end stands in plain
text, or in a table whose section loses its opening by that. -/
theorem exists_outline_behind {gap : List Char} (hgap : IsPlain names gap) {outline : Outline}
    (hproper : Outline.IsProper names outline)
    (hin : (endMarker last).toList <:+: gap ++ Outline.text fillings outline) :
    ∃ (before gap' : List Char) (rest : Outline),
      gap ++ Outline.text fillings outline =
        before ++ ((endMarker last).toList ++ (gap' ++ Outline.text fillings rest)) ∧
      ¬(endMarker last).toList <:+: before ∧ IsPlain names gap' ∧
      Outline.IsProper names rest ∧ rest.Follows outline := by
  have hmark := isMark_endMarker hlast
  induction outline generalizing gap with
  | nil =>
    rw [Outline.text_nil, List.append_nil] at hin
    obtain ⟨before, gap', rfl, hbefore⟩ := exists_of_isInfix hmark.ne_nil hin
    refine ⟨before, gap', [], by simp, hbefore, hgap.of_isSuffix ?_, hproper, .refl _⟩
    exact (List.suffix_append _ _).trans (List.suffix_append _ _)
  | cons entry outline ih =>
    obtain ⟨piece, gap₂⟩ := entry
    obtain ⟨hpiece, hgap₂⟩ := hproper _ List.mem_cons_self
    have hunbracketed := hnames _ hpiece
    -- The end may stand in front of the piece, in the table of the piece, or further on.
    by_cases hingap : (endMarker last).toList <:+: gap
    · obtain ⟨before, gap', rfl, hbefore⟩ := exists_of_isInfix hmark.ne_nil hingap
      refine ⟨before, gap', _, by simp, hbefore, hgap.of_isSuffix ?_, hproper, .refl _⟩
      exact (List.suffix_append _ _).trans (List.suffix_append _ _)
    have hbegins : BeginsWithMark (piece.text fillings ++
        (gap₂ ++ Outline.text fillings outline)) := beginsWithMark_text hunbracketed _
    rw [Outline.text_cons, hmark.isInfix_append_iff hbegins, or_iff_right hingap,
      hmark.isInfix_text_append_iff hunbracketed] at hin
    by_cases hinpiece : (endMarker last).toList <:+: piece.text fillings
    · have hmarkers : (endMarker last).toList ∉ piece.markers := by
        refine endMarker_notMem_markers ?_ ?_ <;> rintro rfl <;> exact hnotMem hpiece
      obtain ⟨name, rfl, hname⟩ := hmark.exists_filled_of_isInfix hunbracketed hmarkers hinpiece
      obtain ⟨body, behind, hbody, hnotIn⟩ := exists_of_isInfix hmark.ne_nil hname
      refine ⟨gap ++ ((startMarker name).toList ++ body), behind, (.closing name, gap₂) :: outline,
        by simp [Piece.text, hbody], ?_, (hplain name hpiece).of_isSuffix ?_, ?_, .closing⟩
      · have hstart : IsMark (startMarker name).toList := isMark_startMarker hunbracketed
        have hne := (startMarker_ne_endMarker name last).symm
        rw [hmark.isInfix_append_iff (beginsWithMark_append hstart body),
          hmark.isInfix_mark_append_iff hstart]
        tauto
      · rw [hbody]
        exact (List.suffix_append _ _).trans (List.suffix_append _ _)
      · exact List.forall_mem_cons.2 ⟨⟨hpiece, hgap₂⟩, hproper.of_cons⟩
    · obtain ⟨before, gap', rest, heq, hbefore, hgap', hrest, hfollows⟩ :=
        ih hgap₂ hproper.of_cons (hin.resolve_left hinpiece)
      refine ⟨gap ++ (piece.text fillings ++ before), gap', rest, by simp [heq], ?_, hgap', hrest,
        hfollows.trans .tail⟩
      rw [hmark.isInfix_append_iff (beginsWithMark_text hunbracketed before),
        hmark.isInfix_text_append_iff hunbracketed]
      tauto

variable (hclosed : ∀ name ∈ names, IsClosed last (fillings name)) {table : String}
include hclosed

omit hplain in
/-- A pass for another name over a piece: a section has the pass inside of its table. -/
theorem pass_text_append {piece : Piece} (hpiece : piece.name ∈ names) (rest : List Char) :
    pass (piece.text fillings ++ rest) (last, table) =
      piece.text (fun name => pass (fillings name) (last, table)) ++ pass rest (last, table) := by
  have hunbracketed := hnames _ hpiece
  have hne : ∀ name ∈ names, (startMarker last).toList ≠ (startMarker name).toList :=
    fun name hname => startMarker_ne fun heq => hnotMem (heq ▸ hname)
  have hne' := fun name => startMarker_ne_endMarker last name
  cases piece with
  | opening name =>
    exact pass_mark_append hlast (isMark_startMarker hunbracketed) (hne name hpiece) rest
  | closing name => exact pass_mark_append hlast (isMark_endMarker hunbracketed) (hne' name) rest
  | filled name =>
    have hstart : IsMark (startMarker name).toList := isMark_startMarker hunbracketed
    have hend : IsMark (endMarker name).toList := isMark_endMarker hunbracketed
    simp only [Piece.text, List.append_assoc]
    rw [pass_mark_append hlast hstart (hne name hpiece),
      pass_append_of_isClosed hlast (hclosed name hpiece) (beginsWithMark_append hend rest),
      pass_mark_append hlast hend (hne' name)]

namespace LeavesOutline

variable {lead gap gap' : List Char} {outline rest : Outline}

omit hnames hnotMem hplain hclosed hlast in
/-- Plain text without a section stays as it is. -/
theorem nil (hlead : IsPlain names lead) (hin : ¬(startMarker last).toList <:+: lead) :
    LeavesOutline names fillings (last, table) lead [] lead [] where
  isPlain := hlead
  isProper := List.forall_mem_nil _
  follows := .refl _
  pass_eq := by simpa using pass_of_not_isInfix_startMarker hin
  pass_again := rfl

omit hplain in
/-- The pass goes over a piece of another name. -/
theorem cons {piece : Piece} (hpiece : piece.name ∈ names) (hlead : IsPlain names lead)
    (hin : ¬(startMarker last).toList <:+: lead)
    (h : LeavesOutline names fillings (last, table) gap outline gap' rest) :
    LeavesOutline names fillings (last, table) lead ((piece, gap) :: outline) lead
      ((piece, gap') :: rest) where
  isPlain := hlead
  isProper := List.forall_mem_cons.2 ⟨⟨hpiece, h.isPlain⟩, h.isProper⟩
  follows := h.follows.cons
  pass_eq := by
    have hbegins : ∀ t, BeginsWithMark (piece.text fillings ++ t) :=
      beginsWithMark_text (hnames _ hpiece)
    rw [Outline.text_cons, Outline.text_cons, pass_append hlast hin (hbegins _),
      pass_text_append hlast hnotMem hnames hclosed hpiece, h.pass_eq]
  pass_again := by
    have hbegins : ∀ t, BeginsWithMark (piece.text fillings ++ t) :=
      beginsWithMark_text (hnames _ hpiece)
    rw [Outline.text_cons, Outline.text_cons, pass_append hlast hin (hbegins _),
      pass_append hlast hin (hbegins _), pass_text_append hlast hnotMem hnames hclosed hpiece,
      pass_text_append hlast hnotMem hnames hclosed hpiece, h.pass_again]

omit hplain hclosed in
/-- The pass fills a section of its own, and goes on behind the end of it. -/
theorem filled {before behind body : List Char} {outline' : Outline}
    (htable : IsPlain names table.toList) (hend : ¬(endMarker last).toList <:+: table.toList)
    (hlead : IsPlain names (before ++ ((startMarker last).toList ++ behind)))
    (hbefore : ¬(startMarker last).toList <:+: before)
    (hbody : ¬(endMarker last).toList <:+: body)
    (heq : behind ++ Outline.text fillings outline =
      body ++ ((endMarker last).toList ++ (gap ++ Outline.text fillings outline')))
    (hfollows : outline'.Follows outline)
    (h : LeavesOutline names fillings (last, table) gap outline' gap' rest) :
    LeavesOutline names fillings (last, table) (before ++ ((startMarker last).toList ++ behind))
      outline (before ++ ((startMarker last).toList ++ (filling table ++
        ((endMarker last).toList ++ gap')))) rest where
  isPlain := isPlain_section hlast hnotMem hnames (hlead.of_isPrefix (List.prefix_append _ _))
    (htable.filling hnames) h.isPlain
  isProper := h.isProper
  follows := h.follows.trans hfollows
  pass_eq := by
    have hbegins := fun t => beginsWithMark_append (isMark_startMarker hlast) t
    simp only [List.append_assoc]
    rw [heq, pass_append hlast hbefore (hbegins _), pass_section hlast hbody, h.pass_eq]
  pass_again := by
    have hbegins := fun t => beginsWithMark_append (isMark_startMarker hlast) t
    have hfilling : ¬(endMarker last).toList <:+: filling table := by
      rwa [(isMark_endMarker hlast).isInfix_filling_iff]
    simp only [List.append_assoc]
    rw [heq, pass_append hlast hbefore (hbegins _), pass_append hlast hbefore (hbegins _),
      pass_section hlast hbody, pass_section hlast hfilling, h.pass_again]

omit hnames hnotMem hplain hclosed in
/-- A section that does not end stops the pass. No table has an end of the last name then, so the
pass does nothing to the tables either. -/
theorem unclosed {before behind : List Char}
    (hlead : IsPlain names (before ++ ((startMarker last).toList ++ behind)))
    (hproper : Outline.IsProper names outline) (hbefore : ¬(startMarker last).toList <:+: before)
    (hend : ¬(endMarker last).toList <:+: behind ++ Outline.text fillings outline) :
    LeavesOutline names fillings (last, table) (before ++ ((startMarker last).toList ++ behind))
      outline (before ++ ((startMarker last).toList ++ behind)) outline where
  isPlain := hlead
  isProper := hproper
  follows := .refl _
  pass_eq := by
    have hstart := isMark_startMarker hlast
    have hnotIn : ¬(endMarker last).toList <:+:
        (startMarker last).toList ++ (behind ++ Outline.text fillings outline) := by
      rw [(isMark_endMarker hlast).isInfix_mark_append_iff hstart]
      exact not_or.2 ⟨(startMarker_ne_endMarker last last).symm, hend⟩
    have htables : Outline.text (fun name => pass (fillings name) (last, table)) outline =
        Outline.text fillings outline := by
      refine Outline.text_congr fun entry hentry name hfilled => ?_
      obtain ⟨piece, gap⟩ := entry
      obtain rfl : piece = .filled name := hfilled
      refine pass_of_not_isInfix_endMarker fun h => hend ?_
      have hin := h.trans (Outline.isInfix_text_of_mem hentry)
      exact hin.trans (List.suffix_append _ _).isInfix
    simp only [List.append_assoc]
    rw [htables, pass_append hlast hbefore (beginsWithMark_append hstart _),
      pass_of_not_isInfix_endMarker hnotIn]
  pass_again := rfl

end LeavesOutline

/-- **A last pass leaves an outline behind.** -/
theorem exists_leavesOutline (htable : IsPlain names table.toList)
    (hend : ¬(endMarker last).toList <:+: table.toList) {lead : List Char}
    (hlead : IsPlain names lead) {outline : Outline} (hproper : Outline.IsProper names outline) :
    ∃ lead' rest, LeavesOutline names fillings (last, table) lead outline lead' rest := by
  -- Along the length of the document: behind a section stands what is left of the outline.
  induction hn : (lead ++ Outline.text fillings outline).length using Nat.strongRecOn
    generalizing lead outline with
  | ind n ih =>
    subst hn
    by_cases hin : (startMarker last).toList <:+: lead
    · obtain ⟨before, behind, rfl, hbefore⟩ :=
        exists_of_isInfix (isMark_startMarker hlast).ne_nil hin
      by_cases hclosing : (endMarker last).toList <:+: behind ++ Outline.text fillings outline
      · have hbehind : IsPlain names behind := hlead.of_isSuffix
          ((List.suffix_append _ _).trans (List.suffix_append _ _))
        obtain ⟨body, gap, outline', heq, hbody, hgap, hproper', hfollows⟩ :=
          exists_outline_behind hlast hnotMem hnames hplain hbehind hproper hclosing
        have hlength : (gap ++ Outline.text fillings outline').length <
            (before ++ ((startMarker last).toList ++ behind) ++
              Outline.text fillings outline).length := by
          have hlength := congrArg List.length heq
          have hpos := length_startMarker_pos last
          simp only [List.length_append] at hlength ⊢
          omega
        obtain ⟨gap', rest, h⟩ := ih _ hlength hgap hproper' rfl
        exact ⟨_, _, .filled hlast hnotMem hnames htable hend hlead hbefore hbody heq hfollows h⟩
      · exact ⟨_, _, .unclosed hlast hlead hproper hbefore hclosing⟩
    · cases outline with
      | nil => exact ⟨_, _, .nil hlead hin⟩
      | cons entry outline =>
        obtain ⟨piece, gap⟩ := entry
        obtain ⟨hpiece, hgap⟩ := hproper _ List.mem_cons_self
        have hlength : (gap ++ Outline.text fillings outline).length <
            (lead ++ Outline.text fillings ((piece, gap) :: outline)).length := by
          have hpos := List.length_pos_iff.2 (Piece.text_ne_nil piece fillings)
          rw [Outline.text_cons]
          simp only [List.length_append]
          omega
        obtain ⟨gap', rest, h⟩ := ih _ hlength hgap hproper.of_cons rfl
        exact ⟨_, _, .cons hlast hnotMem hnames hclosed hpiece hlead hin h⟩

end Last

/-! ### The second run -/

theorem forall_fillingsWith {P : List Char → Prop} {tables : List (String × String)}
    (hfillings : ∀ name, P (fillings name)) (htables : ∀ t ∈ tables, P (filling t.2))
    (name : String) : P (fillingsWith fillings tables name) := by
  induction tables generalizing fillings with
  | nil => exact hfillings name
  | cons t tables ih =>
    obtain ⟨ht, htables⟩ := List.forall_mem_cons.1 htables
    refine ih (fun other => ?_) htables
    rcases eq_or_ne other t.1 with rfl | hne
    · rwa [Function.update_self]
    · rw [Function.update_of_ne hne]
      exact hfillings other

/-- **Tables may close sections of a name that comes last**: with markers of that name, but of no
other, a second run changes nothing. -/
theorem foldl_pass_foldl_pass_of_isClosed {tables : List (String × String)} {last table : String}
    (hnames : ∀ name ∈ names, IsUnbracketed name) (hlast : IsUnbracketed last)
    (hnotMem : last ∉ names) (htables : tables.map Prod.fst = names)
    (hplain : ∀ t ∈ tables, IsPlain names t.2.toList)
    (hclosed : ∀ t ∈ tables, IsClosed last t.2.toList)
    (htable : IsPlain names table.toList) (hend : ¬(endMarker last).toList <:+: table.toList)
    (s : List Char) :
    (tables ++ [(last, table)]).foldl pass ((tables ++ [(last, table)]).foldl pass s) =
      (tables ++ [(last, table)]).foldl pass s := by
  obtain ⟨lead, outline, hlead, hproper, htext⟩ := exists_outline names s
  have hmem : ∀ name ∈ tables.map Prod.fst, name ∈ names := by simp [htables]
  have hfill : ∀ t ∈ tables, IsFilling names t.1 t.2.toList :=
    fun t ht => (hplain t ht).isFilling t.1
  have hempty : IsPlain names [] := isPlain_nil names
  have hstart := (isMark_startMarker hlast).ne_nil
  -- The tables, as they stand in the sections of the other names before the last pass.
  have hfillings : ∀ name, IsPlain names (fillingsWith (fun _ => []) tables name) :=
    forall_fillingsWith (fun _ => hempty) fun t ht => (hplain t ht).filling hnames
  have hclosings : ∀ name, IsClosed last (fillingsWith (fun _ => []) tables name) :=
    forall_fillingsWith (fun _ => isClosed_of_not_isInfix (by simpa using hstart))
      fun t ht => (hclosed t ht).filling hlast
  obtain ⟨lead', rest, hlead', hrest, hfollows, hpass, hagain⟩ :=
    exists_leavesOutline hlast hnotMem hnames (fun name _ => hfillings name)
      (fun name _ => hclosings name) htable hend hlead (hproper.passes hmem)
  have hfirst : tables.foldl pass s = _ := htext (fun _ => []) ▸
    foldl_pass_text hnames hmem hfill (fun name _ => hempty.isFilling name) hlead hproper
  have hpassed : ∀ name ∈ names, IsFilling names name
      (pass (fillingsWith (fun _ => []) tables name) (last, table)) := by
    intro name hname
    refine IsPlain.isFilling (fun other hother => ?_) name
    obtain ⟨hstart, hend⟩ := hfillings name other hother
    obtain ⟨hstart', hend'⟩ := htable other hother
    exact ⟨(isMark_startMarker (hnames other hother)).not_isInfix_pass hlast hstart hstart',
      (isMark_endMarker (hnames other hother)).not_isInfix_pass hlast hend hend'⟩
  -- The second run finds nothing to do in the outline but to put the tables back.
  have hsettled : Outline.passes (tables.map Prod.fst) rest = rest :=
    Outline.passes_eq_self_of_settled fun name hname =>
      hfollows.settled (Outline.settled_passes hname outline)
  have hagain' : Outline.text (fillingsWith (fun name =>
      pass (fillingsWith (fun _ => []) tables name) (last, table)) tables) rest =
        Outline.text (fillingsWith (fun _ => []) tables) rest := by
    refine Outline.text_congr fun entry hentry name hname => fillingsWith_congr (Or.inr ?_)
    obtain ⟨hmem, -⟩ := hrest entry hentry
    rwa [hname, Piece.name, ← htables] at hmem
  simp only [List.foldl_append, List.foldl_cons, List.foldl_nil]
  rw [hfirst, hpass, foldl_pass_text hnames hmem hfill hpassed hlead' hrest, hsettled, hagain',
    hagain, hpass]

end FirmwareReport
