import Mathlib.Data.List.Nodup
import FirmwareReport.Proofs.Report.Outline

/-!
# Regenerating the sections twice

A pass over a document is a pass over its outline (`FirmwareReport.refill_text`): the search for
the markers of a name passes over all plain texts, the markers of other names and the sections
filled with tables without markers, and comes to a stop at the pieces of that name only.

Tables without markers can therefore be exchanged. One run over all names settles the outline,
and a second run, over the same names with tables of its own, changes nothing but the fillings
(`FirmwareReport.foldl_pass_foldl_pass`). So a document that was regenerated before is
regenerated like the document it was made of (`FirmwareReport.substitute_substitute`).
-/

namespace FirmwareReport

open Text

variable {names : List String} {name : String} {fillings : String → List Char}

/-! ### A search through an outline -/

/-- The markers that a piece is made of, whatever its section holds. -/
def Piece.markers : Piece → List (List Char)
  | .opening name => [(startMarker name).toList]
  | .closing name => [(endMarker name).toList]
  | .filled name => [(startMarker name).toList, (endMarker name).toList]

theorem startMarker_notMem_markers {piece : Piece} (hopening : piece ≠ .opening name)
    (hfilled : piece ≠ .filled name) : (startMarker name).toList ∉ piece.markers := by
  cases piece with
  | opening other => simpa [Piece.markers] using startMarker_ne fun h => hopening (by rw [h])
  | closing other => simpa [Piece.markers] using startMarker_ne_endMarker name other
  | filled other =>
    have hne := startMarker_ne fun h : name = other => hfilled (by rw [h])
    simpa [Piece.markers, startMarker_ne_endMarker] using hne

theorem endMarker_notMem_markers {piece : Piece} (hclosing : piece ≠ .closing name)
    (hfilled : piece ≠ .filled name) : (endMarker name).toList ∉ piece.markers := by
  cases piece with
  | opening other => simpa [Piece.markers] using (startMarker_ne_endMarker other name).symm
  | closing other => simpa [Piece.markers] using endMarker_ne fun h => hclosing (by rw [h])
  | filled other =>
    have hne := endMarker_ne fun h : name = other => hfilled (by rw [h])
    simpa [Piece.markers, (startMarker_ne_endMarker other name).symm] using hne

/-- A search for a mark passes over a piece that is not made of it. -/
theorem IsMark.passes_text {mark : List Char} (h : IsMark mark) {piece : Piece}
    (hpiece : IsUnbracketed piece.name)
    (hfill : ∀ name, piece = .filled name → ¬mark <:+: fillings name)
    (hmark : mark ∉ piece.markers) (rest : List Char) :
    Passes mark (piece.text fillings) rest := by
  cases piece with
  | opening name =>
    have hne : mark ≠ (startMarker name).toList := by simpa [Piece.markers] using hmark
    exact h.passes_of_ne (isMark_startMarker hpiece) hne rest
  | closing name =>
    have hne : mark ≠ (endMarker name).toList := by simpa [Piece.markers] using hmark
    exact h.passes_of_ne (isMark_endMarker hpiece) hne rest
  | filled name =>
    obtain ⟨hstart, hend⟩ : mark ≠ (startMarker name).toList ∧ mark ≠ (endMarker name).toList := by
      simpa [Piece.markers] using hmark
    refine (h.passes_of_ne (isMark_startMarker hpiece) hstart _).append ?_
    refine (h.passes_of_not_isInfix (hfill name rfl) ?_).append
      (h.passes_of_ne (isMark_endMarker hpiece) hend rest)
    exact beginsWithMark_append (isMark_endMarker hpiece) rest

namespace Outline

/-- **The search for an end** goes through an outline, piece by piece. -/
theorem cut?_endMarker_text (hnames : ∀ name ∈ names, IsUnbracketed name) (hname : name ∈ names)
    (hfill : ∀ name ∈ names, IsFilling names name (fillings name)) {gap : List Char}
    (hgap : IsPlain names gap) {outline : Outline} (hproper : IsProper names outline) :
    (cut? (endMarker name).toList (gap ++ text fillings outline)).map Prod.snd =
      (behindEnd? name outline).map fun p => p.1 ++ text fillings p.2 := by
  have hmark := isMark_endMarker (hnames name hname)
  induction outline generalizing gap with
  | nil => simp [behindEnd?, cut?_eq_none_iff.2 (hgap name hname).2]
  | cons entry outline ih =>
    obtain ⟨piece, gap'⟩ := entry
    obtain ⟨hpiece, hgap'⟩ := hproper _ List.mem_cons_self
    have hbegins : BeginsWithMark (text fillings ((piece, gap') :: outline)) :=
      Outline.beginsWithMark_text hnames hproper
    rw [(hmark.passes_of_not_isInfix (hgap name hname).2 hbegins).map_snd_cut?, behindEnd?,
      text_cons]
    split
    · next hend =>
      -- The end is a closing marker by itself, or the one behind the filling of a section.
      rcases hend with rfl | rfl
      · rw [Piece.text, cut?_append_self hmark.ne_nil]
        rfl
      · have hstart := hmark.passes_of_ne (isMark_startMarker (hnames name hname))
          (startMarker_ne_endMarker name name).symm
        have hbody := hmark.passes_of_not_isInfix (hfill name hname name hname).2
          (beginsWithMark_append hmark (gap' ++ text fillings outline))
        have hcut := cut?_of_passes hmark.ne_nil ((hstart _).append hbody)
        simp only [Piece.text, List.append_assoc] at hcut ⊢
        rw [hcut]
        rfl
    · next hend =>
      obtain ⟨hclosing, hfilled⟩ := not_or.1 hend
      have hplain : ∀ other, piece = .filled other →
          ¬(endMarker name).toList <:+: fillings other := by
        rintro other rfl
        exact (hfill other hpiece name hname).2
      have hpiece := hmark.passes_text (hnames _ hpiece) hplain
        (endMarker_notMem_markers hclosing hfilled) (gap' ++ text fillings outline)
      rw [hpiece.map_snd_cut?, ih hgap' hproper.of_cons]

/-- Fillings matter only for the sections that are filled. -/
theorem text_congr {f g : String → List Char} {outline : Outline}
    (h : ∀ entry ∈ outline, ∀ name, entry.1 = .filled name → f name = g name) :
    text f outline = text g outline := by
  induction outline with
  | nil => rfl
  | cons entry outline ih =>
    obtain ⟨piece, gap⟩ := entry
    obtain ⟨hpiece, houtline⟩ := List.forall_mem_cons.1 h
    rw [text_cons, text_cons, ih houtline]
    cases piece with
    | filled name => rw [Piece.text, Piece.text, hpiece name rfl]
    | _ => rfl

end Outline

/-! ### A pass through an outline -/

section Pass

variable (hnames : ∀ name ∈ names, IsUnbracketed name) (hname : name ∈ names)
include hnames hname

/-- A pass leaves plain text as it is. -/
theorem refill_append_text {gap : List Char} (hgap : IsPlain names gap) {outline : Outline}
    (hproper : Outline.IsProper names outline) (new : List Char) :
    refill (endMarker name).toList new (length_startMarker_pos name)
        (gap ++ Outline.text fillings outline) =
      gap ++ refill (endMarker name).toList new (length_startMarker_pos name)
        (Outline.text fillings outline) := by
  have hmark := isMark_startMarker (hnames name hname)
  exact refill_append_of_passes (hmark.passes_of_not_isInfix (hgap name hname).1
    (Outline.beginsWithMark_text hnames hproper))

variable (hfill : ∀ name ∈ names, IsFilling names name (fillings name))
include hfill

/-- A section that has an end is filled, and the pass goes on behind the end. What the section held
is lost; only what stands behind its end is needed. -/
theorem refill_opening_text {gap gap' : List Char} {outline rest : Outline}
    (hproper : Outline.IsProper names ((.opening name, gap) :: outline))
    (hbehind : Outline.behindEnd? name outline = some (gap', rest)) (new : List Char) :
    refill (endMarker name).toList new (length_startMarker_pos name)
        (Outline.text fillings ((.opening name, gap) :: outline)) =
      (startMarker name).toList ++ (new ++ ((endMarker name).toList ++
        (gap' ++ refill (endMarker name).toList new (length_startMarker_pos name)
          (Outline.text fillings rest)))) := by
  have hgap := (hproper _ List.mem_cons_self).2
  obtain ⟨⟨piece, hpiece⟩, hmem⟩ := Outline.mem_of_behindEnd? hbehind
  have hrest : Outline.IsProper names rest := fun entry h => hproper.of_cons entry (hmem entry h)
  obtain ⟨⟨body, after⟩, hcut, rfl⟩ : ∃ p, cut? (endMarker name).toList
      (gap ++ Outline.text fillings outline) = some p ∧
      p.2 = gap' ++ Outline.text fillings rest := by
    have h := Outline.cut?_endMarker_text hnames hname hfill hgap hproper.of_cons
    rw [hbehind] at h
    simpa using h
  have hsection : (section? (startMarker name).toList (endMarker name).toList
      ((startMarker name).toList ++ (gap ++ Outline.text fillings outline))) =
      some ([], body, gap' ++ Outline.text fillings rest) := by
    rw [section?_eq_some_iff]
    exact ⟨_, cut?_append_self (isMark_startMarker (hnames name hname)).ne_nil _, hcut⟩
  rw [Outline.text_cons, Piece.text, refill_of_section? hsection,
    refill_append_text hnames hname (hproper.of_cons _ hpiece).2 hrest, List.nil_append]

/-- A section without an end stops the pass. -/
theorem refill_opening_text_of_none {gap : List Char} {outline : Outline}
    (hproper : Outline.IsProper names ((.opening name, gap) :: outline))
    (hbehind : Outline.behindEnd? name outline = none) (new : List Char) :
    refill (endMarker name).toList new (length_startMarker_pos name)
        (Outline.text fillings ((.opening name, gap) :: outline)) =
      Outline.text fillings ((.opening name, gap) :: outline) := by
  have hgap := (hproper _ List.mem_cons_self).2
  have hcut : cut? (endMarker name).toList (gap ++ Outline.text fillings outline) = none := by
    have h := Outline.cut?_endMarker_text hnames hname hfill hgap hproper.of_cons
    rw [hbehind] at h
    simpa using h
  refine refill_of_section?_eq_none ?_
  rw [Outline.text_cons, Piece.text]
  exact section?_eq_none_of_cut?_closing
    (cut?_append_self (isMark_startMarker (hnames name hname)).ne_nil _) hcut

/-- The pass goes over any other piece. A section filled before is found by its own two markers and
filled anew. -/
theorem refill_piece_text {piece : Piece} (hne : piece ≠ .opening name) {gap : List Char}
    {outline : Outline} (hproper : Outline.IsProper names ((piece, gap) :: outline))
    (new : List Char) :
    refill (endMarker name).toList new (length_startMarker_pos name)
        (Outline.text fillings ((piece, gap) :: outline)) =
      piece.text (Function.update fillings name new) ++
        (gap ++ refill (endMarker name).toList new (length_startMarker_pos name)
          (Outline.text fillings outline)) := by
  have hstart := isMark_startMarker (hnames name hname)
  have hend := isMark_endMarker (hnames name hname)
  obtain ⟨hpiece, hgap⟩ := hproper _ List.mem_cons_self
  rw [Outline.text_cons]
  by_cases hfilled : piece = .filled name
  · subst hfilled
    have hbody := hend.passes_of_not_isInfix (hfill name hname name hname).2
      (beginsWithMark_append hend (gap ++ Outline.text fillings outline))
    have hsection := section?_eq_some_iff.2 ⟨_, cut?_append_self hstart.ne_nil _,
      cut?_of_passes hend.ne_nil hbody⟩
    simp only [Piece.text, List.append_assoc, Function.update_self]
    rw [refill_of_section? hsection,
      refill_append_text hnames hname hgap hproper.of_cons, List.nil_append]
  · have hplain : ∀ other, piece = .filled other →
        ¬(startMarker name).toList <:+: fillings other := by
      rintro other rfl
      exact (hfill other hpiece name hname).1 fun h => hfilled (by rw [h])
    have hover := hstart.passes_text (hnames _ hpiece) hplain
      (startMarker_notMem_markers hne hfilled) (gap ++ Outline.text fillings outline)
    have htext : piece.text (Function.update fillings name new) = piece.text fillings := by
      cases piece with
      | filled other =>
        have hother : other ≠ name := fun h => hfilled (by rw [h])
        rw [Piece.text, Piece.text, Function.update_of_ne hother]
      | _ => rfl
    rw [refill_append_of_passes hover, refill_append_text hnames hname hgap hproper.of_cons, htext]

/-- **A pass over a document is a pass over its outline**, whatever the new filling holds. -/
theorem refill_text {outline : Outline} (hproper : Outline.IsProper names outline)
    (new : List Char) :
    refill (endMarker name).toList new (length_startMarker_pos name)
        (Outline.text fillings outline) =
      Outline.text (Function.update fillings name new) (Outline.pass name outline) := by
  fun_induction Outline.pass name outline with
  | case1 =>
    refine refill_of_section?_eq_none (section?_eq_none_of_cut?_opening ?_)
    rw [Outline.text_nil, cut?_nil]
    simp [(isMark_startMarker (hnames name hname)).ne_nil]
  | case2 gap outline gap' rest hbehind ih =>
    have hrest : Outline.IsProper names rest := fun entry h =>
      hproper.of_cons entry ((Outline.mem_of_behindEnd? hbehind).2 entry h)
    rw [refill_opening_text hnames hname hfill hproper hbehind, ih hrest, Outline.text_cons]
    simp [Piece.text]
  | case3 gap outline hbehind =>
    rw [refill_opening_text_of_none hnames hname hfill hproper hbehind]
    -- Without an end no section of the name is filled, so the new filling shows nowhere.
    refine Outline.text_congr fun entry hentry other hother => ?_
    have hne : other ≠ name := by
      rintro rfl
      rcases List.mem_cons.1 hentry with rfl | hentry
      · cases hother
      · exact (Outline.behindEnd?_eq_none_iff.1 hbehind entry hentry).2 hother
    rw [Function.update_of_ne hne]
  | case4 piece gap outline hne ih =>
    rw [refill_piece_text hnames hname hfill hne hproper, ih hproper.of_cons, Outline.text_cons]

end Pass

/-! ### A run over several names -/

namespace Outline

/-- The passes of a run, one name after the other. -/
def passes (names : List String) (outline : Outline) : Outline :=
  names.foldl (fun outline name => pass name outline) outline

/-- What is settled once stays so. -/
theorem Settled.passes {outline : Outline} (h : Settled name outline) (others : List String) :
    Settled name (passes others outline) := by
  induction others generalizing outline with
  | nil => exact h
  | cons other others ih =>
    refine ih ?_
    rcases eq_or_ne other name with rfl | hne
    · exact settled_pass other outline
    · exact h.pass hne

/-- A run settles every name it passes over. -/
theorem settled_passes (hname : name ∈ names) (outline : Outline) :
    Settled name (passes names outline) := by
  induction names generalizing outline with
  | nil => cases hname
  | cons other names ih =>
    rcases List.mem_cons.1 hname with rfl | hname
    · exact (settled_pass name outline).passes names
    · exact ih hname _

theorem passes_eq_self_of_settled {outline : Outline}
    (h : ∀ name ∈ names, Settled name outline) : passes names outline = outline := by
  induction names with
  | nil => rfl
  | cons name names ih =>
    obtain ⟨hname, hnames⟩ := List.forall_mem_cons.1 h
    rw [passes, List.foldl_cons, pass_eq_self_of_settled hname]
    exact ih hnames

/-- **A second run finds nothing to do** on the outline. -/
theorem passes_passes (names : List String) (outline : Outline) :
    passes names (passes names outline) = passes names outline :=
  passes_eq_self_of_settled fun _ hname => settled_passes hname outline

theorem IsProper.passes {others : List String} (hothers : ∀ other ∈ others, other ∈ names)
    {outline : Outline} (h : IsProper names outline) : IsProper names (passes others outline) := by
  induction others generalizing outline with
  | nil => exact h
  | cons other others ih =>
    obtain ⟨hother, hothers⟩ := List.forall_mem_cons.1 hothers
    exact ih hothers (h.pass hother)

end Outline

/-- The fillings once every table has had its turn. -/
def fillingsWith (fillings : String → List Char) : List (String × String) → String → List Char
  | [] => fillings
  | table :: tables =>
    fillingsWith (Function.update fillings table.1 (filling table.2)) tables

/-- A name with a table is filled with it, whatever it was filled with before. -/
theorem fillingsWith_congr {f g : String → List Char} {tables : List (String × String)}
    (h : f name = g name ∨ name ∈ tables.map Prod.fst) :
    fillingsWith f tables name = fillingsWith g tables name := by
  induction tables generalizing f g with
  | nil => simpa [fillingsWith] using h
  | cons table tables ih =>
    rw [fillingsWith, fillingsWith]
    refine ih ?_
    rcases eq_or_ne name table.1 with rfl | hne
    · exact Or.inl (by rw [Function.update_self, Function.update_self])
    · rw [Function.update_of_ne hne, Function.update_of_ne hne]
      exact h.imp_right fun h => (List.mem_cons.1 h).resolve_left hne

/-- The newlines around a table make no mark. -/
theorem IsMark.isInfix_filling_iff {mark : List Char} (h : IsMark mark) {table : String} :
    mark <:+: filling table ↔ mark <:+: table.toList := by
  rw [filling, h.isInfix_cons_iff (by decide), h.isInfix_concat_iff (by decide)]

theorem isFilling_filling (hnames : ∀ name ∈ names, IsUnbracketed name) {table : String}
    (h : IsFilling names name table.toList) : IsFilling names name (filling table) := by
  intro other hother
  rw [(isMark_startMarker (hnames other hother)).isInfix_filling_iff,
    (isMark_endMarker (hnames other hother)).isInfix_filling_iff]
  exact h other hother

theorem IsPlain.filling (hnames : ∀ name ∈ names, IsUnbracketed name) {table : String}
    (h : IsPlain names table.toList) : IsPlain names (filling table) := by
  intro name hname
  rw [(isMark_startMarker (hnames name hname)).isInfix_filling_iff,
    (isMark_endMarker (hnames name hname)).isInfix_filling_iff]
  exact h name hname

section Run

variable (hnames : ∀ name ∈ names, IsUnbracketed name) {tables : List (String × String)}
include hnames

theorem isFilling_fillingsWith
    (htables : ∀ table ∈ tables, IsFilling names table.1 table.2.toList)
    (hfill : ∀ name ∈ names, IsFilling names name (fillings name)) :
    ∀ name ∈ names, IsFilling names name (fillingsWith fillings tables name) := by
  induction tables generalizing fillings with
  | nil => exact hfill
  | cons table tables ih =>
    obtain ⟨htable, htables⟩ := List.forall_mem_cons.1 htables
    rw [fillingsWith]
    refine ih htables fun name hname => ?_
    rcases eq_or_ne name table.1 with rfl | hne
    · rw [Function.update_self]
      exact isFilling_filling hnames htable
    · rw [Function.update_of_ne hne]
      exact hfill name hname

/-- **A run over a document is a run over its outline.** -/
theorem foldl_pass_text (hmem : ∀ name ∈ tables.map Prod.fst, name ∈ names)
    (htables : ∀ table ∈ tables, IsFilling names table.1 table.2.toList)
    (hfill : ∀ name ∈ names, IsFilling names name (fillings name)) {lead : List Char}
    (hlead : IsPlain names lead) {outline : Outline} (hproper : Outline.IsProper names outline) :
    tables.foldl pass (lead ++ Outline.text fillings outline) =
      lead ++ Outline.text (fillingsWith fillings tables)
        (Outline.passes (tables.map Prod.fst) outline) := by
  induction tables generalizing fillings outline with
  | nil => rfl
  | cons table tables ih =>
    obtain ⟨hname, hmem⟩ := List.forall_mem_cons.1 hmem
    obtain ⟨htable, htables⟩ := List.forall_mem_cons.1 htables
    have hfill' := isFilling_fillingsWith hnames (List.forall_mem_singleton.2 htable) hfill
    rw [List.foldl_cons, pass, refill_append_text hnames hname hlead hproper,
      refill_text hnames hname hfill hproper]
    exact ih hmem htables hfill' (hproper.pass hname)

/-- **The second run decides**: a document that was run over before is as good as the document
itself, as long as no table has a marker of another section or the end marker of its own. -/
theorem foldl_pass_foldl_pass {first second : List (String × String)}
    (hfirst : first.map Prod.fst = names) (hsecond : second.map Prod.fst = names)
    (hfill : ∀ table ∈ first ++ second, IsFilling names table.1 table.2.toList) (s : List Char) :
    second.foldl pass (first.foldl pass s) = second.foldl pass s := by
  obtain ⟨lead, outline, hlead, hproper, htext⟩ := exists_outline names s
  obtain ⟨hfill₁, hfill₂⟩ := List.forall_mem_append.1 hfill
  have hempty : ∀ name ∈ names, IsFilling names name [] := fun name _ =>
    (hlead.of_isSuffix List.nil_suffix).isFilling name
  have hmem₁ : ∀ name ∈ first.map Prod.fst, name ∈ names := by simp [hfirst]
  have hmem₂ : ∀ name ∈ second.map Prod.fst, name ∈ names := by simp [hsecond]
  have hproper' := hproper.passes hmem₁
  rw [htext fun _ => [], foldl_pass_text hnames hmem₁ hfill₁ hempty hlead hproper,
    foldl_pass_text hnames hmem₂ hfill₂ (isFilling_fillingsWith hnames hfill₁ hempty) hlead
      hproper', foldl_pass_text hnames hmem₂ hfill₂ hempty hlead hproper,
    hfirst, hsecond, Outline.passes_passes]
  congr 1
  -- The outlines agree, and whatever is filled in them the second run has filled.
  refine Outline.text_congr fun entry hentry name hname => fillingsWith_congr (Or.inr ?_)
  rw [hsecond]
  obtain ⟨hmem, -⟩ := hproper.passes (fun _ h => h : ∀ name ∈ names, name ∈ names) entry hentry
  rwa [hname] at hmem

end Run

/-- **Substitution regenerates**: tables put into a document that had others put in before give
the document as if they had been the first, whatever markers it has and however these are nested
or repeated. So the same tables once more change nothing. -/
theorem substitute_substitute (document : String) {first second : List (String × String)}
    (hnames : ∀ name ∈ names, IsUnbracketed name)
    (hfirst : first.map Prod.fst = names) (hsecond : second.map Prod.fst = names)
    (hplain : ∀ table ∈ first ++ second, IsPlain names table.2.toList) :
    (substitute (substitute document first).text second).text =
      (substitute document second).text := by
  rw [← String.toList_inj, toList_text_substitute, toList_text_substitute, toList_text_substitute]
  exact foldl_pass_foldl_pass hnames hfirst hsecond
    (fun table htable => (hplain table htable).isFilling table.1) document.toList

/-- Sections that overlap: the first pass swallows the opening marker of the other name, and its
closing marker stays alone. -/
theorem substitute_substitute_overlapping :
    (substitute (substitute "<!-- A_START --><!-- B_START --><!-- A_END --><!-- B_END -->"
      [("A", "old"), ("B", "old")]).text [("A", "new"), ("B", "new")]).text =
    (substitute "<!-- A_START --><!-- B_START --><!-- A_END --><!-- B_END -->"
      [("A", "new"), ("B", "new")]).text :=
  substitute_substitute _ (by decide : ∀ name ∈ ["A", "B"], IsUnbracketed name) rfl rfl (by decide)

end FirmwareReport
