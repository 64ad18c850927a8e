import Mathlib.Logic.Function.Basic
import FirmwareReport.Proofs.Report.Refill

/-!
# The outline of a document

For the names of its sections a document is an **outline**: plain text and, in between, the
markers of the names. Every document has one (`FirmwareReport.exists_outline`), since markers do
not overlap, and no marker of a listed name is left in its plain text. A section that a pass has
filled is one `FirmwareReport.Piece` of the outline, whatever its table holds: a filling without
markers of other names is invisible to every other pass (`FirmwareReport.IsFilling`).

So a pass over the document is a pass over its outline, `FirmwareReport.Outline.pass`, which
knows nothing of tables (`FirmwareReport.refill_text`). What it does is simple. An opening
marker, the next closing marker of the name and all between them become one filled section; that
swallows sections and markers of other names, but adds none.

An outline is **settled** for a name if no opening marker of the name has an end behind it
(`FirmwareReport.Outline.Settled`). A pass settles its own name and keeps every other one settled
(`FirmwareReport.Outline.settled_pass`, `FirmwareReport.Outline.Settled.pass`), and does nothing
to a settled outline. This is the invariant behind the second run: once every name has had its
pass, nothing but the fillings can change.
-/

namespace FirmwareReport

open Text

/-! ### Pieces and outlines -/

/-- What stands between two plain texts of a document. -/
inductive Piece
  /-- A marker in front of a section. -/
  | opening (name : String)
  /-- A marker behind a section. -/
  | closing (name : String)
  /-- A whole section, with what the table of its name fills it with. -/
  | filled (name : String)
deriving DecidableEq

/-- The name that a piece belongs to. -/
def Piece.name : Piece → String
  | .opening name | .closing name | .filled name => name

/-- A piece as it stands in the document, from the fillings of the names. -/
def Piece.text (fillings : String → List Char) : Piece → List Char
  | .opening name => (startMarker name).toList
  | .closing name => (endMarker name).toList
  | .filled name => (startMarker name).toList ++ (fillings name ++ (endMarker name).toList)

/-- Pieces, each with the plain text behind it. -/
abbrev Outline := List (Piece × List Char)

/-- An outline as it stands in the document. -/
def Outline.text (fillings : String → List Char) (outline : Outline) : List Char :=
  outline.flatMap fun entry => entry.1.text fillings ++ entry.2

/-- No marker of the listed names occurs in a text. -/
def IsPlain (names : List String) (s : List Char) : Prop :=
  ∀ name ∈ names, ¬(startMarker name).toList <:+: s ∧ ¬(endMarker name).toList <:+: s

instance (names : List String) (s : List Char) : Decidable (IsPlain names s) :=
  inferInstanceAs (Decidable (∀ name ∈ names, _))

/-- What the section of a name may hold: no marker of the listed names, its own opening marker
apart, which a search for the end of the section passes over. -/
def IsFilling (names : List String) (name : String) (s : List Char) : Prop :=
  ∀ other ∈ names, (other ≠ name → ¬(startMarker other).toList <:+: s) ∧
    ¬(endMarker other).toList <:+: s

/-- An outline for the listed names: its pieces belong to them, and none of their markers is left
in its plain texts. -/
def Outline.IsProper (names : List String) (outline : Outline) : Prop :=
  ∀ entry ∈ outline, entry.1.name ∈ names ∧ IsPlain names entry.2

/-- A section name without angle brackets, so that its markers are marks. -/
def IsUnbracketed (name : String) : Prop :=
  '<' ∉ name.toList ∧ '>' ∉ name.toList

instance (name : String) : Decidable (IsUnbracketed name) :=
  inferInstanceAs (Decidable (_ ∧ _))

variable {names : List String} {name : String} {fillings : String → List Char}

theorem isPlain_nil (names : List String) : IsPlain names [] := by
  rintro name -
  simp [startMarker, endMarker]

theorem IsPlain.of_isSuffix {s t : List Char} (h : IsPlain names s) (hsuffix : t <:+ s) :
    IsPlain names t := fun name hname =>
  ⟨fun hin => (h name hname).1 (hin.trans hsuffix.isInfix),
    fun hin => (h name hname).2 (hin.trans hsuffix.isInfix)⟩

theorem IsPlain.isFilling {s : List Char} (h : IsPlain names s) (name : String) :
    IsFilling names name s := fun other hother =>
  ⟨fun _ => (h other hother).1, (h other hother).2⟩

@[simp] theorem Outline.text_nil : Outline.text fillings [] = [] := rfl

@[simp] theorem Outline.text_cons (piece : Piece) (gap : List Char) (outline : Outline) :
    Outline.text fillings ((piece, gap) :: outline) =
      piece.text fillings ++ (gap ++ Outline.text fillings outline) := by
  simp [Outline.text]

theorem Outline.IsProper.of_cons {entry : Piece × List Char} {outline : Outline}
    (h : Outline.IsProper names (entry :: outline)) : Outline.IsProper names outline :=
  fun e he => h e (List.mem_cons_of_mem _ he)

/-- A piece begins with a bracket. -/
theorem beginsWithMark_text {piece : Piece} (h : IsUnbracketed piece.name) (rest : List Char) :
    BeginsWithMark (piece.text fillings ++ rest) := by
  cases piece with
  | opening name => exact beginsWithMark_append (isMark_startMarker h) rest
  | closing name => exact beginsWithMark_append (isMark_endMarker h) rest
  | filled name =>
    rw [Piece.text, List.append_assoc]
    exact beginsWithMark_append (isMark_startMarker h) _

theorem Outline.beginsWithMark_text (hnames : ∀ name ∈ names, IsUnbracketed name)
    {outline : Outline} (h : Outline.IsProper names outline) :
    BeginsWithMark (Outline.text fillings outline) := by
  cases outline with
  | nil => exact Or.inl rfl
  | cons entry outline =>
    obtain ⟨piece, gap⟩ := entry
    rw [Outline.text_cons]
    exact FirmwareReport.beginsWithMark_text (hnames _ (h _ List.mem_cons_self).1) _

/-! ### Every document has an outline -/

/-- If a marker of a listed name stands in front of a text, it is a piece of an outline. -/
theorem exists_piece_of_not_isPlain_cons {c : Char} {s : List Char} (hs : IsPlain names s)
    (hcons : ¬IsPlain names (c :: s)) (fillings : String → List Char) :
    ∃ (piece : Piece) (rest : List Char), piece.name ∈ names ∧ (∀ name, piece ≠ .filled name) ∧
      c :: s = piece.text fillings ++ rest ∧ rest <:+ s := by
  have hrest : ∀ {marker rest : List Char}, marker ≠ [] → marker ++ rest = c :: s → rest <:+ s := by
    intro marker rest hne heq
    cases marker with
    | nil => exact absurd rfl hne
    | cons d marker => exact ⟨marker, by simpa using (List.cons_eq_cons.1 heq).2⟩
  simp only [IsPlain, not_forall, not_and_or, not_not] at hcons
  obtain ⟨name, hname, hin | hin⟩ := hcons
  · obtain ⟨rest, hpre⟩ := (List.infix_cons_iff.1 hin).resolve_right (hs name hname).1
    exact ⟨.opening name, rest, hname, by simp, hpre.symm, hrest (by simp [startMarker]) hpre⟩
  · obtain ⟨rest, hpre⟩ := (List.infix_cons_iff.1 hin).resolve_right (hs name hname).2
    exact ⟨.closing name, rest, hname, by simp, hpre.symm, hrest (by simp [endMarker]) hpre⟩

/-- **Every document has an outline**, and no filling matters to it. -/
theorem exists_outline (names : List String) (s : List Char) :
    ∃ (lead : List Char) (outline : Outline), IsPlain names lead ∧ Outline.IsProper names outline ∧
      ∀ fillings, s = lead ++ Outline.text fillings outline := by
  induction s with
  | nil =>
    refine ⟨[], [], fun name _ => ?_, by simp [Outline.IsProper], by simp⟩
    simp [startMarker, endMarker]
  | cons c s ih =>
    obtain ⟨lead, outline, hlead, hproper, htext⟩ := ih
    by_cases hcons : IsPlain names (c :: lead)
    · exact ⟨c :: lead, outline, hcons, hproper, fun f => by
        rw [List.cons_append, ← htext f]⟩
    · obtain ⟨piece, rest, hname, hpiece, heq, hrest⟩ :=
        exists_piece_of_not_isPlain_cons hlead hcons (fun _ => [])
      refine ⟨[], (piece, rest) :: outline, hlead.of_isSuffix (List.nil_suffix), ?_, ?_⟩
      · intro entry hentry
        rcases List.mem_cons.1 hentry with rfl | hentry
        · exact ⟨hname, hlead.of_isSuffix hrest⟩
        · exact hproper entry hentry
      · intro f
        have hpiece : piece.text f = piece.text fun _ => [] := by
          cases piece with
          | filled name => exact absurd rfl (hpiece name)
          | _ => rfl
        rw [List.nil_append, Outline.text_cons, ← List.append_assoc, hpiece, ← heq,
          List.cons_append, ← htext f]

/-! ### A pass over an outline -/

namespace Outline

/-- What stands behind the first end of a section of a name: the plain text directly behind it,
and the rest. -/
def behindEnd? (name : String) : Outline → Option (List Char × Outline)
  | [] => none
  | (piece, gap) :: outline =>
    if piece = .closing name ∨ piece = .filled name then some (gap, outline)
    else behindEnd? name outline

theorem length_of_behindEnd? {outline rest : Outline} {gap : List Char}
    (h : behindEnd? name outline = some (gap, rest)) : rest.length < outline.length := by
  induction outline with
  | nil => simp [behindEnd?] at h
  | cons entry outline ih =>
    rw [behindEnd?] at h
    split at h
    · obtain ⟨-, rfl⟩ : entry.2 = gap ∧ outline = rest := by simpa using h
      simp
    · exact Nat.lt_succ_of_lt (ih h)

/-- **A pass over an outline**: an opening marker of the name and all up to the next end of a
section of that name become one filled section. -/
def pass (name : String) : Outline → Outline
  | [] => []
  | (piece, gap) :: outline =>
    if piece = .opening name then
      match _h : behindEnd? name outline with
      | some (gap', rest) => (.filled name, gap') :: pass name rest
      | none => (piece, gap) :: outline
    else (piece, gap) :: pass name outline
termination_by outline => outline.length
decreasing_by
  · have := length_of_behindEnd? _h
    simp
    omega
  · simp

/-- What stands behind the first end stands in the outline. -/
theorem mem_of_behindEnd? {outline rest : Outline} {gap : List Char}
    (h : behindEnd? name outline = some (gap, rest)) :
    (∃ piece, (piece, gap) ∈ outline) ∧ ∀ entry ∈ rest, entry ∈ outline := by
  induction outline with
  | nil => simp [behindEnd?] at h
  | cons entry outline ih =>
    rw [behindEnd?] at h
    split at h
    · obtain ⟨rfl, rfl⟩ : entry.2 = gap ∧ outline = rest := by simpa using h
      exact ⟨⟨entry.1, List.mem_cons_self⟩, fun e he => List.mem_cons_of_mem _ he⟩
    · obtain ⟨⟨piece, hpiece⟩, hrest⟩ := ih h
      exact ⟨⟨piece, List.mem_cons_of_mem _ hpiece⟩,
        fun e he => List.mem_cons_of_mem _ (hrest e he)⟩

theorem behindEnd?_eq_none_iff {outline : Outline} : behindEnd? name outline = none ↔
    ∀ entry ∈ outline, entry.1 ≠ .closing name ∧ entry.1 ≠ .filled name := by
  induction outline with
  | nil => simp [behindEnd?]
  | cons entry outline ih =>
    rw [behindEnd?]
    split
    · next h =>
      refine iff_of_false (by simp) fun hall => ?_
      obtain ⟨hclosing, hfilled⟩ := hall _ List.mem_cons_self
      exact h.elim hclosing hfilled
    · next h => rw [ih, List.forall_mem_cons, not_or.1 h |> and_iff_right]

/-- A pass adds nothing to an outline but filled sections of its name. -/
theorem mem_pass {outline : Outline} {entry : Piece × List Char} (h : entry ∈ pass name outline) :
    (entry.1 = .filled name ∨ ∃ gap, (entry.1, gap) ∈ outline) ∧
      ∃ piece, (piece, entry.2) ∈ outline := by
  fun_induction pass name outline with
  | case1 => simp at h
  | case2 gap outline gap' rest hend ih =>
    obtain ⟨⟨piece, hpiece⟩, hrest⟩ := mem_of_behindEnd? hend
    rcases List.mem_cons.1 h with rfl | h
    · exact ⟨Or.inl rfl, piece, List.mem_cons_of_mem _ hpiece⟩
    · obtain ⟨h₁, piece, h₂⟩ := ih h
      refine ⟨h₁.imp_right fun ⟨g, hg⟩ => ⟨g, List.mem_cons_of_mem _ (hrest _ hg)⟩, piece,
        List.mem_cons_of_mem _ (hrest _ h₂)⟩
  | case3 gap outline hend => exact ⟨Or.inr ⟨entry.2, h⟩, entry.1, h⟩
  | case4 piece gap outline hne ih =>
    rcases List.mem_cons.1 h with rfl | h
    · exact ⟨Or.inr ⟨_, List.mem_cons_self⟩, _, List.mem_cons_self⟩
    · obtain ⟨h₁, piece, h₂⟩ := ih h
      exact ⟨h₁.imp_right fun ⟨g, hg⟩ => ⟨g, List.mem_cons_of_mem _ hg⟩, piece,
        List.mem_cons_of_mem _ h₂⟩

theorem IsProper.pass (hname : name ∈ names) {outline : Outline} (h : IsProper names outline) :
    IsProper names (pass name outline) := by
  intro entry hentry
  obtain ⟨h₁, piece, h₂⟩ := mem_pass hentry
  refine ⟨?_, (h _ h₂).2⟩
  rcases h₁ with h₁ | ⟨gap, h₁⟩
  · rwa [h₁]
  · exact (h _ h₁).1

/-! ### Settled outlines -/

/-- **An outline is settled for a name** if no opening marker of the name has an end behind it. -/
def Settled (name : String) (outline : Outline) : Prop :=
  outline.Pairwise fun entry later =>
    entry.1 = .opening name → later.1 ≠ .closing name ∧ later.1 ≠ .filled name

/-- A pass settles its own name. -/
theorem settled_pass (name : String) (outline : Outline) : Settled name (pass name outline) := by
  fun_induction Outline.pass name outline with
  | case1 => exact List.Pairwise.nil
  | case2 gap outline gap' rest hend ih => exact List.Pairwise.cons (by simp) ih
  | case3 gap outline hend =>
    have hnone := behindEnd?_eq_none_iff.1 hend
    refine List.Pairwise.cons (fun later hlater _ => hnone later hlater) ?_
    exact List.pairwise_of_forall_mem_list fun _ _ later hlater _ => hnone later hlater
  | case4 piece gap outline hne ih => exact List.Pairwise.cons (by simp [hne]) ih

/-- A pass does nothing to an outline that is settled for its name. -/
theorem pass_eq_self_of_settled {outline : Outline} (h : Settled name outline) :
    pass name outline = outline := by
  fun_induction Outline.pass name outline with
  | case1 => rfl
  | case2 gap outline gap' rest hend ih =>
    have hnone := behindEnd?_eq_none_iff.2
      fun later hlater => (List.pairwise_cons.1 h).1 later hlater rfl
    simp [hnone] at hend
  | case3 gap outline hend => rfl
  | case4 piece gap outline hne ih => rw [ih (List.pairwise_cons.1 h).2]

theorem Settled.of_behindEnd? {other : String} {outline rest : Outline} {gap : List Char}
    (h : Settled name outline) (hend : behindEnd? other outline = some (gap, rest)) :
    Settled name rest := by
  induction outline with
  | nil => simp [behindEnd?] at hend
  | cons entry outline ih =>
    rw [behindEnd?] at hend
    split at hend
    · obtain ⟨-, rfl⟩ : entry.2 = gap ∧ outline = rest := by simpa using hend
      exact (List.pairwise_cons.1 h).2
    · exact ih (List.pairwise_cons.1 h).2 hend

/-- **A pass keeps every other name settled**: it removes pieces, and what it adds is no end of a
section of another name. -/
theorem Settled.pass {other : String} (hne : other ≠ name) {outline : Outline}
    (h : Settled name outline) : Settled name (pass other outline) := by
  fun_induction Outline.pass other outline with
  | case1 => exact h
  | case2 gap outline gap' rest hend ih =>
    exact List.Pairwise.cons (by simp) (ih (Settled.of_behindEnd? (List.pairwise_cons.1 h).2 hend))
  | case3 gap outline hend => exact h
  | case4 piece gap outline hpiece ih =>
    obtain ⟨hfirst, hrest⟩ := List.pairwise_cons.1 h
    refine List.Pairwise.cons (fun later hlater hopening => ?_) (ih hrest)
    rcases (mem_pass hlater).1 with heq | ⟨g, hg⟩
    · simp [heq, hne]
    · exact hfirst (later.1, g) hg hopening

end Outline

end FirmwareReport
