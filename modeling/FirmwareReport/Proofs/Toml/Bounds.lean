import Mathlib.Tactic.SplitIfs
import FirmwareReport.Toml.Document

/-!
# How large the numbers of a document are

A number is read as a signed word or not at all, so whatever a document says, all its numbers are
below the limit (`FirmwareReport.Toml.isSmall_of_read?`). This is followed from the words to the
values, which nest (`FirmwareReport.Toml.isSmall_of_value?`), and from there into the tables that
assignments and headers build (`FirmwareReport.Toml.isSmall_of_entries?`).
-/

namespace FirmwareReport.Toml

/-! ### Small items -/

/-- A scalar that is no number above the range of signed words. -/
def Scalar.IsSmall (value : Scalar) : Prop :=
  ∀ n : Nat, value = .integer n → n < signedLimit

/-- **An item without a number above the range of signed words**, at any depth. -/
inductive Item.IsSmall : Item → Prop
  | scalar {value : Scalar} (h : value.IsSmall) : IsSmall (.scalar value)
  | text (value : String) : IsSmall (.text value)
  | array {items : List Item} (h : ∀ item ∈ items, IsSmall item) : IsSmall (.array items)
  | table {kind : TableKind} {entries : Entries} (h : ∀ entry ∈ entries, IsSmall entry.2) :
      IsSmall (.table kind entries)
  | tables {elements : List Entries}
      (h : ∀ entries ∈ elements, ∀ entry ∈ entries, IsSmall entry.2) : IsSmall (.tables elements)

/-- A table without large numbers. -/
def Entries.IsSmall (entries : Entries) : Prop :=
  ∀ entry ∈ entries, entry.2.IsSmall

/-- An assignment without large numbers. -/
def Assignment.IsSmall (a : Assignment) : Prop :=
  a.item.IsSmall

/-! ### Reading values -/

theorem lt_of_ofNat_eq {value n : Nat} (h : value < signedLimit)
    (heq : some (value : Int) = some (n : Int)) : n < signedLimit := by
  obtain rfl : value = n := Int.ofNat.inj (Option.some.inj heq)
  exact h

/-- **A number is read as a signed word.** -/
theorem lt_of_integer? {word : List Char} {n : Nat} (h : integer? word = some (n : Int)) :
    n < signedLimit := by
  have hradix {base : Nat} {digits : List Char} (h : (do
      let value := positional base (← underscored? base digits)
      if value < signedLimit then some (value : Int) else none) = some (n : Int)) :
      n < signedLimit := by
    obtain ⟨digits, -, h⟩ := Option.bind_eq_some_iff.1 h
    dsimp only at h
    split_ifs at h with hlt
    exact lt_of_ofNat_eq hlt h
  unfold integer? at h
  dsimp only at h
  split at h
  · exact hradix h
  · exact hradix h
  · exact hradix h
  · obtain ⟨digits, -, h⟩ := Option.bind_eq_some_iff.1 h
    split_ifs at h with hnegative hle hlt
    · -- A negative number is no natural one, but for zero.
      have heq : -(positional 10 digits : Int) = n := Option.some.inj h
      simp only [signedLimit]
      omega
    · exact lt_of_ofNat_eq hlt h

theorem isSmall_of_ofWord? {word : List Char} {value : Scalar}
    (h : Scalar.ofWord? word = some value) : value.IsSmall := by
  rintro n rfl
  unfold Scalar.ofWord? at h
  split at h
  · cases h
  split at h
  · cases h
  split at h
  · next value heq =>
    obtain rfl : value = n := by simpa using h
    exact lt_of_integer? heq
  · split_ifs at h <;> cases h

theorem isSmall_of_scalar? {s rest : List Char} {value : Scalar}
    (h : Scalar.read? s = some (value, rest)) : value.IsSmall := by
  obtain ⟨word, hword, h⟩ := Option.bind_eq_some_iff.1 h
  have hsmall := isSmall_of_ofWord? hword
  dsimp only at h
  split at h
  · split_ifs at h
    · rintro n rfl
      cases h
    · cases h
      exact hsmall
  · cases h
    exact hsmall

/-! ### Building tables -/

namespace Entries

variable {name : String} {change : Option Item → Option Item} {entries entries' : Entries}

/-- What is put in place of small items is small. -/
def KeepsSmall (change : Option Item → Option Item) : Prop :=
  ∀ before after, (∀ item ∈ before, item.IsSmall) → change before = some after → after.IsSmall

theorem isSmall_nil : IsSmall [] :=
  List.forall_mem_nil _

theorem IsSmall.update? (h : entries.IsSmall) (hchange : KeepsSmall change)
    (hupdate : entries.update? name change = some entries') : entries'.IsSmall := by
  induction entries generalizing entries' with
  | nil =>
    obtain ⟨item, hitem, rfl⟩ := Option.map_eq_some_iff.1 hupdate
    exact List.forall_mem_singleton.2 (hchange none item (by simp) hitem)
  | cons entry entries ih =>
    obtain ⟨hentry, hentries⟩ := List.forall_mem_cons.1 h
    rw [Entries.update?] at hupdate
    split_ifs at hupdate
    · obtain ⟨item, hitem, rfl⟩ := Option.map_eq_some_iff.1 hupdate
      refine List.forall_mem_cons.2 ⟨hchange _ item ?_ hitem, hentries⟩
      simpa using hentry
    · obtain ⟨more, hmore, rfl⟩ := Option.map_eq_some_iff.1 hupdate
      exact List.forall_mem_cons.2 ⟨hentry, ih hentries hmore⟩

theorem isSmall_of_updateLast? {change : Entries → Option Entries}
    {elements elements' : List Entries} (h : ∀ entries ∈ elements, entries.IsSmall)
    (hchange : ∀ before after, before.IsSmall → change before = some after → after.IsSmall)
    (hupdate : updateLast? change elements = some elements') :
    ∀ entries ∈ elements', entries.IsSmall := by
  induction elements generalizing elements' with
  | nil => cases hupdate
  | cons entries elements ih =>
    obtain ⟨hentries, helements⟩ := List.forall_mem_cons.1 h
    cases elements with
    | nil =>
      obtain ⟨after, hafter, rfl⟩ := Option.map_eq_some_iff.1 hupdate
      exact List.forall_mem_singleton.2 (hchange entries after hentries hafter)
    | cons next elements =>
      obtain ⟨more, hmore, rfl⟩ := Option.map_eq_some_iff.1 hupdate
      exact List.forall_mem_cons.2 ⟨hentries, ih helements hmore⟩

/-- **An assignment of a small item** keeps a table small. -/
theorem IsSmall.assign? {path : List String} {item : Item} (h : entries.IsSmall)
    (hitem : item.IsSmall) (hassign : entries.assign? path name item = some entries') :
    entries'.IsSmall := by
  induction path generalizing entries entries' with
  | nil =>
    refine h.update? (fun before after _ hafter => ?_) hassign
    cases before with
    | none => exact Option.some.inj hafter ▸ hitem
    | some _ => cases hafter
  | cons step path ih =>
    rw [Entries.assign?] at hassign
    refine h.update? (fun before after hbefore hafter => ?_) hassign
    split at hafter
    · obtain ⟨inner, hinner, rfl⟩ := Option.map_eq_some_iff.1 hafter
      exact .table (ih isSmall_nil hinner)
    · obtain ⟨inner, hinner, rfl⟩ := Option.map_eq_some_iff.1 hafter
      cases hbefore _ rfl with
      | table hold => exact .table (ih hold hinner)
    · split_ifs at hafter
      obtain ⟨inner, hinner, rfl⟩ := Option.map_eq_some_iff.1 hafter
      cases hbefore _ rfl with
      | table hold => exact .table (ih hold hinner)
    · split_ifs at hafter
      obtain ⟨inner, hinner, rfl⟩ := Option.map_eq_some_iff.1 hafter
      cases hbefore _ rfl with
      | tables hold =>
        exact .tables (isSmall_of_updateLast? hold (fun _ _ hsmall => ih hsmall) hinner)
    · cases hafter

/-- **The end of a header's path**: what is put there may be all that is new. -/
theorem IsSmall.place? {path : List String} (h : entries.IsSmall) (hchange : KeepsSmall change)
    (hplace : entries.place? path name change = some entries') : entries'.IsSmall := by
  induction path generalizing entries entries' with
  | nil => exact h.update? hchange hplace
  | cons step path ih =>
    rw [Entries.place?] at hplace
    refine h.update? (fun before after hbefore hafter => ?_) hplace
    split at hafter
    · obtain ⟨inner, hinner, rfl⟩ := Option.map_eq_some_iff.1 hafter
      exact .table (ih isSmall_nil hinner)
    · cases hafter
    · obtain ⟨inner, hinner, rfl⟩ := Option.map_eq_some_iff.1 hafter
      cases hbefore _ rfl with
      | table hold => exact .table (ih hold hinner)
    · obtain ⟨inner, hinner, rfl⟩ := Option.map_eq_some_iff.1 hafter
      cases hbefore _ rfl with
      | tables hold =>
        exact .tables (isSmall_of_updateLast? hold (fun _ _ hsmall => ih hsmall) hinner)
    · cases hafter

theorem IsSmall.assignAll? {assignments : List Assignment} (h : entries.IsSmall)
    (hassignments : ∀ a ∈ assignments, a.IsSmall)
    (hassign : assignAll? assignments entries = some entries') : entries'.IsSmall := by
  induction assignments generalizing entries with
  | nil => exact Option.some.inj hassign ▸ h
  | cons a assignments ih =>
    obtain ⟨ha, hassignments⟩ := List.forall_mem_cons.1 hassignments
    rw [Entries.assignAll?, List.foldlM_cons] at hassign
    obtain ⟨inner, hinner, hassign⟩ := Option.bind_eq_some_iff.1 hassign
    exact ih (h.assign? ha hinner) hassignments hassign

end Entries

/-! ### Reading items -/

/-- A reader of small items. -/
def ReadsSmall (read? : List Char → Option (Item × List Char)) : Prop :=
  ∀ s item rest, read? s = some (item, rest) → item.IsSmall

section Nested

variable {read? : List Char → Option (Item × List Char)}

theorem ReadsSmall.arrayItems? (h : ReadsSmall read?) {s rest : List Char} {items : List Item}
    (hread : arrayItems? read? s = some (items, rest)) : ∀ item ∈ items, item.IsSmall := by
  fun_induction Toml.arrayItems? read? s generalizing items with
  | case1 s rest' hclosing =>
    cases hread
    exact List.forall_mem_nil _
  | case3 s item behind rest' hclosing _ hitem =>
    cases hread
    exact List.forall_mem_singleton.2 (h _ item _ hitem)
  | case4 s item behind rest' hcomma hlength _ hitem ih =>
    obtain ⟨⟨more, rest⟩, hmore, heq⟩ := Option.map_eq_some_iff.1 hread
    cases heq
    exact List.forall_mem_cons.2 ⟨h _ item _ hitem, ih hmore⟩
  | case2 => cases hread
  | case5 => cases hread
  | case6 => cases hread

theorem ReadsSmall.inlineAssignments? (h : ReadsSmall read?) {s rest : List Char}
    {assignments : List Assignment}
    (hread : inlineAssignments? read? s = some (assignments, rest)) :
    ∀ a ∈ assignments, a.IsSmall := by
  fun_induction Toml.inlineAssignments? read? s generalizing assignments with
  | case2 s path name behind hkey item behind' hitem rest' hclosing =>
    cases hread
    exact List.forall_mem_singleton.2 (h _ item _ hitem)
  | case3 s path name behind hkey item behind' hitem rest' hcomma hlength ih =>
    obtain ⟨⟨more, rest⟩, hmore, heq⟩ := Option.map_eq_some_iff.1 hread
    cases heq
    exact List.forall_mem_cons.2 ⟨h _ item _ hitem, ih hmore⟩
  | case1 => cases hread
  | case4 => cases hread
  | case5 => cases hread
  | case6 => cases hread

theorem ReadsSmall.inlineTable? (h : ReadsSmall read?) : ReadsSmall (inlineTable? read?) := by
  intro s item rest hread
  unfold Toml.inlineTable? at hread
  split at hread
  · cases hread
    exact .table Entries.isSmall_nil
  · obtain ⟨⟨assignments, behind⟩, hassignments, hread⟩ := Option.bind_eq_some_iff.1 hread
    obtain ⟨entries, hentries, hread⟩ := Option.bind_eq_some_iff.1 hread
    cases hread
    exact .table (Entries.isSmall_nil.assignAll? (h.inlineAssignments? hassignments) hentries)

end Nested

/-- **All numbers of a value are small**, however deep they stand. -/
theorem isSmall_of_value? (levels : Nat) : ReadsSmall (value? levels) := by
  have hscalar {s rest : List Char} {item : Item}
      (h : (Scalar.read? s).map (fun p => (Item.scalar p.1, p.2)) = some (item, rest)) :
      item.IsSmall := by
    obtain ⟨⟨value, rest⟩, hvalue, heq⟩ := Option.map_eq_some_iff.1 h
    cases heq
    exact .scalar (isSmall_of_scalar? hvalue)
  have htext {s rest : List Char} {item : Item}
      (h : (unquote? s).map (fun p => (Item.text (String.ofList p.1), p.2)) = some (item, rest)) :
      item.IsSmall := by
    obtain ⟨⟨value, rest⟩, -, heq⟩ := Option.map_eq_some_iff.1 h
    cases heq
    exact .text _
  induction levels with
  | zero =>
    intro s item rest h
    unfold value? at h
    split at h
    · exact htext h
    · exact htext h
    · cases ‹0 = _›
    · cases ‹0 = _›
    · exact hscalar h
  | succ levels ih =>
    intro s item rest h
    unfold value? at h
    split at h
    · exact htext h
    · exact htext h
    · next heq =>
      obtain rfl := Nat.succ.inj heq
      obtain ⟨⟨items, rest⟩, hitems, heq⟩ := Option.map_eq_some_iff.1 h
      cases heq
      exact .array (ih.arrayItems? hitems)
    · next heq =>
      obtain rfl := Nat.succ.inj heq
      exact ih.inlineTable? _ _ _ h
    · exact hscalar h

/-! ### Reading documents -/

/-- A line without large numbers. -/
def Line.IsSmall : Line → Prop
  | .assignment a => a.IsSmall
  | .header .. => True

theorem isSmall_of_assignmentLine? {s rest : List Char} {line : Line}
    (h : assignmentLine? s = some (line, rest)) : line.IsSmall := by
  obtain ⟨⟨path, name, behind⟩, -, h⟩ := Option.bind_eq_some_iff.1 h
  dsimp only at h
  split at h
  · obtain ⟨⟨item, behind'⟩, hitem, h⟩ := Option.bind_eq_some_iff.1 h
    obtain ⟨behind'', -, h⟩ := Option.bind_eq_some_iff.1 h
    cases h
    exact isSmall_of_value? _ _ item _ hitem
  · cases h

theorem isSmall_of_headerLine? {s rest : List Char} {line : Line}
    (h : headerLine? s = some (line, rest)) : line.IsSmall := by
  unfold headerLine? at h
  split at h
  · obtain ⟨⟨path, name, behind⟩, -, h⟩ := Option.bind_eq_some_iff.1 h
    dsimp only at h
    split at h
    · obtain ⟨behind', -, h⟩ := Option.bind_eq_some_iff.1 h
      cases h
      trivial
    · cases h
  · obtain ⟨⟨path, name, behind⟩, -, h⟩ := Option.bind_eq_some_iff.1 h
    dsimp only at h
    split at h
    · obtain ⟨behind', -, h⟩ := Option.bind_eq_some_iff.1 h
      cases h
      trivial
    · cases h
  · cases h

theorem isSmall_of_lines? {s : List Char} {lines : List Line} (h : lines? s = some lines) :
    ∀ line ∈ lines, line.IsSmall := by
  fun_induction lines? s generalizing lines with
  | case1 =>
    cases h
    exact List.forall_mem_nil _
  | case2 => cases h
  | case3 s c s' _ line rest hline hlength ih =>
    obtain ⟨more, hmore, rfl⟩ := Option.map_eq_some_iff.1 h
    refine List.forall_mem_cons.2 ⟨?_, ih hmore⟩
    split at hline
    · exact isSmall_of_headerLine? hline
    · exact isSmall_of_assignmentLine? hline
  | case4 => cases h

/-- A document without large numbers. -/
structure Document.IsSmall (document : Document) : Prop where
  top : ∀ a ∈ document.top, a.IsSmall
  sections : ∀ s ∈ document.sections, ∀ a ∈ s.assignments, a.IsSmall

theorem isSmall_ofLines {lines : List Line} (h : ∀ line ∈ lines, line.IsSmall) :
    (Document.ofLines lines).IsSmall := by
  induction lines with
  | nil => exact ⟨List.forall_mem_nil _, List.forall_mem_nil _⟩
  | cons line lines ih =>
    obtain ⟨hline, hlines⟩ := List.forall_mem_cons.1 h
    obtain ⟨htop, hsections⟩ := ih hlines
    cases line with
    | assignment a => exact ⟨List.forall_mem_cons.2 ⟨hline, htop⟩, hsections⟩
    | header element path name =>
      exact ⟨List.forall_mem_nil _, List.forall_mem_cons.2 ⟨htop, hsections⟩⟩

/-- **A document that was read has small numbers.** -/
theorem isSmall_of_read? {text : List Char} {document : Document}
    (h : Document.read? text = some document) : document.IsSmall := by
  obtain ⟨lines, hlines, rfl⟩ := Option.map_eq_some_iff.1 h
  exact isSmall_ofLines (isSmall_of_lines? hlines)

theorem Entries.IsSmall.enter? {entries entries' : Entries} {s : Section} (h : entries.IsSmall)
    (hs : ∀ a ∈ s.assignments, a.IsSmall) (henter : Section.enter? entries s = some entries') :
    entries'.IsSmall := by
  unfold Section.enter? at henter
  split_ifs at henter
  · refine h.place? (fun before after hbefore hafter => ?_) henter
    split at hafter
    · obtain ⟨inner, hinner, rfl⟩ := Option.map_eq_some_iff.1 hafter
      exact .tables (List.forall_mem_singleton.2 (Entries.isSmall_nil.assignAll? hs hinner))
    · obtain ⟨inner, hinner, rfl⟩ := Option.map_eq_some_iff.1 hafter
      cases hbefore _ rfl with
      | tables hold =>
        refine .tables fun element helement => (List.mem_append.1 helement).elim (hold element) ?_
        intro hlast
        rw [List.mem_singleton.1 hlast]
        exact Entries.isSmall_nil.assignAll? hs hinner
    · cases hafter
  · refine h.place? (fun before after hbefore hafter => ?_) henter
    split at hafter
    · obtain ⟨inner, hinner, rfl⟩ := Option.map_eq_some_iff.1 hafter
      exact .table (Entries.isSmall_nil.assignAll? hs hinner)
    · obtain ⟨inner, hinner, rfl⟩ := Option.map_eq_some_iff.1 hafter
      cases hbefore _ rfl with
      | table hold => exact .table (Entries.IsSmall.assignAll? hold hs hinner)
    · cases hafter

/-- **What a document says has small numbers.** -/
theorem isSmall_of_entries? {document : Document} {entries : Entries} (h : document.IsSmall)
    (hentries : document.entries? = some entries) : entries.IsSmall := by
  obtain ⟨assignments, sections⟩ := document
  obtain ⟨hassignments, hsections⟩ := h
  obtain ⟨top, htop, hfold⟩ := Option.bind_eq_some_iff.1 hentries
  have hsmall := Entries.isSmall_nil.assignAll? hassignments htop
  clear htop hentries hassignments
  dsimp only at hsections hfold
  induction sections generalizing top with
  | nil => exact Option.some.inj hfold ▸ hsmall
  | cons s sections ih =>
    obtain ⟨hs, hsections⟩ := List.forall_mem_cons.1 hsections
    rw [List.foldlM_cons] at hfold
    obtain ⟨inner, hinner, hfold⟩ := Option.bind_eq_some_iff.1 hfold
    exact ih hsections inner hfold (hsmall.enter? hs hinner)

end FirmwareReport.Toml
