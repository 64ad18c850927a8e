import FirmwareReport.Proofs.Report.Pass

/-!
# Only the sections change

A document is put together of **parts**: plain text, and sections with their markers
(`FirmwareReport.Part`), one behind the other in any order and number. It is laid out for some
names if no marker of them stands in the body of a section or in the text between two sections
(`FirmwareReport.IsLaidOut`). Plain parts side by side make one such text. It does not do to look at
them one by one (`FirmwareReport.Part.IsMarkerFree`), since a marker can form where two of them meet
(`FirmwareReport.substitute_split_markers`); if no two of them meet, it does
(`FirmwareReport.isLaidOut_of_isMarkerFree`).

A pass goes over such a document part by part. The text in front of a section and the sections of
other names are passed over (`FirmwareReport.IsLaidOut.passes_block`), the sections of its own name
are found (`FirmwareReport.IsLaidOut.section?_block`), and with a plain table in them the document
is laid out as before (`FirmwareReport.IsLaidOut.map_fill`). So one table after the other finds
the sections of its name, and nothing of the tables before it
(`FirmwareReport.substitute_document`).
-/

namespace FirmwareReport

open Text

/-! ### Documents of parts -/

/-- What a document is put together of. -/
inductive Part
  /-- Text outside of the sections. -/
  | plain (text : String)
  /-- A section of a name, with what stands between its markers. -/
  | block (name body : String)
deriving DecidableEq

namespace Part

/-- A part as it stands in the document. -/
def text : Part → String
  | plain text => text
  | block name body => startMarker name ++ body ++ endMarker name

/-- The name of a section. -/
def name? : Part → Option String
  | plain _ => none
  | block name _ => some name

/-- A part with a table in it, if it is a section of its name. -/
def fill (name table : String) : Part → Part
  | plain text => plain text
  | block other body => block other (if other = name then "\n" ++ table ++ "\n" else body)

/-- **A part with its table in it**, if it is a section with one. -/
def filledFrom (tables : List (String × String)) : Part → Part
  | plain text => plain text
  | block name body =>
    block name (((tables.lookup name).map fun table => "\n" ++ table ++ "\n").getD body)

@[simp] theorem name?_fill (name table : String) (part : Part) :
    (part.fill name table).name? = part.name? := by
  cases part <;> rfl

end Part

/-- The document that some parts make. -/
def document (parts : List Part) : String :=
  String.join (parts.map Part.text)

/-- The names of the sections of a document. -/
def blockNames (parts : List Part) : List String :=
  parts.filterMap Part.name?

/-- **A part that holds no marker** of the listed names, taken by itself; a section is of one of
these names. -/
def Part.IsMarkerFree (names : List String) : Part → Prop
  | .plain text => IsPlain names text.toList
  | .block name body => name ∈ names ∧ IsPlain names body.toList

instance (names : List String) : ∀ part : Part, Decidable (part.IsMarkerFree names)
  | .plain text => inferInstanceAs (Decidable (IsPlain names text.toList))
  | .block name body => inferInstanceAs (Decidable (name ∈ names ∧ IsPlain names body.toList))

/-- **Parts are laid out** for the listed names: their sections are of these names, and no marker of
the names stands in a body, or in the plain text from one section to the next. Parts of plain text
side by side count as one text, and what stands in front of the parts counts with the first of
them. -/
def IsLaidOut (names : List String) (front : List Char) : List Part → Prop
  | [] => IsPlain names front
  | .plain text :: parts => IsLaidOut names (front ++ text.toList) parts
  | .block name body :: parts =>
    IsPlain names front ∧ name ∈ names ∧ IsPlain names body.toList ∧ IsLaidOut names [] parts

instance decidableIsLaidOut (names : List String) :
    ∀ front parts, Decidable (IsLaidOut names front parts)
  | front, [] => inferInstanceAs (Decidable (IsPlain names front))
  | front, .plain text :: parts => decidableIsLaidOut names (front ++ text.toList) parts
  | front, .block name body :: parts =>
    have := decidableIsLaidOut names [] parts
    inferInstanceAs (Decidable (IsPlain names front ∧ name ∈ names ∧ IsPlain names body.toList ∧
      IsLaidOut names [] parts))

/-- **Parts without markers are laid out** if no two of plain text meet. -/
theorem isLaidOut_of_isMarkerFree {names : List String} {parts : List Part}
    (hfree : ∀ part ∈ parts, part.IsMarkerFree names)
    (hapart : parts.IsChain fun part next => part.name?.isSome ∨ next.name?.isSome) :
    IsLaidOut names [] parts := by
  induction parts with
  | nil => exact isPlain_nil names
  | cons part parts ih =>
    obtain ⟨hpart, hparts⟩ := List.forall_mem_cons.1 hfree
    have hrest : IsLaidOut names [] parts := ih hparts hapart.of_cons
    cases part with
    | block name body => exact ⟨isPlain_nil names, hpart.1, hpart.2, hrest⟩
    | plain text =>
      -- The text stands in front of a section, or at the end.
      rcases parts with _ | ⟨_ | ⟨name, body⟩, parts⟩
      · exact hpart
      · have hmeet := (List.isChain_cons_cons.1 hapart).1
        simp [Part.name?] at hmeet
      · exact ⟨hpart, hrest.2⟩

/-- **Where plain parts meet, a marker can form.** None of these parts holds a marker and none is a
section, and neither does the table hold one. But the text they make is a section, and the table
comes to stand in it. -/
theorem substitute_split_markers :
    let parts : List Part := [.plain "<!-- A_STA", .plain "RT -->x<!-- A_", .plain "END -->"]
    IsUnbracketed "A" ∧ IsPlain ["A"] "t".toList ∧
      (∀ part ∈ parts, part.IsMarkerFree ["A"]) ∧ ¬IsLaidOut ["A"] [] parts ∧
      substitute (document parts) [("A", "t")] =
        ⟨"<!-- A_START -->\nt\n<!-- A_END -->", ["A"], []⟩ ∧
      substitute (document parts) [("A", "t")] ≠
        ⟨document (parts.map (Part.filledFrom [("A", "t")])),
          ["A"].filter (· ∈ blockNames parts), ["A"].filter (· ∉ blockNames parts)⟩ := by
  decide +kernel

@[simp] theorem toList_document_nil : (document []).toList = [] := rfl

@[simp] theorem toList_document_cons (part : Part) (parts : List Part) :
    (document (part :: parts)).toList = part.text.toList ++ (document parts).toList := by
  simp [document, String.toList_join]

theorem Part.toList_text_block (name body : String) : (Part.block name body).text.toList =
    (startMarker name).toList ++ (body.toList ++ (endMarker name).toList) := by
  simp [Part.text]

@[simp] theorem blockNames_map_fill (name table : String) (parts : List Part) :
    blockNames (parts.map (Part.fill name table)) = blockNames parts := by
  simp [blockNames, List.filterMap_map]

/-! ### A pass over the parts -/

namespace IsLaidOut

variable {names : List String} (hnames : ∀ name ∈ names, IsUnbracketed name) {name : String}
  {front : List Char}
include hnames

/-- **A section of the name is found** behind a plain text. -/
theorem section?_block {body : String} {parts : List Part}
    (h : IsLaidOut names front (.block name body :: parts)) (rest : List Char) :
    (section? (startMarker name).toList (endMarker name).toList
      (front ++ ((Part.block name body).text.toList ++ rest))) =
        some (front, body.toList, rest) := by
  obtain ⟨hfront, hname, hbody, -⟩ := h
  have hstart := isMark_startMarker (hnames name hname)
  have hend := isMark_endMarker (hnames name hname)
  simp only [Part.toList_text_block, List.append_assoc]
  refine section?_eq_some_iff.2 ⟨_, cut?_of_passes hstart.ne_nil ?_, cut?_of_passes hend.ne_nil ?_⟩
  · exact hstart.passes_of_not_isInfix (hfront name hname).1 (beginsWithMark_append hstart _)
  · exact hend.passes_of_not_isInfix (hbody name hname).2 (beginsWithMark_append hend rest)

/-- **A section of another name is passed over**, and the plain text in front of it. -/
theorem passes_block {other : String} (hname : name ∈ names) (hne : name ≠ other) {body : String}
    {parts : List Part} (h : IsLaidOut names front (.block other body :: parts))
    (rest : List Char) :
    Passes (startMarker name).toList (front ++ (Part.block other body).text.toList) rest := by
  obtain ⟨hfront, hother, hbody, -⟩ := h
  have hmark := isMark_startMarker (hnames name hname)
  have hstart := isMark_startMarker (hnames other hother)
  have hend := isMark_endMarker (hnames other hother)
  rw [Part.toList_text_block]
  refine (hmark.passes_of_not_isInfix (hfront name hname).1 ?_).append <|
    (hmark.passes_of_ne hstart (startMarker_ne hne) _).append <|
    (hmark.passes_of_not_isInfix (hbody name hname).1 ?_).append
      (hmark.passes_of_ne hend (startMarker_ne_endMarker name other) rest)
  · rw [List.append_assoc]
    exact beginsWithMark_append hstart _
  · exact beginsWithMark_append hend rest

/-- There is a section to be found exactly if one of the parts is of the name. -/
theorem isSome_section?_iff (hname : name ∈ names) {parts : List Part}
    (h : IsLaidOut names front parts) :
    (section? (startMarker name).toList (endMarker name).toList
      (front ++ (document parts).toList)).isSome ↔ name ∈ blockNames parts := by
  induction parts generalizing front with
  | nil =>
    have hcut : cut? (startMarker name).toList front = none := cut?_eq_none_iff.2 (h name hname).1
    simp [section?_eq_none_of_cut?_opening hcut, blockNames]
  | cons part parts ih =>
    cases part with
    | plain text =>
      rw [toList_document_cons, ← List.append_assoc]
      exact ih h
    | block other body =>
      rw [toList_document_cons]
      rcases eq_or_ne name other with rfl | hne
      · simp [h.section?_block hnames, blockNames, Part.name?]
      · rw [← List.append_assoc, section?_append_of_passes (h.passes_block hnames hname hne _),
          Option.isSome_map, ← List.nil_append (document parts).toList, ih h.2.2.2]
        simp [blockNames, Part.name?, hne]

/-- **A pass fills the sections of its name** and leaves every other part as it is. -/
theorem pass_document (hname : name ∈ names) (table : String) {parts : List Part}
    (h : IsLaidOut names front parts) :
    pass (front ++ (document parts).toList) (name, table) =
      front ++ (document (parts.map (Part.fill name table))).toList := by
  induction parts generalizing front with
  | nil =>
    rw [List.map_nil, toList_document_nil, List.append_nil]
    exact pass_of_not_isInfix_startMarker (h name hname).1
  | cons part parts ih =>
    cases part with
    | plain text =>
      rw [List.map_cons, toList_document_cons, toList_document_cons, Part.fill, Part.text,
        ← List.append_assoc, ← List.append_assoc]
      exact ih h
    | block other body =>
      have hrest : pass (document parts).toList (name, table) =
        (document (parts.map (Part.fill name table))).toList := ih h.2.2.2
      rw [List.map_cons, toList_document_cons, toList_document_cons, ← hrest]
      rcases eq_or_ne name other with rfl | hne
      · rw [pass, refill_of_section? (h.section?_block hnames _)]
        simp [Part.fill, Part.toList_text_block, filling, pass]
      · rw [← List.append_assoc, pass, refill_append_of_passes (h.passes_block hnames hname hne _)]
        simp [Part.fill, hne.symm, pass]

/-- With a plain table in its sections a document is laid out as before. -/
theorem map_fill {table : String} (htable : IsPlain names table.toList) {parts : List Part}
    (h : IsLaidOut names front parts) :
    IsLaidOut names front (parts.map (Part.fill name table)) := by
  have hfilling : IsPlain names ("\n" ++ table ++ "\n").toList := by
    rw [toList_filling]
    exact htable.filling hnames
  induction parts generalizing front with
  | nil => exact h
  | cons part parts ih =>
    cases part with
    | plain text => exact ih h
    | block other body =>
      obtain ⟨hfront, hother, hbody, hparts⟩ := h
      refine ⟨hfront, hother, ?_, ih hparts⟩
      split
      · exact hfilling
      · exact hbody

end IsLaidOut

/-! ### One table after the other -/

theorem lookup_cons_of_ne {name : String} {entry : String × String} (hne : name ≠ entry.1)
    (entries : List (String × String)) : (entry :: entries).lookup name = entries.lookup name := by
  rw [List.lookup_cons, beq_false_of_ne hne]

/-- Entries with names of their own are found in any order. -/
theorem lookup_eq_of_perm {entries others : List (String × String)} (hperm : entries.Perm others)
    (hdistinct : (entries.map Prod.fst).Nodup) (name : String) :
    entries.lookup name = others.lookup name := by
  induction hperm with
  | nil => rfl
  | cons entry _ ih => rw [List.lookup_cons, List.lookup_cons, ih (List.nodup_cons.1 hdistinct).2]
  | swap first second entries =>
    have hne : first.1 ≠ second.1 := fun h => (List.nodup_cons.1 hdistinct).1 (by simp [h])
    rcases eq_or_ne name first.1 with rfl | hfirst
    · rw [lookup_cons_of_ne hne, List.lookup_cons_self, List.lookup_cons_self]
    · rw [lookup_cons_of_ne hfirst, List.lookup_cons, lookup_cons_of_ne hfirst, List.lookup_cons]
  | trans hperm _ ih ih' => rw [ih hdistinct, ih' ((hperm.map Prod.fst).nodup_iff.1 hdistinct)]

namespace Part

theorem filledFrom_nil : filledFrom [] = id := by
  funext part
  cases part <;> rfl

/-- The table that a part is filled with first stays, if the others are of other names. -/
theorem filledFrom_fill {table : String × String} {tables : List (String × String)}
    (h : table.1 ∉ tables.map Prod.fst) (part : Part) :
    (part.fill table.1 table.2).filledFrom tables = part.filledFrom (table :: tables) := by
  cases part with
  | plain text => rfl
  | block name body =>
    obtain ⟨other, table⟩ := table
    rcases eq_or_ne name other with rfl | hne
    · have hnone : tables.lookup name = none := by
        rw [← Option.not_isSome_iff_eq_none, List.lookup_isSome_iff]
        rintro ⟨entry, hentry, heq⟩
        exact h (List.mem_map.2 ⟨entry, hentry, (beq_iff_eq.1 heq).symm⟩)
      simp [fill, filledFrom, hnone]
    · simp [fill, filledFrom, lookup_cons_of_ne, hne]

end Part

section Run

variable {names : List String} (hnames : ∀ name ∈ names, IsUnbracketed name)
include hnames

/-- **One table** fills the sections of its name, and is missing its section if there is none. -/
theorem step_document {name : String} (hname : name ∈ names) (table : String) {parts : List Part}
    (h : IsLaidOut names [] parts) {s : Substitution} (htext : s.text = document parts) :
    s.step name table = ⟨document (parts.map (Part.fill name table)),
      s.replaced ++ [name].filter (· ∈ blockNames parts),
      s.missing ++ [name].filter (· ∉ blockNames parts)⟩ := by
  have hpass : pass (document parts).toList (name, table) =
    (document (parts.map (Part.fill name table))).toList := h.pass_document hnames hname table
  have hsome : (section? (startMarker name).toList (endMarker name).toList
      (document parts).toList).isSome ↔ name ∈ blockNames parts :=
    h.isSome_section?_iff hnames hname
  rw [Substitution.step, replaceSection?_eq, htext]
  cases hsection : section? (startMarker name).toList (endMarker name).toList
    (document parts).toList with
  | some p =>
    have hmem : name ∈ blockNames parts := hsome.1 (by rw [hsection]; rfl)
    simp [hpass, hmem]
  | none =>
    have hnotMem : name ∉ blockNames parts := by simpa [hsection] using hsome.not.1
    rw [pass, refill_of_section?_eq_none hsection, String.toList_inj] at hpass
    simp [← hpass, ← htext, hnotMem]

/-- **A run over the tables** fills the sections of all their names. -/
theorem foldl_step_document {tables : List (String × String)}
    (hdistinct : (tables.map Prod.fst).Nodup)
    (htables : ∀ table ∈ tables, table.1 ∈ names ∧ IsPlain names table.2.toList)
    {parts : List Part} (h : IsLaidOut names [] parts) {s : Substitution}
    (htext : s.text = document parts) :
    tables.foldl (fun s table => s.step table.1 table.2) s =
      ⟨document (parts.map (Part.filledFrom tables)),
        s.replaced ++ (tables.map Prod.fst).filter (· ∈ blockNames parts),
        s.missing ++ (tables.map Prod.fst).filter (· ∉ blockNames parts)⟩ := by
  induction tables generalizing parts s with
  | nil =>
    rw [Part.filledFrom_nil, List.map_id, ← htext]
    simp
  | cons table tables ih =>
    obtain ⟨hnotMem, hdistinct⟩ := List.nodup_cons.1 hdistinct
    obtain ⟨⟨hname, htable⟩, htables⟩ := List.forall_mem_cons.1 htables
    rw [List.foldl_cons, step_document hnames hname table.2 h htext,
      ih hdistinct htables (h.map_fill hnames htable) rfl, List.map_map, blockNames_map_fill,
      List.append_assoc, List.append_assoc, ← List.filter_append, ← List.filter_append]
    simp only [Function.comp_def, Part.filledFrom_fill hnotMem, List.map_cons,
      List.singleton_append]

end Run

/-- **Substitution changes the marked sections only.** In a document laid out for some names,
tables without markers for any of the names come to stand in all the sections of their names, and
every other part stays as it is. The names of the tables are told apart into those that have a
section and those that have none, in the order of the tables; and for the text the order of the
tables does not matter. -/
theorem substitute_document {names : List String} {parts : List Part}
    {tables : List (String × String)} (hnames : ∀ name ∈ names, IsUnbracketed name)
    (hparts : IsLaidOut names [] parts) (hdistinct : (tables.map Prod.fst).Nodup)
    (htables : ∀ table ∈ tables, table.1 ∈ names ∧ IsPlain names table.2.toList) :
    substitute (document parts) tables =
        ⟨document (parts.map (Part.filledFrom tables)),
          (tables.map Prod.fst).filter (· ∈ blockNames parts),
          (tables.map Prod.fst).filter (· ∉ blockNames parts)⟩ ∧
      ∀ others, others.Perm tables →
        (substitute (document parts) others).text = (substitute (document parts) tables).text := by
  have hrun : ∀ others : List (String × String), others.Perm tables →
      (substitute (document parts) others).text =
        document (parts.map (Part.filledFrom others)) := by
    intro others hperm
    rw [substitute, foldl_step_document hnames ((hperm.map Prod.fst).nodup_iff.2 hdistinct)
      (fun table htable => htables table (hperm.mem_iff.1 htable)) hparts rfl]
  refine ⟨?_, fun others hperm => ?_⟩
  · rw [substitute, foldl_step_document hnames hdistinct htables hparts rfl]
    simp
  · have hlookup := lookup_eq_of_perm hperm ((hperm.map Prod.fst).nodup_iff.2 hdistinct)
    have hfilled : Part.filledFrom others = Part.filledFrom tables := by
      funext part
      cases part with
      | plain text => rfl
      | block name body => rw [Part.filledFrom, Part.filledFrom, hlookup]
    rw [hrun others hperm, hrun tables (.refl _), hfilled]

/-- Two sections of one name, side by side with one of another, a stray half of a marker in the
text between them, and a table without a section. -/
theorem substitute_document_adjacent :
    substitute (document [.plain "a < b ", .block "A" "old", .block "B" "", .block "A" "<!-- D -->",
        .plain "<!-- A_END", .plain " > "]) [("C", "c"), ("A", "a")] =
      ⟨document [.plain "a < b ", .block "A" "\na\n", .block "B" "", .block "A" "\na\n",
        .plain "<!-- A_END", .plain " > "], ["A"], ["C"]⟩ :=
  (substitute_document (by decide : ∀ name ∈ ["A", "B", "C"], IsUnbracketed name) (by decide)
    (by decide) (by decide)).1

end FirmwareReport
