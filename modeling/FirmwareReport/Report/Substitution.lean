import FirmwareReport.Text.Search

/-!
# Regenerating the sections of a document

A document marks the sections that are generated with a pair of comments, one in
front and one behind:

    <!-- STACK_TABLE_START -->
    …
    <!-- STACK_TABLE_END -->

`replaceSection?` puts a table in place of whatever stands between the markers of a
name. It goes through the document from the front: the first start marker, then the
first end marker behind it, and on from there. The markers themselves stay, so the
next run finds them again. A start marker without an end behind it, or an end
without a start in front, is text like any other.

`substitute` does so for several names, one after the other, and says for which of
them there was a section at all.
-/

namespace FirmwareReport

/-- The marker in front of a section. -/
def startMarker (name : String) : String :=
  "<!-- " ++ name ++ "_START -->"

/-- The marker behind a section. -/
def endMarker (name : String) : String :=
  "<!-- " ++ name ++ "_END -->"

/-- The first section between two markers: what stands before it, what it holds, and
what follows it. -/
def section? (opening closing s : List Char) : Option (List Char × List Char × List Char) := do
  let (before, s) ← Text.cut? opening s
  let (body, after) ← Text.cut? closing s
  return (before, body, after)

theorem length_of_section? {opening closing s before body after : List Char}
    (h : section? opening closing s = some (before, body, after)) :
    after.length + opening.length ≤ s.length := by
  simp only [section?, Option.bind_eq_bind, Option.bind_eq_some_iff, Option.pure_def,
    Option.some.injEq, Prod.mk.injEq, Prod.exists] at h
  obtain ⟨g, s', h₁, b, r, h₂, -, -, rfl⟩ := h
  have := Text.length_of_cut? h₁
  have := Text.length_of_cut? h₂
  omega

/-- The document with `filling` between the markers of every section, if there is one.
The text before `s` that is done already is in `done`, last piece first. -/
def refillFrom? (opening closing filling : List Char) (h : 0 < opening.length)
    (done : List (List Char)) (s : List Char) : Option (List Char) :=
  match _h : section? opening closing s with
  | some (before, _, after) =>
    refillFrom? opening closing filling h
      ((before ++ opening ++ filling ++ closing) :: done) after
  | none => if done.isEmpty then none else some ((s :: done).reverse.flatten)
termination_by s.length
decreasing_by
  have := length_of_section? _h
  omega

theorem length_startMarker_pos (name : String) : 0 < (startMarker name).toList.length := by
  simp [startMarker]

/-- The document with a table in place of every section of a name; none if the document
has no such section. -/
def replaceSection? (document name table : String) : Option String :=
  (refillFrom? (startMarker name).toList (endMarker name).toList ("\n" ++ table ++ "\n").toList
    (length_startMarker_pos name) [] document.toList).map String.ofList

/-- What became of a document. -/
structure Substitution where
  text : String
  /-- The names whose sections were regenerated. -/
  replaced : List String
  /-- The names without a section. -/
  missing : List String
deriving DecidableEq, Repr

/-- One more table. -/
def Substitution.step (s : Substitution) (name table : String) : Substitution :=
  match replaceSection? s.text name table with
  | some text => { s with text, replaced := s.replaced ++ [name] }
  | none => { s with missing := s.missing ++ [name] }

/-- **Put tables into a document**, each between the markers of its name, in turn. -/
def substitute (document : String) (tables : List (String × String)) : Substitution :=
  tables.foldl (fun s table => s.step table.1 table.2) ⟨document, [], []⟩

end FirmwareReport
