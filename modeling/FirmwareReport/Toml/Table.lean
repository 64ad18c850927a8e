import FirmwareReport.Toml.Scalar

/-!
# Tables

What a TOML document says is a table: names with items, in the order in which they
came. Tables come about in four ways, and the way decides what may be added later:

| kind | came about by | may be entered by a header | may be extended by dotted keys |
|---|---|---|---|
| `header` | a header of its own | yes | no |
| `implied` | the header of a table inside it | yes, and named by one | only to go further down |
| `dotted` | a dotted key | yes | yes |
| `closed` | braces | no | no |

Names are never given twice. `assign?` adds an item under a dotted key, and `place?` puts a
table at the end of a header's path.
-/

namespace FirmwareReport.Toml

/-- How a table came about. -/
inductive TableKind
  | header
  | implied
  | dotted
  | closed
deriving DecidableEq, Repr

/-- What a name can stand for. -/
inductive Item
  | scalar (value : Scalar)
  | text (value : String)
  | array (items : List Item)
  | table (kind : TableKind) (entries : List (String × Item))
  /-- A list of tables that each have a header of their own. -/
  | tables (elements : List (List (String × Item)))

/-- Names with items, none of them twice. -/
abbrev Entries := List (String × Item)

namespace Entries

/-- Change the item of a name, or give the name one: `change` is told what there is. -/
def update? (name : String) (change : Option Item → Option Item) : Entries → Option Entries
  | [] => (change none).map fun item => [(name, item)]
  | (other, item) :: entries =>
    if other = name then (change (some item)).map fun item => (name, item) :: entries
    else (update? name change entries).map ((other, item) :: ·)

/-- Change the last of a list of tables. -/
def updateLast? (change : Entries → Option Entries) : List Entries → Option (List Entries)
  | [] => none
  | [entries] => (change entries).map ([·])
  | entries :: more => (updateLast? change more).map (entries :: ·)

/-- Add an item under a dotted key, the last part of which is `name`. A table on the
way has to be one that dotted keys may extend. -/
def assign? (path : List String) (name : String) (item : Item) (entries : Entries) :
    Option Entries :=
  match path with
  | [] => entries.update? name fun
    | none => some item
    | some _ => none
  | step :: path => entries.update? step fun
    | none => (assign? path name item []).map (.table .dotted)
    | some (.table .dotted inner) => (assign? path name item inner).map (.table .dotted)
    | some (.table .implied inner) =>
      if path.isEmpty then none else (assign? path name item inner).map (.table .implied)
    | some (.tables elements) =>
      if path.isEmpty then none
      else (updateLast? (fun inner => assign? path name item inner) elements).map .tables
    | some _ => none

/-- Go down the path of a header, and put there what `change` makes of what there is. -/
def place? (path : List String) (name : String) (change : Option Item → Option Item)
    (entries : Entries) : Option Entries :=
  match path with
  | [] => entries.update? name change
  | step :: path => entries.update? step fun
    | none => (place? path name change []).map (.table .implied)
    | some (.table .closed _) => none
    | some (.table kind inner) => (place? path name change inner).map (.table kind)
    | some (.tables elements) =>
      (updateLast? (fun inner => place? path name change inner) elements).map .tables
    | some _ => none

/-- The item of a name. -/
def find? (entries : Entries) (name : String) : Option Item :=
  entries.lookup name

end Entries

/-! ### Documents -/

/-- An item under a dotted key; `path` holds all parts of the key but the last. -/
structure Assignment where
  path : List String
  name : String
  item : Item

/-- Add the items of some assignments. -/
def Entries.assignAll? (assignments : List Assignment) (entries : Entries) : Option Entries :=
  assignments.foldlM (fun entries a => entries.assign? a.path a.name a.item) entries

/-- A header and the assignments below it. -/
structure Section where
  /-- Whether the header adds a table to a list of tables. -/
  element : Bool
  path : List String
  name : String
  assignments : List Assignment

/-- A document: assignments, and then sections. -/
structure Document where
  top : List Assignment
  sections : List Section

namespace Section

/-- Put a section into its place. A table may only be named once by a header. -/
def enter? (entries : Entries) (s : Section) : Option Entries :=
  if s.element then
    entries.place? s.path s.name fun
      | none => (Entries.assignAll? s.assignments []).map fun inner => .tables [inner]
      | some (.tables elements) =>
        (Entries.assignAll? s.assignments []).map fun inner => .tables (elements ++ [inner])
      | some _ => none
  else
    entries.place? s.path s.name fun
      | none => (Entries.assignAll? s.assignments []).map (.table .header)
      | some (.table .implied inner) =>
        (Entries.assignAll? s.assignments inner).map (.table .header)
      | some _ => none

end Section

/-- **What a document says**, unless it says something twice. -/
def Document.entries? (document : Document) : Option Entries := do
  let top ← Entries.assignAll? document.top []
  document.sections.foldlM Section.enter? top

end FirmwareReport.Toml
