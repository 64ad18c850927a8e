import FirmwareReport.LinkerMap.Line

/-!
# Reading a map line by line

A continuation does not name its section, so a reader of the map carries the
section in force: the one named last by a full line or a header. `Cursor.advance`
feeds one line to it and says what the line contributed.
-/

namespace FirmwareReport.LinkerMap

/-- A contribution: so many bytes of a section, from an object file. -/
structure Entry where
  sectionName : String
  size : Nat
  path : String
deriving DecidableEq, Repr

/-- The section in force. -/
structure Cursor where
  current : Option String
deriving DecidableEq, Repr

/-- What a line contributed. -/
inductive Outcome
  /-- A contribution. -/
  | entry (entry : Entry)
  /-- A contribution whose size does not fit into a word. -/
  | oversized
  /-- A continuation without a section in force. -/
  | orphan
  /-- Nothing, be it a header or a line of no shape. -/
  | nothing
deriving DecidableEq, Repr

/-- A contribution to a section, unless its size is too large. -/
def Outcome.ofSize (name size path : String) : Outcome :=
  match sizeBytes? size.toList with
  | some bytes => .entry ⟨name, bytes, path⟩
  | none => .oversized

namespace Cursor

/-- No section is in force at the start of a map. -/
def start : Cursor := ⟨none⟩

/-- Feed one line. A full line puts its section in force even when its size is too large. -/
def advance (cursor : Cursor) (text : List Char) : Outcome × Cursor :=
  match Line.ofText text with
  | .full name size path => (.ofSize name size path, ⟨some name⟩)
  | .header name => (.nothing, ⟨some name⟩)
  | .continuation size path =>
    match cursor.current with
    | some name => (.ofSize name size path, cursor)
    | none => (.orphan, cursor)
  | .unrecognized => (.nothing, cursor)

end Cursor

end FirmwareReport.LinkerMap
