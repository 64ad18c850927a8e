import FirmwareReport.Number.Decimal
import FirmwareReport.Number.Numeral

/-!
# JSON texts

The values a dataset is made of, and their text: one member or item per line, two
blanks of indentation per level, no line break at the end. An object is a list of
members and keeps their order. A list or an object without contents is written as a pair
of brackets.

In a string only what has to be escaped is escaped: the quote, the backslash and the
control characters below U+0020.
-/

namespace FirmwareReport

/-- A JSON value of a dataset. -/
inductive Json
  /-- A whole number. -/
  | natural (n : Nat)
  /-- A number in double precision. -/
  | real (x : Float)
  | text (s : String)
  | list (items : List Json)
  | object (members : List (String × Json))

namespace Json

/-! ### Strings -/

/-- The control characters with an escape of one letter, in front of that letter. -/
def shortEscapes : List (Char × Char) :=
  [('"', '"'), ('\\', '\\'), ('\x08', 'b'), ('\x0c', 'f'), ('\n', 'n'), ('\r', 'r'), ('\t', 't')]

/-- A character inside a string. -/
def escape (c : Char) : List Char :=
  match shortEscapes.lookup c with
  | some letter => ['\\', letter]
  | none =>
    if c.toNat < 0x20 then
      ['\\', 'u', '0', '0', Nat.digitChar (c.toNat / 16), Nat.digitChar (c.toNat % 16)]
    else [c]

/-- A string in its quotes. -/
def quote (s : String) : List Char :=
  ['"'] ++ s.toList.flatMap escape ++ ['"']

/-! ### Values -/

/-- A line break and the indentation of a level. -/
def lineBreak (level : Nat) : List Char :=
  '\n' :: List.replicate (2 * level) ' '

mutual

/-- A value at a level of indentation. -/
def write (level : Nat) : Json → List Char
  | .natural n => Nat.toDigits 10 n
  | .real x => (Style.dataset.write x).toList
  | .text s => quote s
  | .list [] => ['[', ']']
  | .list (item :: items) =>
    ['['] ++ lineBreak (level + 1) ++ write (level + 1) item ++ writeItems (level + 1) items ++
      lineBreak level ++ [']']
  | .object [] => ['\x7b', '\x7d']
  | .object ((name, value) :: members) =>
    ['\x7b'] ++ lineBreak (level + 1) ++ quote name ++ [':', ' '] ++ write (level + 1) value ++
      writeMembers (level + 1) members ++ lineBreak level ++ ['\x7d']

/-- Further items of a list, each behind a comma. -/
def writeItems (level : Nat) : List Json → List Char
  | [] => []
  | item :: items => [','] ++ lineBreak level ++ write level item ++ writeItems level items

/-- Further members of an object, each behind a comma. -/
def writeMembers (level : Nat) : List (String × Json) → List Char
  | [] => []
  | (name, value) :: members =>
    [','] ++ lineBreak level ++ quote name ++ [':', ' '] ++ write level value ++
      writeMembers level members

end

/-- **The text of a value.** -/
def toText (value : Json) : String :=
  String.ofList (value.write 0)

end Json

end FirmwareReport
