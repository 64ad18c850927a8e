import FirmwareReport.Number.Numeral
import FirmwareReport.Text.Blank

/-!
# The shapes of a map line

A linker map lists what each object file contributes to each section. Three
shapes of line matter, read after the white space at the end of the line is gone:

| shape | form |
|---|---|
| full | blanks?, section, blanks, address, blanks, size, blanks, path |
| section header | blanks?, section |
| continuation | blanks, address, blanks, size, blanks, path |

A section name is a dot and one or more letters, digits, dots or underscores;
address and size are `0x` and one or more hexadecimal digits; a path is what is
left of the line, blanks inside it included. A linker wraps an entry whose section
name is long: the name then stands on a line of its own, as a header, and the rest
follows as a continuation.

At each point of a shape the next character decides how to go on – a name or a
number ends where a blank begins – so every recogniser below reads forwards and
never back, and no line has two shapes.
-/

namespace FirmwareReport.LinkerMap

open Text

/-- What a line of a linker map says. -/
inductive Line
  /-- A contribution with its section, its size as written and its path. -/
  | full (name size path : String)
  /-- The name of a section, alone on its line. -/
  | header (name : String)
  /-- A contribution to the section in force. -/
  | continuation (size path : String)
  /-- Anything else. -/
  | unrecognized
deriving DecidableEq, Repr

/-! ### The parts of a line -/

/-- The characters of a section name behind its dot. -/
def isNameChar (c : Char) : Bool :=
  c.isAlphanum || c == '_' || c == '.'

/-- What follows one or more blanks. -/
def blanks? : List Char → Option (List Char)
  | [] => none
  | c :: s => if isBlank c then some (trimStart s) else none

/-- A section name, and what follows it. -/
def sectionName? : List Char → Option (List Char × List Char)
  | '.' :: s =>
    let name := s.takeWhile isNameChar
    if name.isEmpty then none else some ('.' :: name, s.dropWhile isNameChar)
  | _ => none

/-- A hexadecimal number with its `0x`, and what follows it. -/
def hexWord? : List Char → Option (List Char × List Char)
  | '0' :: 'x' :: s =>
    let digits := s.takeWhile (isDigitOf 16)
    if digits.isEmpty then none else some ('0' :: 'x' :: digits, s.dropWhile (isDigitOf 16))
  | _ => none

/-- A path: the rest of a line, not empty and without a newline. -/
def path? (s : List Char) : Option (List Char) :=
  if s.isEmpty || s.contains '\n' then none else some s

/-- Address, size and path: what a full line and a continuation have in common.
The address is read and dropped. -/
def sizeAndPath? (s : List Char) : Option (String × String) := do
  let (_, s) ← hexWord? s
  let s ← blanks? s
  let (size, s) ← hexWord? s
  let s ← blanks? s
  let path ← path? s
  return (String.ofList size, String.ofList path)

/-! ### The three shapes, on a line without blanks at its end -/

/-- A full line. -/
def full? (line : List Char) : Option Line := do
  let (name, s) ← sectionName? (trimStart line)
  let s ← blanks? s
  let (size, path) ← sizeAndPath? s
  return .full (String.ofList name) size path

/-- A section header. -/
def header? (line : List Char) : Option Line := do
  let (name, s) ← sectionName? (trimStart line)
  if isAllBlank s then return .header (String.ofList name) else none

/-- A continuation. -/
def continuation? (line : List Char) : Option Line := do
  let s ← blanks? line
  let (size, path) ← sizeAndPath? s
  return .continuation size path

/-- **The shape of a line.** -/
def Line.ofText (text : List Char) : Line :=
  let line := trimEnd text
  (full? line <|> header? line <|> continuation? line).getD .unrecognized

/-! ### Sizes -/

/-- The number of bytes a hexadecimal size stands for, if it fits into a word. One
`0x` or `0X` in front is skipped. -/
def sizeBytes? (size : List Char) : Option Nat :=
  unsigned? 16 <| match size with
    | '0' :: 'x' :: digits => digits
    | '0' :: 'X' :: digits => digits
    | _ => size

example : Line.ofText " .text.poly  0x08000000\t0x1F8 build/a b.o \r\n".toList =
    .full ".text.poly" "0x1F8" "build/a b.o" := by decide +kernel
example : Line.ofText ".bss ".toList = .header ".bss" := by decide +kernel
example : Line.ofText "  0x0 0x10 a.o".toList = .continuation "0x10" "a.o" := by decide +kernel
example : Line.ofText "0x0 0x10 a.o".toList = .unrecognized := by decide +kernel

end FirmwareReport.LinkerMap
