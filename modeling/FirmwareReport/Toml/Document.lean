import FirmwareReport.Toml.Quoted
import FirmwareReport.Toml.Table

/-!
# Reading a document

A document is read line by line: blank lines and comments are passed over, an
assignment is a key, an equals sign and a value, and a header is a key in one pair of
brackets or in two. Arrays may run over several lines and hold comments, tables in
braces may not.

Values nest. Arrays and braces are refused from the eightieth level on and so are keys of
eighty parts or more; the levels still allowed are what `value?` recurs on.
-/

namespace FirmwareReport.Toml

/-- How many levels of brackets and braces, and parts of a key, are too many. -/
def nestingLimit : Nat := 80

/-! ### Between values -/

/-- Skip the blanks of a line. -/
def skipLineBlanks (s : List Char) : List Char :=
  s.dropWhile isLineBlank

/-- Skip a comment, if one begins here. -/
def skipComment (s : List Char) : List Char :=
  match s with
  | '#' :: s => s.dropWhile isText
  | s => s

/-- What follows the end of a line: blanks, a comment and a line break. The last line
may do without its break. -/
def lineEnd? (s : List Char) : Option (List Char) :=
  match skipComment (skipLineBlanks s) with
  | [] => some []
  | s => newline? s

/-- Skip blanks, line breaks and comments; `inComment` says that a comment has begun. -/
def skipTrivia (inComment : Bool) : List Char → List Char
  | [] => []
  | c :: s =>
    if c = '\n' then skipTrivia false s
    else if c = '\r' then
      match s with
      | '\n' :: s => skipTrivia false s
      | s => c :: s
    else if inComment then if isText c then skipTrivia true s else c :: s
    else if isLineBlank c then skipTrivia false s
    else if c = '#' then skipTrivia true s
    else c :: s

/-! ### Keys -/

/-- The characters of a key without quotes. -/
def isBareKeyChar (c : Char) : Bool :=
  c.isAlphanum || c == '_' || c == '-'

/-- One part of a key, and what follows it. -/
def keyPart? (s : List Char) : Option (String × List Char) :=
  match s with
  | '"' :: s => (basic? s).map fun p => (String.ofList p.1, p.2)
  | '\'' :: s => (literal? s).map fun p => (String.ofList p.1, p.2)
  | s =>
    let part := s.takeWhile isBareKeyChar
    if part.isEmpty then none else some (String.ofList part, s.dropWhile isBareKeyChar)

/-- The parts of a key with dots between them, and what follows it. -/
def keyParts? (s : List Char) : Option (List String × List Char) :=
  match keyPart? (skipLineBlanks s) with
  | none => none
  | some (part, rest) =>
    match skipLineBlanks rest with
    | '.' :: rest =>
      if rest.length < s.length then (keyParts? rest).map fun p => (part :: p.1, p.2) else none
    | rest => some ([part], rest)
termination_by s.length

/-- A key: all parts but the last, the last, and what follows the key. -/
def key? (s : List Char) : Option (List String × String × List Char) := do
  let (parts, rest) ← keyParts? s
  let name ← parts.getLast?
  if parts.length < nestingLimit then return (parts.dropLast, name, rest) else none

/-! ### Values -/

/-- The items of an array behind its bracket, and what follows the array. A comma may
stand behind the last item. -/
def arrayItems? (value? : List Char → Option (Item × List Char)) (s : List Char) :
    Option (List Item × List Char) :=
  match skipTrivia false s with
  | ']' :: rest => some ([], rest)
  | s' =>
    match value? s' with
    | none => none
    | some (item, rest) =>
      match skipTrivia false rest with
      | ']' :: rest => some ([item], rest)
      | ',' :: rest =>
        if rest.length < s.length then
          (arrayItems? value? rest).map fun p => (item :: p.1, p.2)
        else none
      | _ => none
termination_by s.length

/-- The assignments of a table in braces, one at least, and what follows the table. -/
def inlineAssignments? (value? : List Char → Option (Item × List Char)) (s : List Char) :
    Option (List Assignment × List Char) :=
  match key? s with
  | some (path, name, '=' :: rest) =>
    match value? (skipLineBlanks rest) with
    | none => none
    | some (item, rest) =>
      match skipLineBlanks rest with
      | '\x7d' :: rest => some ([⟨path, name, item⟩], rest)
      | ',' :: rest =>
        if rest.length < s.length then
          (inlineAssignments? value? rest).map fun p => (⟨path, name, item⟩ :: p.1, p.2)
        else none
      | _ => none
  | _ => none
termination_by s.length

/-- A table in braces behind the opening one, and what follows it. -/
def inlineTable? (value? : List Char → Option (Item × List Char)) (s : List Char) :
    Option (Item × List Char) :=
  match skipLineBlanks s with
  | '\x7d' :: rest => some (.table .closed [], rest)
  | _ => do
    let (assignments, rest) ← inlineAssignments? value? s
    let entries ← Entries.assignAll? assignments []
    return (.table .closed entries, rest)

/-- **Read a value** with so many more levels of nesting, and what follows it. -/
def value? (levels : Nat) (s : List Char) : Option (Item × List Char) :=
  match s, levels with
  | '"' :: _, _ => (unquote? s).map fun p => (.text (String.ofList p.1), p.2)
  | '\'' :: _, _ => (unquote? s).map fun p => (.text (String.ofList p.1), p.2)
  | '[' :: rest, levels + 1 =>
    (arrayItems? (value? levels) rest).map fun p => (.array p.1, p.2)
  | '\x7b' :: rest, levels + 1 => inlineTable? (value? levels) rest
  | _, _ => (Scalar.read? s).map fun p => (.scalar p.1, p.2)

/-! ### Lines -/

/-- A line of a document that is no comment. -/
inductive Line
  | assignment (assignment : Assignment)
  | header (element : Bool) (path : List String) (name : String)

/-- An assignment up to the end of its line, and what follows it. -/
def assignmentLine? (s : List Char) : Option (Line × List Char) := do
  let (path, name, s) ← key? s
  let '=' :: s := s | none
  let (item, s) ← value? (nestingLimit - 1) (skipLineBlanks s)
  let s ← lineEnd? s
  return (.assignment ⟨path, name, item⟩, s)

/-- A header up to the end of its line, and what follows it. -/
def headerLine? (s : List Char) : Option (Line × List Char) :=
  match s with
  | '[' :: '[' :: s => do
    let (path, name, s) ← key? s
    let ']' :: ']' :: s := s | none
    let s ← lineEnd? s
    return (.header true path name, s)
  | '[' :: s => do
    let (path, name, s) ← key? s
    let ']' :: s := s | none
    let s ← lineEnd? s
    return (.header false path name, s)
  | _ => none

/-- All lines of a document. -/
def lines? (s : List Char) : Option (List Line) :=
  match skipTrivia false s with
  | [] => some []
  | c :: s' =>
    match if c = '[' then headerLine? (c :: s') else assignmentLine? (c :: s') with
    | none => none
    | some (line, rest) =>
      if rest.length < s.length then (lines? rest).map (line :: ·) else none
termination_by s.length

/-- Put the assignments of a document below their headers. -/
def Document.ofLines (lines : List Line) : Document :=
  lines.foldr (fun line document =>
    match line with
    | .assignment a => { document with top := a :: document.top }
    | .header element path name =>
      ⟨[], ⟨element, path, name, document.top⟩ :: document.sections⟩) ⟨[], []⟩

/-- **Read a document.** A byte order mark in front is passed over. -/
def Document.read? (text : List Char) : Option Document :=
  let text := match text with
    | '\uFEFF' :: text => text
    | text => text
  (lines? text).map .ofLines

end FirmwareReport.Toml
