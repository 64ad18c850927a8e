import FirmwareReport.Number.Numeral

/-!
# Reading JSON

A reader for all JSON texts, the other side of `FirmwareReport.Json.toText`. It keeps to the grammar
of the format and knows nothing of how the texts of this library are laid out: blanks and line
breaks may stand around every value, all escapes are resolved, and a text that is not exactly one
value is refused.

What is written without quotes or brackets – numbers and the three names – is a word over one
alphabet, none of whose characters can follow it, so such a value is read by taking the longest run
of them (`FirmwareReport.Datum.ofWord?`). Numbers are checked and kept as they are written.

Values nest. The levels still allowed are what `FirmwareReport.Datum.value?` recurs on;
`FirmwareReport.Datum.read?` allows more than the text is long, which is no limit.
-/

namespace FirmwareReport

/-- A JSON value as it is read. -/
inductive Datum
  | null
  | boolean (value : Bool)
  /-- A number, as written. -/
  | number (literal : String)
  | text (s : String)
  | list (items : List Datum)
  | object (members : List (String × Datum))

namespace Datum

/-- White space between values. -/
def isBlank (c : Char) : Bool :=
  c == ' ' || c == '\t' || c == '\n' || c == '\r'

/-- Skip white space. -/
def skipBlanks (s : List Char) : List Char :=
  s.dropWhile isBlank

/-! ### Numbers and names -/

/-- What follows a run of digits, one at least. -/
def behindDigits? (s : List Char) : Option (List Char) :=
  if (s.takeWhile Char.isDigit).isEmpty then none else some (s.dropWhile Char.isDigit)

/-- What follows the whole part of a number, which has no zero in front of other digits. -/
def behindWhole? : List Char → Option (List Char)
  | '0' :: s => some s
  | s => behindDigits? s

/-- What follows the fraction of a number, if it has one. -/
def behindFraction? : List Char → Option (List Char)
  | '.' :: s => behindDigits? s
  | s => some s

/-- What follows the exponent of a number, if it has one; that may have a sign of its own. -/
def behindExponent? : List Char → Option (List Char)
  | c :: s =>
    if c = 'e' ∨ c = 'E' then
      match s with
      | '+' :: s => behindDigits? s
      | '-' :: s => behindDigits? s
      | s => behindDigits? s
    else some (c :: s)
  | [] => some []

/-- Whether a word is a number without a sign: a whole part, and a fraction and an exponent or
none. -/
def isMagnitude (word : List Char) : Bool :=
  ((behindWhole? word).bind behindFraction?).bind behindExponent? == some []

/-- Whether a word is a number, with a minus sign in front or none. -/
def isNumber : List Char → Bool
  | '-' :: word => isMagnitude word
  | word => isMagnitude word

/-- The characters of numbers and names. -/
def isWordChar (c : Char) : Bool :=
  c.isAlphanum || c == '+' || c == '-' || c == '.'

/-- The value of a word. -/
def ofWord? (word : List Char) : Option Datum :=
  if word = "null".toList then some .null
  else if word = "true".toList then some (.boolean true)
  else if word = "false".toList then some (.boolean false)
  else if isNumber word then some (.number (String.ofList word))
  else none

/-! ### Strings -/

/-- The characters with an escape of one letter, behind that letter. -/
def shortEscapes : List (Char × Char) :=
  [('"', '"'), ('\\', '\\'), ('/', '/'), ('b', '\x08'), ('f', '\x0c'), ('n', '\n'), ('r', '\r'),
    ('t', '\t')]

/-- A number of four hexadecimal digits, and what follows them. -/
def codeUnit? (s : List Char) : Option (Nat × List Char) :=
  let digits := s.take 4
  if digits.length = 4 ∧ digits.all (isDigitOf 16) = true then
    some (positional 16 digits, s.drop 4)
  else none

/-- A character given by its number behind `\u`, and what follows it. Characters above U+FFFF are
given by two numbers, of which the first is from U+D800 on and the second from U+DC00 on. -/
def codePoint? (s : List Char) : Option (Char × List Char) :=
  match codeUnit? s with
  | none => none
  | some (unit, rest) =>
    if 0xd800 ≤ unit ∧ unit < 0xdc00 then
      match rest with
      | '\\' :: 'u' :: s =>
        match codeUnit? s with
        | none => none
        | some (second, rest) =>
          if 0xdc00 ≤ second ∧ second < 0xe000 then
            some (Char.ofNat (0x10000 + 0x400 * (unit - 0xd800) + (second - 0xdc00)), rest)
          else none
      | _ => none
    else if unit.isValidChar then some (Char.ofNat unit, rest)
    else none

/-- What an escape stands for, read behind its backslash, and what follows it. -/
def escape? : List Char → Option (Char × List Char)
  | [] => none
  | c :: s =>
    if c = 'u' then codePoint? s
    else (shortEscapes.lookup c).map fun e => (e, s)

theorem length_of_codeUnit? {s rest : List Char} {unit : Nat}
    (h : codeUnit? s = some (unit, rest)) : rest.length ≤ s.length := by
  unfold codeUnit? at h
  dsimp only at h
  split at h
  · cases h
    simp
  · cases h

theorem length_of_codePoint? {s rest : List Char} {c : Char} (h : codePoint? s = some (c, rest)) :
    rest.length ≤ s.length := by
  unfold codePoint? at h
  split at h
  · cases h
  · next hunit =>
    have hle := length_of_codeUnit? hunit
    split at h
    · split at h
      · split at h
        · cases h
        · next hsecond =>
          have hle' := length_of_codeUnit? hsecond
          split at h
          · obtain ⟨-, rfl⟩ := Prod.mk.inj (Option.some.inj h)
            simp only [List.length_cons] at hle
            omega
          · cases h
      · cases h
    · split at h
      · cases h
        exact hle
      · cases h

theorem length_of_escape? {s rest : List Char} {c : Char} (h : escape? s = some (c, rest)) :
    rest.length < s.length := by
  cases s with
  | nil => cases h
  | cons d s =>
    rw [escape?] at h
    split at h
    · exact Nat.lt_succ_of_le (length_of_codePoint? h)
    · obtain ⟨e, -, he⟩ := Option.map_eq_some_iff.1 h
      cases he
      exact Nat.lt_succ_self _

/-- A string up to its closing quote, escapes resolved, and what follows it. Control characters have
to be escaped. -/
def string? : List Char → Option (List Char × List Char)
  | [] => none
  | c :: s =>
    if c = '"' then some ([], s)
    else if c = '\\' then
      match _h : escape? s with
      | some (e, rest) => (string? rest).map fun p => (e :: p.1, p.2)
      | none => none
    else if c.toNat < 0x20 then none
    else (string? s).map fun p => (c :: p.1, p.2)
termination_by s => s.length
decreasing_by
  · have := length_of_escape? _h
    simp only [List.length_cons]
    omega
  · exact Nat.lt_succ_self _

/-! ### Values -/

/-- What stands between two brackets, one item at least and commas in between, and what follows the
closing one. -/
def items? {α : Type} (closing : Char) (item? : List Char → Option (α × List Char))
    (s : List Char) : Option (List α × List Char) :=
  match item? (skipBlanks s) with
  | none => none
  | some (item, rest) =>
    match skipBlanks rest with
    | [] => none
    | c :: rest =>
      if c = closing then some ([item], rest)
      else if c = ',' ∧ rest.length < s.length then
        (items? closing item? rest).map fun p => (item :: p.1, p.2)
      else none
termination_by s.length

/-- What stands between two brackets, possibly nothing, and what follows the closing one. -/
def enclosed? {α : Type} (closing : Char) (item? : List Char → Option (α × List Char))
    (s : List Char) : Option (List α × List Char) :=
  let s' := skipBlanks s
  if s'.head? = some closing then some ([], s'.tail) else items? closing item? s

/-- A member of an object, which is a name, a colon and a value, and what follows it. -/
def member? (value? : List Char → Option (Datum × List Char)) (s : List Char) :
    Option ((String × Datum) × List Char) := do
  let '"' :: s := s | none
  let (name, rest) ← string? s
  let ':' :: rest := skipBlanks rest | none
  let (value, rest) ← value? (skipBlanks rest)
  return ((String.ofList name, value), rest)

/-- A value of so many levels at most, and what follows it. -/
def value? : Nat → List Char → Option (Datum × List Char)
  | 0, _ => none
  | levels + 1, s =>
    match s with
    | '"' :: s => (string? s).map fun p => (.text (String.ofList p.1), p.2)
    | '[' :: s => (enclosed? ']' (value? levels) s).map fun p => (.list p.1, p.2)
    | '\x7b' :: s => (enclosed? '\x7d' (member? (value? levels)) s).map fun p => (.object p.1, p.2)
    | s => (ofWord? (s.takeWhile isWordChar)).map fun datum => (datum, s.dropWhile isWordChar)

/-- **Read a JSON text**: one value and nothing else but white space. -/
def read? (text : String) : Option Datum := do
  let (datum, rest) ← value? (text.toList.length + 1) (skipBlanks text.toList)
  if (skipBlanks rest).isEmpty then some datum else none

example : read? " [1,2.5e-3 , \"\\u00e9\\/\"]" =
    some (.list [.number "1", .number "2.5e-3", .text "é/"]) := by cbv
example : read? "[1,]" = none ∧ read? "[01]" = none ∧ read? "[] 1" = none := by cbv

/-! ### Looking into a value -/

/-- The names of the members of an object. -/
def names : Datum → List String
  | .object members => members.map (·.1)
  | _ => []

/-- The member of an object with a name, if it is the only one with that name. -/
def field? (datum : Datum) (name : String) : Option Datum :=
  match datum with
  | .object members =>
    match members.filter (·.1 == name) with
    | [(_, value)] => some value
    | _ => none
  | _ => none

/-- A number without sign, fraction and exponent. -/
def natural? : Datum → Option Nat
  | .number literal =>
    if literal.toList.all Char.isDigit then some (positional 10 literal.toList) else none
  | _ => none

def text? : Datum → Option String
  | .text s => some s
  | _ => none

/-- A list, each of whose items can be read in the same way. -/
def listOf? {α : Type} (read? : Datum → Option α) : Datum → Option (List α)
  | .list items => items.mapM read?
  | _ => none

end Datum

end FirmwareReport
