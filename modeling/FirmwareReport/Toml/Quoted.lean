import FirmwareReport.Number.Numeral
import FirmwareReport.Text.Search

/-!
# Quoted strings

TOML has four ways to quote a string: `"…"` with escapes and `'…'` without, and each
of them in a form with three quotes that may hold line breaks. `unquote?` reads all
four; `quote` writes a string in the plainest one that can hold it.

Two rules of the three-quote forms deserve a word. A line break directly behind the
opening quotes is not part of the string. And the string may end in one or two
quotes of its own, so of five closing quotes the first two belong to the string.
-/

namespace FirmwareReport.Toml

/-! ### Characters -/

/-- A blank within a line. -/
def isLineBlank (c : Char) : Bool :=
  c == ' ' || c == '\t'

/-- Whether a character may stand in a comment, and apart from quotes and the backslash in a
string: tab, and all that is no control character. -/
def isText (c : Char) : Bool :=
  c == '\t' || (0x20 ≤ c.toNat && c.toNat != 0x7f)

/-- What follows a line break. -/
def newline? : List Char → Option (List Char)
  | '\n' :: s => some s
  | '\r' :: '\n' :: s => some s
  | _ => none

theorem length_of_newline? {s rest : List Char} (h : newline? s = some rest) :
    rest.length < s.length := by
  unfold newline? at h
  split at h <;> cases h <;> simp only [List.length_cons] <;> omega

/-- Skip blanks and line breaks. -/
def skipBlankLines : List Char → List Char
  | [] => []
  | c :: s =>
    if isLineBlank c || c == '\n' then skipBlankLines s
    else if c == '\r' then
      match s with
      | '\n' :: s => skipBlankLines s
      | s => c :: s
    else c :: s

theorem length_skipBlankLines_le (s : List Char) : (skipBlankLines s).length ≤ s.length := by
  fun_induction skipBlankLines s <;> simp_all <;> omega

/-! ### Escapes -/

/-- The characters with an escape of one letter, behind that letter. -/
def shortEscapes : List (Char × Char) :=
  [('b', '\x08'), ('t', '\t'), ('n', '\n'), ('f', '\x0c'), ('r', '\r'), ('"', '"'), ('\\', '\\')]

/-- A character given by so many hexadecimal digits, and what follows them. -/
def codePoint? (count : Nat) (s : List Char) : Option (Char × List Char) :=
  let digits := s.take count
  let value := positional 16 digits
  if digits.length = count ∧ digits.all (isDigitOf 16) = true ∧ value.isValidChar then
    some (Char.ofNat value, s.drop count)
  else none

/-- What an escape stands for, read behind its backslash, and what follows it. -/
def escape? : List Char → Option (Char × List Char)
  | [] => none
  | c :: s =>
    match shortEscapes.lookup c with
    | some e => some (e, s)
    | none =>
      if c = 'u' then codePoint? 4 s
      else if c = 'U' then codePoint? 8 s
      else none

theorem length_of_escape? {s rest : List Char} {c : Char} (h : escape? s = some (c, rest)) :
    rest.length < s.length := by
  have hcode : ∀ {n : Nat} {s : List Char}, codePoint? n s = some (c, rest) →
      rest.length ≤ s.length := by
    intro n s h
    simp only [codePoint?] at h
    split at h
    · obtain ⟨-, rfl⟩ : _ ∧ s.drop n = rest := by simpa using h
      simp
    · simp at h
  cases s with
  | nil => simp [escape?] at h
  | cons a s =>
    simp only [escape?] at h
    split at h
    · obtain ⟨-, rfl⟩ : _ ∧ s = rest := by simpa using h
      simp
    · split at h
      · exact Nat.lt_succ_of_le (hcode h)
      · split at h
        · exact Nat.lt_succ_of_le (hcode h)
        · simp at h

/-! ### Reading -/

/-- A string up to its closing quote, escapes resolved, and what follows it. -/
def basic? : List Char → Option (List Char × List Char)
  | [] => none
  | c :: s =>
    if c = '"' then some ([], s)
    else if c = '\\' then
      match _h : escape? s with
      | some (e, rest) => (basic? rest).map fun p => (e :: p.1, p.2)
      | none => none
    else if isText c then (basic? s).map fun p => (c :: p.1, p.2)
    else none
termination_by s => s.length
decreasing_by
  · have := length_of_escape? _h
    simp; omega
  · simp

/-- A string up to its closing quote, taken as it stands, and what follows it. -/
def literal? : List Char → Option (List Char × List Char)
  | [] => none
  | c :: s =>
    if c = '\'' then some ([], s)
    else if isText c then (literal? s).map fun p => (c :: p.1, p.2)
    else none

/-- Up to two quotes that belong to the string although its closing quotes have been
seen, and what follows the string. -/
def ownQuotes (quote : Char) (s : List Char) : List Char × List Char :=
  let own := (s.takeWhile (· == quote)).take 2
  (own, s.drop own.length)

/-- A string up to its three closing quotes, escapes resolved, and what follows it. A
backslash at the end of a line takes the line break and all blanks behind it away. -/
def multilineBasic? : List Char → Option (List Char × List Char)
  | [] => none
  | c :: s =>
    if c = '"' then
      match Text.after? ['"', '"'] s with
      | some rest => some (ownQuotes '"' rest)
      | none => (multilineBasic? s).map fun p => (c :: p.1, p.2)
    else if c = '\\' then
      match _h : newline? (s.dropWhile isLineBlank) with
      | some rest => multilineBasic? (skipBlankLines rest)
      | none =>
        match _h : escape? s with
        | some (e, rest) => (multilineBasic? rest).map fun p => (e :: p.1, p.2)
        | none => none
    else if isText c then (multilineBasic? s).map fun p => (c :: p.1, p.2)
    else
      match _h : newline? (c :: s) with
      | some rest => (multilineBasic? rest).map fun p => ('\n' :: p.1, p.2)
      | none => none
termination_by s => s.length
decreasing_by
  · simp
  · have := length_of_newline? _h
    have := length_skipBlankLines_le rest
    have := (List.dropWhile_sublist isLineBlank (l := s)).length_le
    simp; omega
  · have := length_of_escape? _h
    simp; omega
  · simp
  · exact length_of_newline? _h

/-- A string up to its three closing quotes, taken as it stands, and what follows it. -/
def multilineLiteral? : List Char → Option (List Char × List Char)
  | [] => none
  | c :: s =>
    if c = '\'' then
      match Text.after? ['\'', '\''] s with
      | some rest => some (ownQuotes '\'' rest)
      | none => (multilineLiteral? s).map fun p => (c :: p.1, p.2)
    else if isText c then (multilineLiteral? s).map fun p => (c :: p.1, p.2)
    else
      match _h : newline? (c :: s) with
      | some rest => (multilineLiteral? rest).map fun p => ('\n' :: p.1, p.2)
      | none => none
termination_by s => s.length
decreasing_by
  · simp
  · simp
  · exact length_of_newline? _h

/-- **Read a quoted string**: the string, and what follows it. -/
def unquote? (s : List Char) : Option (List Char × List Char) :=
  match s with
  | '"' :: '"' :: '"' :: s => multilineBasic? ((newline? s).getD s)
  | '"' :: s => basic? s
  | '\'' :: '\'' :: '\'' :: s => multilineLiteral? ((newline? s).getD s)
  | '\'' :: s => literal? s
  | _ => none

/-! ### Writing -/

/-- Whether a character needs an escape wherever it stands: a control character
other than tab and newline. -/
def isControl (c : Char) : Bool :=
  (c.toNat < 0x20 && c != '\t' && c != '\n') || c.toNat == 0x7f

/-- The escape of a character: the short one if there is one, its code otherwise. -/
def escape (c : Char) : List Char :=
  match shortEscapes.find? (·.2 == c) with
  | some (letter, _) => ['\\', letter]
  | none =>
    let digit (n : Nat) := (Nat.digitChar (n % 16)).toUpper
    ['\\', 'u', '0', '0', digit (c.toNat / 16), digit c.toNat]

/-- The inside of a string in quotes. -/
def basicBody (s : List Char) : List Char :=
  s.flatMap fun c =>
    if isControl c || c == '\t' || c == '\n' || c == '"' || c == '\\' then escape c else [c]

/-- The inside of a string in three quotes. Line breaks stand for themselves, and so do
quotes unless two of them – written as they are – stand right in front. -/
def multilineBody (quotes : Nat) : List Char → List Char
  | [] => []
  | c :: s =>
    if c = '"' then
      if quotes < 2 then c :: multilineBody (quotes + 1) s else escape c ++ multilineBody 0 s
    else if isControl c || c == '\t' || c == '\\' then escape c ++ multilineBody 0 s
    else c :: multilineBody 0 s

/-- The four kinds of quotes. -/
inductive Quotes
  | basic
  | literal
  | multilineBasic
  | multilineLiteral
deriving DecidableEq, Repr

/-- The plainest quotes that can hold a string: no escapes if possible, one line
before several, double quotes before single ones. What none of them holds as it is gets
double quotes and escapes. -/
def Quotes.of (s : List Char) : Quotes :=
  let control := s.any isControl
  let newline := s.contains '\n'
  let backslash := s.contains '\\'
  if !control && !newline && !backslash && !s.contains '"' then .basic
  else if !control && !newline && !s.contains '\'' then .literal
  else if !control && !backslash && !Text.occursIn ['"', '"', '"'] s then .multilineBasic
  else if !control && !Text.occursIn ['\'', '\'', '\''] s then .multilineLiteral
  else if newline then .multilineBasic
  else .basic

/-- **Write a string in quotes.** -/
def quote (s : List Char) : List Char :=
  let opening := if s.contains '\n' then ['\n'] else []
  match Quotes.of s with
  | .basic => ['"'] ++ basicBody s ++ ['"']
  | .literal => ['\''] ++ s ++ ['\'']
  | .multilineBasic => ['"', '"', '"'] ++ opening ++ multilineBody 0 s ++ ['"', '"', '"']
  | .multilineLiteral => ['\'', '\'', '\''] ++ opening ++ s ++ ['\'', '\'', '\'']

end FirmwareReport.Toml
