/-!
# Texts without control sequences

A text may hold characters that a terminal obeys instead of printing them: single
control characters, and whole **sequences** that an escape character opens. A sequence
is of one of a few shapes:

* an escape and one character, with a tail of characters from `!` to `/` or blanks in
  between;
* parameters behind `ESC [`, up to a letter or another character from `@` to `~`;
* a command behind `ESC ]`, up to a bell;
* a device command behind `ESC P`, whose parameters and letter a string follows;
* a string behind `ESC X`, `ESC ^` or `ESC _`.

A string ends at a character with the byte 9C in its encoding. CAN and SUB end any
sequence, and an escape begins a new one. `withoutControls` leaves out the sequences and
all control characters but white space.

White space inside a sequence is printed all the same, apart from strings and commands.
It breaks the sequence off: text is printed again up to the next control character, from
where the sequence goes on as if it had not been broken off, unless a character beyond
ASCII was printed meanwhile.

Main statements: nothing but plain characters is left (`all_isPlain_withoutControls`),
and a plain text is left as it is (`withoutControls_of_all_isPlain`).
-/

namespace FirmwareReport.Text

/-- White space that a terminal obeys: a tab, a line feed, a form feed or a return. -/
def isBreak (c : Char) : Bool :=
  c = '\t' || c = '\n' || c = '\x0c' || c = '\r'

/-- Whether a character is printed where no sequence is open: white space, and all but
control characters. -/
def isPlain (c : Char) : Bool :=
  isBreak c || (0x20 ≤ c.toNat && c.toNat != 0x7f)

/-- Where in a control sequence a text stands. -/
inductive Sequence
  /-- In none. -/
  | none
  /-- Behind an escape. -/
  | escape
  /-- In the tail behind an escape, with one character to come. -/
  | escapeTail
  /-- In parameters that a letter ends. -/
  | parameters
  /-- At the start of a device command. -/
  | device
  /-- In the parameters of a device command. -/
  | deviceParameters
  /-- In the tail of a device command, with one character to come. -/
  | deviceTail
  /-- In a string. -/
  | string
  /-- In a command that a bell ends. -/
  | command
deriving DecidableEq, Repr

/-- Whether a character ends a string. -/
def endsString (c : Char) : Bool :=
  (String.utf8EncodeChar c).contains 0x9c

/-- Where a text stands behind a character that is not printed. -/
def Sequence.next (sequence : Sequence) (c : Char) : Sequence :=
  if c = '\x18' || c = '\x1a' then .none
  else if c = '\x1b' then .escape
  else match sequence with
    | .none => .none
    | .escape =>
      if c = '[' then .parameters
      else if c = ']' then .command
      else if c = 'P' then .device
      else if c = 'X' || c = '^' || c = '_' then .string
      else if '0' ≤ c && c ≤ '~' then .none
      else if ' ' ≤ c && c ≤ '/' then .escapeTail
      else .escape
    | .escapeTail => if '0' ≤ c && c ≤ '~' then .none else .escapeTail
    | .parameters => if '@' ≤ c && c ≤ '~' then .none else .parameters
    | .device =>
      if ' ' ≤ c && c ≤ '/' then .deviceTail
      else if '0' ≤ c && c ≤ '?' then .deviceParameters
      else if '@' ≤ c && c ≤ '~' then .string
      else .device
    | .deviceParameters =>
      if ' ' ≤ c && c ≤ '/' then .deviceTail
      else if '<' ≤ c && c ≤ '~' then .string
      else .deviceParameters
    | .deviceTail => if '0' ≤ c && c ≤ '~' then .string else .deviceTail
    | .string => if endsString c then .none else .string
    | .command => if c = '\x07' then .none else .command

/-- Whether white space in a sequence is printed. -/
def Sequence.letsThrough : Sequence → Bool
  | .none | .escape | .escapeTail | .parameters => true
  | .device | .deviceParameters | .deviceTail | .string | .command => false

/-- What is printed of a text that stands in a sequence, broken off by white space or not. -/
def printedFrom : (sequence : Sequence) → (broken : Bool) → List Char → List Char
  | _, _, [] => []
  | sequence, broken, c :: s =>
    if ((broken || sequence = .none) && isPlain c) || (sequence.letsThrough && isBreak c) then
      c :: printedFrom (if c.toNat < 0x80 then sequence else .none) true s
    else printedFrom (sequence.next c) false s

/-- **A text without control sequences** and control characters. -/
def withoutControls (s : List Char) : List Char :=
  printedFrom .none false s

theorem isPlain_of_isBreak {c : Char} (h : isBreak c = true) : isPlain c = true := by
  simp [isPlain, h]

theorem all_isPlain_printedFrom (sequence : Sequence) (broken : Bool) (s : List Char) :
    (printedFrom sequence broken s).all isPlain = true := by
  induction s generalizing sequence broken with
  | nil => rfl
  | cons c s ih =>
    unfold printedFrom
    split
    · next h =>
      have hc : isPlain c = true := by
        simp only [Bool.or_eq_true, Bool.and_eq_true] at h
        rcases h with ⟨-, hc⟩ | ⟨-, hc⟩
        · exact hc
        · exact isPlain_of_isBreak hc
      simp only [List.all_cons, hc, ih, Bool.and_self]
    · exact ih _ _

/-- Only plain characters are left. -/
theorem all_isPlain_withoutControls (s : List Char) :
    (withoutControls s).all isPlain = true :=
  all_isPlain_printedFrom _ _ s

theorem printedFrom_of_all_isPlain {s : List Char} (broken : Bool)
    (h : s.all isPlain = true) : printedFrom .none broken s = s := by
  induction s generalizing broken with
  | nil => rfl
  | cons c s ih =>
    obtain ⟨hc, hs⟩ : isPlain c = true ∧ s.all isPlain = true := by simpa using h
    unfold printedFrom
    simp [hc, ih true hs]

/-- A plain text is left as it is. -/
theorem withoutControls_of_all_isPlain {s : List Char} (h : s.all isPlain = true) :
    withoutControls s = s :=
  printedFrom_of_all_isPlain false h

example : withoutControls "a\x01b".toList = "ab".toList := by decide
example : withoutControls "a\x1b[31mred\x1b[0m".toList = "ared".toList := by decide
example : withoutControls "é\x1bé.log".toList = "éog".toList := by decide
example : withoutControls "a\x1b]0;title\x07b".toList = "ab".toList := by decide
example : withoutControls "a\x1b[3\n1m\x01xy".toList = "a\n1my".toList := by decide

end FirmwareReport.Text
