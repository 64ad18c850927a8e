import FirmwareReport.Number.Numeral

/-!
# Numbers, truth values and dates

The values of TOML that are written without quotes or brackets. All of them are
words over one alphabet – letters, digits, `+ - _ . :` – none of whose characters can
follow such a value, so a value is read by taking the longest run of them and
deciding what that word is. The one exception is a date, which a single blank may
separate from the time of day behind it.

Only whole numbers and truth values are evaluated. Fractional numbers and dates are
checked and kept as they are written.
-/

namespace FirmwareReport.Toml

/-- A value without quotes or brackets. -/
inductive Scalar
  | integer (value : Int)
  | boolean (value : Bool)
  /-- A fractional number, as written. -/
  | float (word : String)
  /-- A date, a time or both, as written. -/
  | dateTime (word : String)
deriving DecidableEq, Repr

/-! ### Whole numbers -/

/-- A run of digits in which single underscores may separate digits, without the
underscores. -/
def underscored? (base : Nat) : List Char → Option (List Char)
  | [] => none
  | [d] => if isDigitOf base d then some [d] else none
  | d :: '_' :: s => if isDigitOf base d then (underscored? base s).map (d :: ·) else none
  | d :: s => if isDigitOf base d then (underscored? base s).map (d :: ·) else none

/-- The digits of a decimal numeral, which has no zero in front of other digits. -/
def decimalDigits? (s : List Char) : Option (List Char) :=
  match s with
  | ['0'] => some s
  | '0' :: _ => none
  | _ => underscored? 10 s

/-- A sign, and what follows it. -/
def signed : List Char → Bool × List Char
  | '-' :: s => (true, s)
  | '+' :: s => (false, s)
  | s => (false, s)

/-- The first whole number above the range of signed words, two to the power of 63. -/
def signedLimit : Nat := 9223372036854775808

/-- The value of a word that is a whole number: decimal with an optional sign, or
hexadecimal, octal or binary without one, within the range of signed words. -/
def integer? (word : List Char) : Option Int :=
  let radix (base : Nat) (digits : List Char) : Option Int := do
    let value := positional base (← underscored? base digits)
    if value < signedLimit then some value else none
  match word with
  | '0' :: 'x' :: digits => radix 16 digits
  | '0' :: 'o' :: digits => radix 8 digits
  | '0' :: 'b' :: digits => radix 2 digits
  | _ => do
    let (negative, digits) := signed word
    let value := positional 10 (← decimalDigits? digits)
    if negative then
      if value ≤ signedLimit then some (-value) else none
    else if value < signedLimit then some value else none

/-! ### Fractional numbers -/

/-- Whether `mantissa * 10 ^ exponent` is too large for a finite double: whether it reaches the
point half way from the greatest of them to the next power of two. -/
def exceedsDoubles (mantissa : Nat) (exponent : Int) : Bool :=
  if mantissa = 0 then false
  else
    let length : Int := (Nat.toDigits 10 mantissa).length + exponent
    if 310 < length then true
    else if length < 300 then false
    else
      (Nat.pow 2 1024 - Nat.pow 2 970) * Nat.pow 10 (-exponent).toNat ≤
        mantissa * Nat.pow 10 exponent.toNat

/-- Whether a word is a fractional number: a whole part, then a fraction or an exponent
or both; or an infinity or no number, by name. A positive number that only infinity
could stand for is refused. -/
def isFloat (word : List Char) : Bool :=
  let (negative, s) := signed word
  if s = "inf".toList || s = "nan".toList then true
  else
    let isPart (c : Char) := isDigitOf 10 c || c == '_'
    let whole := s.takeWhile isPart
    let s := s.dropWhile isPart
    let (point, s) := match s with
      | '.' :: s => (true, s)
      | s => (false, s)
    let fraction := if point then s.takeWhile isPart else []
    let s := if point then s.dropWhile isPart else s
    let (marked, exponent) := match s with
      | 'e' :: s => (true, s)
      | 'E' :: s => (true, s)
      | s => (false, s)
    let (down, exponent) := if marked then signed exponent else (false, exponent)
    if !point && !marked then false
    else if !marked && !exponent.isEmpty then false
    else
      match decimalDigits? whole, underscored? 10 fraction, underscored? 10 exponent with
      | some wholeDigits, fractionDigits?, exponentDigits? =>
        if (point && fractionDigits?.isNone) || (marked && exponentDigits?.isNone) then false
        else
          let fractionDigits := fractionDigits?.getD []
          let size : Int := positional 10 (exponentDigits?.getD [])
          let shift := if down then -size else size
          negative ||
            !exceedsDoubles (positional 10 (wholeDigits ++ fractionDigits))
              (shift - fractionDigits.length)
      | none, _, _ => false

/-! ### Dates and times -/

/-- A number of exactly so many decimal digits, and what follows it. -/
def fixedDigits? (count : Nat) (s : List Char) : Option (Nat × List Char) :=
  let digits := s.take count
  if digits.length = count ∧ digits.all (isDigitOf 10) = true then
    some (positional 10 digits, s.drop count)
  else none

/-- The number of days of a month. -/
def daysIn (year month : Nat) : Nat :=
  if month = 2 then
    if year % 4 = 0 ∧ (year % 100 ≠ 0 ∨ year % 400 = 0) then 29 else 28
  else if month = 4 ∨ month = 6 ∨ month = 9 ∨ month = 11 then 30
  else 31

/-- What follows a date of the calendar. -/
def date? (s : List Char) : Option (List Char) := do
  let (year, s) ← fixedDigits? 4 s
  let '-' :: s := s | none
  let (month, s) ← fixedDigits? 2 s
  let '-' :: s := s | none
  let (day, s) ← fixedDigits? 2 s
  if 1 ≤ month ∧ month ≤ 12 ∧ 1 ≤ day ∧ day ≤ daysIn year month then some s else none

/-- What follows a time of day; seconds may have a fraction, and there may be a leap second. -/
def time? (s : List Char) : Option (List Char) := do
  let (hour, s) ← fixedDigits? 2 s
  let ':' :: s := s | none
  let (minute, s) ← fixedDigits? 2 s
  let ':' :: s := s | none
  let (second, s) ← fixedDigits? 2 s
  if hour ≤ 23 ∧ minute ≤ 59 ∧ second ≤ 60 then
    match s with
    | '.' :: s =>
      if (s.takeWhile (isDigitOf 10)).isEmpty then none else some (s.dropWhile (isDigitOf 10))
    | s => some s
  else none

/-- Whether a word is a distance from Greenwich time. -/
def isOffset (word : List Char) : Bool :=
  match word with
  | ['Z'] => true
  | ['z'] => true
  | sign :: s =>
    (sign == '+' || sign == '-') &&
    match fixedDigits? 2 s with
    | some (hour, ':' :: s) =>
      match fixedDigits? 2 s with
      | some (minute, []) => hour ≤ 23 && minute ≤ 59
      | _ => false
    | _ => false
  | [] => false

/-- Whether a word is a time of day with or without an offset. -/
def isTimeOfDay (word : List Char) : Bool :=
  match time? word with
  | some rest => rest.isEmpty || isOffset rest
  | none => false

/-- Whether a word is a date, a time of day without an offset, or both joined by a `T`. -/
def isDateTime (word : List Char) : Bool :=
  match date? word with
  | some [] => true
  | some (c :: rest) => (c == 'T' || c == 't') && isTimeOfDay rest
  | none => time? word == some []

/-! ### Words -/

/-- The characters of the words for such values. -/
def isWordChar (c : Char) : Bool :=
  c.isAlphanum || c == '+' || c == '-' || c == '_' || c == '.' || c == ':'

/-- The value of a word. -/
def Scalar.ofWord? (word : List Char) : Option Scalar :=
  if word = "true".toList then some (.boolean true)
  else if word = "false".toList then some (.boolean false)
  else match integer? word with
    | some value => some (.integer value)
    | none =>
      if isDateTime word then some (.dateTime (String.ofList word))
      else if isFloat word then some (.float (String.ofList word))
      else none

/-- **Read a value without quotes or brackets**, and what follows it. A date and a digit
behind one blank belong together, so what begins there has to be a time of day. -/
def Scalar.read? (s : List Char) : Option (Scalar × List Char) := do
  let word := s.takeWhile isWordChar
  let rest := s.dropWhile isWordChar
  let value ← Scalar.ofWord? word
  match date? word, rest with
  | some [], ' ' :: s =>
    let time := s.takeWhile isWordChar
    if isTimeOfDay time then
      return (.dateTime (String.ofList (word ++ [' '] ++ time)), s.dropWhile isWordChar)
    else return (value, rest)
  | _, _ => return (value, rest)

end FirmwareReport.Toml
