/-!
# Numerals

Whole numbers as texts. All quantities of the library – cycles, bytes, the clock –
are natural numbers that fit into a 64-bit word; `wordLimit` is the first number
that does not, and `unsigned?` refuses it and all above.

Writing has two forms: the decimal digits as they are (`decimal`), and the digits
in groups of three with commas in between (`thousands`). A comma goes in front of
every digit that has a multiple of three digits from it to the end, the first
digit apart, so the groups are counted from the right.
-/

namespace FirmwareReport

/-- The first number too large for a 64-bit word, two to the power of 64. -/
def wordLimit : Nat := 18446744073709551616

/-! ### Reading -/

/-- What a character is worth as a digit of a base up to sixteen. -/
def digitValue? (c : Char) : Option Nat :=
  if '0' ≤ c ∧ c ≤ '9' then some (c.toNat - '0'.toNat)
  else if 'a' ≤ c ∧ c ≤ 'f' then some (c.toNat - 'a'.toNat + 10)
  else if 'A' ≤ c ∧ c ≤ 'F' then some (c.toNat - 'A'.toNat + 10)
  else none

/-- Whether a character is a digit of the given base, sixteen at most. -/
def isDigitOf (base : Nat) (c : Char) : Bool :=
  match digitValue? c with
  | some d => d < base
  | none => false

/-- The positional value of a run of digits. -/
def positional (base : Nat) (digits : List Char) : Nat :=
  digits.foldl (fun value c => base * value + (digitValue? c).getD 0) 0

/-- The value of a run of digits that fits into a word. -/
def word? (base : Nat) (digits : List Char) : Option Nat :=
  let value := positional base digits
  if value < wordLimit then some value else none

/-- The value of an unsigned numeral: one digit at least, one `+` allowed in front,
nothing else, and below the word limit. -/
def unsigned? (base : Nat) (s : List Char) : Option Nat :=
  let digits := match s with
    | '+' :: digits => digits
    | _ => s
  if !digits.isEmpty && digits.all (isDigitOf base) then word? base digits else none

/-! ### Writing -/

/-- The decimal digits of a number. -/
def decimal (n : Nat) : String :=
  String.ofList (Nat.toDigits 10 n)

/-- Digits with a comma in front of each whole group of three that stands behind others. -/
def groupThrees : List Char → List Char
  | [] => []
  | c :: digits =>
    if !digits.isEmpty && digits.length % 3 = 0 then c :: ',' :: groupThrees digits
    else c :: groupThrees digits

/-- The decimal digits of a number in groups of three. -/
def thousands (n : Nat) : String :=
  String.ofList (groupThrees (Nat.toDigits 10 n))

/-- Grouping adds nothing but commas. -/
theorem filter_groupThrees {digits : List Char} (h : ∀ c ∈ digits, c ≠ ',') :
    (groupThrees digits).filter (· != ',') = digits := by
  induction digits with
  | nil => rfl
  | cons c digits ih =>
    have hc : c ≠ ',' := h c List.mem_cons_self
    have ih := ih fun d hd => h d (List.mem_cons_of_mem c hd)
    unfold groupThrees
    split <;> simp [hc, ih]

example : thousands 0 = "0" ∧ thousands 999 = "999" ∧ thousands 1000 = "1,000" := by decide
example : thousands 18446744073709551615 = "18,446,744,073,709,551,615" := by decide +kernel
example : unsigned? 16 "+fF".toList = some 255 ∧ unsigned? 16 "+".toList = none := by decide

end FirmwareReport
