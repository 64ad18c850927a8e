/-!
# Bytes and characters

Inputs arrive as bytes that need not be well-formed UTF-8: line noise damages a
log, and a map may hold paths in another encoding. The decoder is a machine that
takes one byte at a time. Between bytes it is either between two characters, or
it owes some continuation bytes, the next of which has to lie in a given range;
the ranges exclude overlong forms, surrogates and values above U+10FFFF at the
earliest byte where they show.

`pieces` runs the machine over a text. It yields one piece per character, and
one `none` per **maximal ill-formed part**: the longest stretch that begins a
character without finishing it, or a single byte that begins nothing. From the
pieces come the lossy reading (`decodeLossy`, which writes U+FFFD for such a
part) and the strict one (`decode?`, which refuses the text).
-/

namespace FirmwareReport.Text

/-- Where decoding stands between two bytes. -/
inductive DecodeState
  /-- Between two characters. -/
  | between
  /-- Inside a character of which `value` is known so far, with `owed` bytes to
  come, the next of them from `low` to `high`. -/
  | within (value owed low high : Nat)
deriving DecidableEq, Repr

/-- A byte met between two characters. -/
def leadByte (b : Nat) : List (Option Char) × DecodeState :=
  if b < 0x80 then ([some (Char.ofNat b)], .between)
  else if b < 0xc2 then ([none], .between)
  else if b < 0xe0 then ([], .within (b - 0xc0) 1 0x80 0xbf)
  else if b = 0xe0 then ([], .within 0x0 2 0xa0 0xbf)
  else if b = 0xed then ([], .within 0xd 2 0x80 0x9f)
  else if b < 0xf0 then ([], .within (b - 0xe0) 2 0x80 0xbf)
  else if b = 0xf0 then ([], .within 0x0 3 0x90 0xbf)
  else if b < 0xf4 then ([], .within (b - 0xf0) 3 0x80 0xbf)
  else if b = 0xf4 then ([], .within 0x4 3 0x80 0x8f)
  else ([none], .between)

/-- One byte: the pieces it completes, and where decoding stands after it. A byte
that cannot continue the character at hand ends it as an ill-formed part and is
then read as if it stood between characters. -/
def decodeByte (state : DecodeState) (byte : UInt8) : List (Option Char) × DecodeState :=
  let b := byte.toNat
  match state with
  | .between => leadByte b
  | .within value owed low high =>
    if low ≤ b ∧ b ≤ high then
      let value := value * 0x40 + (b - 0x80)
      if owed ≤ 1 then ([some (Char.ofNat value)], .between)
      else ([], .within value (owed - 1) 0x80 0xbf)
    else
      let fresh := leadByte b
      (none :: fresh.1, fresh.2)

/-- The pieces of the remaining bytes, after those in `done` (last one first). -/
def piecesFrom (done : List (Option Char)) (state : DecodeState) :
    List UInt8 → List (Option Char)
  | [] => match state with
    | .between => done.reverse
    | .within .. => (none :: done).reverse
  | byte :: bytes =>
    let read := decodeByte state byte
    piecesFrom (read.1.reverse ++ done) read.2 bytes

/-- The characters of a byte text, with `none` for each maximal ill-formed part. -/
def pieces (bytes : List UInt8) : List (Option Char) :=
  piecesFrom [] .between bytes

/-- The text of a byte sequence, with U+FFFD for each maximal ill-formed part. -/
def decodeLossy (bytes : List UInt8) : List Char :=
  (pieces bytes).map (·.getD '\uFFFD')

/-- The text of a byte sequence that is well-formed throughout. -/
def decode? (bytes : List UInt8) : Option (List Char) :=
  if (pieces bytes).all (·.isSome) then some (decodeLossy bytes) else none

/-- The bytes of a text. -/
def encode (s : List Char) : List UInt8 :=
  s.flatMap String.utf8EncodeChar

/-! ### The machine, without its accumulator -/

theorem piecesFrom_eq_append (done : List (Option Char)) (state : DecodeState)
    (bytes : List UInt8) :
    piecesFrom done state bytes = done.reverse ++ piecesFrom [] state bytes := by
  induction bytes generalizing done state with
  | nil => cases state <;> simp [piecesFrom]
  | cons byte bytes ih =>
    simp only [piecesFrom]
    rw [ih, ih ((decodeByte state byte).1.reverse ++ [])]
    simp [List.append_assoc]

theorem piecesFrom_cons (state : DecodeState) (byte : UInt8) (bytes : List UInt8) :
    piecesFrom [] state (byte :: bytes) =
      (decodeByte state byte).1 ++ piecesFrom [] (decodeByte state byte).2 bytes := by
  rw [piecesFrom]
  simp only [List.append_nil]
  rw [piecesFrom_eq_append, List.reverse_reverse]

example : decodeLossy [0x61, 0xe2, 0x82, 0xac, 0xff, 0xe2, 0x82, 0x0a] =
    ['a', '€', '\uFFFD', '\uFFFD', '\n'] := by decide
example : decode? (encode ['a', '€', '😀']) = some ['a', '€', '😀'] := by decide

end FirmwareReport.Text
