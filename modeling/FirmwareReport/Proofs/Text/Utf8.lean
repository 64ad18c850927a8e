import Mathlib.Data.Char
import FirmwareReport.Text.Utf8

/-!
# Decoding, line by line and after encoding

Two facts about the decoder of `FirmwareReport.Text.Utf8`.

A newline byte is a newline character wherever it stands, and nothing else is. So a text may be
cut into lines before it is decoded or after (`FirmwareReport.Text.decodeLossy_append_newline`,
`FirmwareReport.Text.notMem_decodeLossy`): a character cut off by the end of a line is an
ill-formed part of that line. The invariant is `FirmwareReport.Text.DecodeState.Sound`: a state
that owes bytes takes no byte below `0x80`, and what it ends in lies above ASCII.

What is encoded is decoded to itself, whatever follows
(`FirmwareReport.Text.pieces_encode_append`) and whatever stands in front of it, a character that
is cut off there included (`FirmwareReport.Text.decodeLossy_append_encode`): the bytes that continue
a character are none of those that begin one.
-/

namespace FirmwareReport.Text

/-! ### The states of the machine -/

/-- **A sound state** takes continuation bytes only, and what it knows of its character is enough
to put it above ASCII. -/
def DecodeState.Sound : DecodeState → Prop
  | .between => True
  | .within value owed low _ =>
    0x80 ≤ low ∧ (if owed ≤ 1 then 0x80 else 2) ≤ value * 0x40 + (low - 0x80)

/-- **A narrow state** takes continuation bytes only. -/
def DecodeState.Narrow : DecodeState → Prop
  | .between => True
  | .within _ _ low high => 0x80 ≤ low ∧ high < 0xc0

theorem sound_between : DecodeState.between.Sound := trivial

theorem ofNat_ne_newline {n : Nat} (h : n ≠ 0x0a) : Char.ofNat n ≠ '\n' := by
  intro heq
  by_cases hvalid : n.isValidChar
  · have hchar : Char.ofNat n = Char.ofNatAux n hvalid := dif_pos hvalid
    exact h (congrArg Char.toNat (hchar.symm.trans heq))
  · have hchar : Char.ofNat n = '\x00' := dif_neg hvalid
    exact absurd (hchar.symm.trans heq) (by decide)

/-- **What is read of a byte met between two characters**: a character, an ill-formed part, or the
beginning of a character. -/
inductive IsLeadRead (b : Nat) : List (Option Char) × DecodeState → Prop
  | one : IsLeadRead b ([some (Char.ofNat b)], .between)
  | illFormed : IsLeadRead b ([none], .between)
  | begun {value owed low high : Nat} (hsound : (DecodeState.within value owed low high).Sound)
      (hnarrow : (DecodeState.within value owed low high).Narrow) :
      IsLeadRead b ([], .within value owed low high)

theorem isLeadRead_leadByte (b : Nat) : IsLeadRead b (leadByte b) := by
  rw [leadByte]
  split
  · exact .one
  split
  · exact .illFormed
  split
  · refine .begun ⟨le_rfl, ?_⟩ ⟨le_rfl, by decide⟩
    rw [if_pos le_rfl]
    omega
  split
  · exact .begun ⟨by decide, by decide⟩ ⟨by decide, by decide⟩
  split
  · exact .begun ⟨le_rfl, by decide⟩ ⟨le_rfl, by decide⟩
  split
  · refine .begun ⟨le_rfl, ?_⟩ ⟨le_rfl, by decide⟩
    rw [if_neg (by decide)]
    omega
  split
  · exact .begun ⟨by decide, by decide⟩ ⟨by decide, by decide⟩
  split
  · refine .begun ⟨le_rfl, ?_⟩ ⟨le_rfl, by decide⟩
    rw [if_neg (by decide)]
    omega
  split
  · exact .begun ⟨le_rfl, by decide⟩ ⟨le_rfl, by decide⟩
  · exact .illFormed

/-- A byte met between two characters leaves a sound state, and is a newline only if it is the
newline byte. -/
theorem sound_leadByte (b : Nat) :
    (leadByte b).2.Sound ∧ (b ≠ 0x0a → some '\n' ∉ (leadByte b).1) := by
  have hread := isLeadRead_leadByte b
  generalize leadByte b = read at hread ⊢
  cases hread with
  | one =>
    refine ⟨trivial, fun hb => ?_⟩
    simpa using (ofNat_ne_newline hb).symm
  | illFormed => exact ⟨trivial, fun _ => by simp⟩
  | begun hsound => exact ⟨hsound, fun _ => List.not_mem_nil⟩

theorem sound_decodeByte {state : DecodeState} (h : state.Sound) (byte : UInt8) :
    (decodeByte state byte).2.Sound ∧ (byte ≠ 0x0a → some '\n' ∉ (decodeByte state byte).1) := by
  have hbyte : byte ≠ 0x0a → byte.toNat ≠ 0x0a := fun hne heq => hne (UInt8.toNat_inj.1 heq)
  obtain ⟨hlead, hnewline⟩ := sound_leadByte byte.toNat
  cases state with
  | between => exact ⟨hlead, fun hne => hnewline (hbyte hne)⟩
  | within value owed low high =>
    obtain ⟨hlow, hvalue⟩ := h
    simp only [decodeByte]
    split
    · next hrange =>
      split
      · next howed =>
        rw [if_pos howed] at hvalue
        refine ⟨trivial, fun _ => ?_⟩
        have hne := ofNat_ne_newline (n := value * 0x40 + (byte.toNat - 0x80)) (by omega)
        simpa using hne.symm
      · next howed =>
        rw [if_neg howed] at hvalue
        refine ⟨⟨le_rfl, ?_⟩, fun _ => List.not_mem_nil⟩
        split <;> omega
    · refine ⟨hlead, fun hne => ?_⟩
      simpa using hnewline (hbyte hne)

/-! ### Where a character begins -/

/-- A byte that continues no character. -/
def IsLead (byte : UInt8) : Prop :=
  byte.toNat < 0x80 ∨ 0xc0 ≤ byte.toNat

instance (byte : UInt8) : Decidable (IsLead byte) :=
  inferInstanceAs (Decidable (_ ∨ _))

theorem narrow_leadByte (b : Nat) : (leadByte b).2.Narrow := by
  have hread := isLeadRead_leadByte b
  generalize leadByte b = read at hread ⊢
  cases hread with
  | one => trivial
  | illFormed => trivial
  | begun _ hnarrow => exact hnarrow

theorem narrow_decodeByte (state : DecodeState) (byte : UInt8) :
    (decodeByte state byte).2.Narrow := by
  cases state with
  | between => exact narrow_leadByte byte.toNat
  | within value owed low high =>
    simp only [decodeByte]
    split_ifs
    · trivial
    · exact ⟨le_rfl, by decide⟩
    · exact narrow_leadByte byte.toNat

theorem piecesFrom_append_cons {state : DecodeState} (h : state.Narrow) {byte : UInt8}
    (hbyte : IsLead byte) (bytes rest : List UInt8) :
    piecesFrom [] state (bytes ++ byte :: rest) =
      piecesFrom [] state bytes ++ pieces (byte :: rest) := by
  induction bytes generalizing state with
  | nil =>
    rw [List.nil_append]
    cases state with
    | between => rfl
    | within value owed low high =>
      -- The byte ends the unfinished character and is read afresh.
      have hnot : ¬(low ≤ byte.toNat ∧ byte.toNat ≤ high) := by
        have := h.1
        have := h.2
        unfold IsLead at hbyte
        omega
      rw [pieces, piecesFrom_cons, piecesFrom_cons]
      simp only [decodeByte, hnot, if_false]
      rfl
  | cons b bytes ih =>
    rw [List.cons_append, piecesFrom_cons, piecesFrom_cons, ih (narrow_decodeByte state b),
      List.append_assoc]

/-- **What stands in front of a character** is read without it, even if it is cut off there. -/
theorem pieces_append_cons {byte : UInt8} (h : IsLead byte) (bytes rest : List UInt8) :
    pieces (bytes ++ byte :: rest) = pieces bytes ++ pieces (byte :: rest) := by
  have hnarrow : DecodeState.between.Narrow := trivial
  exact piecesFrom_append_cons hnarrow h bytes rest

/-! ### Lines -/

theorem notMem_piecesFrom {state : DecodeState} (h : state.Sound) {bytes : List UInt8}
    (hbytes : 0x0a ∉ bytes) : some '\n' ∉ piecesFrom [] state bytes := by
  induction bytes generalizing state with
  | nil => cases state <;> simp [piecesFrom]
  | cons byte bytes ih =>
    obtain ⟨hbyte, hbytes⟩ : 0x0a ≠ byte ∧ 0x0a ∉ bytes := by simpa using hbytes
    obtain ⟨hsound, hpieces⟩ := sound_decodeByte h byte
    rw [piecesFrom_cons, List.mem_append, not_or]
    exact ⟨hpieces hbyte.symm, ih hsound hbytes⟩

/-- **Without newline bytes there are no newlines.** -/
theorem notMem_decodeLossy {bytes : List UInt8} (h : 0x0a ∉ bytes) : '\n' ∉ decodeLossy bytes := by
  simp only [decodeLossy, List.mem_map, not_exists, not_and]
  intro piece hpiece heq
  cases piece with
  | none => exact absurd heq (by decide)
  | some c =>
    obtain rfl : c = '\n' := heq
    exact notMem_piecesFrom sound_between h hpiece

/-- **Decoding commutes with cutting at a newline.** -/
theorem decodeLossy_append_newline (bytes rest : List UInt8) :
    decodeLossy (bytes ++ 0x0a :: rest) = decodeLossy bytes ++ '\n' :: decodeLossy rest := by
  have hlead : IsLead 0x0a := by decide
  have hpieces : pieces (0x0a :: rest) = some '\n' :: pieces rest := piecesFrom_cons _ _ _
  rw [decodeLossy, pieces_append_cons hlead, hpieces, List.map_append]
  rfl

/-! ### No byte is lost -/

/-- A character that is begun leaves a piece, finished or not. -/
theorem piecesFrom_within_ne_nil (value owed low high : Nat) (bytes : List UInt8) :
    piecesFrom [] (.within value owed low high) bytes ≠ [] := by
  induction bytes generalizing value owed low high with
  | nil => simp [piecesFrom]
  | cons byte bytes ih =>
    rw [piecesFrom_cons, decodeByte]
    simp only
    split_ifs
    · simp
    · simpa using ih _ _ _ _
    · simp

/-- **Something is read** wherever there is a byte. -/
theorem decodeLossy_ne_nil {bytes : List UInt8} (h : bytes ≠ []) : decodeLossy bytes ≠ [] := by
  cases bytes with
  | nil => exact absurd rfl h
  | cons byte bytes =>
    have hread := isLeadRead_leadByte byte.toNat
    rw [decodeLossy, Ne, List.map_eq_nil_iff, pieces, piecesFrom_cons, decodeByte]
    generalize leadByte byte.toNat = read at hread ⊢
    cases hread with
    | one => simp
    | illFormed => simp
    | begun => exact piecesFrom_within_ne_nil _ _ _ _ _

/-! ### Encoding and decoding -/

/-- The lead bytes of two, three and four bytes, with the range of the byte behind them. -/
theorem leadByte_two : ∀ k < 0x20, 2 ≤ k →
    leadByte (k + 0xc0) = ([], .within k 1 0x80 0xbf) := by
  decide

theorem leadByte_three : ∀ k < 0x10, leadByte (k + 0xe0) =
    ([], .within k 2 (if k = 0 then 0xa0 else 0x80) (if k = 0xd then 0x9f else 0xbf)) := by
  decide

theorem leadByte_four : ∀ k < 5, leadByte (k + 0xf0) =
    ([], .within k 3 (if k = 0 then 0x90 else 0x80) (if k = 4 then 0x8f else 0xbf)) := by
  decide

theorem piecesFrom_between_cons {b : Nat} (hb : b < 0x100) (rest : List UInt8) :
    piecesFrom [] .between (UInt8.ofNat b :: rest) =
      (leadByte b).1 ++ piecesFrom [] (leadByte b).2 rest := by
  have hbyte : (UInt8.ofNat b).toNat = b := UInt8.toNat_ofNat_of_lt' hb
  rw [piecesFrom_cons, decodeByte]
  simp only [hbyte]

/-- A continuation byte adds six bits. -/
theorem piecesFrom_within_cons {value owed low high d : Nat} (hd : d < 0x40)
    (hrange : low ≤ d + 0x80 ∧ d + 0x80 ≤ high) (rest : List UInt8) :
    piecesFrom [] (.within value owed low high) (UInt8.ofNat (d + 0x80) :: rest) =
      if owed ≤ 1 then some (Char.ofNat (value * 0x40 + d)) :: pieces rest
      else piecesFrom [] (.within (value * 0x40 + d) (owed - 1) 0x80 0xbf) rest := by
  have hbyte : (UInt8.ofNat (d + 0x80)).toNat = d + 0x80 :=
    UInt8.toNat_ofNat_of_lt' (by rw [UInt8.size]; omega)
  rw [piecesFrom_cons, decodeByte]
  simp only [hbyte, if_pos hrange, Nat.add_sub_cancel]
  split <;> rfl

/-- **The bytes of one character** take the machine from between characters to between
characters. -/
theorem piecesFrom_utf8EncodeChar (c : Char) (rest : List UInt8) :
    piecesFrom [] .between (String.utf8EncodeChar c ++ rest) = some c :: pieces rest := by
  have hvalid : c.toNat < 0xd800 ∨ 0xdfff < c.toNat ∧ c.toNat < 0x110000 := c.valid
  have hchar : Char.ofNat c.toNat = c := Char.ofNat_toNat c
  have hval : c.val.toNat = c.toNat := rfl
  simp only [String.utf8EncodeChar, hval]
  generalize c.toNat = n at hvalid hchar
  split
  · next hn =>
    have hlead : leadByte n = ([some (Char.ofNat n)], .between) := by
      rw [leadByte, if_pos (by omega)]
    rw [List.singleton_append, piecesFrom_between_cons (by omega), hlead, hchar]
    rfl
  split
  · next hn =>
    have hfirst : n / 64 % 0x20 = n / 64 := Nat.mod_eq_of_lt (by omega)
    have hsum : n / 64 * 0x40 + n % 0x40 = n := by omega
    rw [List.cons_append, List.singleton_append, hfirst, piecesFrom_between_cons (by omega),
      leadByte_two _ (by omega) (by omega), List.nil_append,
      piecesFrom_within_cons (by omega) (by omega), if_pos le_rfl, hsum, hchar]
  split
  · next hn =>
    have hfirst : n / 4096 % 0x10 = n / 4096 := Nat.mod_eq_of_lt (by omega)
    have hsum : (n / 4096 * 0x40 + n / 64 % 0x40) * 0x40 + n % 0x40 = n := by omega
    have hsecond : (if n / 4096 = 0 then 0xa0 else 0x80) ≤ n / 64 % 0x40 + 0x80 ∧
        n / 64 % 0x40 + 0x80 ≤ (if n / 4096 = 0xd then 0x9f else 0xbf) := by
      constructor <;> split <;> omega
    rw [List.cons_append, List.cons_append, List.singleton_append, hfirst,
      piecesFrom_between_cons (by omega), leadByte_three _ (by omega), List.nil_append,
      piecesFrom_within_cons (by omega) hsecond, if_neg (by omega),
      piecesFrom_within_cons (by omega) (by omega), if_pos (by omega), hsum, hchar]
  · next hn =>
    have hfirst : n / 262144 % 0x08 = n / 262144 := Nat.mod_eq_of_lt (by omega)
    have hsum : ((n / 262144 * 0x40 + n / 4096 % 0x40) * 0x40 + n / 64 % 0x40) * 0x40 + n % 0x40 =
        n := by omega
    have hsecond : (if n / 262144 = 0 then 0x90 else 0x80) ≤ n / 4096 % 0x40 + 0x80 ∧
        n / 4096 % 0x40 + 0x80 ≤ (if n / 262144 = 4 then 0x8f else 0xbf) := by
      constructor <;> split <;> omega
    rw [List.cons_append, List.cons_append, List.cons_append, List.singleton_append, hfirst,
      piecesFrom_between_cons (by omega), leadByte_four _ (by omega), List.nil_append,
      piecesFrom_within_cons (by omega) hsecond, if_neg (by omega),
      piecesFrom_within_cons (by omega) (by omega), if_neg (by omega),
      piecesFrom_within_cons (by omega) (by omega), if_pos (by omega), hsum, hchar]

/-- **What is encoded is decoded to itself**, whatever follows. -/
theorem pieces_encode_append (s : List Char) (rest : List UInt8) :
    pieces (encode s ++ rest) = s.map some ++ pieces rest := by
  induction s with
  | nil => rfl
  | cons c s ih =>
    rw [encode, List.flatMap_cons, List.append_assoc]
    exact (piecesFrom_utf8EncodeChar c _).trans (congrArg _ ih)

theorem pieces_encode (s : List Char) : pieces (encode s) = s.map some := by
  simpa [pieces, piecesFrom] using pieces_encode_append s []

@[simp] theorem decodeLossy_encode (s : List Char) : decodeLossy (encode s) = s := by
  rw [decodeLossy, pieces_encode, List.map_map]
  exact List.map_id s

@[simp] theorem decode?_encode (s : List Char) : decode? (encode s) = some s := by
  simp [decode?, pieces_encode]

/-- An encoded character begins with a byte that continues none. -/
theorem exists_utf8EncodeChar_eq_cons (c : Char) :
    ∃ byte rest, String.utf8EncodeChar c = byte :: rest ∧ IsLead byte := by
  have hlead : ∀ {b : Nat}, b < 0x100 → b < 0x80 ∨ 0xc0 ≤ b → IsLead (UInt8.ofNat b) := by
    intro b hb h
    rw [IsLead, UInt8.toNat_ofNat_of_lt' hb]
    exact h
  simp only [String.utf8EncodeChar]
  split_ifs
  · exact ⟨_, _, rfl, hlead (by omega) (by omega)⟩
  · exact ⟨_, _, rfl, hlead (by omega) (by omega)⟩
  · exact ⟨_, _, rfl, hlead (by omega) (by omega)⟩
  · exact ⟨_, _, rfl, hlead (by omega) (by omega)⟩

/-- **An encoded text behind any bytes** is decoded to itself, and so are they. -/
theorem decodeLossy_append_encode (bytes : List UInt8) (s : List Char) :
    decodeLossy (bytes ++ encode s) = decodeLossy bytes ++ s := by
  cases s with
  | nil => rw [encode, List.flatMap_nil, List.append_nil, List.append_nil]
  | cons c s =>
    obtain ⟨byte, rest, hc, hlead⟩ := exists_utf8EncodeChar_eq_cons c
    have hcons : encode (c :: s) = byte :: (rest ++ encode s) := by
      rw [encode, List.flatMap_cons, hc, List.cons_append]
      rfl
    rw [hcons, decodeLossy, pieces_append_cons hlead, List.map_append, ← hcons]
    exact congrArg _ (decodeLossy_encode (c :: s))

end FirmwareReport.Text
