import FirmwareReport.Proofs.Text.Search
import FirmwareReport.Proofs.Text.Utf8

/-!
# Offsets in bytes

A text can be searched by its bytes: `FirmwareReport.Text.offset?` is the first byte at which those
of a literal stand. It can be cut at a byte too, but only where no character is cut through:
`FirmwareReport.Text.splitAt?` says when (`FirmwareReport.Text.splitAt?_eq_some_iff`).

The two fit together. A byte that begins a character begins one wherever it stands, so the bytes
of a literal stand nowhere but where the literal does
(`FirmwareReport.Text.isPrefix_drop_encode_iff`), and searching bytes finds what searching
characters finds (`FirmwareReport.Text.offset?_eq_map_cut?`). Hence a text can be cut where a search
of its bytes has found something, whatever the text and the literal hold.
-/

namespace FirmwareReport.Text

theorem encode_append (s t : List Char) : encode (s ++ t) = encode s ++ encode t :=
  List.flatMap_append

theorem encode_cons (c : Char) (s : List Char) :
    encode (c :: s) = String.utf8EncodeChar c ++ encode s :=
  List.flatMap_cons

theorem length_encode_cons (c : Char) (s : List Char) :
    (encode (c :: s)).length = c.utf8Size + (encode s).length := by
  rw [encode_cons, List.length_append, String.length_utf8EncodeChar]

/-! ### Cutting at a byte -/

/-- A text cut in two at a byte; nothing if the byte is inside a character or behind the end. -/
def splitAt? : Nat → List Char → Option (List Char × List Char)
  | 0, s => some ([], s)
  | _ + 1, [] => none
  | n + 1, c :: s =>
    if c.utf8Size ≤ n + 1 then
      (splitAt? (n + 1 - c.utf8Size) s).map fun p => (c :: p.1, p.2)
    else none

theorem splitAt?_append (front behind : List Char) :
    splitAt? (encode front).length (front ++ behind) = some (front, behind) := by
  induction front with
  | nil => simp [encode, splitAt?]
  | cons c front ih =>
    have hpos := c.utf8Size_pos
    obtain ⟨n, hn⟩ : ∃ n, c.utf8Size + (encode front).length = n + 1 :=
      ⟨c.utf8Size + (encode front).length - 1, by omega⟩
    have hrest : n + 1 - c.utf8Size = (encode front).length := by omega
    rw [length_encode_cons, hn, List.cons_append, splitAt?, if_pos (by omega), hrest, ih]
    rfl

/-- **A text is cut between two characters**: those in front make up the bytes in front. -/
theorem splitAt?_eq_some_iff {n : Nat} {s front behind : List Char} :
    splitAt? n s = some (front, behind) ↔ s = front ++ behind ∧ (encode front).length = n := by
  constructor
  · intro h
    fun_induction splitAt? n s generalizing front with
    | case1 s =>
      obtain ⟨rfl, rfl⟩ : [] = front ∧ s = behind := by simpa using h
      exact ⟨rfl, rfl⟩
    | case2 n => cases h
    | case3 n c s hsize ih =>
      obtain ⟨⟨f, b⟩, hsplit, heq⟩ := Option.map_eq_some_iff.1 h
      obtain ⟨rfl, rfl⟩ : c :: f = front ∧ b = behind := by simpa using heq
      obtain ⟨rfl, hlength⟩ := ih hsplit
      refine ⟨rfl, ?_⟩
      rw [length_encode_cons, hlength]
      omega
    | case4 n c s hsize => cases h
  · rintro ⟨rfl, rfl⟩
    exact splitAt?_append front behind

/-! ### Where the bytes of a literal stand -/

/-- In the bytes of a character none but the first begins one. -/
theorem not_isLead_of_mem_tail {c : Char} {byte : UInt8}
    (h : byte ∈ (String.utf8EncodeChar c).tail) : ¬IsLead byte := by
  have hcontinues : ∀ n, ¬IsLead (UInt8.ofNat (n % 64 + 128)) := by
    intro n
    rw [IsLead, UInt8.toNat_ofNat_of_lt' (by rw [UInt8.size]; omega)]
    omega
  simp only [String.utf8EncodeChar] at h
  split_ifs at h
  · cases h
  · obtain rfl := List.mem_singleton.1 h
    exact hcontinues _
  · rcases List.mem_pair.1 h with rfl | rfl <;> exact hcontinues _
  · simp only [List.tail_cons, List.mem_cons, List.not_mem_nil, or_false] at h
    rcases h with rfl | rfl | rfl <;> exact hcontinues _

/-- **Where a byte begins a character**, the bytes of a text are those of two texts. -/
theorem exists_of_encode_eq_append {s : List Char} {byte : UInt8} (hbyte : IsLead byte)
    {front behind : List UInt8} (h : encode s = front ++ byte :: behind) :
    ∃ before rest, s = before ++ rest ∧ encode before = front ∧ encode rest = byte :: behind := by
  induction s generalizing front with
  | nil => simp [encode] at h
  | cons c s ih =>
    rw [encode_cons] at h
    rcases List.append_eq_append_iff.1 h with ⟨more, rfl, hs⟩ | ⟨more, hc, hbehind⟩
    · obtain ⟨before, rest, rfl, rfl, hrest⟩ := ih hs
      exact ⟨c :: before, rest, rfl, encode_cons c before, hrest⟩
    · cases front with
      | nil => exact ⟨[], c :: s, rfl, rfl, by rw [encode_cons, h, List.nil_append]⟩
      | cons first front =>
        cases more with
        | nil =>
          refine ⟨[c], s, rfl, ?_, hbehind.symm⟩
          rw [encode_cons, hc, List.append_nil]
          exact List.append_nil _
        | cons second more =>
          -- The byte would be inside the first character.
          obtain ⟨rfl, -⟩ := List.cons_eq_cons.1 hbehind
          exact absurd hbyte (not_isLead_of_mem_tail (c := c) (by simp [hc]))

theorem isPrefix_of_isPrefix_encode {literal s : List Char} (h : encode literal <+: encode s) :
    literal <+: s := by
  obtain ⟨behind, hbehind⟩ := h
  have hpieces : s.map some = literal.map some ++ pieces behind := by
    rw [← pieces_encode, ← hbehind, pieces_encode_append]
  obtain ⟨front, rest, rfl, hfront, -⟩ := List.map_eq_append_iff.1 hpieces
  have hinjective : Function.Injective (some : Char → Option Char) := fun _ _ => Option.some.inj
  rw [List.map_injective_iff.2 hinjective hfront]
  exact List.prefix_append literal rest

/-- **The bytes of a literal stand where the literal does.** -/
theorem isPrefix_drop_encode_iff {literal s : List Char} (hne : literal ≠ []) {n : Nat} :
    encode literal <+: (encode s).drop n ↔
      ∃ before rest, s = before ++ literal ++ rest ∧ (encode before).length = n := by
  constructor
  · rintro ⟨behind, hbehind⟩
    obtain ⟨c, literal, rfl⟩ := List.exists_cons_of_ne_nil hne
    obtain ⟨byte, bytes, hc, hlead⟩ := exists_utf8EncodeChar_eq_cons c
    rw [encode_cons, hc, List.cons_append, List.cons_append] at hbehind
    have hsplit := List.take_append_drop n (encode s)
    rw [← hbehind] at hsplit
    obtain ⟨before, rest, rfl, hbefore, hrest⟩ := exists_of_encode_eq_append hlead hsplit.symm
    have hpre : encode (c :: literal) <+: encode rest := by
      rw [hrest, encode_cons, hc, List.cons_append]
      exact List.prefix_append _ behind
    obtain ⟨rest, rfl⟩ := isPrefix_of_isPrefix_encode hpre
    refine ⟨before, rest, (List.append_assoc _ _ _).symm, ?_⟩
    have hlt : n < (encode (before ++ (c :: literal ++ rest))).length := by
      by_contra hle
      rw [List.drop_eq_nil_of_le (Nat.le_of_not_lt hle)] at hbehind
      cases hbehind
    rw [hbefore, List.length_take]
    omega
  · rintro ⟨before, rest, rfl, rfl⟩
    rw [encode_append, encode_append, List.append_assoc, List.drop_left]
    exact List.prefix_append _ _

/-! ### Searching bytes -/

/-- The first byte of a text at which the bytes of a literal stand. -/
def offset? (literal s : List Char) : Option Nat :=
  (List.range ((encode s).length + 1)).find? fun n =>
    (encode literal).isPrefixOf ((encode s).drop n)

/-- **Searching bytes finds what searching characters finds.** -/
theorem offset?_eq_map_cut? {literal : List Char} (hne : literal ≠ []) (s : List Char) :
    offset? literal s = (cut? literal s).map fun p => (encode p.1).length := by
  cases hcut : cut? literal s with
  | none =>
    rw [Option.map_none, offset?, List.find?_eq_none]
    intro n _ hn
    obtain ⟨before, rest, rfl, -⟩ :=
      (isPrefix_drop_encode_iff hne).1 (List.isPrefixOf_iff_prefix.1 hn)
    exact cut?_eq_none_iff.1 hcut (List.infix_append before literal rest)
  | some p =>
    obtain ⟨before, rest⟩ := p
    obtain ⟨rfl, hfirst⟩ := cut?_eq_some_iff.1 hcut
    rw [Option.map_some, offset?, List.find?_range_eq_some]
    dsimp only
    refine ⟨?_, ?_, fun n hn => ?_⟩
    · exact List.isPrefixOf_iff_prefix.2 ((isPrefix_drop_encode_iff hne).2 ⟨before, rest, rfl, rfl⟩)
    · rw [List.mem_range, encode_append, encode_append, List.append_assoc, List.length_append]
      omega
    · rw [Bool.not_eq_true', Bool.eq_false_iff]
      intro hpre
      obtain ⟨front, behind, heq, rfl⟩ :=
        (isPrefix_drop_encode_iff hne).1 (List.isPrefixOf_iff_prefix.1 hpre)
      obtain ⟨more, rfl⟩ := (hfirst.isPrefix_and_isSuffix heq).1
      rw [encode_append, List.length_append] at hn
      omega

end FirmwareReport.Text
