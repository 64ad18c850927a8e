import FirmwareReport.Proofs.Text.Blank
import FirmwareReport.Proofs.Text.Search
import FirmwareReport.Toml.Quoted

/-!
# Quoting and reading back

What is put in quotes is read back, whatever the string and whichever of the four kinds of quotes is
chosen for it (`FirmwareReport.Toml.unquote?_quote`). In single quotes a string stands as it is. In
double ones an escape stands for what it escapes, and no other character is a quote or a backslash.

The delicate case is a string that ends in quotes, in three quotes. Of its own quotes the writer
leaves two as they are and escapes the third, so five quotes in a row can only stand at the end, and
the reader takes the first two of them for the string's.
-/

namespace FirmwareReport.Toml

open Text (StopsAt)

/-! ### Characters -/

/-- A character that stands as it is in some quotes or other. -/
theorem isText_of_not_isControl {c : Char} (h : isControl c = false) (hnewline : c ≠ '\n') :
    isText c = true := by
  by_cases htab : c = '\t'
  · subst htab
    rfl
  simp only [isControl, Bool.or_eq_false_iff, Bool.and_eq_false_iff, decide_eq_false_iff_not,
    bne_eq_false_iff_eq, htab, hnewline, or_false, beq_eq_false_iff_ne] at h
  simp only [isText, Bool.or_eq_true, Bool.and_eq_true, decide_eq_true_eq, bne_iff_ne]
  exact Or.inr ⟨by omega, h.2⟩

/-! ### Escapes -/

/-- What is escaped in double quotes. -/
def isEscaped (c : Char) : Bool :=
  isControl c || c == '\t' || c == '\n' || c == '"' || c == '\\'

theorem toNat_lt_of_isEscaped {c : Char} (h : isEscaped c = true) : c.toNat < 0x80 := by
  simp only [isEscaped, isControl, Bool.or_eq_true, Bool.and_eq_true, decide_eq_true_eq,
    beq_iff_eq] at h
  rcases h with ((((⟨⟨h, -⟩, -⟩ | h) | rfl) | rfl) | rfl) | rfl
  · omega
  · omega
  all_goals decide

/-- A digit of a code, in capitals. -/
theorem digitValue?_toUpper : ∀ n < 16, digitValue? (Nat.digitChar n).toUpper = some n := by
  decide

/-- A code of four digits of which the first two are zero. -/
theorem codePoint?_escape {c : Char} (hc : c.toNat < 0x100) (rest : List Char) :
    codePoint? 4 ('0' :: '0' :: (Nat.digitChar (c.toNat / 16 % 16)).toUpper ::
      (Nat.digitChar (c.toNat % 16)).toUpper :: rest) = some (c, rest) := by
  have hhigh := digitValue?_toUpper (c.toNat / 16 % 16) (by omega)
  have hlow := digitValue?_toUpper (c.toNat % 16) (by omega)
  have hzero : digitValue? '0' = some 0 := rfl
  have hvalue : positional 16 ['0', '0', (Nat.digitChar (c.toNat / 16 % 16)).toUpper,
      (Nat.digitChar (c.toNat % 16)).toUpper] = c.toNat := by
    simp only [positional, List.foldl_cons, List.foldl_nil, hhigh, hlow, hzero, Option.getD_some]
    omega
  have hvalid : c.toNat.isValidChar := c.valid
  have hdigits : ['0', '0', (Nat.digitChar (c.toNat / 16 % 16)).toUpper,
      (Nat.digitChar (c.toNat % 16)).toUpper].all (isDigitOf 16) = true := by
    simp only [List.all_cons, List.all_nil, isDigitOf, hhigh, hlow, hzero]
    simp only [Bool.and_true, Bool.and_eq_true, decide_eq_true_eq]
    omega
  simp only [codePoint?, List.take_succ_cons, List.take_zero, hvalue, hdigits, List.length_cons,
    List.length_nil, hvalid, and_true, if_true, List.drop_succ_cons, List.drop_zero,
    Char.ofNat_toNat]

/-- **An escape is read as what it escapes.** Its letter is no blank, so that the backslash does not
stand at the end of a line. -/
theorem exists_escape {c : Char} (hc : c.toNat < 0x100) : ∃ letter more,
    escape c = '\\' :: letter :: more ∧ (isLineBlank letter = false ∧
      ∀ s, newline? (letter :: s) = none) ∧
      ∀ rest, escape? (letter :: (more ++ rest)) = some (c, rest) := by
  unfold escape
  cases hshort : shortEscapes.find? (·.2 == c) with
  | some pair =>
    obtain ⟨letter, c'⟩ := pair
    obtain rfl : c' = c := by simpa using List.find?_some hshort
    have hmem := List.mem_of_find?_eq_some hshort
    refine ⟨letter, [], rfl, ?_⟩
    simp only [shortEscapes, List.mem_cons, Prod.mk.injEq, List.not_mem_nil, or_false] at hmem
    rcases hmem with ⟨rfl, rfl⟩ | ⟨rfl, rfl⟩ | ⟨rfl, rfl⟩ | ⟨rfl, rfl⟩ | ⟨rfl, rfl⟩ | ⟨rfl, rfl⟩ |
      ⟨rfl, rfl⟩ <;> exact ⟨⟨rfl, fun _ => rfl⟩, fun _ => rfl⟩
  | none =>
    refine ⟨'u', _, rfl, ⟨rfl, fun _ => rfl⟩, fun rest => ?_⟩
    exact codePoint?_escape hc rest

/-! ### One quote -/

theorem basic?_closing (rest : List Char) : basic? ('"' :: rest) = some ([], rest) := by
  simp [basic?]

theorem basic?_escape {c : Char} (hc : c.toNat < 0x100) (s : List Char) :
    basic? (escape c ++ s) = (basic? s).map fun p => (c :: p.1, p.2) := by
  obtain ⟨letter, more, hescape, -, hread⟩ := exists_escape hc
  rw [hescape, List.cons_append, List.cons_append, basic?]
  rw [if_neg (by decide), if_pos rfl]
  split
  · next e rest heq =>
    obtain ⟨rfl, rfl⟩ : c = e ∧ s = rest := by simpa using (hread s).symm.trans heq
    rfl
  · next heq => cases (hread s).symm.trans heq

theorem basic?_cons {c : Char} (hc : isEscaped c = false) (s : List Char) :
    basic? (c :: s) = (basic? s).map fun p => (c :: p.1, p.2) := by
  simp only [isEscaped, Bool.or_eq_false_iff, beq_eq_false_iff_ne] at hc
  obtain ⟨⟨⟨⟨hcontrol, -⟩, hnewline⟩, hquote⟩, hbackslash⟩ := hc
  rw [basic?, if_neg hquote, if_neg hbackslash,
    if_pos (isText_of_not_isControl hcontrol hnewline)]

/-- **In double quotes**, escapes are resolved up to the closing quote. -/
theorem basic?_basicBody (s rest : List Char) :
    basic? (basicBody s ++ '"' :: rest) = some (s, rest) := by
  induction s with
  | nil => exact basic?_closing rest
  | cons c s ih =>
    rw [basicBody, List.flatMap_cons, List.append_assoc]
    change basic? ((if isEscaped c then escape c else [c]) ++ (basicBody s ++ '"' :: rest)) = _
    cases hc : isEscaped c with
    | true =>
      rw [if_pos rfl, basic?_escape (by have := toNat_lt_of_isEscaped hc; omega), ih]
      rfl
    | false =>
      rw [if_neg (by decide), List.singleton_append, basic?_cons hc, ih]
      rfl

/-- **In single quotes** a string stands as it is. -/
theorem literal?_append {s : List Char} (hcontrol : ∀ c ∈ s, isControl c = false)
    (hnewline : '\n' ∉ s) (hquote : '\'' ∉ s) (rest : List Char) :
    literal? (s ++ '\'' :: rest) = some (s, rest) := by
  induction s with
  | nil => simp [literal?]
  | cons c s ih =>
    obtain ⟨hc, hcontrol⟩ := List.forall_mem_cons.1 hcontrol
    simp only [List.mem_cons, not_or] at hnewline hquote
    rw [List.cons_append, literal?, if_neg (Ne.symm hquote.1),
      if_pos (isText_of_not_isControl hc (Ne.symm hnewline.1)), ih hcontrol hnewline.2 hquote.2]
    rfl

/-! ### Three quotes -/

theorem after?_cons_of_ne {a c : Char} (h : c ≠ a) (literal s : List Char) :
    Text.after? (a :: literal) (c :: s) = none := by
  rw [Text.after?, if_neg (Ne.symm h)]

theorem after?_cons_self (a : Char) (literal s : List Char) :
    Text.after? (a :: literal) (a :: s) = Text.after? literal s := by
  rw [Text.after?, if_pos rfl]

/-- Up to two quotes in front of the closing ones belong to the string. -/
theorem ownQuotes_append {q : Char} {s rest : List Char} (hs : ∀ c ∈ s, c = q)
    (hlength : s.length ≤ 2) (hrest : StopsAt (· == q) rest) :
    ownQuotes q (s ++ rest) = (s, rest) := by
  have hrun : (s ++ rest).takeWhile (· == q) = s :=
    (Text.span_iff.2 ⟨rfl, by simpa using hs, hrest⟩).1
  rw [ownQuotes, hrun, List.take_of_length_le hlength, List.drop_left]

section MultilineBasic

theorem multilineBasic?_closing (rest : List Char) :
    multilineBasic? ('"' :: '"' :: '"' :: rest) = some (ownQuotes '"' rest) := by
  simp [multilineBasic?, Text.after?]

theorem multilineBasic?_quote {s : List Char} (h : Text.after? ['"', '"'] s = none) :
    multilineBasic? ('"' :: s) = (multilineBasic? s).map fun p => ('"' :: p.1, p.2) := by
  rw [multilineBasic?, if_pos rfl, h]

theorem multilineBasic?_escape {c : Char} (hc : c.toNat < 0x100) (s : List Char) :
    multilineBasic? (escape c ++ s) = (multilineBasic? s).map fun p => (c :: p.1, p.2) := by
  obtain ⟨letter, more, hescape, ⟨hblank, hnewline⟩, hread⟩ := exists_escape hc
  rw [hescape, List.cons_append, List.cons_append, multilineBasic?]
  rw [if_neg (by decide), if_pos rfl]
  have hline : newline? ((letter :: (more ++ s)).dropWhile isLineBlank) = none := by
    rw [List.dropWhile_cons_of_neg (by simp [hblank]), hnewline]
  split
  · next rest heq => cases hline.symm.trans heq
  split
  · next e rest heq =>
    obtain ⟨rfl, rfl⟩ : c = e ∧ s = rest := by simpa using (hread s).symm.trans heq
    rfl
  · next heq => cases (hread s).symm.trans heq

theorem multilineBasic?_newline (s : List Char) :
    multilineBasic? ('\n' :: s) = (multilineBasic? s).map fun p => ('\n' :: p.1, p.2) := by
  rw [multilineBasic?, if_neg (by decide), if_neg (by decide), if_neg (by decide)]
  split
  · next rest heq =>
    obtain rfl : s = rest := by simpa [newline?] using heq
    rfl
  · next heq => cases heq

theorem multilineBasic?_cons {c : Char} (hquote : c ≠ '"') (hbackslash : c ≠ '\\')
    (htext : isText c = true) (s : List Char) :
    multilineBasic? (c :: s) = (multilineBasic? s).map fun p => (c :: p.1, p.2) := by
  rw [multilineBasic?, if_neg hquote, if_neg hbackslash, if_pos htext]

/-- What is not a quote, or a quote behind two others, is not written as a quote. -/
theorem exists_multilineBody {quotes : Nat} {c : Char} (h : c ≠ '"' ∨ 2 ≤ quotes)
    (s : List Char) : ∃ d t, multilineBody quotes (c :: s) = d :: t ∧ d ≠ '"' ∧
      (d = c ∧ isControl c = false ∨ d = '\\') := by
  have hescaped (c : Char) (t : List Char) : ∃ d u, escape c ++ t = d :: u ∧ d ≠ '"' ∧
      (d = c ∧ isControl c = false ∨ d = '\\') := by
    unfold escape
    split
    · exact ⟨'\\', _, rfl, by decide, Or.inr rfl⟩
    · exact ⟨'\\', _, rfl, by decide, Or.inr rfl⟩
  rw [multilineBody]
  by_cases hquote : c = '"'
  · rw [if_pos hquote, if_neg (by rcases h with h | h; exacts [absurd hquote h, by omega])]
    exact hescaped c _
  · rw [if_neg hquote]
    split
    · exact hescaped c _
    · next hplain => exact ⟨c, _, rfl, hquote, Or.inl ⟨rfl, by simp_all⟩⟩

/-- A quote that does not stand at the end is not taken for a closing one. -/
theorem after?_multilineBody {quotes : Nat} {c : Char} {s : List Char}
    (h : c ≠ '"' ∨ 1 ≤ quotes ∨ s ≠ []) (rest : List Char) :
    Text.after? ['"', '"'] (multilineBody (quotes + 1) (c :: s) ++ '"' :: rest) = none := by
  by_cases hquote : c = '"' ∧ quotes = 0
  · -- One more quote may stand as it is, and then there is something else.
    obtain ⟨rfl, rfl⟩ := hquote
    obtain ⟨d, s, rfl⟩ : ∃ d s', s = d :: s' :=
      List.exists_cons_of_ne_nil (by simpa using h)
    have hthird : d ≠ '"' ∨ 2 ≤ 2 := Or.inr le_rfl
    obtain ⟨e, t, hbody, hne, -⟩ := exists_multilineBody hthird s
    rw [multilineBody, if_pos rfl, if_pos (show 0 + 1 < 2 by decide), hbody]
    exact (after?_cons_self _ _ _).trans (after?_cons_of_ne hne _ _)
  · have hother : c ≠ '"' ∨ 2 ≤ quotes + 1 := by
      by_cases hc : c = '"'
      · have hquotes : quotes ≠ 0 := fun h => hquote ⟨hc, h⟩
        exact Or.inr (by omega)
      · exact Or.inl hc
    obtain ⟨d, t, hbody, hne, -⟩ := exists_multilineBody hother s
    rw [hbody]
    exact after?_cons_of_ne hne _ _

/-- **In three double quotes** line breaks stand as they are, and quotes that cannot be taken for
the closing ones. -/
theorem multilineBasic?_multilineBody (quotes : Nat) (s : List Char) {rest : List Char}
    (hrest : StopsAt (· == '"') rest) :
    multilineBasic? (multilineBody quotes s ++ '"' :: '"' :: '"' :: rest) = some (s, rest) := by
  induction s generalizing quotes with
  | nil =>
    rw [multilineBody, List.nil_append, multilineBasic?_closing]
    exact congrArg some (ownQuotes_append (s := []) (by simp) (by simp) hrest)
  | cons c s ih =>
    rw [multilineBody]
    by_cases hquote : c = '"'
    · subst hquote
      rw [if_pos rfl]
      split
      · rcases s with _ | ⟨d, s⟩
        · -- The last quote of the string, and the three that close it.
          rw [multilineBody, List.singleton_append, multilineBasic?_closing]
          exact congrArg some (ownQuotes_append (s := ['"']) (by simp) (by simp) hrest)
        · by_cases hend : d = '"' ∧ quotes = 0 ∧ s = []
          · -- The last two quotes of the string, and the three that close it.
            obtain ⟨rfl, rfl, rfl⟩ := hend
            have hbody : multilineBody 1 ['"'] = ['"'] := rfl
            rw [hbody, List.cons_append, List.singleton_append, multilineBasic?_closing]
            exact congrArg some (ownQuotes_append (s := ['"', '"']) (by simp) (by simp) hrest)
          · rw [List.cons_append, multilineBasic?_quote (after?_multilineBody (by grind) _), ih]
            rfl
      · rw [List.append_assoc, multilineBasic?_escape (by decide), ih]
        rfl
    · rw [if_neg hquote]
      split
      · next h =>
        have hescaped : isEscaped c = true := by
          simp only [isEscaped, Bool.or_eq_true, beq_iff_eq] at h ⊢
          tauto
        rw [List.append_assoc, multilineBasic?_escape
          (by have := toNat_lt_of_isEscaped hescaped; omega), ih]
        rfl
      · next h =>
        simp only [Bool.or_eq_true, beq_iff_eq, not_or, Bool.not_eq_true] at h
        by_cases hnewline : c = '\n'
        · subst hnewline
          rw [List.cons_append, multilineBasic?_newline, ih]
          rfl
        · rw [List.cons_append, multilineBasic?_cons hquote h.2
            (isText_of_not_isControl h.1.1 hnewline), ih]
          rfl

end MultilineBasic

section MultilineLiteral

theorem multilineLiteral?_closing (rest : List Char) :
    multilineLiteral? ('\'' :: '\'' :: '\'' :: rest) = some (ownQuotes '\'' rest) := by
  simp [multilineLiteral?, Text.after?]

theorem multilineLiteral?_quote {s : List Char} (h : Text.after? ['\'', '\''] s = none) :
    multilineLiteral? ('\'' :: s) = (multilineLiteral? s).map fun p => ('\'' :: p.1, p.2) := by
  rw [multilineLiteral?, if_pos rfl, h]

theorem multilineLiteral?_newline (s : List Char) :
    multilineLiteral? ('\n' :: s) = (multilineLiteral? s).map fun p => ('\n' :: p.1, p.2) := by
  rw [multilineLiteral?, if_neg (by decide), if_neg (by decide)]
  split
  · next rest heq =>
    obtain rfl : s = rest := by simpa [newline?] using heq
    rfl
  · next heq => cases heq

/-- **In three single quotes** a string stands as it is, unless three of them stand in it. -/
theorem multilineLiteral?_append {s rest : List Char} (hcontrol : ∀ c ∈ s, isControl c = false)
    (hquotes : ¬['\'', '\'', '\''] <:+: s) (hrest : StopsAt (· == '\'') rest) :
    multilineLiteral? (s ++ '\'' :: '\'' :: '\'' :: rest) = some (s, rest) := by
  induction s with
  | nil =>
    rw [List.nil_append, multilineLiteral?_closing]
    exact congrArg some (ownQuotes_append (s := []) (by simp) (by simp) hrest)
  | cons c s ih =>
    obtain ⟨hc, hcontrol⟩ := List.forall_mem_cons.1 hcontrol
    have ih := ih hcontrol fun h => hquotes (List.infix_cons h)
    by_cases hquote : c = '\''
    · subst hquote
      rcases s with _ | ⟨d, _ | ⟨e, s⟩⟩
      · rw [List.singleton_append, multilineLiteral?_closing]
        exact congrArg some (ownQuotes_append (s := ['\'']) (by simp) (by simp) hrest)
      · by_cases hd : d = '\''
        · subst hd
          rw [List.cons_append, List.singleton_append, multilineLiteral?_closing]
          exact congrArg some (ownQuotes_append (s := ['\'', '\'']) (by simp) (by simp) hrest)
        · have hafter := after?_cons_of_ne hd ['\''] ('\'' :: '\'' :: '\'' :: rest)
          rw [List.cons_append, List.singleton_append, multilineLiteral?_quote hafter,
            ← List.singleton_append, ih]
          rfl
      · -- Two more quotes would make three.
        have hafter : Text.after? ['\'', '\'']
            (d :: e :: s ++ '\'' :: '\'' :: '\'' :: rest) = none := by
          by_contra hsome
          obtain ⟨t, ht⟩ := Option.ne_none_iff_exists'.1 hsome
          obtain ⟨rfl, rfl, -⟩ : d = '\'' ∧ e = '\'' ∧ _ := by
            simpa using Text.after?_eq_some_iff.1 ht
          exact hquotes (List.IsPrefix.isInfix ⟨s, rfl⟩)
        rw [List.cons_append, multilineLiteral?_quote hafter, ih]
        rfl
    · by_cases hnewline : c = '\n'
      · subst hnewline
        rw [List.cons_append, multilineLiteral?_newline, ih]
        rfl
      · rw [List.cons_append, multilineLiteral?, if_neg hquote,
          if_pos (isText_of_not_isControl hc hnewline), ih]
        rfl

end MultilineLiteral

/-! ### All quotes -/

/-- A line break directly behind three quotes is passed over, and there is one if the string has
line breaks of its own. -/
theorem newline?_opening {s body : List Char} (h : '\n' ∉ s → newline? body = none) :
    (newline? ((if s.contains '\n' then ['\n'] else []) ++ body)).getD
      ((if s.contains '\n' then ['\n'] else []) ++ body) = body := by
  by_cases hnewline : '\n' ∈ s
  · simp [hnewline, newline?]
  · simp [hnewline, h hnewline]

theorem newline?_eq_none {c : Char} (hnewline : c ≠ '\n') (hreturn : c ≠ '\r') (s : List Char) :
    newline? (c :: s) = none := by
  unfold newline?
  split <;> simp_all

/-- What follows a string in quotes is no quote. -/
def IsUnquoted (s : List Char) : Prop :=
  StopsAt (fun c => c == '"' || c == '\'') s

theorem IsUnquoted.stopsAt {rest : List Char} (h : IsUnquoted rest) :
    StopsAt (· == '"') rest ∧ StopsAt (· == '\'') rest := by
  constructor <;> intro c hc <;> have := h c hc <;> simp_all

theorem IsUnquoted.after?_eq_none {rest : List Char} (h : IsUnquoted rest) :
    Text.after? ['"'] rest = none ∧ Text.after? ['\''] rest = none := by
  cases rest with
  | nil => exact ⟨rfl, rfl⟩
  | cons c rest =>
    have hc := Text.stopsAt_cons.1 h
    simp only [Bool.or_eq_false_iff, beq_eq_false_iff_ne] at hc
    exact ⟨after?_cons_of_ne hc.1 _ _, after?_cons_of_ne hc.2 _ _⟩

/-- What the single quotes are chosen for. -/
theorem of_eq_literal {s : List Char} (h : Quotes.of s = .literal) :
    (∀ c ∈ s, isControl c = false) ∧ '\n' ∉ s ∧ '\'' ∉ s := by
  unfold Quotes.of at h
  dsimp only at h
  split_ifs at h
  simp_all

theorem of_eq_multilineLiteral {s : List Char} (h : Quotes.of s = .multilineLiteral) :
    (∀ c ∈ s, isControl c = false) ∧ ¬['\'', '\'', '\''] <:+: s := by
  unfold Quotes.of at h
  rw [← Text.occursIn_iff_isInfix]
  dsimp only at h
  split_ifs at h
  simp_all

theorem unquote?_one {s : List Char} :
    (Text.after? ['"', '"'] s = none → unquote? ('"' :: s) = basic? s) ∧
      (Text.after? ['\'', '\''] s = none → unquote? ('\'' :: s) = literal? s) := by
  constructor <;> intro h <;> unfold unquote? <;> split <;> simp_all [Text.after?]

/-- The empty string apart, there are no two quotes at the front. -/
theorem after?_basicBody (s : List Char) {rest : List Char} (hrest : IsUnquoted rest) :
    Text.after? ['"', '"'] (basicBody s ++ '"' :: rest) = none := by
  cases s with
  | nil =>
    rw [basicBody, List.flatMap_nil, List.nil_append, after?_cons_self]
    exact hrest.after?_eq_none.1
  | cons c s =>
    rw [basicBody, List.flatMap_cons]
    split
    · have hescaped : isEscaped c = true := by assumption
      obtain ⟨letter, more, hescape, -⟩ :=
        exists_escape (c := c) (by have := toNat_lt_of_isEscaped hescaped; omega)
      rw [hescape]
      exact after?_cons_of_ne (by decide) _ _
    · exact after?_cons_of_ne (fun heq => by simp_all) _ _

theorem newline?_multilineBody {s : List Char} (h : '\n' ∉ s) (rest : List Char) :
    newline? (multilineBody 0 s ++ '"' :: rest) = none := by
  cases s with
  | nil => exact newline?_eq_none (by decide) (by decide) rest
  | cons c s =>
    by_cases hquote : c = '"'
    · subst hquote
      exact newline?_eq_none (by decide) (by decide) _
    · have hother : c ≠ '"' ∨ 2 ≤ 0 := Or.inl hquote
      obtain ⟨d, t, hbody, -, hd⟩ := exists_multilineBody hother s
      rw [hbody]
      have hc : c ≠ '\n' := fun heq => h (heq ▸ List.mem_cons_self)
      rcases hd with ⟨rfl, hcontrol⟩ | rfl
      · exact newline?_eq_none hc (fun heq => by simp [heq, isControl] at hcontrol) _
      · exact newline?_eq_none (by decide) (by decide) _

/-- **Quoting is read back**: every string, up to its closing quotes. -/
theorem unquote?_quote (s : List Char) {rest : List Char} (hrest : IsUnquoted rest) :
    unquote? (quote s ++ rest) = some (s, rest) := by
  unfold quote
  cases hquotes : Quotes.of s with
  | basic =>
    have hbody := after?_basicBody s hrest
    simp only [List.append_assoc, List.cons_append, List.nil_append]
    rw [unquote?_one.1 hbody, basic?_basicBody]
  | literal =>
    obtain ⟨hcontrol, hnewline, hquote⟩ := of_eq_literal hquotes
    have hbody : Text.after? ['\'', '\''] (s ++ '\'' :: rest) = none := by
      rcases s with _ | ⟨c, s⟩
      · rw [List.nil_append, after?_cons_self]
        exact hrest.after?_eq_none.2
      · have hne : c ≠ '\'' := fun heq => hquote (heq ▸ List.mem_cons_self)
        exact after?_cons_of_ne hne _ _
    simp only [List.append_assoc, List.cons_append, List.nil_append]
    rw [unquote?_one.2 hbody, literal?_append hcontrol hnewline hquote]
  | multilineBasic =>
    simp only [List.append_assoc, List.cons_append, List.nil_append, unquote?]
    rw [newline?_opening fun h => newline?_multilineBody h _,
      multilineBasic?_multilineBody 0 s hrest.stopsAt.1]
  | multilineLiteral =>
    obtain ⟨hcontrol, hquotes⟩ := of_eq_multilineLiteral hquotes
    have hopening (h : '\n' ∉ s) : newline? (s ++ '\'' :: '\'' :: '\'' :: rest) = none := by
      rcases s with _ | ⟨c, s⟩
      · rfl
      · obtain ⟨hc, -⟩ := List.forall_mem_cons.1 hcontrol
        exact newline?_eq_none (fun heq => h (heq ▸ List.mem_cons_self))
          (fun heq => by simp [heq, isControl] at hc) _
    simp only [List.append_assoc, List.cons_append, List.nil_append, unquote?]
    rw [newline?_opening hopening,
      multilineLiteral?_append hcontrol hquotes hrest.stopsAt.2]

end FirmwareReport.Toml
