import Mathlib.Data.List.Infix
import FirmwareReport.Text.Search

/-!
# Occurrences of a text in another

The searches of `FirmwareReport.Text.Search`, said without the search: a literal is
found where it is an infix, and cutting fails where it is none
(`FirmwareReport.Text.occursIn_iff_isInfix`). A text is cut at the occurrence with the least in
front of it (`FirmwareReport.Text.IsFirst`, `FirmwareReport.Text.cut?_eq_some_iff`), of which there
is one.

A search goes from the left, so a text in which no occurrence **starts** can be passed over:
`FirmwareReport.Text.Passes` says so of a text and the rests that may follow it. It is what lets
a search be followed piece by piece through a text put together of pieces.
-/

namespace FirmwareReport.Text

/-! ### Occurrences -/

theorem after?_eq_none_iff {literal s : List Char} :
    after? literal s = none ↔ ¬literal <+: s := by
  constructor
  · rintro h ⟨rest, rfl⟩
    simp at h
  · intro h
    cases hs : after? literal s with
    | none => rfl
    | some rest => exact absurd ⟨rest, (after?_eq_some_iff.1 hs).symm⟩ h

theorem cut?_eq_none_iff {literal s : List Char} : cut? literal s = none ↔ ¬literal <:+: s := by
  induction s with
  | nil => cases literal <;> simp [cut?_nil]
  | cons c s ih =>
    rw [cut?_cons, List.infix_cons_iff, not_or, ← ih]
    cases h : after? literal (c :: s) with
    | none => simp [after?_eq_none_iff.1 h]
    | some rest => simpa using fun hpre => absurd h (by simp [after?_eq_none_iff.2 hpre])

/-- **Occurring is being an infix.** -/
theorem occursIn_iff_isInfix {literal s : List Char} :
    occursIn literal s = true ↔ literal <:+: s := by
  rw [occursIn, Option.isSome_iff_ne_none, ne_eq, cut?_eq_none_iff, not_not]

/-- A prefix without a certain character ends in front of it. -/
theorem isPrefix_of_isPrefix_append_cons {word s rest : List Char} {c : Char} (hc : c ∉ word)
    (h : word <+: s ++ c :: rest) : word <+: s := by
  obtain ⟨t, ht⟩ := h
  rcases List.append_eq_append_iff.1 ht with ⟨u, rfl, -⟩ | ⟨u, rfl, hu⟩
  · exact List.prefix_append word u
  · cases u with
    | nil => simp
    | cons d u =>
      obtain rfl : c = d := by simpa using (List.cons_eq_cons.1 hu).1
      exact absurd (by simp) hc

/-- **An infix without a certain character** stands on one side of it. -/
theorem isInfix_append_cons_iff {word s rest : List Char} {c : Char} (hc : c ∉ word) :
    word <:+: s ++ c :: rest ↔ word <:+: s ∨ word <:+: rest := by
  constructor
  · intro h
    induction s with
    | nil =>
      rcases List.infix_cons_iff.1 h with hpre | hin
      · exact Or.inl (isPrefix_of_isPrefix_append_cons (s := []) hc hpre).isInfix
      · exact Or.inr hin
    | cons d s ih =>
      rcases List.infix_cons_iff.1 h with hpre | hin
      · exact Or.inl (isPrefix_of_isPrefix_append_cons (s := d :: s) hc hpre).isInfix
      · exact (ih hin).imp_left fun h => h.trans (List.suffix_cons d s).isInfix
  · rintro (h | h)
    · exact h.trans (List.prefix_append s _).isInfix
    · exact h.trans ((List.suffix_cons c rest).trans (List.suffix_append s _)).isInfix

/-- An infix that begins otherwise does not begin with the character in front. -/
theorem isInfix_cons_iff_of_head {a c : Char} {word s : List Char} (hne : c ≠ a) :
    a :: word <:+: c :: s ↔ a :: word <:+: s := by
  rw [List.infix_cons_iff, or_iff_right]
  intro hpre
  exact hne (List.cons_prefix_cons.1 hpre).1.symm

/-- An infix that ends otherwise does not end with the character behind. -/
theorem isInfix_concat_iff_of_last {a c : Char} {word s : List Char} (hne : c ≠ a) :
    word ++ [a] <:+: s ++ [c] ↔ word ++ [a] <:+: s := by
  rw [← List.reverse_infix, ← @List.reverse_infix _ (word ++ [a]) s]
  simp only [List.reverse_append, List.reverse_singleton, List.singleton_append]
  exact isInfix_cons_iff_of_head hne

/-! ### The first occurrence -/

/-- The text in front of what is found is the shortest of all in front of an occurrence. -/
theorem length_le_of_cut? {literal front behind before rest : List Char}
    (h : cut? literal (front ++ literal ++ behind) = some (before, rest)) :
    before.length ≤ front.length := by
  induction front generalizing before with
  | nil =>
    rw [List.nil_append] at h
    cases hs : literal ++ behind with
    | nil =>
      have hlength := length_of_cut? h
      rw [hs, List.length_nil] at hlength
      rw [List.length_nil]
      omega
    | cons c s =>
      rw [hs, cut?_cons, ← hs, after?_append] at h
      obtain ⟨rfl, -⟩ : [] = before ∧ behind = rest := by simpa using h
      exact Nat.le_refl _
  | cons c front ih =>
    rw [List.cons_append, List.cons_append, cut?_cons] at h
    split at h
    · next r _ =>
      obtain ⟨rfl, -⟩ : [] = before ∧ r = rest := by simpa using h
      exact Nat.zero_le _
    · obtain ⟨⟨b, r⟩, hb, heq⟩ := Option.map_eq_some_iff.1 h
      obtain ⟨rfl, rfl⟩ : c :: b = before ∧ r = rest := by simpa using heq
      exact Nat.succ_le_succ (ih hb)

/-- **The first occurrence** of a literal in a text, between what stands before it and what stands
behind it: no other one begins in front of it. -/
def IsFirst (literal before rest : List Char) : Prop :=
  ∀ front behind, before ++ literal ++ rest = front ++ literal ++ behind →
    before.length ≤ front.length

/-- **A text is cut at the first occurrence.** -/
theorem cut?_eq_some_iff {literal s before rest : List Char} :
    cut? literal s = some (before, rest) ↔
      s = before ++ literal ++ rest ∧ IsFirst literal before rest := by
  constructor
  · intro h
    have hs := eq_of_cut? h
    refine ⟨hs, fun front behind heq => ?_⟩
    rw [hs, heq] at h
    exact length_le_of_cut? h
  · rintro ⟨rfl, hfirst⟩
    cases hcut : cut? literal (before ++ literal ++ rest) with
    | none =>
      exact absurd (List.infix_append before literal rest) (cut?_eq_none_iff.1 hcut)
    | some p =>
      obtain ⟨front, behind⟩ := p
      have heq := eq_of_cut? hcut
      have hlength := Nat.le_antisymm (hfirst front behind heq) (length_le_of_cut? hcut)
      rw [List.append_assoc, List.append_assoc] at heq
      obtain ⟨rfl, hrest⟩ := List.append_inj heq hlength
      rw [List.append_cancel_left hrest]

instance (literal before rest : List Char) : Decidable (IsFirst literal before rest) :=
  decidable_of_iff (cut? literal (before ++ literal ++ rest) = some (before, rest))
    (cut?_eq_some_iff.trans (and_iff_right rfl))

/-- **Any other occurrence** has more in front of it than the first, and less behind it. -/
theorem IsFirst.isPrefix_and_isSuffix {literal before rest front behind : List Char}
    (h : IsFirst literal before rest)
    (heq : before ++ literal ++ rest = front ++ literal ++ behind) :
    before <+: front ∧ behind <:+ rest := by
  have hlength := h front behind heq
  have hlengths := congrArg List.length heq
  simp only [List.length_append] at hlengths
  have hbehind : behind <:+ before ++ literal ++ rest := heq ▸ List.suffix_append _ behind
  rw [List.append_assoc, List.append_assoc] at heq
  have hfront : front <+: before ++ (literal ++ rest) := heq ▸ List.prefix_append front _
  exact ⟨List.prefix_of_prefix_length_le (List.prefix_append before _) hfront hlength,
    List.suffix_of_suffix_length_le hbehind (List.suffix_append _ rest) (by omega)⟩

/-- There is one first occurrence. -/
theorem IsFirst.unique {literal before rest before' rest' : List Char}
    (h : IsFirst literal before rest) (h' : IsFirst literal before' rest')
    (heq : before ++ literal ++ rest = before' ++ literal ++ rest') :
    before = before' ∧ rest = rest' := by
  have hcut := cut?_eq_some_iff.2 ⟨rfl, h⟩
  rw [heq, cut?_eq_some_iff.2 ⟨rfl, h'⟩] at hcut
  simpa [eq_comm] using hcut

/-! ### Passing over a text -/

/-- **A search passes over a text** in front of a rest: it finds what it finds in the rest. -/
def Passes (literal s rest : List Char) : Prop :=
  cut? literal (s ++ rest) = (cut? literal rest).map fun p => (s ++ p.1, p.2)

namespace Passes

variable {literal s t rest : List Char}

theorem nil : Passes literal [] rest := by
  simp [Passes]

theorem append (hs : Passes literal s (t ++ rest)) (ht : Passes literal t rest) :
    Passes literal (s ++ t) rest := by
  rw [Passes, List.append_assoc, hs, ht, Option.map_map]
  simp [Function.comp_def]

theorem cons {c : Char} (hc : ¬literal <+: c :: (s ++ rest)) (hs : Passes literal s rest) :
    Passes literal (c :: s) rest := by
  rw [Passes, List.cons_append, cut?_cons, after?_eq_none_iff.2 hc, hs]
  simp [Function.comp_def]

/-- What is behind the occurrence does not depend on what was passed over. -/
theorem map_snd_cut? (h : Passes literal s rest) :
    (cut? literal (s ++ rest)).map Prod.snd = (cut? literal rest).map Prod.snd := by
  rw [h, Option.map_map]
  rfl

end Passes

/-- A literal in front of a rest is found there. -/
theorem cut?_append_self {literal : List Char} (h : literal ≠ []) (rest : List Char) :
    cut? literal (literal ++ rest) = some ([], rest) := by
  cases literal with
  | nil => exact absurd rfl h
  | cons a literal =>
    rw [List.cons_append, cut?_cons, ← List.cons_append, after?_append]

/-- A literal behind a text that the search passes over is found there. -/
theorem cut?_of_passes {literal s rest : List Char} (hne : literal ≠ [])
    (h : Passes literal s (literal ++ rest)) :
    cut? literal (s ++ (literal ++ rest)) = some (s, rest) := by
  rw [h, cut?_append_self hne]
  simp

end FirmwareReport.Text
