import FirmwareReport.Proofs.Footprint.Postings

/-!
# What is dropped, and in which order

Once a ledger has dropped an entry, its totals depend on the order in which the entries came: a
large entry that comes early takes the room of several small ones. Whether a ledger drops anything
does not depend on the order, and neither do its totals if it drops nothing
(`FirmwareReport.Ledger.overflowed_eq_zero_iff`).

The reason is that a run that drops nothing has accepted everything, and what a run has accepted
fits into words. Conversely, if the exact sums of all entries fit, then so do the sums up to any of
them, and each one finds room (`FirmwareReport.accepted_eq_self_iff`). Sums do not depend on the
order.
-/

namespace FirmwareReport

open LinkerMap

/-! ### Everything is accepted -/

theorem Usage.fits_plus_iff {usage : Usage} {entry : Entry} :
    (usage.plus entry).Fits ↔ usage.Fits ∧ usage.HasRoom entry := by
  constructor
  · rintro ⟨hflash, hram⟩
    rw [flash_plus] at hflash
    rw [ram_plus] at hram
    refine ⟨⟨Nat.lt_of_le_of_lt (Nat.le_add_right _ _) hflash,
      Nat.lt_of_le_of_lt (Nat.le_add_right _ _) hram⟩, fun hin => ?_, fun hin => ?_⟩
    · rwa [if_pos hin] at hflash
    · rwa [if_pos hin] at hram
  · rintro ⟨hfits, hroom⟩
    exact hfits.plus hroom

section Accepted

variable {catalog : Catalog} {postings : List Posting}

theorem accepted_sublist (catalog : Catalog) (postings : List Posting) :
    (accepted catalog postings).Sublist postings := by
  induction postings using List.reverseRecOn with
  | nil => exact List.Sublist.refl _
  | append_singleton postings posting ih =>
    rw [accepted_concat, accept]
    split
    · exact ih.append_right [posting]
    · exact ih.trans (List.sublist_append_left _ _)

/-- **Everything is accepted exactly if all sums fit** into words. -/
theorem accepted_eq_self_iff : accepted catalog postings = postings ↔
    ∀ name ∈ catalog.names, (sumsFor catalog postings name).Fits := by
  constructor
  · intro hall name hname
    have hholds := Ledger.holds_ofPostings catalog postings
    refine hholds.fits _ ?_
    rw [hholds.modules_eq, hall]
    exact List.mem_map_of_mem hname
  · intro hfits
    induction postings using List.reverseRecOn with
    | nil => rfl
    | append_singleton postings posting ih =>
      -- The sums in front of the last posting fit too, and its entry finds room next to them.
      have hfront : ∀ name ∈ catalog.names, (sumsFor catalog postings name).Fits := by
        intro name hname
        have hlast := hfits name hname
        rw [sumsFor_concat] at hlast
        split_ifs at hlast
        · exact (Usage.fits_plus_iff.1 hlast).1
        · exact hlast
      have hlast := hfits _ (posting.moduleIn_mem catalog)
      rw [sumsFor_concat, if_pos rfl] at hlast
      rw [accepted_concat, ih hfront, accept, if_pos (Usage.fits_plus_iff.1 hlast).2]

theorem sumsFor_eq_of_perm {others : List Posting} (h : others.Perm postings) (name : String) :
    sumsFor catalog others name = sumsFor catalog postings name := by
  have hentries : (entriesFor catalog others name).Perm (entriesFor catalog postings name) :=
    (h.filter _).map _
  rw [sumsFor, sumsFor, flashSum, flashSum, ramSum, ramSum,
    total_eq_of_perm ((hentries.filter _).map _),
    total_eq_of_perm ((hentries.filter _).map _)]

end Accepted

/-! ### Nothing is dropped -/

namespace Ledger

variable {catalog : Catalog} {postings : List Posting}

/-- **Nothing is dropped** exactly if everything is accepted. -/
theorem overflowed_ofPostings_eq_zero_iff :
    (ofPostings catalog postings).overflowed = 0 ↔ accepted catalog postings = postings := by
  have hcount := (holds_ofPostings catalog postings).overflowed_eq
  constructor
  · intro hzero
    rw [hzero, Nat.zero_add] at hcount
    exact (accepted_sublist catalog postings).eq_of_length hcount
  · intro hall
    rw [hall] at hcount
    exact Nat.add_eq_right.1 hcount

/-- A ledger that has dropped nothing holds the sums of everything. -/
theorem modules_ofPostings (h : (ofPostings catalog postings).overflowed = 0) :
    (ofPostings catalog postings).modules = catalog.names.map (sumsFor catalog postings) := by
  rw [(holds_ofPostings catalog postings).modules_eq, overflowed_ofPostings_eq_zero_iff.1 h]

end Ledger

/-! ### Entries by their paths -/

/-- The entries of a module, by their paths. -/
def entriesOf (catalog : Catalog) (entries : List Entry) (name : String) : List Entry :=
  entries.filter fun entry => catalog.classify entry.path = name

/-- **The exact sums of the entries of a module**, by their paths and however large. -/
def sumsOf (catalog : Catalog) (entries : List Entry) (name : String) : Usage :=
  ⟨name, flashSum (entriesOf catalog entries name), ramSum (entriesOf catalog entries name)⟩

theorem sumsFor_map_byPath (catalog : Catalog) (entries : List Entry) (name : String) :
    sumsFor catalog (entries.map .byPath) name = sumsOf catalog entries name := by
  have hentries : entriesFor catalog (entries.map .byPath) name =
      entriesOf catalog entries name := by
    rw [entriesFor, List.filter_map, List.map_map]
    exact List.map_id _
  rw [sumsFor, sumsOf, hentries]

namespace Ledger

theorem foldl_charge_eq_ofPostings (catalog : Catalog) (entries : List Entry) :
    entries.foldl charge (start catalog) = ofPostings catalog (entries.map .byPath) := by
  rw [ofPostings, List.foldl_map]
  rfl

/-- **Whether anything is dropped is decided by the exact sums**, for flash and RAM of every module,
and so it does not depend on the order of the entries; if nothing is dropped, the totals are these
sums, in every order. -/
theorem overflowed_eq_zero_iff (catalog : Catalog) (entries : List Entry) :
    ((entries.foldl charge (start catalog)).overflowed = 0 ↔
      ∀ name ∈ catalog.names, (sumsOf catalog entries name).flash < wordLimit ∧
        (sumsOf catalog entries name).ram < wordLimit) ∧
    ((entries.foldl charge (start catalog)).overflowed = 0 →
      (entries.foldl charge (start catalog)).modules =
        catalog.names.map (sumsOf catalog entries)) ∧
    ∀ others : List Entry, others.Perm entries →
      ((others.foldl charge (start catalog)).overflowed = 0 ↔
        (entries.foldl charge (start catalog)).overflowed = 0) ∧
      ((entries.foldl charge (start catalog)).overflowed = 0 →
        (others.foldl charge (start catalog)).modules =
          (entries.foldl charge (start catalog)).modules) := by
  have hzero : ∀ entries : List Entry, (entries.foldl charge (start catalog)).overflowed = 0 ↔
      ∀ name ∈ catalog.names, (sumsOf catalog entries name).Fits := by
    intro entries
    rw [foldl_charge_eq_ofPostings, overflowed_ofPostings_eq_zero_iff, accepted_eq_self_iff]
    simp only [sumsFor_map_byPath]
  have hmodules : ∀ entries : List Entry, (entries.foldl charge (start catalog)).overflowed = 0 →
      (entries.foldl charge (start catalog)).modules =
        catalog.names.map (sumsOf catalog entries) := by
    intro entries h
    rw [foldl_charge_eq_ofPostings] at h ⊢
    rw [modules_ofPostings h]
    exact List.map_congr_left fun name _ => sumsFor_map_byPath catalog entries name
  refine ⟨hzero entries, hmodules entries, fun others hperm => ?_⟩
  have hsums : sumsOf catalog others = sumsOf catalog entries := by
    funext name
    rw [← sumsFor_map_byPath, ← sumsFor_map_byPath, sumsFor_eq_of_perm (hperm.map _)]
  have hiff : (others.foldl charge (start catalog)).overflowed = 0 ↔
      (entries.foldl charge (start catalog)).overflowed = 0 := by
    rw [hzero, hzero, hsums]
  refine ⟨hiff, fun h => ?_⟩
  rw [hmodules entries h, hmodules others (hiff.2 h), hsums]

/-- Two sections that fill the RAM total of a module to the last byte, in the other order. -/
theorem overflowed_eq_zero_iff_reversed : ∃ (catalog : Catalog) (entries others : List Entry),
    Catalog.ofCategories [⟨"Kem", ["kem"]⟩] = .ok catalog ∧
    entries = [⟨".bss", 0xfffffffffffffffe, "kem.o"⟩, ⟨".data", 1, "kem.o"⟩, ⟨".text", 3, "x.o"⟩] ∧
    others = entries.reverse ∧ others.Perm entries ∧
    (entries.foldl charge (start catalog)).overflowed = 0 ∧
    (others.foldl charge (start catalog)).overflowed = 0 ∧
    (others.foldl charge (start catalog)).modules =
      [⟨"Kem", 1, 0xffffffffffffffff⟩, ⟨"Other", 3, 0⟩] := by
  obtain ⟨catalog, h⟩ : ∃ catalog, Catalog.ofCategories [⟨"Kem", ["kem"]⟩] = .ok catalog := ⟨_, rfl⟩
  obtain ⟨entries, hentries⟩ : ∃ entries : List Entry, entries =
    [⟨".bss", 0xfffffffffffffffe, "kem.o"⟩, ⟨".data", 1, "kem.o"⟩, ⟨".text", 3, "x.o"⟩] := ⟨_, rfl⟩
  obtain ⟨hiff, hmodules, horder⟩ := overflowed_eq_zero_iff catalog entries
  have hsums : catalog.names.map (sumsOf catalog entries) =
      [⟨"Kem", 1, 0xffffffffffffffff⟩, ⟨"Other", 3, 0⟩] := by
    obtain rfl := Except.ok.inj h
    subst hentries
    decide +kernel
  have hzero : (entries.foldl charge (start catalog)).overflowed = 0 := by
    refine hiff.2 ?_
    obtain rfl := Except.ok.inj h
    subst hentries
    decide +kernel
  have hperm : entries.reverse.Perm entries := List.reverse_perm entries
  obtain ⟨hothers, hsame⟩ := horder entries.reverse hperm
  refine ⟨catalog, entries, entries.reverse, h, hentries, rfl, hperm, hzero, hothers.2 hzero, ?_⟩
  rw [hsame hzero, hmodules hzero, hsums]

end Ledger

end FirmwareReport
