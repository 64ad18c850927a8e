import FirmwareReport.Proofs.Footprint.Postings

/-!
# From a path to a slot

A ledger goes from a path to a name, and from the name to a slot. These are two searches: the first
looks for a category that claims the path and stops at the first one, the second looks for a name
among all names. They meet because no name occurs twice and the catch-all stands last
(`FirmwareReport.Catalog.IsPlaceOf.indexOf?_classify`). So an entry is charged to the slot at the
place of its path, and the name in between plays no part
(`FirmwareReport.Ledger.charge_eq_chargeAt`).

A name that is in no catalog can come only from outside. It is charged as the catch-all's name is.
-/

namespace FirmwareReport

open LinkerMap

namespace Catalog

variable {catalog : Catalog} {path : String} {i j : Nat}

/-- **The place of a path** in a catalog: that of the first category, the catch-all apart, with a
pattern that is part of the path; if there is none, the last place. -/
def IsPlaceOf (catalog : Catalog) (path : String) (i : Nat) : Prop :=
  (∃ category, catalog.categories[i]? = some category ∧ category.Claims path ∧
    ∀ j < i, ∀ earlier, catalog.categories[j]? = some earlier → ¬earlier.Claims path) ∨
  (i + 1 = catalog.categories.length ∧ ∀ category ∈ catalog.categories, ¬category.Claims path)

/-- Every path has a place. -/
theorem exists_isPlaceOf (catalog : Catalog) (path : String) : ∃ i, catalog.IsPlaceOf path i := by
  cases hfind : catalog.categories.findIdx? (fun category => decide (category.Claims path)) with
  | some i =>
    obtain ⟨hlt, hclaims, hfirst⟩ := List.findIdx?_eq_some_iff_getElem.1 hfind
    refine ⟨i, Or.inl ⟨_, List.getElem?_eq_getElem hlt, of_decide_eq_true hclaims, ?_⟩⟩
    intro j hj earlier hearlier
    obtain ⟨hjlt, rfl⟩ := List.getElem?_eq_some_iff.1 hearlier
    simpa using hfirst j hj
  | none =>
    have hnone := List.findIdx?_eq_none_iff.1 hfind
    refine ⟨catalog.proper.length, Or.inr ⟨?_, fun category hcategory => ?_⟩⟩
    · rw [categories, List.length_append, List.length_singleton]
    · simpa using hnone category hcategory

/-- **The place of a path is unique.** -/
theorem IsPlaceOf.unique (hi : catalog.IsPlaceOf path i) (hj : catalog.IsPlaceOf path j) :
    i = j := by
  rcases hi with ⟨category, hcategory, hclaims, hfirst⟩ | ⟨hlast, hnone⟩
  · rcases hj with ⟨other, hother, hclaims', hfirst'⟩ | ⟨-, hnone⟩
    · rcases Nat.lt_trichotomy i j with hlt | rfl | hlt
      · exact absurd hclaims (hfirst' i hlt category hcategory)
      · rfl
      · exact absurd hclaims' (hfirst j hlt other hother)
    · exact absurd hclaims (hnone category (List.mem_of_getElem? hcategory))
  · rcases hj with ⟨other, hother, hclaims, -⟩ | ⟨hlast', -⟩
    · exact absurd hclaims (hnone other (List.mem_of_getElem? hother))
    · omega

/-- **At the place of a path stands the name that it is sent to.** -/
theorem IsPlaceOf.getElem?_names (h : catalog.IsPlaceOf path i) :
    catalog.names[i]? = some (catalog.classify path) := by
  rw [classify, classify_eq_moduleOf, moduleOf]
  rcases h with ⟨category, hcategory, hclaims, hfirst⟩ | ⟨hlast, hnone⟩
  · have hfind : catalog.categories.find? (fun category => decide (category.Claims path)) =
        some category := by
      obtain ⟨hlt, hget⟩ := List.getElem?_eq_some_iff.1 hcategory
      refine List.find?_eq_some_iff_getElem.2 ⟨decide_eq_true hclaims, i, hlt, hget, ?_⟩
      intro j hj
      simpa using hfirst j hj _ (List.getElem?_eq_getElem (hj.trans hlt))
    rw [hfind, names, List.getElem?_map, hcategory]
    rfl
  · have hfind : catalog.categories.find? (fun category => decide (category.Claims path)) =
        none := by
      rw [List.find?_eq_none]
      intro category hcategory
      simpa using hnone category hcategory
    have hlength : i = catalog.proper.length := by
      rw [categories, List.length_append, List.length_singleton] at hlast
      exact Nat.succ.inj hlast
    rw [hfind, hlength, getElem?_names_length_proper]
    rfl

/-- **From a path to a name and from the name to a place** is from the path to its place. -/
theorem IsPlaceOf.indexOf?_classify (h : catalog.IsPlaceOf path i) :
    catalog.indexOf? (catalog.classify path) = some i :=
  indexOf?_eq_some_iff.2 h.getElem?_names

end Catalog

namespace Ledger

variable {ledger : Ledger}

/-- **A slot is in range**, also that of a name which is not in the catalog. -/
theorem slot_lt (hnamed : ledger.IsNamed) (name : String) :
    ledger.slot name < ledger.modules.length := by
  have hin : ∀ name ∈ ledger.catalog.names, ledger.slot name < ledger.modules.length := by
    intro name hname
    obtain ⟨usage, hslot, -⟩ := exists_slot hnamed hname
    exact (List.getElem?_eq_some_iff.1 hslot).1
  by_cases hname : name ∈ ledger.catalog.names
  · exact hin name hname
  · rw [slot_of_notMem hnamed hname]
    exact hin _ ledger.catalog.catchAllName_mem_names

theorem slot_classify {path : String} {i : Nat} (h : ledger.catalog.IsPlaceOf path i) :
    ledger.slot (ledger.catalog.classify path) = i := by
  rw [slot, h.indexOf?_classify, Option.getD_some]

/-- **An entry is charged to the slot at the place of its path**, at any point of a run. The name
that its path is sent to stands in the catalog at that place and leads back to it, and charging to
that name is the same. Every other name that is not in the catalog is charged as the catch-all's is,
and no slot is out of range. -/
theorem charge_eq_chargeAt (catalog : Catalog) (postings : List Posting) (entry : Entry) :
    ∃ i, (∀ j, catalog.IsPlaceOf entry.path j ↔ j = i) ∧
      catalog.names[i]? = some (catalog.classify entry.path) ∧
      catalog.indexOf? (catalog.classify entry.path) = some i ∧
      (ofPostings catalog postings).charge entry =
        (ofPostings catalog postings).chargeAt i entry ∧
      (ofPostings catalog postings).charge entry =
        (ofPostings catalog postings).chargeTo (catalog.classify entry.path) entry ∧
      i < (ofPostings catalog postings).modules.length ∧
      ∀ name, (ofPostings catalog postings).slot name <
          (ofPostings catalog postings).modules.length ∧
        (name ∉ catalog.names → (ofPostings catalog postings).chargeTo name entry =
          (ofPostings catalog postings).chargeTo catchAllName entry) := by
  have hholds := holds_ofPostings catalog postings
  generalize ofPostings catalog postings = ledger at hholds
  have hnamed := hholds.isNamed
  obtain rfl := hholds.catalog_eq
  obtain ⟨i, hi⟩ := ledger.catalog.exists_isPlaceOf entry.path
  have hslot := slot_classify hi
  refine ⟨i, fun j => ⟨fun hj => hj.unique hi, fun hj => hj ▸ hi⟩, hi.getElem?_names,
    hi.indexOf?_classify, ?_, rfl, ?_, fun name => ⟨slot_lt hnamed name, fun hname => ?_⟩⟩
  · rw [charge, chargeTo, hslot]
  · rw [← hslot]
    exact slot_lt hnamed _
  · rw [chargeTo, chargeTo, slot_of_notMem hnamed hname]

/-- A path that two categories claim, one of them by a pattern that matches every path, in a list
that declares the catch-all first. -/
theorem charge_eq_chargeAt_shared : ∃ (catalog : Catalog) (ledger : Ledger),
    Catalog.ofCategories [⟨"Other", []⟩, ⟨"Core", ["Core/"]⟩, ⟨"Kem", ["kem"]⟩, ⟨"Lib", [""]⟩] =
      .ok catalog ∧
    ledger = ofPostings catalog [.byName ⟨".bss", 4, "a.o"⟩ "Unknown"] ∧
    (∀ j, catalog.IsPlaceOf "lib/kem.o" j ↔ j = 1) ∧
    ledger.charge ⟨".data", 8, "lib/kem.o"⟩ = ledger.chargeAt 1 ⟨".data", 8, "lib/kem.o"⟩ ∧
    "Unknown" ∉ catalog.names ∧
    ledger.chargeTo "Unknown" ⟨".data", 8, "lib/kem.o"⟩ =
      ledger.chargeTo "Other" ⟨".data", 8, "lib/kem.o"⟩ := by
  obtain ⟨catalog, h⟩ : ∃ catalog, Catalog.ofCategories
      [⟨"Other", []⟩, ⟨"Core", ["Core/"]⟩, ⟨"Kem", ["kem"]⟩, ⟨"Lib", [""]⟩] = .ok catalog :=
    ⟨_, rfl⟩
  obtain ⟨i, hplace, -, hindex, hcharge, -, -, hnames⟩ := charge_eq_chargeAt catalog
    [.byName ⟨".bss", 4, "a.o"⟩ "Unknown"] ⟨".data", 8, "lib/kem.o"⟩
  have hfirst : catalog.indexOf? (catalog.classify "lib/kem.o") = some 1 := by
    obtain rfl := Except.ok.inj h
    decide +kernel
  obtain rfl : i = 1 := Option.some.inj (hindex.symm.trans hfirst)
  have hunknown : "Unknown" ∉ catalog.names := by
    obtain rfl := Except.ok.inj h
    decide +kernel
  exact ⟨catalog, _, h, rfl, hplace, hcharge, hunknown, (hnames "Unknown").2 hunknown⟩

end Ledger

end FirmwareReport
