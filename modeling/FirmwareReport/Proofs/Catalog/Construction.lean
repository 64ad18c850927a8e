import FirmwareReport.Proofs.Footprint.Catalog
import FirmwareReport.Proofs.Text.Blank

/-!
# Building a catalog

A list of categories is a catalog or has a fault. The fault that is told is that of the first
category, from the front, with which something is wrong (`FirmwareReport.IsFirstFault`). What is
wrong with a category depends on those in front of it, since a name may not occur twice
(`FirmwareReport.Category.Offends`); if several things are wrong with one, the first of the three
kinds is told.

A list without a fault gives a catalog that keeps the categories as they were declared, but for the
catch-all, which goes behind all others. The catalog is itself a list without a fault, and it is the
catalog of that list (`FirmwareReport.Catalog.ofCategories_categories`).
-/

namespace FirmwareReport

/-! ### Faults from the front -/

/-- **What is wrong with a category** that stands behind others. -/
inductive Category.Offends (front : List Category) (category : Category) : CatalogFault → Prop
  /-- The name is empty or all white space. -/
  | emptyName (h : Text.trim category.name.toList = []) : Offends front category .emptyName
  /-- The name is that of a category in front. -/
  | duplicateName (hnamed : Text.trim category.name.toList ≠ [])
      (h : category.name ∈ front.map (·.name)) :
      Offends front category (.duplicateName category.name)
  /-- The category is the catch-all and has patterns. -/
  | patternsOnCatchAll (hnamed : Text.trim category.name.toList ≠ [])
      (hnew : category.name ∉ front.map (·.name)) (hname : category.name = catchAllName)
      (h : category.patterns ≠ []) : Offends front category (.patternsOnCatchAll category.name)

/-- The first fault of some categories behind others: it is wrong with one of them, and nothing is
wrong with those in front of that one. -/
def IsFirstFaultBehind (front categories : List Category) (fault : CatalogFault) : Prop :=
  ∃ (i : Nat) (category : Category), categories[i]? = some category ∧
    category.Offends (front ++ categories.take i) fault ∧
    ∀ j < i, ∀ earlier, categories[j]? = some earlier →
      ∀ other, ¬earlier.Offends (front ++ categories.take j) other

/-- **The first fault of a list**, with nothing in front of it. -/
def IsFirstFault (categories : List Category) (fault : CatalogFault) : Prop :=
  IsFirstFaultBehind [] categories fault

section Scan

variable {front : List Category} {category : Category} {categories : List Category}
  {fault : CatalogFault}

/-- Something is wrong with the first category, or with one behind it. -/
theorem isFirstFaultBehind_cons : IsFirstFaultBehind front (category :: categories) fault ↔
    category.Offends front fault ∨
      (∀ other, ¬category.Offends front other) ∧
        IsFirstFaultBehind (front ++ [category]) categories fault := by
  have htake : ∀ i, front ++ (category :: categories).take (i + 1) =
      front ++ [category] ++ categories.take i := by
    intro i
    rw [List.take_succ_cons, List.append_cons]
  have hnone : front ++ (category :: categories).take 0 = front := List.append_nil front
  constructor
  · rintro ⟨i, found, hfound, hoffends, hfirst⟩
    cases i with
    | zero =>
      obtain rfl : category = found := Option.some.inj hfound
      exact Or.inl (hnone ▸ hoffends)
    | succ i =>
      refine Or.inr ⟨fun other h => ?_, i, found, hfound, htake i ▸ hoffends, ?_⟩
      · exact hfirst 0 i.succ_pos category rfl other (hnone.symm ▸ h)
      · intro j hj earlier hearlier other h
        exact hfirst (j + 1) (Nat.succ_lt_succ hj) earlier hearlier other ((htake j).symm ▸ h)
  · rintro (hoffends | ⟨hsound, i, found, hfound, hoffends, hfirst⟩)
    · exact ⟨0, category, rfl, hnone.symm ▸ hoffends, fun j hj => absurd hj j.not_lt_zero⟩
    · refine ⟨i + 1, found, hfound, (htake i).symm ▸ hoffends, ?_⟩
      rintro (_ | j) hj earlier hearlier other h
      · obtain rfl : category = earlier := Option.some.inj hearlier
        exact hsound other (hnone ▸ h)
      · exact hfirst j (Nat.lt_of_succ_lt_succ hj) earlier hearlier other (htake j ▸ h)

/-- The fault of a category is what is wrong with it, if the names seen are those in front. -/
theorem fault?_eq_some_iff {seen : List String}
    (hseen : ∀ name, name ∈ seen ↔ name ∈ front.map (·.name)) :
    category.fault? seen = some fault ↔ category.Offends front fault := by
  simp only [Category.fault?, ← Text.trim_eq_nil_iff, List.contains_iff_mem, hseen,
    Bool.and_eq_true, Category.isCatchAll_iff, Bool.not_eq_true', List.isEmpty_eq_false_iff]
  split_ifs with hnil hdup hpatterns
  · constructor
    · rintro ⟨⟩
      exact .emptyName hnil
    · rintro (_ | hnamed | hnamed)
      · rfl
      · exact absurd hnil hnamed
      · exact absurd hnil hnamed
  · constructor
    · rintro ⟨⟩
      exact .duplicateName hnil hdup
    · rintro (h | _ | ⟨_, hnew⟩)
      · exact absurd h hnil
      · rfl
      · exact absurd hdup hnew
  · constructor
    · rintro ⟨⟩
      exact .patternsOnCatchAll hnil hdup hpatterns.1 hpatterns.2
    · rintro (h | ⟨_, hmem⟩ | _)
      · exact absurd h hnil
      · exact absurd hmem hdup
      · rfl
  · refine iff_of_false not_false ?_
    rintro (h | ⟨_, hmem⟩ | ⟨_, _, hname, hne⟩)
    · exact hnil h
    · exact hdup hmem
    · exact hpatterns ⟨hname, hne⟩

/-- **A scan finds the first fault.** -/
theorem scan_eq_some_iff {seen : List String}
    (hseen : ∀ name, name ∈ seen ↔ name ∈ front.map (·.name)) :
    (scan seen categories).2 = some fault ↔ IsFirstFaultBehind front categories fault := by
  induction categories generalizing front seen with
  | nil =>
    refine iff_of_false (Option.some_ne_none fault).symm ?_
    rintro ⟨i, found, hfound, -⟩
    cases hfound
  | cons category categories ih =>
    rw [isFirstFaultBehind_cons, scan]
    cases hfault : category.fault? seen with
    | some found =>
      have hfound := (fault?_eq_some_iff hseen).1 hfault
      constructor
      · rintro ⟨⟩
        exact Or.inl hfound
      · rintro (hoffends | ⟨hsound, -⟩)
        · exact hfault.symm.trans ((fault?_eq_some_iff hseen).2 hoffends)
        · exact absurd hfound (hsound found)
    | none =>
      have hsound : ∀ other, ¬category.Offends front other := by
        intro other hoffends
        rw [(fault?_eq_some_iff hseen).2 hoffends] at hfault
        cases hfault
      have hnext : ∀ name, name ∈ category.name :: seen ↔
          name ∈ (front ++ [category]).map (·.name) := by
        intro name
        rw [List.mem_cons, hseen, List.map_append, List.mem_append, or_comm]
        simp
      rw [or_iff_right (hsound fault), and_iff_right hsound]
      exact ih hnext

end Scan

/-! ### Faultless lists -/

namespace Catalog

variable {categories : List Category} {catalog : Catalog}

theorem ofCategories_eq_error_iff {fault : CatalogFault} :
    ofCategories categories = .error fault ↔ IsFirstFault categories fault := by
  have hseen : ∀ name, name ∈ ([] : List String) ↔ name ∈ ([] : List Category).map (·.name) :=
    fun _ => Iff.rfl
  rw [IsFirstFault, ← scan_eq_some_iff hseen, ofCategories]
  split
  · next found hfound => simp [hfound]
  · next hnone => simp [hnone]

/-- A catalog is known by its categories. -/
theorem eq_of_proper_eq {other : Catalog} (h : catalog.proper = other.proper) :
    catalog = other := by
  cases catalog
  cases other
  cases h
  rfl

/-- **A catalog is the catalog of its own categories.** -/
theorem ofCategories_categories (catalog : Catalog) :
    ofCategories catalog.categories = .ok catalog := by
  have hmem : ∀ c ∈ catalog.categories, c ∈ catalog.proper ∨ c = catchAll := by
    intro c hc
    simpa [categories] using hc
  obtain ⟨other, hother⟩ : ∃ other, ofCategories catalog.categories = .ok other := by
    refine exists_ofCategories_iff.2 ⟨fun c hc => ?_, catalog.nodup_names, fun c hc hname => ?_⟩
    · rcases hmem c hc with hproper | rfl
      · exact catalog.named c hproper
      · decide
    · rcases hmem c hc with hproper | rfl
      · rw [catalog.ordinary c hproper] at hname
        cases hname
      · rfl
  have hproper : other.proper = catalog.proper := by
    rw [proper_of_ofCategories hother, Catalog.categories, List.filter_append,
      List.filter_eq_self.2 fun c hc => by rw [catalog.ordinary c hc]; rfl]
    exact List.append_nil _
  rw [hother, eq_of_proper_eq hproper]

/-- **What becomes of a list of categories.** It is a catalog exactly if every name is more than
white space, no two are the same and the catch-all has no patterns; if not, its first fault is told.
The catalog has the categories as they were declared, the catch-all behind all others wherever it
was declared; it is the catalog of its own categories, and sends every path where the list does. -/
theorem ofCategories_exact (categories : List Category) :
    ((∃ catalog, ofCategories categories = .ok catalog) ↔
      (∀ c ∈ categories, Text.trim c.name.toList ≠ []) ∧
      categories.Pairwise (fun c d => c.name ≠ d.name) ∧
      ∀ c ∈ categories, c.name = catchAllName → c.patterns = []) ∧
    (∀ fault, ofCategories categories = .error fault ↔ IsFirstFault categories fault) ∧
    ∀ catalog, ofCategories categories = .ok catalog →
      catalog.categories = categories.filter (fun c => c.name ≠ catchAllName) ++
        [⟨catchAllName, []⟩] ∧
      ofCategories catalog.categories = .ok catalog ∧
      ∀ path, catalog.classify path = FirmwareReport.classify categories path := by
  refine ⟨?_, fun fault => ofCategories_eq_error_iff, fun catalog h => ⟨?_, ?_, fun path => ?_⟩⟩
  · rw [exists_ofCategories_iff, List.Nodup, List.pairwise_map]
    simp only [Ne, Text.trim_eq_nil_iff, Category.isCatchAll_iff, Bool.not_eq_true]
  · rw [Catalog.categories, proper_of_ofCategories h, catchAll]
    congr 2
    funext c
    rw [Category.isCatchAll, decide_not, Bool.beq_eq_decide_eq]
  · exact ofCategories_categories catalog
  · rw [classify_of_ofCategories h, classify_eq_moduleOf]

/-- The catch-all is declared first, and a library with an empty pattern takes every path from it.
In another list, a category with two faults repeats a name in front of one that is blank. -/
theorem ofCategories_exact_moved : ∃ catalog : Catalog,
    ofCategories [⟨"Other", []⟩, ⟨"Kem", ["kem", ""]⟩, ⟨" Kem", []⟩] = .ok catalog ∧
    catalog.categories = [⟨"Kem", ["kem", ""]⟩, ⟨" Kem", []⟩, ⟨"Other", []⟩] ∧
    ofCategories catalog.categories = .ok catalog ∧
    catalog.classify "a.o" =
      FirmwareReport.classify [⟨"Other", []⟩, ⟨"Kem", ["kem", ""]⟩, ⟨" Kem", []⟩] "a.o" ∧
    IsFirstFault [⟨"Other", []⟩, ⟨"Other", ["kem"]⟩, ⟨"\u2003", []⟩] (.duplicateName "Other") := by
  obtain ⟨haccepted, -, hcatalog⟩ :=
    ofCategories_exact [⟨"Other", []⟩, ⟨"Kem", ["kem", ""]⟩, ⟨" Kem", []⟩]
  obtain ⟨catalog, h⟩ := haccepted.2 (by decide)
  obtain ⟨hcategories, hagain, hpaths⟩ := hcatalog catalog h
  obtain ⟨-, hfault, -⟩ :=
    ofCategories_exact [⟨"Other", []⟩, ⟨"Other", ["kem"]⟩, ⟨"\u2003", []⟩]
  exact ⟨catalog, h, hcategories, hagain, hpaths "a.o", (hfault _).1 rfl⟩

end Catalog

end FirmwareReport
