import Mathlib.Data.List.Nodup
import FirmwareReport.Catalog
import FirmwareReport.Proofs.Text.Search

/-!
# Modules by name

A catalog names its modules apart, and every path belongs to one of them
(`FirmwareReport.Catalog.nodup_names`, `FirmwareReport.Catalog.classify_mem_names`).

Which one it is can be said of the list of categories as it was declared, without building a
catalog: the first one, the catch-all apart, with a pattern that is part of the path
(`FirmwareReport.moduleOf`). Where the catch-all was declared does not matter.
-/

namespace FirmwareReport

/-- Whether a category, the catch-all apart, has a pattern that is part of a path. -/
def Category.Claims (category : Category) (path : String) : Prop :=
  category.name ≠ catchAllName ∧ ∃ pattern ∈ category.patterns, pattern.toList <:+: path.toList

instance (category : Category) (path : String) : Decidable (category.Claims path) :=
  inferInstanceAs (Decidable (_ ∧ _))

/-- **The module of a path**: the first category that claims it, else the catch-all. -/
def moduleOf (categories : List Category) (path : String) : String :=
  ((categories.find? fun category => decide (category.Claims path)).map Category.name).getD
    catchAllName

theorem Category.isCatchAll_iff {category : Category} :
    category.isCatchAll = true ↔ category.name = catchAllName := by
  simp [Category.isCatchAll]

theorem Category.claims_iff {category : Category} {path : String} :
    category.Claims path ↔ (!category.isCatchAll && category.covers path) = true := by
  simp [Category.Claims, Category.isCatchAll, Category.covers, Text.occursIn_iff_isInfix]

theorem classify_eq_moduleOf (categories : List Category) (path : String) :
    classify categories path = moduleOf categories path := by
  have hfun : (fun category : Category => decide (category.Claims path)) =
      fun category => !category.isCatchAll && category.covers path := by
    funext category
    rw [Bool.eq_iff_iff, decide_eq_true_eq, Category.claims_iff]
  rw [classify, moduleOf, hfun]
  cases categories.find? fun category => !category.isCatchAll && category.covers path <;> rfl

/-- The names of categories, the catch-all apart. -/
def properNames (categories : List Category) : List String :=
  (categories.filter (!·.isCatchAll)).map (·.name)

theorem properNames_append (categories more : List Category) :
    properNames (categories ++ more) = properNames categories ++ properNames more := by
  rw [properNames, List.filter_append, List.map_append]
  rfl

theorem properNames_cons_of_isCatchAll_eq_false {category : Category}
    (h : category.isCatchAll = false) (categories : List Category) :
    properNames (category :: categories) = category.name :: properNames categories := by
  rw [properNames, List.filter_cons_of_pos (by simp [h]), List.map_cons]
  rfl

theorem mem_properNames_of_find? {categories : List Category} {category : Category} {path : String}
    (h : categories.find? (fun category => decide (category.Claims path)) = some category) :
    category.name ∈ properNames categories := by
  have hclaims : category.Claims path := by simpa using List.find?_some h
  have hproper := (Bool.and_eq_true_iff.1 (Category.claims_iff.1 hclaims)).1
  exact List.mem_map_of_mem (List.mem_filter.2 ⟨List.mem_of_find?_eq_some h, hproper⟩)

/-- The module of a path is one of the categories, or the catch-all. -/
theorem moduleOf_mem (categories : List Category) (path : String) :
    moduleOf categories path ∈ properNames categories ++ [catchAllName] := by
  rw [moduleOf]
  cases h : categories.find? fun category => decide (category.Claims path) with
  | none => simp
  | some category => exact List.mem_append_left _ (mem_properNames_of_find? h)

/-- What the categories in front do not claim is left to those behind. -/
theorem moduleOf_append (categories more : List Category) (path : String) :
    moduleOf (categories ++ more) path =
      ((categories.find? fun category => decide (category.Claims path)).map Category.name).getD
        (moduleOf more path) := by
  rw [moduleOf, List.find?_append]
  cases categories.find? fun category => decide (category.Claims path) <;> rfl

theorem moduleOf_cons (category : Category) (categories : List Category) (path : String) :
    moduleOf (category :: categories) path =
      if category.Claims path then category.name else moduleOf categories path := by
  rw [moduleOf, List.find?_cons]
  by_cases h : category.Claims path <;> simp [h, moduleOf]

namespace Catalog

variable {categories : List Category} {catalog : Catalog}

/-- **What makes a list a catalog**: names that are more than white space and differ from each
other, and no patterns on the catch-all. -/
theorem exists_ofCategories_iff : (∃ catalog, ofCategories categories = .ok catalog) ↔
    (∀ c ∈ categories, Text.isAllBlank c.name.toList = false) ∧
      (categories.map (·.name)).Nodup ∧
      ∀ c ∈ categories, c.isCatchAll = true → c.patterns = [] := by
  have hscan := @scan_eq_none_iff [] categories
  simp only [List.not_mem_nil, not_false_eq_true, implies_true, and_true] at hscan
  rw [← hscan, ofCategories]
  split
  · next fault hfault => simp [hfault]
  · next hnone => simp [hnone]

/-- A catalog keeps the declared categories, the catch-all apart. -/
theorem proper_of_ofCategories (h : ofCategories categories = .ok catalog) :
    catalog.proper = categories.filter (!·.isCatchAll) := by
  unfold ofCategories at h
  split at h
  · cases h
  · obtain rfl := Except.ok.inj h
    rfl

/-- **The catalog sends a path where the declared list sends it.** -/
theorem classify_of_ofCategories (h : ofCategories categories = .ok catalog) (path : String) :
    catalog.classify path = moduleOf categories path := by
  have hlast : [catchAll].find? (fun category => decide (category.Claims path)) = none := by
    have hnot : ¬catchAll.Claims path := fun h => h.1 rfl
    simp [hnot]
  have hproper :
      (fun category : Category => !category.isCatchAll && decide (category.Claims path)) =
        fun category => decide (category.Claims path) := by
    funext category
    rw [Bool.eq_iff_iff, Bool.and_eq_true, decide_eq_true_eq, and_iff_right_iff_imp]
    exact fun h => (Bool.and_eq_true_iff.1 (Category.claims_iff.1 h)).1
  rw [classify, classify_eq_moduleOf, moduleOf, moduleOf, Catalog.categories,
    proper_of_ofCategories h, List.find?_append, List.find?_filter, hlast, Option.or_none]
  rw [← hproper]
  simp only [Bool.decide_and, Bool.decide_eq_true]

theorem names_eq (catalog : Catalog) :
    catalog.names = catalog.proper.map (·.name) ++ [catchAllName] := by
  rw [names, Catalog.categories, List.map_append]
  rfl

theorem names_of_ofCategories (h : ofCategories categories = .ok catalog) :
    catalog.names = properNames categories ++ [catchAllName] := by
  rw [names_eq, proper_of_ofCategories h]
  rfl

/-- **The modules are named apart.** -/
theorem nodup_names (catalog : Catalog) : catalog.names.Nodup := by
  rw [names_eq, List.nodup_append_comm, List.singleton_append, List.nodup_cons]
  refine ⟨fun hmem => ?_, catalog.distinct⟩
  obtain ⟨category, hcategory, hname⟩ := List.mem_map.1 hmem
  have hordinary := catalog.ordinary category hcategory
  rw [Bool.eq_false_iff] at hordinary
  exact hordinary (Category.isCatchAll_iff.2 hname)

/-- **A name has one place.** -/
theorem indexOf?_eq_some_iff {catalog : Catalog} {name : String} {i : Nat} :
    catalog.indexOf? name = some i ↔ catalog.names[i]? = some name := by
  rw [indexOf?, List.findIdx?_eq_some_iff_getElem, List.getElem?_eq_some_iff]
  constructor
  · rintro ⟨hlt, heq, -⟩
    exact ⟨hlt, beq_iff_eq.1 heq⟩
  · rintro ⟨hlt, rfl⟩
    refine ⟨hlt, beq_self_eq_true _, fun j hj heq => ?_⟩
    exact hj.ne (catalog.nodup_names.getElem_inj_iff.1 (beq_iff_eq.1 heq))

theorem indexOf?_eq_none_iff {catalog : Catalog} {name : String} :
    catalog.indexOf? name = none ↔ name ∉ catalog.names := by
  rw [indexOf?, List.findIdx?_eq_none_iff]
  constructor
  · intro h hmem
    exact absurd (h name hmem) (by simp)
  · intro h other hother
    exact beq_false_of_ne fun heq => h (heq ▸ hother)

/-- The catch-all has the last place. -/
theorem getElem?_names_length_proper (catalog : Catalog) :
    catalog.names[catalog.proper.length]? = some catchAllName := by
  rw [names_eq]
  simp

/-- **Every path belongs to a module.** -/
theorem classify_mem_names (catalog : Catalog) (path : String) :
    catalog.classify path ∈ catalog.names := by
  rw [classify, FirmwareReport.classify]
  split
  · next category hfind => exact List.mem_map_of_mem (List.mem_of_find?_eq_some hfind)
  · simp [names_eq]

end Catalog

end FirmwareReport
