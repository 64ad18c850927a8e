import FirmwareReport.Text.Blank
import FirmwareReport.Text.Search

/-!
# The module catalog

Bytes are reported per *module* of the firmware: a category with a name and some
patterns, each a piece of text that the paths of its object files contain. A list
of categories is tried from the front and the first match wins; what matches none
belongs to the **catch-all**, which has a name of its own and no patterns.

A `Catalog` is a list of categories proper – named, named apart, none of them the
catch-all – with the catch-all understood to stand behind them all.
`Catalog.ofCategories` builds one from a list in which the catch-all may be declared
anywhere or nowhere, and says what is wrong with a list that is no catalog: the
first fault from the front, by `scan`.
-/

namespace FirmwareReport

/-- A module category: an object file belongs to it if its path contains one of the patterns. -/
structure Category where
  name : String
  patterns : List String
deriving DecidableEq, Repr

/-- The name of the catch-all. -/
def catchAllName : String := "Other"

/-- The catch-all. -/
def catchAll : Category := ⟨catchAllName, []⟩

namespace Category

/-- Whether a path contains one of the patterns. -/
def covers (category : Category) (path : String) : Bool :=
  category.patterns.any fun pattern => Text.occursIn pattern.toList path.toList

/-- Whether a category bears the name of the catch-all. -/
def isCatchAll (category : Category) : Bool :=
  category.name == catchAllName

end Category

/-- **First match wins**: the name of the first category that covers the path. The
catch-all never wins by a pattern, only when no other category does. -/
def classify (categories : List Category) (path : String) : String :=
  match categories.find? fun category => !category.isCatchAll && category.covers path with
  | some category => category.name
  | none => catchAllName

/-! ### Faults of a list -/

/-- What keeps a list of categories from being a catalog. -/
inductive CatalogFault
  /-- A name is empty or blank. -/
  | emptyName
  /-- A name occurs a second time. -/
  | duplicateName (name : String)
  /-- The catch-all has patterns. -/
  | patternsOnCatchAll (name : String)
deriving DecidableEq, Repr

/-- The wording of a fault. -/
def CatalogFault.message : CatalogFault → String
  | .emptyName => "Module category name must not be empty"
  | .duplicateName name => "Duplicate module category: " ++ name
  | .patternsOnCatchAll name =>
    "Catch-all category \"" ++ name ++ "\" must not declare patterns"

/-- The fault of a category that stands behind the names in `seen`, if it has one. -/
def Category.fault? (seen : List String) (category : Category) : Option CatalogFault :=
  if Text.isAllBlank category.name.toList then some .emptyName
  else if seen.contains category.name then some (.duplicateName category.name)
  else if category.isCatchAll && !category.patterns.isEmpty then
    some (.patternsOnCatchAll category.name)
  else none

/-- The categories in front of the first fault, and that fault. -/
def scan (seen : List String) : List Category → List Category × Option CatalogFault
  | [] => ([], none)
  | category :: categories =>
    match category.fault? seen with
    | some fault => ([], some fault)
    | none =>
      let rest := scan (category.name :: seen) categories
      (category :: rest.1, rest.2)

/-- The names of the categories that can never match: those without patterns, the
catch-all apart, up to the first fault. -/
def idleNames (categories : List Category) : List String :=
  ((scan [] categories).1.filter fun category =>
    !category.isCatchAll && category.patterns.isEmpty).map (·.name)

/-- No fault is found in a list exactly when every name is more than white space,
the names are new and differ from each other, and the catch-all has no patterns. -/
theorem scan_eq_none_iff {seen : List String} {categories : List Category} :
    (scan seen categories).2 = none ↔
      (∀ c ∈ categories, Text.isAllBlank c.name.toList = false) ∧
      ((categories.map (·.name)).Nodup ∧ ∀ c ∈ categories, c.name ∉ seen) ∧
      ∀ c ∈ categories, c.isCatchAll = true → c.patterns = [] := by
  induction categories generalizing seen with
  | nil => simp [scan]
  | cons c categories ih =>
    by_cases hblank : Text.isAllBlank c.name.toList = true
    · simp [scan, Category.fault?, hblank]
    by_cases hseen : c.name ∈ seen
    · simp [scan, Category.fault?, hblank, hseen]
    by_cases hpat : c.isCatchAll = true ∧ c.patterns ≠ []
    · simp [scan, Category.fault?, hblank, hseen, hpat]
    have hfault : c.fault? seen = none := by
      simp only [Category.fault?, hblank, List.contains_iff_mem, hseen, Bool.and_eq_true,
        Bool.not_eq_true', List.isEmpty_eq_false_iff, hpat]
      rfl
    simp only [scan, hfault, ih, List.mem_cons, List.map_cons, List.nodup_cons, List.mem_map]
    have hpat : c.isCatchAll = true → c.patterns = [] := fun h =>
      Classical.byContradiction fun hne => hpat ⟨h, hne⟩
    have hblank : Text.isAllBlank c.name.toList = false := by simpa using hblank
    constructor
    · rintro ⟨h₁, ⟨h₂, h₃⟩, h₄⟩
      refine ⟨?_, ⟨⟨?_, h₂⟩, ?_⟩, ?_⟩
      · rintro d (rfl | hd)
        · exact hblank
        · exact h₁ d hd
      · rintro ⟨d, hd, heq⟩
        exact h₃ d hd (.inl heq)
      · rintro d (rfl | hd) hmem
        · exact hseen hmem
        · exact h₃ d hd (.inr hmem)
      · rintro d (rfl | hd)
        · exact hpat
        · exact h₄ d hd
    · rintro ⟨h₁, ⟨⟨h₂, h₃⟩, h₄⟩, h₅⟩
      refine ⟨fun d hd => h₁ d (.inr hd), ⟨h₃, ?_⟩, fun d hd => h₅ d (.inr hd)⟩
      rintro d hd (heq | hmem)
      · exact h₂ ⟨d, hd, heq⟩
      · exact h₄ d (.inr hd) hmem

/-! ### Catalogs -/

/-- A list of categories proper, in the order in which they are tried. -/
structure Catalog where
  /-- The categories apart from the catch-all. -/
  proper : List Category
  /-- Every category has a name. -/
  named : ∀ c ∈ proper, Text.isAllBlank c.name.toList = false
  /-- No name occurs twice. -/
  distinct : (proper.map (·.name)).Nodup
  /-- None of them is the catch-all. -/
  ordinary : ∀ c ∈ proper, c.isCatchAll = false

namespace Catalog

/-- A catalog from a list of categories: the catch-all is taken out of the list,
because it stands behind all others anyway. -/
def ofCategories (categories : List Category) : Except CatalogFault Catalog :=
  match h : (scan [] categories).2 with
  | some fault => .error fault
  | none => .ok
    { proper := categories.filter (!·.isCatchAll)
      named := fun c hc => (scan_eq_none_iff.1 h).1 c (List.mem_filter.1 hc).1
      distinct := ((List.filter_sublist).map _).nodup (scan_eq_none_iff.1 h).2.1.1
      ordinary := fun c hc => by simpa using (List.mem_filter.1 hc).2 }

/-- All categories, the catch-all last. -/
def categories (catalog : Catalog) : List Category :=
  catalog.proper ++ [catchAll]

/-- The names of all categories, the catch-all's last. -/
def names (catalog : Catalog) : List String :=
  catalog.categories.map (·.name)

/-- The name of the category a path belongs to. -/
def classify (catalog : Catalog) (path : String) : String :=
  FirmwareReport.classify catalog.categories path

/-- The position of a name in the catalog. -/
def indexOf? (catalog : Catalog) (name : String) : Option Nat :=
  catalog.names.findIdx? (· == name)

end Catalog

end FirmwareReport
