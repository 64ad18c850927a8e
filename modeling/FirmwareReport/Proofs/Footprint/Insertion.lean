import FirmwareReport.Proofs.Footprint.Exact
import FirmwareReport.Proofs.Number.Weight

/-!
# One module more

A new category put into a list of categories takes paths from those behind it and from the
catch-all, wherever that was declared, and from no other
(`FirmwareReport.moduleOf_insert`). So its module takes bytes from their modules only, and takes
exactly what they lose (`FirmwareReport.Footprint.ofMap_insert`).

The catalog plays no part in the counting: there are items, each under a name, and some of them go
over from later names to a new one (`FirmwareReport.GoOver`). What the items of a name weigh
(`FirmwareReport.weightOf`) is then the same for a name that is not among the later ones
(`FirmwareReport.GoOver.weightOf_eq`), no more for one that is
(`FirmwareReport.GoOver.weightOf_le`), and nothing is lost on the whole
(`FirmwareReport.GoOver.total_weightOf`).
-/

namespace FirmwareReport

open LinkerMap

/-! ### Items that go over to a new name -/

/-- **Some items go over** from later names to a new one, and all others keep their name. -/
structure GoOver {α : Type} (before after : α → String) (later : List String) (new : String) :
    Prop where
  eq_or (item : α) : after item = before item ∨ after item = new ∧ before item ∈ later
  /-- The name is new. -/
  ne (item : α) : before item ≠ new
  notMem : new ∉ later

namespace GoOver

variable {α : Type} {before after : α → String} {later : List String} {new : String}
  (h : GoOver before after later new) (weight : α → Nat)
include h

theorem mem_of_eq {item : α} (hnew : after item = new) : before item ∈ later := by
  rcases h.eq_or item with heq | ⟨-, hmem⟩
  · exact absurd (heq.symm.trans hnew) (h.ne item)
  · exact hmem

theorem eq_of_ne {item : α} (hnew : after item ≠ new) : after item = before item :=
  (h.eq_or item).resolve_right fun hgone => hnew hgone.1

/-- The items of a name in front stay. -/
theorem weightOf_eq {name : String} (hname : name ≠ new) (hlater : name ∉ later) (items : List α) :
    weightOf weight after items name = weightOf weight before items name := by
  rw [weightOf, weightOf]
  congr 2
  refine List.filter_congr fun item _ => ?_
  rw [decide_eq_decide]
  constructor
  · intro hafter
    rw [← h.eq_of_ne (hafter.trans_ne hname), hafter]
  · intro hbefore
    refine (h.eq_of_ne fun hnew => ?_).trans hbefore
    exact hlater (hbefore ▸ h.mem_of_eq hnew)

/-- No item comes to another name than the new one. -/
theorem weightOf_le {name : String} (hname : name ≠ new) (items : List α) :
    weightOf weight after items name ≤ weightOf weight before items name := by
  refine total_map_le weight (List.monotone_filter_right items fun item hafter => ?_)
  rw [decide_eq_true_eq] at hafter ⊢
  rw [← h.eq_of_ne (hafter.trans_ne hname), hafter]

/-- **What the later names lose is what the new one has.** -/
theorem total_weightOf (hnodup : later.Nodup) (items : List α) :
    total (later.map (weightOf weight before items)) =
      total (later.map (weightOf weight after items)) + weightOf weight after items new := by
  rw [FirmwareReport.total_weightOf weight hnodup, FirmwareReport.total_weightOf weight hnodup,
    total_filter_add_total_filter weight _ (fun item => after item = new), weightOf, Nat.add_comm]
  congr 3
  · -- An item that still has a later name is one that did not go over.
    refine List.filter_congr fun item _ => ?_
    by_cases hnew : after item = new
    · simp [hnew, h.notMem]
    · rw [h.eq_of_ne hnew]
      simp [h.ne item]
  · refine List.filter_congr fun item _ => ?_
    by_cases hnew : after item = new
    · simp [hnew, h.mem_of_eq hnew]
    · simp [hnew]

end GoOver

/-! ### Paths that go over to a new module -/

section Insert

variable {front back : List Category} {category : Category}

/-- **A new category takes paths from later ones only**, the catch-all among them. -/
theorem moduleOf_insert (front back : List Category) (category : Category) (path : String) :
    moduleOf (front ++ category :: back) path = moduleOf (front ++ back) path ∨
      moduleOf (front ++ category :: back) path = category.name ∧
        moduleOf (front ++ back) path ∈ properNames back ++ [catchAllName] := by
  rw [moduleOf_append, moduleOf_append, moduleOf_cons]
  cases front.find? fun category => decide (category.Claims path) with
  | some earlier => exact Or.inl rfl
  | none =>
    rw [Option.map_none, Option.getD_none, Option.getD_none]
    split
    · exact Or.inr ⟨rfl, moduleOf_mem back path⟩
    · exact Or.inl rfl

/-- With a new category, the names stand in the same order as without. -/
theorem properNames_insert (hordinary : category.isCatchAll = false) :
    properNames (front ++ category :: back) ++ [catchAllName] =
      properNames front ++ category.name :: (properNames back ++ [catchAllName]) := by
  rw [properNames_append, properNames_cons_of_isCatchAll_eq_false hordinary, List.append_assoc,
    List.cons_append]

theorem exists_ofCategories_insert {catalog : Catalog}
    (h : Catalog.ofCategories (front ++ back) = .ok catalog)
    (hordinary : category.isCatchAll = false)
    (hnamed : Text.isAllBlank category.name.toList = false)
    (hfresh : category.name ∉ (front ++ back).map (·.name)) :
    ∃ catalog', Catalog.ofCategories (front ++ category :: back) = .ok catalog' := by
  have hmem : ∀ {c : Category}, c ∈ front ++ category :: back → c = category ∨ c ∈ front ++ back :=
    fun hc => List.mem_cons.1 (List.perm_middle.subset hc)
  obtain ⟨hnames, hdistinct, hpatterns⟩ := Catalog.exists_ofCategories_iff.1 ⟨catalog, h⟩
  refine Catalog.exists_ofCategories_iff.2 ⟨fun c hc => ?_, ?_, fun c hc hcatchAll => ?_⟩
  · rcases hmem hc with rfl | hc
    · exact hnamed
    · exact hnames c hc
  · rw [(List.perm_middle.map _).nodup_iff, List.map_cons, List.nodup_cons]
    exact ⟨hfresh, hdistinct⟩
  · rcases hmem hc with rfl | hc
    · rw [hordinary] at hcatchAll
      cases hcatchAll
    · exact hpatterns c hc hcatchAll

/-- **Entries go over** to the module of a new category as paths do. -/
theorem goOver_moduleOf {catalog : Catalog}
    (h : Catalog.ofCategories (front ++ category :: back) = .ok catalog)
    (hordinary : category.isCatchAll = false) :
    GoOver (fun entry : Entry => moduleOf (front ++ back) entry.path)
      (fun entry => moduleOf (front ++ category :: back) entry.path)
      (properNames back ++ [catchAllName]) category.name := by
  have hnodup := catalog.nodup_names
  rw [Catalog.names_of_ofCategories h, properNames_insert hordinary, List.nodup_middle,
    List.nodup_cons] at hnodup
  refine ⟨fun entry => moduleOf_insert front back category entry.path, fun entry heq => ?_,
    fun hmem => hnodup.1 (List.mem_append_right _ hmem)⟩
  -- The module of a path is one of the old names, and the new one is none of them.
  have hmem := moduleOf_mem (front ++ back) entry.path
  rw [heq, properNames_append, List.append_assoc] at hmem
  exact hnodup.1 hmem

end Insert

/-! ### Bytes that go over to a new module -/

/-- The exact usage of a module. -/
def exactUsage (categories : List Category) (lines : List Line) (name : String) : Usage :=
  ⟨name, exactFlash categories lines name, exactRam categories lines name⟩

theorem exactFlash_eq_weightOf (categories : List Category) (lines : List Line) :
    exactFlash categories lines = weightOf Entry.size (fun entry => moduleOf categories entry.path)
      ((contributions lines).filter fun entry => InFlash entry.sectionName) := by
  funext name
  rw [exactFlash, flashSum, contributionsTo, List.filter_comm, weightOf]

theorem exactRam_eq_weightOf (categories : List Category) (lines : List Line) :
    exactRam categories lines = weightOf Entry.size (fun entry => moduleOf categories entry.path)
      ((contributions lines).filter fun entry => InRam entry.sectionName) := by
  funext name
  rw [exactRam, ramSum, contributionsTo, List.filter_comm, weightOf]

section GoOver

variable {categories categories' : List Category} {later : List String} {new : String}
  (h : GoOver (fun entry : Entry => moduleOf categories entry.path)
    (fun entry => moduleOf categories' entry.path) later new) (lines : List Line)
include h

theorem exactUsage_eq_of_goOver {name : String} (hname : name ≠ new) (hlater : name ∉ later) :
    exactUsage categories' lines name = exactUsage categories lines name := by
  simp only [exactUsage, exactFlash_eq_weightOf, exactRam_eq_weightOf,
    h.weightOf_eq Entry.size hname hlater]

theorem exactUsage_le_of_goOver {name : String} (hname : name ≠ new) :
    (exactUsage categories' lines name).flash ≤ (exactUsage categories lines name).flash ∧
      (exactUsage categories' lines name).ram ≤ (exactUsage categories lines name).ram := by
  simp only [exactUsage, exactFlash_eq_weightOf, exactRam_eq_weightOf]
  exact ⟨h.weightOf_le Entry.size hname _, h.weightOf_le Entry.size hname _⟩

/-- **What the modules in `later` lose is what the new one has**, in flash and in RAM. -/
theorem total_exactUsage_of_goOver (hnodup : later.Nodup) :
    total ((later.map (exactUsage categories lines)).map (·.flash)) =
        total ((later.map (exactUsage categories' lines)).map (·.flash)) +
          (exactUsage categories' lines new).flash ∧
      total ((later.map (exactUsage categories lines)).map (·.ram)) =
        total ((later.map (exactUsage categories' lines)).map (·.ram)) +
          (exactUsage categories' lines new).ram := by
  have hflash : ∀ categories, (fun usage : Usage => usage.flash) ∘ exactUsage categories lines =
      exactFlash categories lines := fun _ => rfl
  have hram : ∀ categories, (fun usage : Usage => usage.ram) ∘ exactUsage categories lines =
      exactRam categories lines := fun _ => rfl
  simp only [List.map_map, hflash, hram, exactUsage, exactFlash_eq_weightOf, exactRam_eq_weightOf]
  exact ⟨h.total_weightOf Entry.size hnodup _, h.total_weightOf Entry.size hnodup _⟩

end GoOver

namespace Footprint

/-- **If all entries together fit into a word, the footprint is exact** for every module. -/
theorem ofMap_of_total_lt {categories : List Category} {catalog : Catalog}
    (h : Catalog.ofCategories categories = .ok catalog) {bytes : List UInt8}
    (htotal : total ((contributions (shapesOf bytes)).map (·.size)) < wordLimit) :
    ofMap catalog bytes none =
      .ok (ofModules (catalog.names.map (exactUsage categories (shapesOf bytes)))) := by
  rw [ofMap_of_ofCategories h]
  congr 3
  funext name
  have hle : ∀ p : Entry → Bool, total (((contributionsTo categories (shapesOf bytes) name).filter
      p).map (·.size)) < wordLimit := fun p =>
    Nat.lt_of_le_of_lt (total_map_le _ (List.filter_sublist.trans List.filter_sublist)) htotal
  have hflash : 0 + exactFlash categories (shapesOf bytes) name < wordLimit := by
    rw [Nat.zero_add]
    exact hle _
  have hram : 0 + exactRam categories (shapesOf bytes) name < wordLimit := by
    rw [Nat.zero_add]
    exact hle _
  rw [Usage.empty, Usage.foldl_charged hflash hram, exactUsage, exactFlash, exactRam, Nat.zero_add,
    Nat.zero_add]

/-- **What a new module takes from others**: the modules in `kept` stay as they are, those in
`losing` become those in `left`, and what they lose is what the new module has. -/
structure Takes (before after : Footprint) (kept losing left : List Usage) (new : Usage) :
    Prop where
  modules_before : before.modules = kept ++ losing
  modules_after : after.modules = kept ++ new :: left
  /-- No other module gains a byte. -/
  loses : List.Forall₂ (fun loser remains => remains.name = loser.name ∧
    remains.flash ≤ loser.flash ∧ remains.ram ≤ loser.ram) losing left
  flash_eq : total (losing.map (·.flash)) = total (left.map (·.flash)) + new.flash
  ram_eq : total (losing.map (·.ram)) = total (left.map (·.ram)) + new.ram
  totalFlash_eq : after.totalFlash = before.totalFlash
  totalRam_eq : after.totalRam = before.totalRam

/-- The totals do not change if nothing is lost. -/
theorem Takes.of_ofModules {kept losing left : List Usage} {new : Usage}
    (hloses : List.Forall₂ (fun loser remains => remains.name = loser.name ∧
      remains.flash ≤ loser.flash ∧ remains.ram ≤ loser.ram) losing left)
    (hflash : total (losing.map (·.flash)) = total (left.map (·.flash)) + new.flash)
    (hram : total (losing.map (·.ram)) = total (left.map (·.ram)) + new.ram) :
    Takes (ofModules (kept ++ losing)) (ofModules (kept ++ new :: left)) kept losing left new where
  modules_before := rfl
  modules_after := rfl
  loses := hloses
  flash_eq := hflash
  ram_eq := hram
  totalFlash_eq := by
    simp only [ofModules, List.map_append, List.map_cons, total_append, total_cons, hflash]
    rw [Nat.add_comm new.flash]
  totalRam_eq := by
    simp only [ofModules, List.map_append, List.map_cons, total_append, total_cons, hram]
    rw [Nat.add_comm new.ram]

/-- **A new category only takes bytes from later ones.** The catch-all is the last of them,
wherever the list has it. -/
theorem ofMap_insert {front back : List Category} {category : Category} {catalog : Catalog}
    (h : Catalog.ofCategories (front ++ back) = .ok catalog)
    (hordinary : category.isCatchAll = false)
    (hnamed : Text.isAllBlank category.name.toList = false)
    (hfresh : category.name ∉ (front ++ back).map (·.name)) (bytes : List UInt8)
    (htotal : total ((Reader.ofSource bytes none).entries.1.map (·.1.size)) < wordLimit) :
    ∃ (catalog' : Catalog) (before after : Footprint) (kept losing left : List Usage)
      (new : Usage),
      Catalog.ofCategories (front ++ category :: back) = .ok catalog' ∧
      ofMap catalog bytes none = .ok before ∧ ofMap catalog' bytes none = .ok after ∧
      Takes before after kept losing left new ∧
      kept.map (·.name) = properNames front ∧
      losing.map (·.name) = properNames back ++ [catchAllName] ∧ new.name = category.name := by
  obtain ⟨catalog', h'⟩ := exists_ofCategories_insert h hordinary hnamed hfresh
  have hgo := goOver_moduleOf h' hordinary
  have htotal : total ((contributions (shapesOf bytes)).map (·.size)) < wordLimit := by
    rwa [shapesOf, ← Reader.map_fst_entries_ofSource, List.map_map]
  have hbefore := ofMap_of_total_lt h htotal
  have hafter := ofMap_of_total_lt h' htotal
  have hnodup := catalog'.nodup_names
  rw [Catalog.names_of_ofCategories h, properNames_append, List.append_assoc] at hbefore
  rw [Catalog.names_of_ofCategories h', properNames_insert hordinary] at hafter hnodup
  generalize hlater : properNames back ++ [catchAllName] = later at hbefore hafter hnodup hgo
  obtain ⟨hfront, hbehind, hapart⟩ := List.nodup_append.1 hnodup
  obtain ⟨hnew, hbehind⟩ := List.nodup_cons.1 hbehind
  -- The modules in front are none of the later ones, and none of both is the new one.
  have hkept : (properNames front).map (exactUsage (front ++ category :: back) (shapesOf bytes)) =
      (properNames front).map (exactUsage (front ++ back) (shapesOf bytes)) :=
    List.map_congr_left fun name hname => exactUsage_eq_of_goOver hgo _
      (hapart name hname _ List.mem_cons_self)
      (fun hmem => hapart name hname name (List.mem_cons_of_mem _ hmem) rfl)
  rw [List.map_append, List.map_cons, hkept] at hafter
  rw [List.map_append] at hbefore
  have hloses : List.Forall₂ (fun loser remains : Usage => remains.name = loser.name ∧
      remains.flash ≤ loser.flash ∧ remains.ram ≤ loser.ram)
      (later.map (exactUsage (front ++ back) (shapesOf bytes)))
      (later.map (exactUsage (front ++ category :: back) (shapesOf bytes))) := by
    rw [List.forall₂_map_left_iff, List.forall₂_map_right_iff, List.forall₂_same]
    exact fun name hname => ⟨rfl, exactUsage_le_of_goOver hgo _ fun heq => hnew (heq ▸ hname)⟩
  obtain ⟨hflash, hram⟩ := total_exactUsage_of_goOver hgo (shapesOf bytes) hbehind
  refine ⟨catalog', _, _, _, _, _, _, h', hbefore, hafter, .of_ofModules hloses hflash hram, ?_, ?_,
    rfl⟩
  · rw [List.map_map]
    exact List.map_id _
  · rw [List.map_map]
    exact List.map_id _

/-- The catch-all is declared in the middle, in front of a library that loses only part of what it
had. -/
theorem ofMap_insert_crypto :
    ∃ (bytes : List UInt8) (catalog catalog' : Catalog) (before after : Footprint)
      (kept losing left : List Usage),
      bytes = Text.encode (".text 0x0 0x10 Core/poly.o\n.data 0x0 0x20 lib/poly.o\n" ++
        ".text 0x0 0x4 lib/a.o\n.bss 0x0 0x8 poly.o").toList ∧
      Catalog.ofCategories ([⟨"Core", ["Core/"]⟩] ++ [⟨"Other", []⟩, ⟨"Lib", ["lib/"]⟩]) =
        .ok catalog ∧
      total ((Reader.ofSource bytes none).entries.1.map (·.1.size)) < wordLimit ∧
      Catalog.ofCategories ([⟨"Core", ["Core/"]⟩] ++ ⟨"Crypto", ["poly"]⟩ ::
        [⟨"Other", []⟩, ⟨"Lib", ["lib/"]⟩]) = .ok catalog' ∧
      ofMap catalog bytes none = .ok before ∧ ofMap catalog' bytes none = .ok after ∧
      before.Takes after kept losing left ⟨"Crypto", 32, 40⟩ ∧
      kept.map (·.name) = ["Core"] ∧ losing.map (·.name) = ["Lib", "Other"] := by
  obtain ⟨catalog, h⟩ : ∃ catalog, Catalog.ofCategories
      ([⟨"Core", ["Core/"]⟩] ++ [⟨"Other", []⟩, ⟨"Lib", ["lib/"]⟩]) = .ok catalog := ⟨_, rfl⟩
  obtain ⟨bytes, hbytes⟩ : ∃ bytes, bytes = Text.encode
      (".text 0x0 0x10 Core/poly.o\n.data 0x0 0x20 lib/poly.o\n" ++
      ".text 0x0 0x4 lib/a.o\n.bss 0x0 0x8 poly.o").toList := ⟨_, rfl⟩
  have hlines : shapesOf bytes = ((".text 0x0 0x10 Core/poly.o\n.data 0x0 0x20 lib/poly.o\n" ++
      ".text 0x0 0x4 lib/a.o\n.bss 0x0 0x8 poly.o").toList.splitOn '\n').map Line.ofText := by
    rw [shapesOf, hbytes, Text.decodeLossy_encode]
  have hall : total ((contributions (shapesOf bytes)).map (·.size)) < wordLimit := by
    rw [hlines]
    decide +kernel
  have htotal : total ((Reader.ofSource bytes none).entries.1.map (·.1.size)) < wordLimit := by
    rwa [shapesOf, ← Reader.map_fst_entries_ofSource, List.map_map] at hall
  obtain ⟨catalog', before, after, kept, losing, left, new, h', hbefore, hafter, htakes, hkept,
    hlosing, hname⟩ := ofMap_insert h (rfl : Category.isCatchAll ⟨"Crypto", ["poly"]⟩ = false)
      (by decide) (by decide) bytes htotal
  obtain rfl : new = ⟨"Crypto", 32, 40⟩ := by
    have hmem : new ∈ after.modules := by
      rw [htakes.modules_after]
      simp
    rw [ofMap_of_total_lt h' hall] at hafter
    obtain rfl := Except.ok.inj hafter
    obtain ⟨name, -, rfl⟩ := List.mem_map.1 hmem
    obtain rfl : name = "Crypto" := hname
    rw [hlines]
    decide +kernel
  exact ⟨bytes, catalog, catalog', before, after, kept, losing, left, hbytes, h, htotal, h',
    hbefore, hafter, htakes, hkept, hlosing⟩

end Footprint

end FirmwareReport
