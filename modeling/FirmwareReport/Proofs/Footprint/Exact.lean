import FirmwareReport.Footprint
import FirmwareReport.Proofs.Footprint.Ledger
import FirmwareReport.Proofs.LinkerMap.Contribution

/-!
# The footprint of a map is exact

What the modules of a firmware occupy can be said of the text of the map alone: cut it into lines,
read each by the grammar, take what the lines contribute, send each contribution to the module of
its path and add up what counts towards flash and what counts towards RAM
(`FirmwareReport.exactFlash`, `FirmwareReport.exactRam`). The footprint of the map has just these
sums, for every module whose sums fit into a word (`FirmwareReport.Footprint.ofMap_exact`).
-/

namespace FirmwareReport

open LinkerMap

/-- The contributions of the lines of a map to a module. -/
def contributionsTo (categories : List Category) (lines : List Line) (name : String) :
    List Entry :=
  (contributions lines).filter fun entry => moduleOf categories entry.path = name

/-- **The flash bytes of a module**, however many. -/
def exactFlash (categories : List Category) (lines : List Line) (name : String) : Nat :=
  flashSum (contributionsTo categories lines name)

/-- **The RAM bytes of a module**, however many. -/
def exactRam (categories : List Category) (lines : List Line) (name : String) : Nat :=
  ramSum (contributionsTo categories lines name)

/-- The shapes of the lines of a map, decoded as a whole. -/
def shapesOf (bytes : List UInt8) : List Line :=
  ((Text.decodeLossy bytes).splitOn '\n').map Line.ofText

namespace Footprint

variable {categories : List Category} {catalog : Catalog}

/-- A run of a fresh ledger, module by module, with the modules of the declared categories. -/
theorem modules_foldl_charge_start (h : Catalog.ofCategories categories = .ok catalog)
    (entries : List Entry) :
    (entries.foldl Ledger.charge (Ledger.start catalog)).modules = catalog.names.map fun name =>
      (entries.filter fun entry => moduleOf categories entry.path = name).foldl Usage.charged
        (.empty name) := by
  rw [Ledger.modules_foldl_charge (Ledger.isNamed_start catalog), Ledger.start, List.map_map]
  refine List.map_congr_left fun name _ => ?_
  rw [Function.comp_apply]
  congr 1
  refine List.filter_congr fun entry _ => ?_
  rw [Bool.eq_iff_iff, decide_eq_true_eq, decide_eq_true_eq, Catalog.classify_of_ofCategories h]
  rfl

/-- **A map that can be read has a footprint**: that of a ledger charged with the entries that a
reader hands out. -/
theorem ofMap_eq_foldl (catalog : Catalog) (bytes : List UInt8) :
    ofMap catalog bytes none = .ok (ofModules
      (((Reader.ofSource bytes none).entries.1.map Prod.fst).foldl Ledger.charge
        (Ledger.start catalog)).modules) := by
  obtain ⟨hledger, hfailure⟩ := Reader.fold_eq_foldl
    (fun (ledger : Ledger) entry _ => ledger.charge entry) (Ledger.start catalog)
    (Reader.ofSource bytes none)
  rw [ofMap, (Reader.entries_eq _).1, List.map_map, List.foldl_map]
  rcases hfold : (Reader.ofSource bytes none).fold
    (fun (ledger : Ledger) entry _ => ledger.charge entry) (Ledger.start catalog)
    with ⟨ledger, failure, rest⟩
  rw [hfold] at hledger hfailure
  obtain rfl : failure = none := hfailure
  exact congrArg (fun ledger : Ledger => Except.ok (ofModules ledger.modules)) hledger

/-- The footprint is that of the modules of the catalog, each charged with the contributions to
it. -/
theorem ofMap_of_ofCategories (h : Catalog.ofCategories categories = .ok catalog)
    (bytes : List UInt8) :
    ofMap catalog bytes none = .ok (ofModules (catalog.names.map fun name =>
      (contributionsTo categories (shapesOf bytes) name).foldl Usage.charged (.empty name))) := by
  rw [ofMap_eq_foldl, Reader.map_fst_entries_ofSource, modules_foldl_charge_start h]
  rfl

/-- **The footprint of a map is exact.** -/
theorem ofMap_exact (h : Catalog.ofCategories categories = .ok catalog) (bytes : List UInt8) :
    ∃ (footprint : Footprint) (lines : List Line),
      ofMap catalog bytes none = .ok footprint ∧
      List.Forall₂ HasShape ((Text.decodeLossy bytes).splitOn '\n') lines ∧
      footprint.modules.map (·.name) = catalog.names ∧
      (∀ usage ∈ footprint.modules,
        exactFlash categories lines usage.name < wordLimit →
        exactRam categories lines usage.name < wordLimit →
        usage.flash = exactFlash categories lines usage.name ∧
          usage.ram = exactRam categories lines usage.name) ∧
      footprint.totalFlash = min (total (footprint.modules.map (·.flash))) (wordLimit - 1) ∧
      footprint.totalRam = min (total (footprint.modules.map (·.ram))) (wordLimit - 1) := by
  refine ⟨_, shapesOf bytes, ofMap_of_ofCategories h bytes, ?_, ?_, ?_, rfl, rfl⟩
  · rw [shapesOf, List.forall₂_map_right_iff]
    exact List.forall₂_same.2 fun text _ => hasShape_iff.2 rfl
  · simp [ofModules, Usage.empty, Function.comp_def]
  · intro usage husage hflash hram
    obtain ⟨name, -, rfl⟩ := List.mem_map.1 husage
    rw [Usage.name_foldl_charged, Usage.empty] at hflash hram ⊢
    have hsums : (contributionsTo categories (shapesOf bytes) name).foldl Usage.charged
        ⟨name, 0, 0⟩ = ⟨name, 0 + exactFlash categories (shapesOf bytes) name,
          0 + exactRam categories (shapesOf bytes) name⟩ :=
      Usage.foldl_charged (by simpa [exactFlash] using hflash) (by simpa [exactRam] using hram)
    rw [hsums]
    simp

/-- An entry whose line is wrapped: the name of the section stands alone, and address, size and
path follow on the next line. -/
theorem ofMap_exact_wrapped : ∃ (catalog : Catalog) (footprint : Footprint),
    Catalog.ofCategories [⟨"Crypto", ["poly"]⟩] = .ok catalog ∧
    ofMap catalog (Text.encode ".text.poly\n 0x0 0x1F8 build/poly.o".toList) none = .ok footprint ∧
    footprint.modules.map (·.name) = ["Crypto", "Other"] ∧
    ∀ usage ∈ footprint.modules, usage.name = "Crypto" → usage.flash = 504 ∧ usage.ram = 0 := by
  obtain ⟨catalog, h⟩ : ∃ catalog, Catalog.ofCategories [⟨"Crypto", ["poly"]⟩] = .ok catalog :=
    ⟨_, rfl⟩
  obtain ⟨footprint, lines, hmap, hshapes, hnames, hexact, -⟩ :=
    ofMap_exact h (Text.encode ".text.poly\n 0x0 0x1F8 build/poly.o".toList)
  rw [Text.decodeLossy_encode] at hshapes
  have hlines :
      (".text.poly\n 0x0 0x1F8 build/poly.o".toList.splitOn '\n').map Line.ofText = lines :=
    List.forall₂_eq_eq_eq ▸
      List.forall₂_map_left_iff.2 (hshapes.imp fun _ _ h => hasShape_iff.1 h)
  have hflash : exactFlash [⟨"Crypto", ["poly"]⟩] lines "Crypto" = 504 := by
    rw [← hlines]
    decide +kernel
  have hram : exactRam [⟨"Crypto", ["poly"]⟩] lines "Crypto" = 0 := by
    rw [← hlines]
    decide +kernel
  refine ⟨catalog, footprint, h, hmap, ?_, fun usage husage hname => ?_⟩
  · rw [hnames, Catalog.names_eq, Catalog.proper_of_ofCategories h]
    rfl
  · have hsums := hexact usage husage
    rw [hname, hflash, hram] at hsums
    exact hsums (by decide) (by decide)

end Footprint

end FirmwareReport
