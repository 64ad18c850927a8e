import FirmwareReport.Footprint.Ledger
import FirmwareReport.Number.Total
import FirmwareReport.Proofs.Footprint.Catalog

/-!
# Each module by itself

A ledger finds the module of an entry by its position. Since the modules are named apart, the same
can be said by name: an entry is charged to the module that bears its name and to no other
(`FirmwareReport.Ledger.modules_chargeTo`). So a run over many entries is, for every module, a run
over its own entries (`FirmwareReport.Ledger.modules_foldl_charge`), and none of them can find the
room taken by another module's.

As long as the sums of its entries fit into a word, a module drops none of them, and its totals are
these sums (`FirmwareReport.Usage.foldl_charged`).
-/

namespace FirmwareReport

open LinkerMap

/-! ### Sections in flash and in RAM -/

/-- **The sections in flash**: code and constants, and the first values of variables. -/
def InFlash (name : String) : Prop :=
  ".text".toList <+: name.toList ∨ ".rodata".toList <+: name.toList ∨ name = ".isr_vector" ∨
    ".data".toList <+: name.toList

/-- **The sections in RAM**: variables. -/
def InRam (name : String) : Prop :=
  ".data".toList <+: name.toList ∨ ".bss".toList <+: name.toList

instance (name : String) : Decidable (InFlash name) :=
  inferInstanceAs (Decidable (_ ∨ _))

instance (name : String) : Decidable (InRam name) :=
  inferInstanceAs (Decidable (_ ∨ _))

/-- What begins like code does not begin like data. -/
theorem not_isPrefix_of_isPrefix {stem other name : String} (h : stem.toList <+: name.toList)
    (hne : ¬stem.toList <+: other.toList) (hne' : ¬other.toList <+: stem.toList) :
    ¬other.toList <+: name.toList := fun h' =>
  (List.prefix_or_prefix_of_prefix h h').elim hne hne'

theorem inFlash_ofName (name : String) :
    (Placement.ofName name).inFlash = true ↔ InFlash name := by
  simp only [Placement.ofName, Bool.or_eq_true, List.isPrefixOf_iff_prefix, beq_iff_eq]
  split_ifs with hcode hdata hzero
  · refine iff_of_true rfl ?_
    rcases hcode with (h | h) | h
    · exact Or.inl h
    · exact Or.inr (Or.inl h)
    · exact Or.inr (Or.inr (Or.inl h))
  · exact iff_of_true rfl (Or.inr (Or.inr (Or.inr hdata)))
  all_goals
    refine iff_of_false Bool.false_ne_true ?_
    rintro (h | h | h | h)
    · exact hcode (Or.inl (Or.inl h))
    · exact hcode (Or.inl (Or.inr h))
    · exact hcode (Or.inr h)
    · exact hdata h

theorem inRam_ofName (name : String) : (Placement.ofName name).inRam = true ↔ InRam name := by
  simp only [Placement.ofName, Bool.or_eq_true, List.isPrefixOf_iff_prefix, beq_iff_eq]
  split_ifs with hcode hdata hzero
  · refine iff_of_false Bool.false_ne_true ?_
    rcases hcode with (h | h) | rfl
    · exact not_or.2 ⟨not_isPrefix_of_isPrefix h (by decide) (by decide),
        not_isPrefix_of_isPrefix h (by decide) (by decide)⟩
    · exact not_or.2 ⟨not_isPrefix_of_isPrefix h (by decide) (by decide),
        not_isPrefix_of_isPrefix h (by decide) (by decide)⟩
    · decide
  · exact iff_of_true rfl (Or.inl hdata)
  · exact iff_of_true rfl (Or.inr hzero)
  · exact iff_of_false Bool.false_ne_true (not_or.2 ⟨hdata, hzero⟩)

/-! ### A module and its entries -/

namespace Usage

/-- What becomes of a module that an entry is charged to. -/
def charged (usage : Usage) (entry : Entry) : Usage :=
  let placement := Placement.ofName entry.sectionName
  if entry.size = 0 ∨ placement = .ignored then usage
  else (usage.add? placement entry.size).getD usage

theorem name_of_add? {usage usage' : Usage} {placement : Placement} {size : Nat}
    (h : usage.add? placement size = some usage') : usage'.name = usage.name := by
  simp only [add?, Option.ite_none_right_eq_some, Option.some.injEq] at h
  rw [← h.2]

@[simp] theorem name_charged (usage : Usage) (entry : Entry) :
    (usage.charged entry).name = usage.name := by
  rw [charged]
  split
  · rfl
  · cases h : usage.add? (Placement.ofName entry.sectionName) entry.size with
    | none => rfl
    | some usage' => exact name_of_add? h

@[simp] theorem name_foldl_charged (usage : Usage) (entries : List Entry) :
    (entries.foldl charged usage).name = usage.name := by
  induction entries generalizing usage with
  | nil => rfl
  | cons entry entries ih => rw [List.foldl_cons, ih, name_charged]

end Usage

/-- The bytes of entries that count towards flash. -/
def flashSum (entries : List Entry) : Nat :=
  total ((entries.filter fun entry => decide (InFlash entry.sectionName)).map (·.size))

/-- The bytes of entries that count towards RAM. -/
def ramSum (entries : List Entry) : Nat :=
  total ((entries.filter fun entry => decide (InRam entry.sectionName)).map (·.size))

theorem flashSum_cons (entry : Entry) (entries : List Entry) : flashSum (entry :: entries) =
    (if InFlash entry.sectionName then entry.size else 0) + flashSum entries := by
  unfold flashSum
  rw [List.filter_cons]
  by_cases h : InFlash entry.sectionName <;> simp [h]

theorem ramSum_cons (entry : Entry) (entries : List Entry) : ramSum (entry :: entries) =
    (if InRam entry.sectionName then entry.size else 0) + ramSum entries := by
  unfold ramSum
  rw [List.filter_cons]
  by_cases h : InRam entry.sectionName <;> simp [h]

@[simp] theorem flashSum_nil : flashSum [] = 0 := rfl

@[simp] theorem ramSum_nil : ramSum [] = 0 := rfl

theorem flashSum_append (entries more : List Entry) :
    flashSum (entries ++ more) = flashSum entries + flashSum more := by
  simp [flashSum]

theorem ramSum_append (entries more : List Entry) :
    ramSum (entries ++ more) = ramSum entries + ramSum more := by
  simp [ramSum]

/-- An entry that finds room is added to the totals it counts towards. -/
theorem Usage.charged_of_lt {usage : Usage} {entry : Entry}
    (hflash : usage.flash + (if InFlash entry.sectionName then entry.size else 0) < wordLimit)
    (hram : usage.ram + (if InRam entry.sectionName then entry.size else 0) < wordLimit) :
    usage.charged entry =
      ⟨usage.name, usage.flash + (if InFlash entry.sectionName then entry.size else 0),
        usage.ram + (if InRam entry.sectionName then entry.size else 0)⟩ := by
  have hadd : usage.add? (Placement.ofName entry.sectionName) entry.size = some
      ⟨usage.name, usage.flash + (if InFlash entry.sectionName then entry.size else 0),
        usage.ram + (if InRam entry.sectionName then entry.size else 0)⟩ := by
    have hite : ∀ (p : Prop) [Decidable p] (used : Nat), (if p then used + entry.size else used) =
        used + (if p then entry.size else 0) := by
      intro p _ used
      split <;> rfl
    rw [Usage.add?]
    simp only [inFlash_ofName, inRam_ofName, hite]
    rw [if_pos ⟨hflash, hram⟩]
  rw [Usage.charged, hadd, Option.getD_some]
  split
  · next h =>
    -- What counts towards nothing adds zero to both.
    rcases h with hzero | hignored
    · simp [hzero]
    · have hflash' : ¬InFlash entry.sectionName := by
        simp [← inFlash_ofName, hignored, Placement.inFlash]
      have hram' : ¬InRam entry.sectionName := by
        simp [← inRam_ofName, hignored, Placement.inRam]
      simp [hflash', hram']
  · rfl

/-- **Nothing is dropped as long as the sums fit into a word**, and the totals are the sums. -/
theorem Usage.foldl_charged {usage : Usage} {entries : List Entry}
    (hflash : usage.flash + flashSum entries < wordLimit)
    (hram : usage.ram + ramSum entries < wordLimit) :
    entries.foldl Usage.charged usage =
      ⟨usage.name, usage.flash + flashSum entries, usage.ram + ramSum entries⟩ := by
  induction entries generalizing usage with
  | nil => rfl
  | cons entry entries ih =>
    rw [flashSum_cons, ← Nat.add_assoc] at hflash
    rw [ramSum_cons, ← Nat.add_assoc] at hram
    rw [List.foldl_cons, flashSum_cons, ramSum_cons, ← Nat.add_assoc, ← Nat.add_assoc,
      Usage.charged_of_lt (Nat.lt_of_le_of_lt (Nat.le_add_right _ _) hflash)
        (Nat.lt_of_le_of_lt (Nat.le_add_right _ _) hram)]
    exact ih hflash hram

/-! ### A ledger and its modules -/

namespace Ledger

variable {ledger : Ledger}

/-- The modules of a ledger bear the names of its catalog. -/
def IsNamed (ledger : Ledger) : Prop :=
  ledger.modules.map (·.name) = ledger.catalog.names

theorem isNamed_start (catalog : Catalog) : (start catalog).IsNamed := by
  rw [IsNamed, start, List.map_map]
  exact List.map_id _

theorem length_modules (hnamed : ledger.IsNamed) :
    ledger.modules.length = ledger.catalog.names.length := by
  rw [← hnamed, List.length_map]

@[simp] theorem catalog_chargeTo (ledger : Ledger) (name : String) (entry : Entry) :
    (ledger.chargeTo name entry).catalog = ledger.catalog := by
  simp only [chargeTo, chargeAt]
  repeat' split
  all_goals rfl

theorem modules_chargeAt {slot : Nat} {usage : Usage} (h : ledger.modules[slot]? = some usage)
    (entry : Entry) :
    (ledger.chargeAt slot entry).modules = ledger.modules.set slot (usage.charged entry) := by
  obtain ⟨hlt, rfl⟩ := List.getElem?_eq_some_iff.1 h
  simp only [chargeAt, Usage.charged, h]
  split
  · rw [List.set_getElem_self]
  · cases hadd : ledger.modules[slot].add? (Placement.ofName entry.sectionName) entry.size with
    | none => rw [Option.getD_none, List.set_getElem_self]
    | some usage' => rfl

/-- The slot of a name holds the module of that name. -/
theorem exists_slot (hnamed : ledger.IsNamed) {name : String}
    (hname : name ∈ ledger.catalog.names) :
    ∃ usage, ledger.modules[ledger.slot name]? = some usage ∧ usage.name = name := by
  -- The modules bear the names of the catalog in the same order.
  obtain ⟨i, hi⟩ := List.mem_iff_getElem?.1 hname
  rw [slot, Catalog.indexOf?_eq_some_iff.2 hi, Option.getD_some]
  rwa [← hnamed, List.getElem?_map, Option.map_eq_some_iff] at hi

/-- **An entry is charged to the module that bears its name**, and to no other. -/
theorem modules_chargeTo (hnamed : ledger.IsNamed) {name : String}
    (hname : name ∈ ledger.catalog.names) (entry : Entry) :
    (ledger.chargeTo name entry).modules =
      ledger.modules.map fun usage =>
        if usage.name = name then usage.charged entry else usage := by
  obtain ⟨usage, hslot, rfl⟩ := exists_slot hnamed hname
  obtain ⟨hlt, husage⟩ := List.getElem?_eq_some_iff.1 hslot
  have hnodup : (ledger.modules.map (·.name)).Nodup := hnamed ▸ ledger.catalog.nodup_names
  rw [chargeTo, modules_chargeAt hslot]
  refine List.ext_getElem (by simp) fun i hi _ => ?_
  rw [List.getElem_set, List.getElem_map]
  have hi : i < ledger.modules.length := by simpa using hi
  -- The names are apart, so the slot is the only place with this name.
  have hiff : ledger.slot usage.name = i ↔ ledger.modules[i].name = usage.name := by
    constructor
    · rintro rfl
      rw [husage]
    · intro h
      have hlt' : ledger.slot usage.name < (ledger.modules.map (·.name)).length := by
        simpa using hlt
      have hi' : i < (ledger.modules.map (·.name)).length := by simpa using hi
      have heq : (ledger.modules.map (·.name))[ledger.slot usage.name] =
          (ledger.modules.map (·.name))[i] := by
        rw [List.getElem_map, List.getElem_map, husage, h]
      exact hnodup.getElem_inj_iff.1 heq
  by_cases h : ledger.slot usage.name = i
  · subst h
    simp [husage]
  · rw [if_neg h, if_neg (mt hiff.2 h)]

theorem IsNamed.chargeTo (hnamed : ledger.IsNamed) {name : String}
    (hname : name ∈ ledger.catalog.names) (entry : Entry) :
    (ledger.chargeTo name entry).IsNamed := by
  rw [IsNamed, modules_chargeTo hnamed hname, catalog_chargeTo, List.map_map, ← hnamed]
  refine List.map_congr_left fun usage _ => ?_
  rw [Function.comp_apply]
  split
  · exact Usage.name_charged usage entry
  · rfl

/-- **A run over entries is a run over its own entries for every module.** -/
theorem modules_foldl_charge (hnamed : ledger.IsNamed) (entries : List Entry) :
    (entries.foldl charge ledger).modules = ledger.modules.map fun usage =>
      (entries.filter fun entry => ledger.catalog.classify entry.path = usage.name).foldl
        Usage.charged usage := by
  induction entries generalizing ledger with
  | nil => simp
  | cons entry entries ih =>
    -- The ledger stays named, so the next entry finds its module in it again.
    have hname := ledger.catalog.classify_mem_names entry.path
    rw [List.foldl_cons, charge, ih (hnamed.chargeTo hname entry), modules_chargeTo hnamed hname,
      List.map_map, catalog_chargeTo]
    refine List.map_congr_left fun usage _ => ?_
    rw [Function.comp_apply, List.filter_cons]
    by_cases h : ledger.catalog.classify entry.path = usage.name
    · rw [if_pos h.symm, if_pos (by simpa using h), List.foldl_cons, Usage.name_charged]
    · rw [if_neg (Ne.symm h), if_neg (by simpa using h)]

end Ledger

end FirmwareReport
