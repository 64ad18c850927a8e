import FirmwareReport.Proofs.Footprint.Ledger

/-!
# Runs of a ledger

A ledger takes postings: an entry, together with the name of a module or without, in which case
its path says which module it belongs to. What it holds at any point of a run can be said of the
postings so far (`FirmwareReport.Ledger.ofPostings_exact`). Some of them are accepted, each if its
entry has room next to the accepted ones of the same module, in flash and in RAM alike
(`FirmwareReport.accepted`); every module holds the exact sums of what was accepted for it, and the
others are counted.

One posting either goes into one module as a whole (`FirmwareReport.Ledger.post_of_hasRoom`) or is
only counted (`FirmwareReport.Ledger.post_of_not_hasRoom`). The counter is never read, so from there
on a run goes as if that posting had not been made (`FirmwareReport.Ledger.foldl_post_drop`).
-/

namespace FirmwareReport

open LinkerMap

/-! ### Postings -/

/-- Something to be charged to a module. -/
inductive Posting
  /-- To the module that the path of the entry belongs to. -/
  | byPath (entry : Entry)
  /-- To the module of a given name, whatever the path. -/
  | byName (entry : Entry) (name : String)
deriving DecidableEq, Repr

namespace Posting

/-- The entry to be charged. -/
def entry : Posting → Entry
  | .byPath entry => entry
  | .byName entry _ => entry

/-- The name of the module that a posting goes to. A name that is not in the catalog stands for
the catch-all. -/
def moduleIn (catalog : Catalog) : Posting → String
  | .byPath entry => catalog.classify entry.path
  | .byName _ name => if name ∈ catalog.names then name else catchAllName

end Posting

namespace Ledger

/-- Take one posting. -/
def post (ledger : Ledger) : Posting → Ledger
  | .byPath entry => ledger.charge entry
  | .byName entry name => ledger.chargeTo name entry

/-- **The ledger behind a run of postings.** -/
def ofPostings (catalog : Catalog) (postings : List Posting) : Ledger :=
  postings.foldl post (start catalog)

theorem ofPostings_append (catalog : Catalog) (postings later : List Posting) :
    ofPostings catalog (postings ++ later) = later.foldl post (ofPostings catalog postings) :=
  List.foldl_append

theorem ofPostings_concat (catalog : Catalog) (postings : List Posting) (posting : Posting) :
    ofPostings catalog (postings ++ [posting]) = (ofPostings catalog postings).post posting :=
  ofPostings_append catalog postings [posting]

/-- A ledger that has dropped one more entry. -/
def drop (ledger : Ledger) : Ledger :=
  { ledger with overflowed := ledger.overflowed + 1 }

end Ledger

/-! ### Room -/

namespace Usage

/-- **There is room for an entry** in every total that it counts towards. -/
def HasRoom (usage : Usage) (entry : Entry) : Prop :=
  (InFlash entry.sectionName → usage.flash + entry.size < wordLimit) ∧
    (InRam entry.sectionName → usage.ram + entry.size < wordLimit)

instance (usage : Usage) (entry : Entry) : Decidable (usage.HasRoom entry) :=
  inferInstanceAs (Decidable (_ ∧ _))

/-- A module with an entry more. -/
def plus (usage : Usage) (entry : Entry) : Usage :=
  ⟨usage.name, usage.flash + (if InFlash entry.sectionName then entry.size else 0),
    usage.ram + (if InRam entry.sectionName then entry.size else 0)⟩

@[simp] theorem flash_plus (usage : Usage) (entry : Entry) : (usage.plus entry).flash =
    usage.flash + (if InFlash entry.sectionName then entry.size else 0) := rfl

@[simp] theorem ram_plus (usage : Usage) (entry : Entry) : (usage.plus entry).ram =
    usage.ram + (if InRam entry.sectionName then entry.size else 0) := rfl

/-- The totals of a module fit into words. -/
def Fits (usage : Usage) : Prop :=
  usage.flash < wordLimit ∧ usage.ram < wordLimit

variable {usage : Usage} {entry : Entry}

/-- With room for the entry, the totals go on fitting. -/
theorem Fits.plus (h : usage.Fits) (hroom : usage.HasRoom entry) : (usage.plus entry).Fits := by
  constructor
  · rw [flash_plus]
    split_ifs with hflash
    · exact hroom.1 hflash
    · exact h.1
  · rw [ram_plus]
    split_ifs with hram
    · exact hroom.2 hram
    · exact h.2

theorem charged_of_hasRoom (h : usage.Fits) (hroom : usage.HasRoom entry) :
    usage.charged entry = usage.plus entry :=
  charged_of_lt (h.plus hroom).1 (h.plus hroom).2

theorem le_charged (usage : Usage) (entry : Entry) :
    usage.flash ≤ (usage.charged entry).flash ∧ usage.ram ≤ (usage.charged entry).ram := by
  rw [charged]
  split
  · exact ⟨Nat.le_refl _, Nat.le_refl _⟩
  · cases hadd : usage.add? (Placement.ofName entry.sectionName) entry.size with
    | none => exact ⟨Nat.le_refl _, Nat.le_refl _⟩
    | some usage' =>
      simp only [add?, Option.ite_none_right_eq_some, Option.some.injEq] at hadd
      rw [← hadd.2, Option.getD_some]
      constructor
      · dsimp only
        split_ifs <;> omega
      · dsimp only
        split_ifs <;> omega

/-- **An entry without room** is added to neither total, not even to one that has room. -/
theorem add?_eq_none_iff (h : usage.Fits) :
    usage.add? (Placement.ofName entry.sectionName) entry.size = none ↔ ¬usage.HasRoom entry := by
  simp only [add?, inFlash_ofName, inRam_ofName, ite_eq_right_iff, reduceCtorEq, imp_false]
  refine not_congr ⟨fun hlt => ⟨fun hflash => ?_, fun hram => ?_⟩, fun hroom => ?_⟩
  · simpa only [if_pos hflash] using hlt.1
  · simpa only [if_pos hram] using hlt.2
  · split_ifs with hflash hram hram
    · exact ⟨hroom.1 hflash, hroom.2 hram⟩
    · exact ⟨hroom.1 hflash, h.2⟩
    · exact ⟨h.1, hroom.2 hram⟩
    · exact h

end Usage

/-- **An entry that counts towards nothing**: it is empty, or its section lies neither in flash nor
in RAM. -/
def CountsNowhere (entry : Entry) : Prop :=
  entry.size = 0 ∨ ¬InFlash entry.sectionName ∧ ¬InRam entry.sectionName

theorem ofName_eq_ignored_iff {name : String} :
    Placement.ofName name = .ignored ↔ ¬InFlash name ∧ ¬InRam name := by
  rw [← inFlash_ofName, ← inRam_ofName]
  cases Placement.ofName name <;> decide

theorem countsNowhere_iff {entry : Entry} :
    CountsNowhere entry ↔ entry.size = 0 ∨ Placement.ofName entry.sectionName = .ignored := by
  rw [CountsNowhere, ofName_eq_ignored_iff]

/-- What counts towards nothing has room everywhere. -/
theorem CountsNowhere.hasRoom {usage : Usage} {entry : Entry} (h : CountsNowhere entry)
    (hfits : usage.Fits) : usage.HasRoom entry := by
  rcases h with hzero | ⟨hflash, hram⟩
  · rw [Usage.HasRoom, hzero]
    exact ⟨fun _ => hfits.1, fun _ => hfits.2⟩
  · exact ⟨fun hin => absurd hin hflash, fun hin => absurd hin hram⟩

/-! ### One posting -/

theorem Catalog.catchAllName_mem_names (catalog : Catalog) : catchAllName ∈ catalog.names := by
  rw [names_eq]
  exact List.mem_append_right _ List.mem_cons_self

theorem Posting.moduleIn_mem (posting : Posting) (catalog : Catalog) :
    posting.moduleIn catalog ∈ catalog.names := by
  cases posting with
  | byPath entry => exact catalog.classify_mem_names entry.path
  | byName entry name =>
    rw [moduleIn]
    split_ifs with hname
    · exact hname
    · exact catalog.catchAllName_mem_names

namespace Ledger

variable {ledger : Ledger} {posting : Posting} {usage : Usage}

/-- A name that is not in the catalog has the last slot, which is that of the catch-all. -/
theorem slot_of_notMem (hnamed : ledger.IsNamed) {name : String}
    (hname : name ∉ ledger.catalog.names) : ledger.slot name = ledger.slot catchAllName := by
  have hlength : ledger.modules.length = ledger.catalog.proper.length + 1 := by
    rw [length_modules hnamed, Catalog.names_eq]
    simp
  have hlast := Catalog.indexOf?_eq_some_iff.2 ledger.catalog.getElem?_names_length_proper
  rw [slot, slot, Catalog.indexOf?_eq_none_iff.2 hname, hlast, hlength]
  rfl

/-- **A posting charges its entry to its module.** -/
theorem post_eq_chargeTo (hnamed : ledger.IsNamed) (posting : Posting) :
    ledger.post posting = ledger.chargeTo (posting.moduleIn ledger.catalog) posting.entry := by
  cases posting with
  | byPath entry => rfl
  | byName entry name =>
    rw [post, Posting.moduleIn, Posting.entry]
    split_ifs with hname
    · rfl
    · rw [chargeTo, chargeTo, slot_of_notMem hnamed hname]

/-- The name of a module leads to it and to no other. -/
theorem getElem?_slot (hnamed : ledger.IsNamed) (husage : usage ∈ ledger.modules) :
    ledger.modules[ledger.slot usage.name]? = some usage := by
  have hname : usage.name ∈ ledger.catalog.names := hnamed ▸ List.mem_map_of_mem husage
  obtain ⟨found, hslot, heq⟩ := exists_slot hnamed hname
  have hnodup : (ledger.modules.map (·.name)).Nodup := hnamed ▸ ledger.catalog.nodup_names
  rw [hslot, List.inj_on_of_nodup_map hnodup (List.mem_of_getElem? hslot) husage heq]

theorem post_of_countsNowhere (hnamed : ledger.IsNamed) (h : CountsNowhere posting.entry) :
    ledger.post posting = ledger := by
  rw [post_eq_chargeTo hnamed, chargeTo, chargeAt]
  exact if_pos (countsNowhere_iff.1 h)

section

variable (hnamed : ledger.IsNamed) (husage : usage ∈ ledger.modules) (hfits : usage.Fits)
  (hname : usage.name = posting.moduleIn ledger.catalog)
include hnamed husage hfits hname

/-- **A posting without room** changes no total, and is counted. -/
theorem post_of_not_hasRoom (hroom : ¬usage.HasRoom posting.entry) :
    ledger.post posting = ledger.drop := by
  rw [post_eq_chargeTo hnamed, ← hname, chargeTo, chargeAt, getElem?_slot hnamed husage]
  simp only [(Usage.add?_eq_none_iff hfits).2 hroom]
  exact if_neg fun h => hroom ((countsNowhere_iff.2 h).hasRoom hfits)

/-- **A posting with room** goes into its module as a whole, and is not counted. -/
theorem post_of_hasRoom (hroom : usage.HasRoom posting.entry) :
    (ledger.post posting).modules = ledger.modules.map (fun other =>
        if other.name = posting.moduleIn ledger.catalog then other.plus posting.entry else other) ∧
      (ledger.post posting).overflowed = ledger.overflowed := by
  have hmem := posting.moduleIn_mem ledger.catalog
  rw [post_eq_chargeTo hnamed]
  constructor
  · rw [modules_chargeTo hnamed hmem]
    refine List.map_congr_left fun other hother => ?_
    split_ifs with heq
    · have hother : some other = some usage := by
        rw [← getElem?_slot hnamed hother, ← getElem?_slot hnamed husage, heq, hname]
      obtain rfl := Option.some.inj hother
      exact Usage.charged_of_hasRoom hfits hroom
    · rfl
  · rw [← hname, chargeTo, chargeAt, getElem?_slot hnamed husage]
    split
    · rfl
    · cases hadd : usage.add? (Placement.ofName posting.entry.sectionName) posting.entry.size with
      | none => exact absurd hroom ((Usage.add?_eq_none_iff hfits).1 hadd)
      | some usage' => simp only [hadd]

end

/-- The counter of a ledger is never read. -/
theorem post_drop (ledger : Ledger) (posting : Posting) :
    ledger.drop.post posting = (ledger.post posting).drop := by
  have hcharge : ∀ slot entry,
      ledger.drop.chargeAt slot entry = (ledger.chargeAt slot entry).drop := by
    intro slot entry
    simp only [chargeAt, drop]
    split
    · rfl
    · cases ledger.modules[slot]? with
      | none => rfl
      | some usage =>
        dsimp only
        cases usage.add? (Placement.ofName entry.sectionName) entry.size <;> rfl
  cases posting with
  | byPath entry => exact hcharge _ entry
  | byName entry name => exact hcharge _ entry

/-- **After a dropped entry, a run goes on as if it had never been there.** -/
theorem foldl_post_drop (ledger : Ledger) (postings : List Posting) :
    postings.foldl post ledger.drop = (postings.foldl post ledger).drop := by
  induction postings generalizing ledger with
  | nil => rfl
  | cons posting postings ih => rw [List.foldl_cons, List.foldl_cons, post_drop, ih]

end Ledger

/-! ### What a run accepts -/

/-- The entries that postings have for a module. -/
def entriesFor (catalog : Catalog) (postings : List Posting) (name : String) : List Entry :=
  (postings.filter fun posting => posting.moduleIn catalog = name).map (·.entry)

/-- **The exact sums of the entries for a module**, however large. -/
def sumsFor (catalog : Catalog) (postings : List Posting) (name : String) : Usage :=
  ⟨name, flashSum (entriesFor catalog postings name), ramSum (entriesFor catalog postings name)⟩

/-- Accept one more posting, if its entry has room next to the accepted ones of its module. -/
def accept (catalog : Catalog) (accepted : List Posting) (posting : Posting) : List Posting :=
  if (sumsFor catalog accepted (posting.moduleIn catalog)).HasRoom posting.entry then
    accepted ++ [posting]
  else accepted

/-- **The accepted postings of a run.** -/
def accepted (catalog : Catalog) (postings : List Posting) : List Posting :=
  postings.foldl (accept catalog) []

theorem accepted_concat (catalog : Catalog) (postings : List Posting) (posting : Posting) :
    accepted catalog (postings ++ [posting]) =
      accept catalog (accepted catalog postings) posting := by
  rw [accepted, List.foldl_concat, accepted]

theorem sumsFor_concat (catalog : Catalog) (postings : List Posting) (posting : Posting)
    (name : String) : sumsFor catalog (postings ++ [posting]) name =
      if name = posting.moduleIn catalog then (sumsFor catalog postings name).plus posting.entry
      else sumsFor catalog postings name := by
  rw [sumsFor, entriesFor, List.filter_append, List.map_append]
  split_ifs with hname
  · rw [List.filter_cons_of_pos (by simp [hname]), flashSum_append, ramSum_append]
    simp [sumsFor, entriesFor, flashSum_cons, ramSum_cons, Usage.plus]
  · rw [List.filter_cons_of_neg (by simpa using Ne.symm hname)]
    simp [sumsFor, entriesFor]

namespace Ledger

/-- What a ledger holds once some postings have come: the sums of the accepted ones, and the number
of the others. -/
structure Holds (ledger : Ledger) (catalog : Catalog) (postings : List Posting) : Prop where
  catalog_eq : ledger.catalog = catalog
  modules_eq : ledger.modules = catalog.names.map (sumsFor catalog (accepted catalog postings))
  fits : ∀ usage ∈ ledger.modules, usage.Fits
  overflowed_eq : ledger.overflowed + (accepted catalog postings).length = postings.length

theorem holds_start (catalog : Catalog) : (start catalog).Holds catalog [] where
  catalog_eq := rfl
  modules_eq := rfl
  fits := by
    intro usage husage
    obtain ⟨name, -, rfl⟩ := List.mem_map.1 husage
    have hpos : 0 < wordLimit := by decide
    exact ⟨hpos, hpos⟩
  overflowed_eq := rfl

variable {ledger : Ledger} {catalog : Catalog} {postings : List Posting}

theorem Holds.isNamed (h : ledger.Holds catalog postings) : ledger.IsNamed := by
  rw [IsNamed, h.modules_eq, h.catalog_eq, List.map_map]
  exact List.map_id _

/-- A module of a ledger holds the sums for its name. -/
theorem Holds.eq_sumsFor (h : ledger.Holds catalog postings) {usage : Usage}
    (husage : usage ∈ ledger.modules) :
    usage = sumsFor catalog (accepted catalog postings) usage.name := by
  rw [h.modules_eq] at husage
  obtain ⟨name, -, rfl⟩ := List.mem_map.1 husage
  rfl

theorem Holds.sumsFor_mem (h : ledger.Holds catalog postings) (posting : Posting) :
    sumsFor catalog (accepted catalog postings) (posting.moduleIn catalog) ∈ ledger.modules := by
  rw [h.modules_eq]
  exact List.mem_map_of_mem (posting.moduleIn_mem catalog)

/-- **One posting more**, accepted or counted. -/
theorem Holds.post (h : ledger.Holds catalog postings) (posting : Posting) :
    (ledger.post posting).Holds catalog (postings ++ [posting]) := by
  have hmem := h.sumsFor_mem posting
  have hname : (sumsFor catalog (accepted catalog postings) (posting.moduleIn catalog)).name =
      posting.moduleIn ledger.catalog := by
    rw [h.catalog_eq]
    rfl
  by_cases hroom :
    (sumsFor catalog (accepted catalog postings) (posting.moduleIn catalog)).HasRoom posting.entry
  · obtain ⟨hmodules, hoverflowed⟩ := post_of_hasRoom h.isNamed hmem (h.fits _ hmem) hname hroom
    have haccepted : accepted catalog (postings ++ [posting]) =
        accepted catalog postings ++ [posting] := by
      rw [accepted_concat, accept, if_pos hroom]
    rw [h.catalog_eq] at hmodules
    refine ⟨?_, ?_, fun usage husage => ?_, ?_⟩
    · rw [post_eq_chargeTo h.isNamed, catalog_chargeTo, h.catalog_eq]
    · rw [hmodules, h.modules_eq, List.map_map, haccepted]
      exact List.map_congr_left fun name _ => (sumsFor_concat _ _ _ name).symm
    · rw [hmodules] at husage
      obtain ⟨other, hother, rfl⟩ := List.mem_map.1 husage
      split_ifs with heq
      · refine (h.fits other hother).plus ?_
        rwa [h.eq_sumsFor hother, heq]
      · exact h.fits other hother
    · rw [hoverflowed, haccepted, List.length_append, List.length_append, ← Nat.add_assoc,
        h.overflowed_eq]
  · have haccepted : accepted catalog (postings ++ [posting]) = accepted catalog postings := by
      rw [accepted_concat, accept, if_neg hroom]
    rw [post_of_not_hasRoom h.isNamed hmem (h.fits _ hmem) hname hroom]
    refine ⟨h.catalog_eq, ?_, h.fits, ?_⟩
    · rw [haccepted]
      exact h.modules_eq
    · rw [haccepted, List.length_append, List.length_singleton, ← h.overflowed_eq, drop]
      exact Nat.add_right_comm _ _ _

/-- **A whole run.** -/
theorem holds_ofPostings (catalog : Catalog) (postings : List Posting) :
    (ofPostings catalog postings).Holds catalog postings := by
  induction postings using List.reverseRecOn with
  | nil => exact holds_start catalog
  | append_singleton postings posting ih =>
    rw [ofPostings_concat]
    exact ih.post posting

/-- What a posting does to the modules: it can add to the one it goes to, and to no other. -/
def OnlyAddsTo (name : String) (before after : Usage) : Prop :=
  after.name = before.name ∧ before.flash ≤ after.flash ∧ before.ram ≤ after.ram ∧
    (before.name ≠ name → after = before)

theorem forall₂_onlyAddsTo_post (hnamed : ledger.IsNamed) (posting : Posting) :
    List.Forall₂ (OnlyAddsTo (posting.moduleIn ledger.catalog)) ledger.modules
      (ledger.post posting).modules := by
  rw [post_eq_chargeTo hnamed, modules_chargeTo hnamed (posting.moduleIn_mem _),
    List.forall₂_map_right_iff, List.forall₂_same]
  intro usage _
  split_ifs with hname
  · obtain ⟨hflash, hram⟩ := usage.le_charged posting.entry
    exact ⟨usage.name_charged _, hflash, hram, fun hne => absurd hname hne⟩
  · exact ⟨rfl, Nat.le_refl _, Nat.le_refl _, fun _ => rfl⟩

/-- **A ledger is exact at every point of a run.** -/
theorem ofPostings_exact (catalog : Catalog) (postings : List Posting) :
    (ofPostings catalog postings).modules.map (·.name) = catalog.names ∧ catalog.names.Nodup ∧
      (∀ usage ∈ (ofPostings catalog postings).modules,
        usage.flash < wordLimit ∧ usage.ram < wordLimit ∧
          usage.flash = flashSum (entriesFor catalog (accepted catalog postings) usage.name) ∧
          usage.ram = ramSum (entriesFor catalog (accepted catalog postings) usage.name)) ∧
      (ofPostings catalog postings).overflowed + (accepted catalog postings).length =
        postings.length ∧
      ∀ posting : Posting,
        List.Forall₂ (OnlyAddsTo (posting.moduleIn catalog)) (ofPostings catalog postings).modules
          (ofPostings catalog (postings ++ [posting])).modules ∧
        (CountsNowhere posting.entry →
          ofPostings catalog (postings ++ [posting]) = ofPostings catalog postings) ∧
        ∀ usage ∈ (ofPostings catalog postings).modules, usage.name = posting.moduleIn catalog →
          ¬usage.HasRoom posting.entry → ∀ later,
            ofPostings catalog (postings ++ posting :: later) =
              { ofPostings catalog (postings ++ later) with
                overflowed := (ofPostings catalog (postings ++ later)).overflowed + 1 } := by
  have hholds := holds_ofPostings catalog postings
  have hnamed := hholds.isNamed
  have hforall := fun posting => forall₂_onlyAddsTo_post hnamed posting
  simp only [IsNamed, hholds.catalog_eq] at hnamed hforall
  refine ⟨hnamed, catalog.nodup_names, fun usage husage => ?_, hholds.overflowed_eq,
    fun posting => ⟨?_, fun hnowhere => ?_, ?_⟩⟩
  · have hsums := hholds.eq_sumsFor husage
    exact ⟨(hholds.fits usage husage).1, (hholds.fits usage husage).2, congrArg Usage.flash hsums,
      congrArg Usage.ram hsums⟩
  · rw [ofPostings_concat]
    exact hforall posting
  · rw [ofPostings_concat, post_of_countsNowhere hholds.isNamed hnowhere]
  · intro usage husage hname hroom later
    rw [← hholds.catalog_eq] at hname
    have hdrop := post_of_not_hasRoom hholds.isNamed husage (hholds.fits usage husage) hname hroom
    rw [ofPostings_append, ofPostings_append, List.foldl_cons, hdrop, foldl_post_drop]
    rfl

/-- Initialised variables for a module whose RAM total is at the greatest word: its flash total has
room, and stays as it is. -/
theorem ofPostings_exact_full : ∃ catalog : Catalog,
    Catalog.ofCategories [⟨"Kem", ["kem"]⟩] = .ok catalog ∧
    ¬Usage.HasRoom ⟨"Kem", 0, 0xffffffffffffffff⟩ ⟨".data", 1, "kem.o"⟩ ∧
    (ofPostings catalog [.byPath ⟨".bss", 0xffffffffffffffff, "kem.o"⟩]).modules =
      [⟨"Kem", 0, 0xffffffffffffffff⟩, ⟨"Other", 0, 0⟩] ∧
    ∀ later, ofPostings catalog (.byPath ⟨".bss", 0xffffffffffffffff, "kem.o"⟩ ::
        .byPath ⟨".data", 1, "kem.o"⟩ :: later) =
      { ofPostings catalog (.byPath ⟨".bss", 0xffffffffffffffff, "kem.o"⟩ :: later) with
        overflowed := (ofPostings catalog
          (.byPath ⟨".bss", 0xffffffffffffffff, "kem.o"⟩ :: later)).overflowed + 1 } := by
  obtain ⟨catalog, h⟩ : ∃ catalog, Catalog.ofCategories [⟨"Kem", ["kem"]⟩] = .ok catalog := ⟨_, rfl⟩
  have hroom : ¬Usage.HasRoom ⟨"Kem", 0, 0xffffffffffffffff⟩ ⟨".data", 1, "kem.o"⟩ := by decide
  have hmodules : (ofPostings catalog [.byPath ⟨".bss", 0xffffffffffffffff, "kem.o"⟩]).modules =
      [⟨"Kem", 0, 0xffffffffffffffff⟩, ⟨"Other", 0, 0⟩] := by
    obtain rfl := Except.ok.inj h
    decide +kernel
  obtain ⟨-, -, -, -, hnext⟩ :=
    ofPostings_exact catalog [.byPath ⟨".bss", 0xffffffffffffffff, "kem.o"⟩]
  obtain ⟨-, -, hdrop⟩ := hnext (.byPath ⟨".data", 1, "kem.o"⟩)
  have hname : (⟨"Kem", 0, 0xffffffffffffffff⟩ : Usage).name =
      Posting.moduleIn catalog (.byPath ⟨".data", 1, "kem.o"⟩) := by
    obtain rfl := Except.ok.inj h
    decide +kernel
  exact ⟨catalog, h, hroom, hmodules,
    hdrop ⟨"Kem", 0, 0xffffffffffffffff⟩ (hmodules ▸ List.mem_cons_self) hname hroom⟩

end Ledger

end FirmwareReport
