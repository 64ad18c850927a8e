import FirmwareReport.Config.Text
import FirmwareReport.Proofs.Toml.Bounds

/-!
# Configurations that were read can be written

A configuration has a text if its numbers are signed words. The numbers of a document are, and those
of the standard configuration, which stand in for what a document leaves out; so whatever was read
from a document has a text again (`FirmwareReport.Config.isRepresentable_of_read?`).
-/

namespace FirmwareReport

open Toml

/-! ### Reading small items -/

section Items

variable {entries : Entries}

theorem lt_of_natural? {item : Item} {n : Nat} (h : item.IsSmall) (hn : item.natural? = some n) :
    n < signedLimit := by
  unfold Item.natural? at hn
  split at hn
  · cases hn
    cases h with
    | scalar hsmall => exact hsmall n rfl
  · cases hn

theorem isSmall_of_find? (h : entries.IsSmall) {name : String} {item : Item}
    (hfind : entries.find? name = some item) : item.IsSmall := by
  obtain ⟨before, after, heq, -⟩ := List.lookup_eq_some_iff.1 hfind
  exact h (name, item) (heq ▸ by simp)

/-- A number that a table gives, or that stands in for it. -/
theorem lt_of_getD? (h : entries.IsSmall) {name : String} {missing n : Nat}
    (hmissing : missing < signedLimit)
    (hn : entries.getD? name Item.natural? missing = some n) : n < signedLimit := by
  unfold Entries.getD? at hn
  split at hn
  · next item hfind => exact lt_of_natural? (isSmall_of_find? h hfind) hn
  · cases hn
    exact hmissing

theorem forall_mem_of_mapM {α β : Type} {read? : α → Option β} {Small : α → Prop}
    {Spec : β → Prop} (h : ∀ a b, Small a → read? a = some b → Spec b) {list : List α}
    (hlist : ∀ a ∈ list, Small a) {values : List β} (hread : list.mapM read? = some values) :
    ∀ b ∈ values, Spec b := by
  induction list generalizing values with
  | nil =>
    cases hread
    exact List.forall_mem_nil _
  | cons a list ih =>
    obtain ⟨ha, hlist⟩ := List.forall_mem_cons.1 hlist
    rw [List.mapM_cons] at hread
    obtain ⟨b, hb, hread⟩ := Option.bind_eq_some_iff.1 hread
    obtain ⟨more, hmore, hread⟩ := Option.bind_eq_some_iff.1 hread
    cases hread
    exact List.forall_mem_cons.2 ⟨h a b ha hb, ih hlist hmore⟩

end Items

/-! ### Reading baselines -/

theorem cycles_lt_of_ofEntries? {entries : Entries} {baseline : Baseline} (h : entries.IsSmall)
    (hread : Baseline.ofEntries? entries = some baseline) : baseline.cycles < signedLimit := by
  unfold Baseline.ofEntries? at hread
  simp only [Option.bind_eq_bind, Option.bind_eq_some_iff] at hread
  obtain ⟨_, -, algorithm, -, _, -, operation, -, item, hitem, cycles, hcycles, heq⟩ := hread
  cases heq
  exact lt_of_natural? (isSmall_of_find? h hitem) hcycles

theorem cycles_lt_of_ofItems? {items : List Item} {baseline : Baseline}
    (h : ∀ item ∈ items, item.IsSmall) (hread : Baseline.ofItems? items = some baseline) :
    baseline.cycles < signedLimit := by
  unfold Baseline.ofItems? at hread
  split at hread
  · next algorithm operation cycles items =>
    simp only [Option.bind_eq_bind, Option.bind_eq_some_iff] at hread
    obtain ⟨_, -, _, -, n, hn, heq⟩ := hread
    cases heq
    exact lt_of_natural? (h cycles (by simp)) hn
  · cases hread

/-- **Baselines that were read** are small, in each of the ways to give them. -/
theorem cycles_lt_of_elements? {item : Item} {baselines : List Baseline} (h : item.IsSmall)
    (hread : item.elements? Baseline.ofEntries? Baseline.ofItems? = some baselines) :
    ∀ b ∈ baselines, b.cycles < signedLimit := by
  unfold Item.elements? at hread
  split at hread
  · cases h with
    | tables hsmall =>
      exact forall_mem_of_mapM (fun _ _ => cycles_lt_of_ofEntries?) hsmall hread
  · cases h with
    | array hsmall =>
      refine forall_mem_of_mapM (fun item baseline hitem hbaseline => ?_) hsmall hread
      split at hbaseline
      · cases hitem with
        | table hentries => exact cycles_lt_of_ofEntries? hentries hbaseline
      · cases hitem with
        | array hitems => exact cycles_lt_of_ofItems? hitems hbaseline
      · cases hbaseline
  · cases hread

namespace Config

variable {config : Config}

/-- What a document can hold of a configuration. -/
theorem isRepresentable_iff : config.isRepresentable = true ↔
    config.clock < signedLimit ∧ config.flashCapacity < signedLimit ∧
      config.ramCapacity < signedLimit ∧ ∀ b ∈ config.baselines, b.cycles < signedLimit := by
  simp [isRepresentable, and_assoc]

/-- **A configuration that was read can be written.** -/
theorem isRepresentable_of_read? {text : String} (h : read? text = some config) :
    config.isRepresentable = true := by
  obtain ⟨document, hdocument, h⟩ := Option.bind_eq_some_iff.1 h
  obtain ⟨entries, hentries, h⟩ := Option.bind_eq_some_iff.1 h
  have hsmall := isSmall_of_entries? (isSmall_of_read? hdocument) hentries
  unfold ofEntries? at h
  simp only [Option.bind_eq_bind, Option.bind_eq_some_iff] at h
  obtain ⟨clock, hclock, flash, hflash, ram, hram, _, -, _, -, _, -, baselines, hbaselines, h⟩ := h
  split_ifs at h
  cases h
  refine isRepresentable_iff.2 ⟨lt_of_getD? hsmall (by decide) hclock,
    lt_of_getD? hsmall (by decide) hflash, lt_of_getD? hsmall (by decide) hram, ?_⟩
  unfold Entries.getD? at hbaselines
  split at hbaselines
  · next item hfind => exact cycles_lt_of_elements? (isSmall_of_find? hsmall hfind) hbaselines
  · cases hbaselines
    exact show ∀ b ∈ standardBaselines, b.cycles < signedLimit by decide

end Config

end FirmwareReport
