import Mathlib.Tactic.SplitIfs
import FirmwareReport.Config

/-!
# What a valid configuration has

A configuration that is found to be valid has all that a run takes from it: a tag to read the log
with, and a catalog for the entries of the map.
-/

namespace FirmwareReport

/-- **A valid configuration** has a tag and a catalog. -/
theorem Config.exists_tag_catalog {config : Config} (hvalid : config.validate = .ok ()) :
    ∃ tag catalog, config.tag = .ok tag ∧ config.catalog = .ok catalog := by
  rw [validate] at hvalid
  cases hfault : config.valueFault? with
  | some fault => simp [hfault] at hvalid
  | none =>
    cases hcatalog : config.catalog with
    | error fault => simp [hfault, hcatalog] at hvalid
    | ok catalog =>
      rw [valueFault?] at hfault
      split_ifs at hfault
      cases htag : config.tag with
      | error fault => simp [htag] at hfault
      | ok tag => exact ⟨tag, catalog, rfl, rfl⟩

end FirmwareReport
