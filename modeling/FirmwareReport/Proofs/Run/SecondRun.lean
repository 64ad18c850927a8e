import FirmwareReport.Proofs.Config.Validation
import FirmwareReport.Proofs.Footprint.Exact
import FirmwareReport.Proofs.Report.Harmless
import FirmwareReport.Proofs.Run.Update

/-!
# The second run over the same inputs

The tables of a report are made of a log and a map, so a second run over the same inputs has the
same tables. Whether it changes the report is a question of the names in the inputs alone: the
second run is a no-op on every report, with both inputs or one of them, exactly if the names are
harmless (`FirmwareReport.isNoOp_iff_isHarmless`). Then the second update finds the text it would
write, and writes nothing (`FirmwareReport.Tables.Regenerates.isNoOp`).
-/

namespace FirmwareReport

/-- **The second update of a report is a no-op**: it leaves the text of every report as the first
one has made it, and where that went through, it goes through without a write. -/
structure Tables.IsNoOp (tables : Tables) : Prop where
  text : tables.Regenerates
  file : ∀ {path session session' result},
    StepT.runIn (updateReport path tables) session = (.ok result, session') → ∀ write,
      ∃ again, again.text = result.text ∧
        StepT.runIn (@updateReport SessionM _ (Session.hostWith write) path tables) session' =
          (.ok again, session'.warned (again.missing.map .sectionMissing))

/-- A second update that would change nothing writes nothing. -/
theorem Tables.Regenerates.isNoOp {tables : Tables} (h : tables.Regenerates) : tables.IsNoOp := by
  refine ⟨h, fun {path session session' result} hrun write => ?_⟩
  obtain ⟨report, -, rfl, htext⟩ := exists_of_updateReport hrun
  refine ⟨tables.applyTo (tables.applyTo report).text, h report, ?_⟩
  rw [runIn_updateReport, htext]
  exact if_pos (h report)

variable {config : Config}

/-- What a valid configuration makes of a log and of a map. -/
theorem exists_of_validate (hvalid : config.validate = .ok ()) (map : List UInt8) :
    ∃ tag catalog footprint, config.tag = .ok tag ∧ config.catalog = .ok catalog ∧
      Footprint.ofMap catalog map none = .ok footprint := by
  obtain ⟨tag, catalog, htag, hcatalog⟩ := Config.exists_tag_catalog hvalid
  have hcategories : Catalog.ofCategories config.categories = .ok catalog := by
    rw [Config.catalog] at hcatalog
    cases h : Catalog.ofCategories config.categories <;> simp_all
  exact ⟨tag, catalog, _, htag, hcatalog, Footprint.ofMap_of_ofCategories hcategories map⟩

/-- **When the second run is a no-op.** A valid configuration makes tables of any log and any map,
and a second run over them is a no-op on every report, with both or one of them, exactly if the
names are harmless. With both of them this is so as well, if the log brings in no section of the
map's. -/
theorem isNoOp_iff_isHarmless (hvalid : config.validate = .ok ()) (log map : List UInt8) :
    ∃ tag catalog footprint, config.tag = .ok tag ∧ config.catalog = .ok catalog ∧
      Footprint.ofMap catalog map none = .ok footprint ∧
      ((∀ records ∈ [none, some (Log.records tag log)], ∀ usage ∈ [none, some footprint],
        (Tables.ofInputs config records usage).IsNoOp) ↔
          IsHarmless config (Log.records tag log) footprint) ∧
      ((∀ record ∈ Log.records tag log,
          ¬record.key.HasMark (startMarker "RESOURCE_TABLE").toList) →
        ((Tables.ofInputs config (some (Log.records tag log)) (some footprint)).IsNoOp ↔
          IsHarmless config (Log.records tag log) footprint)) := by
  obtain ⟨tag, catalog, footprint, htag, hcatalog, hfootprint⟩ := exists_of_validate hvalid map
  refine ⟨tag, catalog, footprint, htag, hcatalog, hfootprint, ?_, fun hnone => ?_⟩
  · rw [← regenerates_iff_isHarmless]
    exact ⟨fun h records hrecords usage husage => (h records hrecords usage husage).text,
      fun h records hrecords usage husage => (h records hrecords usage husage).isNoOp⟩
  · refine ⟨fun h => ?_, fun h => ?_⟩
    · exact h.text.isHarmless (h.text.isPlain_of_noOpening hnone)
    · exact (h.regenerates (Or.inr rfl) (Or.inr rfl)).isNoOp

/-- The standard configuration is valid, so all of this holds of its reports. Here the log has one
result, with the end marker of the performance table for a name. -/
theorem isNoOp_iff_isHarmless_standard : Config.standard.validate = .ok () ∧
    ∃ tag catalog footprint, Config.standard.tag = .ok tag ∧
      Config.standard.catalog = .ok catalog ∧ Footprint.ofMap catalog [] none = .ok footprint ∧
      ((∀ records ∈ [none, some (Log.records tag (Text.encode
            "UART >> <!-- PERFORMANCE_TABLE_END -->: a took 1 cycles, Stack: 1 bytes".toList))],
          ∀ usage ∈ [none, some footprint],
            (Tables.ofInputs Config.standard records usage).IsNoOp) ↔
        IsHarmless Config.standard (Log.records tag (Text.encode
          "UART >> <!-- PERFORMANCE_TABLE_END -->: a took 1 cycles, Stack: 1 bytes".toList))
          footprint) := by
  have hvalid : Config.standard.validate = .ok () := by rfl
  obtain ⟨tag, catalog, footprint, htag, hcatalog, hfootprint, hiff, -⟩ :=
    isNoOp_iff_isHarmless hvalid (Text.encode
      "UART >> <!-- PERFORMANCE_TABLE_END -->: a took 1 cycles, Stack: 1 bytes".toList) []
  exact ⟨hvalid, tag, catalog, footprint, htag, hcatalog, hfootprint, hiff⟩

end FirmwareReport
