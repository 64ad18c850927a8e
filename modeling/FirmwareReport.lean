import FirmwareReport.Text.Blank
import FirmwareReport.Text.Search
import FirmwareReport.Text.Utf8
import FirmwareReport.Number.Numeral
import FirmwareReport.Number.Decimal
import FirmwareReport.LinkerMap.Placement
import FirmwareReport.LinkerMap.Reader
import FirmwareReport.Footprint
import FirmwareReport.Benchmark.Clock
import FirmwareReport.Benchmark.Survey
import FirmwareReport.Baseline
import FirmwareReport.Log
import FirmwareReport.Report.Console
import FirmwareReport.Report.Substitution
import FirmwareReport.Config.Text
import FirmwareReport.Files.Store
import FirmwareReport.Main
import FirmwareReport.Proofs.Report.Marker
import FirmwareReport.Proofs.Report.Refill
import FirmwareReport.Proofs.Report.Outline
import FirmwareReport.Proofs.Report.Regeneration
import FirmwareReport.Proofs.Text.Utf8
import FirmwareReport.Proofs.Text.Blank
import FirmwareReport.Proofs.Text.Lines
import FirmwareReport.Proofs.LinkerMap.Shape
import FirmwareReport.Proofs.LinkerMap.Reading
import FirmwareReport.Proofs.LinkerMap.Contribution
import FirmwareReport.Proofs.LinkerMap.Calls
import FirmwareReport.Proofs.Footprint.Catalog
import FirmwareReport.Proofs.Catalog.Construction
import FirmwareReport.Proofs.Footprint.Ledger
import FirmwareReport.Proofs.Footprint.Exact
import FirmwareReport.Proofs.LinkerMap.Edits
import FirmwareReport.Proofs.Number.Digits
import FirmwareReport.Proofs.Report.Cells
import FirmwareReport.Proofs.Benchmark.Keys
import FirmwareReport.Proofs.Report.Harmless
import FirmwareReport.Proofs.Report.Pass
import FirmwareReport.Proofs.Files.Store
import FirmwareReport.Proofs.Run.Update
import FirmwareReport.Proofs.Run.Outcome
import FirmwareReport.Proofs.Run.Quiet
import FirmwareReport.Proofs.Run.SecondRun
import FirmwareReport.Proofs.Log.ResultLine
import FirmwareReport.Proofs.Log.RoundTrip
import FirmwareReport.Proofs.Log.Grammar
import FirmwareReport.Proofs.Log.LineBreaks
import FirmwareReport.Proofs.Log.TagRuns
import FirmwareReport.Proofs.Log.Spans
import FirmwareReport.Proofs.Footprint.Insertion
import FirmwareReport.Proofs.Footprint.Postings
import FirmwareReport.Proofs.Footprint.Overflow
import FirmwareReport.Proofs.Footprint.Slots
import FirmwareReport.Proofs.Number.Weight
import FirmwareReport.Proofs.Benchmark.RowOrder
import FirmwareReport.Proofs.Benchmark.Survey
import FirmwareReport.Proofs.Benchmark.Statistics
import FirmwareReport.Proofs.Config.Validation
import FirmwareReport.Proofs.Config.RoundTrip
import FirmwareReport.Proofs.Json.Dataset
import FirmwareReport.Proofs.Log.Names
import FirmwareReport.Proofs.Report.Figures
import FirmwareReport.Proofs.Report.Rows
import FirmwareReport.Proofs.Report.Layout
import FirmwareReport.Proofs.Number.Thousands
import FirmwareReport.Proofs.Text.Offset
import FirmwareReport.Proofs.Report.Dissection
import FirmwareReport.Proofs.Report.Splice
