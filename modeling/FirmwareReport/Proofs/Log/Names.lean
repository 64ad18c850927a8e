import FirmwareReport.Log
import FirmwareReport.Proofs.Log.Grammar

/-!
# The names of records

Whatever a log holds, the names of its records hold no line break: an algorithm and an operation are
runs within one line, and trimming takes characters away only
(`FirmwareReport.Log.newline_notMem_of_mem_records`). The tag does not matter, it may itself hold
line breaks.
-/

namespace FirmwareReport

namespace Text

theorem mem_of_mem_trim {c : Char} {s : List Char} (h : c ∈ trim s) : c ∈ s := by
  obtain ⟨cut, -, heq⟩ := exists_trimEnd_append (trimStart s)
  have hstart : c ∈ trimStart s := by
    rw [heq]
    exact List.mem_append_left cut h
  exact (List.dropWhile_sublist isBlank).subset hstart

end Text

namespace Log

variable {tag : Tag}

/-- **The names of a result** stand within a line. -/
theorem newline_notMem_of_mem_resultsIn {s : List Char} {result : Result}
    (h : result ∈ resultsIn tag s) : '\n' ∉ result.algorithm ∧ '\n' ∉ result.operation := by
  fun_induction resultsIn tag s with
  | case1 => cases h
  | case2 c s found rest hfound ih =>
    rcases List.mem_cons.1 h with rfl | h
    · obtain ⟨behind, -, hbehind⟩ := resultAt?_eq_some_iff.1 hfound
      obtain ⟨body, -, hbody⟩ := exists_untagged?_of_behindTag? hbehind
      obtain ⟨clause, -, halgorithm, hoperation, -⟩ := exists_of_untagged? hbody
      exact ⟨halgorithm, hoperation⟩
    · exact ih h
  | case3 c s hnone ih => exact ih h

/-- **The names of a record** hold no line break. -/
theorem newline_notMem_of_mem_records {bytes : List UInt8} {record : Record}
    (h : record ∈ records tag bytes) :
    '\n' ∉ record.algorithm.toList ∧ '\n' ∉ record.operation.toList := by
  rw [records, recordsIn_eq_filterMap] at h
  obtain ⟨result, hresult, hrecord⟩ := List.mem_filterMap.1 h
  obtain ⟨halgorithm, hoperation⟩ := newline_notMem_of_mem_resultsIn hresult
  simp only [Result.record?, Option.bind_eq_bind, Option.bind_eq_some_iff, Option.pure_def,
    Option.some.injEq] at hrecord
  obtain ⟨cycles, -, stack, -, rfl⟩ := hrecord
  simp only [String.toList_ofList]
  exact ⟨fun hmem => halgorithm (Text.mem_of_mem_trim hmem),
    fun hmem => hoperation (Text.mem_of_mem_trim hmem)⟩

end Log

end FirmwareReport
