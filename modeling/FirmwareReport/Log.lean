import FirmwareReport.Benchmark.Record
import FirmwareReport.Log.Search
import FirmwareReport.Text.Utf8

/-!
# Benchmark records of a log

The results of a log as records. A result whose cycle count or stack size does not
fit into a word is left out, and costs no other result. The bytes of the log are
decoded as a whole and lossily, so a damaged byte costs at most the result it stands
in.
-/

namespace FirmwareReport.Log

/-- A result as a record: both names without white space around them, both numbers
below the word limit. -/
def Result.record? (result : Result) : Option Record := do
  let cycles ← word? 10 result.cycles
  let stack ← word? 10 result.stack
  return {
    algorithm := String.ofList (Text.trim result.algorithm)
    operation := String.ofList (Text.trim result.operation)
    cycles
    stack }

/-- The records of a text, in order. -/
def recordsIn (tag : Tag) (text : List Char) : List Record :=
  (search tag text).filterMap Result.record?

/-- The records are those of the results, in the order of the text. -/
theorem recordsIn_eq_filterMap (tag : Tag) (text : List Char) :
    recordsIn tag text = (resultsIn tag text).filterMap Result.record? := by
  rw [recordsIn, search_eq_resultsIn]

/-- **The records of a log**, in order. -/
def records (tag : Tag) (bytes : List UInt8) : List Record :=
  recordsIn tag (Text.decodeLossy bytes)

end FirmwareReport.Log
