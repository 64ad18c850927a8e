import FirmwareReport.Benchmark.Record

/-!
# Statistics per key

All records of one key make a group: how many there are, the means of their cycles
and of their stack, and the least and the greatest cycle count. A `Tally` is what is
kept while records come in, one after the other. Its sums are words of 128 bits and
its counter is one of 32 bits; both go round at their end, the counter long before
the sums. A mean is one conversion of the sum to double precision and one division.
-/

namespace FirmwareReport

/-- What has been counted and added up of the records of one key. -/
structure Tally where
  /-- The sum of their cycle counts. -/
  cycles : BitVec 128
  /-- The sum of their stack sizes. -/
  stack : BitVec 128
  /-- The least cycle count. -/
  least : Nat
  /-- The greatest cycle count. -/
  greatest : Nat
  count : UInt32
deriving DecidableEq, Repr

namespace Tally

/-- A tally that is about to count its first record: its extremes are those of that record. -/
def start (record : Record) : Tally where
  cycles := 0
  stack := 0
  least := record.cycles
  greatest := record.cycles
  count := 0

/-- One more record. -/
def add (tally : Tally) (record : Record) : Tally where
  cycles := tally.cycles + BitVec.ofNat 128 record.cycles
  stack := tally.stack + BitVec.ofNat 128 record.stack
  least := min tally.least record.cycles
  greatest := max tally.greatest record.cycles
  count := tally.count + 1

end Tally

/-- The statistics of the records of one key. -/
structure Group where
  algorithm : String
  operation : String
  meanCycles : Float
  meanStack : Float
  minCycles : Nat
  maxCycles : Nat
  count : Nat

/-- The key of a group. -/
def Group.key (group : Group) : Key :=
  ⟨group.algorithm, group.operation⟩

/-- The mean of so many numbers, from their sum; zero if there are none. -/
def mean (sum count : Nat) : Float :=
  Float.ofNat sum / Float.ofNat (max count 1)

/-- The statistics that a tally comes to, listed under its key. -/
def Group.ofTally (key : Key) (tally : Tally) : Group where
  algorithm := key.algorithm
  operation := key.operation
  meanCycles := mean tally.cycles.toNat tally.count.toNat
  meanStack := mean tally.stack.toNat tally.count.toNat
  minCycles := tally.least
  maxCycles := tally.greatest
  count := tally.count.toNat

end FirmwareReport
