import FirmwareReport.Benchmark.Record
import FirmwareReport.Number.Decimal

/-!
# Baselines and speedups

A baseline is a cycle count to compare with, for one operation of one algorithm. A
speedup is a quotient of two positive cycle counts and nothing else: a zero on
either side is as good as no baseline. The operations of the reference scheme need
none, they *are* what the others are compared with.
-/

namespace FirmwareReport

/-- A cycle count to compare with. -/
structure Baseline where
  algorithm : String
  operation : String
  cycles : Nat
deriving DecidableEq, Repr

namespace Baseline

/-- The key a baseline is for. -/
def key (baseline : Baseline) : Key :=
  ⟨baseline.algorithm, baseline.operation⟩

/-- The cycle count for a key; of several entries for one key the last counts. -/
def find? (baselines : List Baseline) (key : Key) : Option Nat :=
  baselines.foldl (fun found b => if b.key = key then some b.cycles else found) none

/-- How many keys have a baseline. -/
def keyCount (baselines : List Baseline) : Nat :=
  (baselines.map key).eraseDups.length

end Baseline

/-- How a measurement compares with its baseline. -/
inductive Speedup
  /-- So many times as fast. -/
  | ratio (value : Float)
  /-- A measurement of the reference scheme. -/
  | reference
  /-- Nothing to compare with. -/
  | noBaseline

namespace Speedup

/-- The speedup of a measured cycle count. -/
def compute (baselines : List Baseline) (reference : String) (key : Key) (measured : Nat) :
    Speedup :=
  match Baseline.find? baselines key with
  | some cycles =>
    if 0 < cycles ∧ 0 < measured then .ratio (Float.ofNat cycles / Float.ofNat measured)
    else .noBaseline
  | none =>
    if reference ≠ "" ∧ isReference reference key.algorithm then .reference else .noBaseline

/-- A speedup as a table cell. -/
def cell : Speedup → String
  | .ratio value => "**" ++ fixedPlaces 2 value ++ "x**"
  | .reference => "*Baseline*"
  | .noBaseline => "*No baseline*"

end Speedup

end FirmwareReport
