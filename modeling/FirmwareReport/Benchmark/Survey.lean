import FirmwareReport.Benchmark.Group

/-!
# Two views of the records

A `Survey` goes through the records of a log one by one and keeps two views of them:

* a tally for every key, which gives the groups;
* the first record of every key, later ones being passed over.

The tallies are a table, looked up by key; in which order its entries lie says
nothing. Both views are sorted when they are asked for, and then list their rows in
the order of `Key.compare`.
-/

namespace FirmwareReport

/-- What is kept of the records so far. -/
structure Survey where
  /-- A tally for every key, in no particular order. -/
  tallies : List (Key × Tally)
  /-- The first record of every key, in the order of the log. -/
  first : List Record
  /-- The keys that have come up. -/
  seen : List Key
  /-- How many records there were. -/
  total : Nat
deriving DecidableEq, Repr

namespace Survey

/-- A survey of no records. -/
def start : Survey where
  tallies := []
  first := []
  seen := []
  total := 0

/-- Count a record in the tally of its key; there will be one from then on. -/
def countIn (record : Record) : List (Key × Tally) → List (Key × Tally)
  | [] => [(record.key, (Tally.start record).add record)]
  | (key, tally) :: tallies =>
    if key = record.key then (key, tally.add record) :: tallies
    else (key, tally) :: countIn record tallies

/-- One more record, for both views. -/
def add (survey : Survey) (record : Record) : Survey :=
  let counted := { survey with
    tallies := countIn record survey.tallies
    total := survey.total + 1 }
  if record.key ∈ survey.seen then counted
  else { counted with
    first := survey.first ++ [record]
    seen := record.key :: survey.seen }

/-- **The survey of some records.** -/
def ofRecords (records : List Record) : Survey :=
  records.foldl add start

/-- How many keys there are. -/
def keyCount (survey : Survey) : Nat :=
  survey.tallies.length

/-- The groups, in row order. -/
def groups (reference : String) (survey : Survey) : List Group :=
  (survey.tallies.map fun entry => Group.ofTally entry.1 entry.2).mergeSort
    fun a b => Key.le reference a.key b.key

/-- The first record of every key, in row order. -/
def firstSeen (reference : String) (survey : Survey) : List Record :=
  survey.first.mergeSort fun a b => Key.le reference a.key b.key

end Survey

/-- **The groups of some records**, one per key, in row order. -/
def groups (reference : String) (records : List Record) : List Group :=
  (Survey.ofRecords records).groups reference

/-- The first record of every key, in row order. -/
def firstSeen (reference : String) (records : List Record) : List Record :=
  (Survey.ofRecords records).firstSeen reference

end FirmwareReport
