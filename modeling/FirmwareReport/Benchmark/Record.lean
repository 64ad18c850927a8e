/-!
# Benchmark records

One record is one timed operation: which algorithm, which of its operations, how
many cycles it took and how much stack it used. Records are compared and grouped
by their `Key`, the pair of algorithm and operation.

`Key.compare reference` is the order in which all performance tables list their
rows: the algorithms of the reference scheme first – those whose name begins with
`reference` – and then by algorithm and by operation, in code point order.
-/

namespace FirmwareReport

/-- An operation of an algorithm. -/
structure Key where
  algorithm : String
  operation : String
deriving DecidableEq, Repr

/-- One timed operation. The time it took is no field of its own: it always follows from the cycles
and from the clock of the run (`milliseconds`), and is never read from an input. -/
structure Record where
  algorithm : String
  operation : String
  cycles : Nat
  stack : Nat
deriving DecidableEq, Repr

/-- The key of a record. -/
def Record.key (record : Record) : Key :=
  ⟨record.algorithm, record.operation⟩

/-- Whether an algorithm belongs to the reference scheme. -/
def isReference (reference algorithm : String) : Bool :=
  reference.toList.isPrefixOf algorithm.toList

namespace Key

/-- A key as people read it. -/
def text (key : Key) : String :=
  key.algorithm ++ " " ++ key.operation

/-- **The row order**: reference scheme first, then algorithm, then operation. -/
def compare (reference : String) (a b : Key) : Ordering :=
  (Ord.compare (!isReference reference a.algorithm) (!isReference reference b.algorithm)).then
    ((Ord.compare a.algorithm b.algorithm).then (Ord.compare a.operation b.operation))

/-- Whether a key may stand in front of another. -/
def le (reference : String) (a b : Key) : Bool :=
  (compare reference a b).isLE

end Key

end FirmwareReport
