import FirmwareReport.LinkerMap.Cursor
import FirmwareReport.Text.Utf8

/-!
# Streaming the entries of a map

A map is read from a source of bytes that either ends or fails. `Reader.next`
hands out the next entry and keeps count of what it passed over on the way; each
line is decoded on its own, so one damaged byte spoils no more than its line.

A line is complete with its newline. The last one may do without if the source
ends there; if the source fails there instead, that unfinished line is lost and
the failure follows, once. After the end or the failure there is nothing more.
-/

namespace FirmwareReport.LinkerMap

/-- The bytes of a text cut behind every newline; no piece is empty. -/
def linePieces (bytes : List UInt8) : List (List UInt8) :=
  bytes.foldr (fun byte pieces =>
    if byte = 0x0a then [byte] :: pieces
    else match pieces with
      | [] => [[byte]]
      | piece :: pieces => (byte :: piece) :: pieces) []

/-- Whether a piece ends with its newline. -/
def isComplete (piece : List UInt8) : Bool :=
  piece.getLast? == some 0x0a

/-- What has been counted so far. -/
structure Stats where
  lines : Nat
  entries : Nat
  malformed : Nat
  orphans : Nat
deriving DecidableEq, Repr

namespace Stats

/-- Nothing counted yet. -/
def zero : Stats := ⟨0, 0, 0, 0⟩

/-- One more line, with its outcome. -/
def count (stats : Stats) (outcome : Outcome) : Stats :=
  let stats := { stats with lines := stats.lines + 1 }
  match outcome with
  | .entry _ => { stats with entries := stats.entries + 1 }
  | .oversized => { stats with malformed := stats.malformed + 1 }
  | .orphan => { stats with orphans := stats.orphans + 1 }
  | .nothing => stats

end Stats

/-- A reader in the middle of a map. -/
structure Reader where
  /-- The lines still to be read. -/
  pending : List (List UInt8)
  /-- The failure that follows them, if the source does not simply end. -/
  failure : Option String
  cursor : Cursor
  stats : Stats

namespace Reader

/-- A reader at the start of a source that delivers `bytes` and then ends, or fails
with the given message. -/
def ofSource (bytes : List UInt8) (failure : Option String) : Reader where
  pending := match failure with
    | none => linePieces bytes
    | some _ => (linePieces bytes).filter isComplete
  failure
  cursor := .start
  stats := .zero

/-- A reader at the start of a text. -/
def ofText (text : List Char) : Reader :=
  ofSource (Text.encode text) none

/-- The search behind `next`, over the lines still to be read. -/
def nextFrom (failure : Option String) (cursor : Cursor) (stats : Stats) :
    List (List UInt8) → Option (Except String Entry) × Reader
  | [] =>
    match failure with
    | some message => (some (.error message), ⟨[], none, cursor, stats⟩)
    | none => (none, ⟨[], none, cursor, stats⟩)
  | line :: pending =>
    match cursor.advance (Text.decodeLossy line) with
    | (.entry entry, cursor) =>
      (some (.ok entry), ⟨pending, failure, cursor, stats.count (.entry entry)⟩)
    | (outcome, cursor) => nextFrom failure cursor (stats.count outcome) pending

/-- **The next entry**, or the failure, or nothing more. -/
def next (r : Reader) : Option (Except String Entry) × Reader :=
  nextFrom r.failure r.cursor r.stats r.pending

theorem length_pending_of_next {r r' : Reader} {entry : Entry}
    (h : r.next = (some (.ok entry), r')) : r'.pending.length < r.pending.length := by
  obtain ⟨pending, failure, cursor, stats⟩ := r
  simp only [next] at h
  induction pending generalizing cursor stats with
  | nil => cases failure <;> simp [nextFrom] at h
  | cons line pending ih =>
    simp only [nextFrom] at h
    split at h
    · obtain ⟨-, rfl⟩ : _ ∧ _ = r' := by simpa using h
      simp
    · exact Nat.lt_succ_of_lt (ih _ _ h)

/-- Read everything that is left, with `step` taking each entry together with the
counts at the moment it was handed out. The failure comes back, if there is one. -/
def fold {σ : Type} (step : σ → Entry → Stats → σ) (state : σ) (r : Reader) :
    σ × Option String × Reader :=
  match _h : r.next with
  | (some (.ok entry), r') => fold step (step state entry r'.stats) r'
  | (some (.error message), r') => (state, some message, r')
  | (none, r') => (state, none, r')
termination_by r.pending.length
decreasing_by exact length_pending_of_next _h

/-- All entries that are left, each with the number of its line. -/
def entries (r : Reader) : List (Entry × Nat) × Option String × Reader :=
  let (reversed, rest) := r.fold (fun seen entry stats => (entry, stats.lines) :: seen) []
  (reversed.reverse, rest)

end Reader

end FirmwareReport.LinkerMap
