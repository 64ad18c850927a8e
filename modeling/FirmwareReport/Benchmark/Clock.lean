import FirmwareReport.Number.Decimal

/-!
# From cycles to milliseconds

The firmware counts cycles of its core clock. Times are derived from them in double
precision and kept to two places.
-/

namespace FirmwareReport

/-- The time that so many cycles take at a clock frequency in Hz, in milliseconds and
rounded to two places, a half going up. A clock that stands still gives zero. -/
def milliseconds (clock cycles : Nat) : Float :=
  if clock = 0 then 0
  else
    let exact := Float.ofNat cycles / Float.ofNat clock * 1000
    Float.ofNat (nearestNat (exact * 100)) / 100

/-- A clock frequency in MHz, as people read it. -/
def clockText (clock : Nat) : String :=
  Style.plain.write (Float.ofNat clock / 1000000) ++ " MHz"

end FirmwareReport
