import FirmwareReport.Footprint.Ledger
import FirmwareReport.LinkerMap.Reader
import FirmwareReport.Number.Total

/-!
# The memory footprint

What the modules of a firmware image occupy, with grand totals. The totals are sums
over the modules and stop at the greatest 64-bit word; each module's own figures are
what the ledger holds.
-/

namespace FirmwareReport

/-- The usage of every module, and the totals. -/
structure Footprint where
  modules : List Usage
  totalFlash : Nat
  totalRam : Nat
deriving DecidableEq, Repr

/-- A sum that stops at the greatest word. -/
def saturate (n : Nat) : Nat :=
  min n (wordLimit - 1)

namespace Footprint

/-- The footprint of a list of modules. -/
def ofModules (modules : List Usage) : Footprint where
  modules
  totalFlash := saturate (total (modules.map (·.flash)))
  totalRam := saturate (total (modules.map (·.ram)))

/-- **The footprint of a linker map**, or the failure of its source. -/
def ofMap (catalog : Catalog) (bytes : List UInt8) (failure : Option String) :
    Except String Footprint :=
  let reader := LinkerMap.Reader.ofSource bytes failure
  match reader.fold (fun ledger entry _ => ledger.charge entry) (Ledger.start catalog) with
  | (_, some message, _) => .error message
  | (ledger, none, _) => .ok (ofModules ledger.modules)

/-- The usage of a module, by name. -/
def find? (footprint : Footprint) (name : String) : Option Usage :=
  footprint.modules.find? (·.name == name)

/-- How much of a capacity is used, in percent; nothing of a capacity of zero. -/
def utilization (used capacity : Nat) : Float :=
  if capacity = 0 then 0 else Float.ofNat used / Float.ofNat capacity * 100

end Footprint

end FirmwareReport
