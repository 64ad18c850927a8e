import FirmwareReport.Catalog
import FirmwareReport.LinkerMap.Cursor
import FirmwareReport.LinkerMap.Placement

/-!
# Charging bytes to modules

A `Ledger` holds the flash and RAM totals of every module of a catalog, in catalog
order. An entry is charged to one module, to flash, RAM or both as the placement
of its section says.

The totals are 64-bit words. An entry that would push a total it counts towards
past the word limit is dropped **as a whole** – the other total keeps its value
even if it has room – and the ledger counts the drop. Everything charged stays.
-/

namespace FirmwareReport

open LinkerMap

/-- The bytes a module uses. -/
structure Usage where
  name : String
  flash : Nat
  ram : Nat
deriving DecidableEq, Repr

/-- A module with nothing charged to it. -/
def Usage.empty (name : String) : Usage := ⟨name, 0, 0⟩

/-- The usage with some bytes more, if every total they count towards has room. -/
def Usage.add? (usage : Usage) (placement : Placement) (size : Nat) : Option Usage :=
  let flash := if placement.inFlash then usage.flash + size else usage.flash
  let ram := if placement.inRam then usage.ram + size else usage.ram
  if flash < wordLimit ∧ ram < wordLimit then some { usage with flash, ram } else none

/-- The totals of the modules of a catalog. -/
structure Ledger where
  catalog : Catalog
  /-- The modules, in catalog order. -/
  modules : List Usage
  /-- How many entries found no room. -/
  overflowed : Nat

namespace Ledger

/-- A ledger with nothing charged. -/
def start (catalog : Catalog) : Ledger :=
  ⟨catalog, catalog.names.map .empty, 0⟩

/-- The position of the module with a given name; a name that is not in the catalog
stands for the catch-all. -/
def slot (ledger : Ledger) (name : String) : Nat :=
  (ledger.catalog.indexOf? name).getD (ledger.modules.length - 1)

/-- Charge an entry to the module at a position. An empty entry and one in a section
that occupies nothing change nothing. -/
def chargeAt (ledger : Ledger) (slot : Nat) (entry : Entry) : Ledger :=
  let placement := Placement.ofName entry.sectionName
  if entry.size = 0 ∨ placement = .ignored then ledger
  else match ledger.modules[slot]? with
    | none => ledger
    | some usage =>
      match usage.add? placement entry.size with
      | some usage => { ledger with modules := ledger.modules.set slot usage }
      | none => { ledger with overflowed := ledger.overflowed + 1 }

/-- Charge an entry to the module with a given name. -/
def chargeTo (ledger : Ledger) (name : String) (entry : Entry) : Ledger :=
  ledger.chargeAt (ledger.slot name) entry

/-- Charge an entry to the module its path belongs to. -/
def charge (ledger : Ledger) (entry : Entry) : Ledger :=
  ledger.chargeTo (ledger.catalog.classify entry.path) entry

end Ledger

end FirmwareReport
