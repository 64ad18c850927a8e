/-!
# Where a section's bytes live

A section occupies flash, RAM, both or neither, and its name alone decides:

| name | flash | RAM |
|---|---|---|
| `.text…`, `.rodata…`, exactly `.isr_vector` | yes | no |
| `.data…` | yes, as the image to copy from | yes |
| `.bss…` | no | yes |
| any other | no | no |
-/

namespace FirmwareReport.LinkerMap

/-- How a section counts towards the footprint. -/
inductive Placement
  /-- Program code and constants, in flash. -/
  | code
  /-- Initialised variables, in RAM with their first values in flash. -/
  | initData
  /-- Variables that start at zero, in RAM. -/
  | zeroData
  /-- Debug information and the like, in neither. -/
  | ignored
deriving DecidableEq, Repr

namespace Placement

/-- The placement of a section, by its name. -/
def ofName (name : String) : Placement :=
  let starts (stem : String) := stem.toList.isPrefixOf name.toList
  if starts ".text" || starts ".rodata" || name == ".isr_vector" then .code
  else if starts ".data" then .initData
  else if starts ".bss" then .zeroData
  else .ignored

/-- Whether the bytes occupy flash. -/
def inFlash : Placement → Bool
  | .code | .initData => true
  | .zeroData | .ignored => false

/-- Whether the bytes occupy RAM. -/
def inRam : Placement → Bool
  | .initData | .zeroData => true
  | .code | .ignored => false

example : ofName ".rodata.zetas" = .code ∧ ofName ".isr_vector_table" = .ignored := by
  decide +kernel

end Placement

end FirmwareReport.LinkerMap
