import FirmwareReport.Baseline
import FirmwareReport.Catalog
import FirmwareReport.Files.Fault
import FirmwareReport.Log.Result

/-!
# The configuration of a run

Everything a run can be told apart from its files: the clock of the firmware, the
capacities of its memories, the tag of its result lines, the reference scheme, the
module categories and the baselines.

Any values make a `Config`; `Config.validate` says whether a run can work with them, and
if not, what is wrong: the first fault in a fixed order.
-/

namespace FirmwareReport

/-- The configuration of a run. -/
structure Config where
  /-- The core clock in Hz. -/
  clock : Nat
  /-- The size of the flash memory in bytes. -/
  flashCapacity : Nat
  /-- The size of the RAM in bytes. -/
  ramCapacity : Nat
  /-- The tag in front of every result line. -/
  logTag : String
  /-- What the names of the reference algorithms begin with. -/
  reference : String
  /-- The module categories, in the order in which they are tried. -/
  categories : List Category
  /-- The cycle counts to compare with. -/
  baselines : List Baseline
deriving DecidableEq, Repr

/-- The categories of the benchmark firmware. -/
def standardCategories : List Category :=
  [⟨"mbedTLS (RSA)", ["mbedtls", "RSA/Src"]⟩,
   ⟨"ML-KEM-512", ["ml-kem-512"]⟩,
   ⟨"ML-DSA-44", ["ml-dsa-44"]⟩,
   ⟨"Falcon-512", ["falcon-512"]⟩,
   ⟨"SPHINCS+", ["sphincs"]⟩,
   ⟨"STM32 HAL", ["STM32F7xx_HAL_Driver"]⟩,
   ⟨"Core & System", ["Core", "startup", "libc", "libgcc", "libnosys"]⟩,
   catchAll]

/-- The published cycle counts. -/
def standardBaselines : List Baseline :=
  [⟨"ML-KEM-512", "Keygen", 5152020⟩,
   ⟨"ML-KEM-512", "Encaps", 6264054⟩,
   ⟨"ML-DSA-44", "Keygen", 15542697⟩,
   ⟨"ML-DSA-44", "Sign", 57625468⟩]

/-- What is wrong with a configuration. -/
inductive ConfigFault
  /-- The file that should hold it cannot be read. -/
  | unreadable (path : String) (fault : FileFault)
  /-- The text that should hold it is not well-formed, or holds something else. -/
  | malformed
  /-- It has a number that its text cannot hold. -/
  | unrepresentable
  | zeroClock
  /-- A memory, by its name, has no bytes. -/
  | zeroCapacity (memory : String)
  | emptyTag
  /-- The search engine refuses its tag. The reason begins with the tag in quotes. -/
  | refusedTag (reason : String)
  | catalog (fault : CatalogFault)
deriving DecidableEq, Repr

/-- The wording of a fault. -/
def ConfigFault.message : ConfigFault → String
  | .unreadable path fault => "Failed to read config file " ++ path ++ ": " ++ fault.message
  | .malformed => "Failed to parse config file"
  | .unrepresentable => "Failed to serialize config"
  | .zeroClock => "Clock frequency must be non-zero"
  | .zeroCapacity memory => memory ++ " capacity must be non-zero"
  | .emptyTag => "Log tag must not be empty"
  | .refusedTag reason => "Invalid log tag " ++ reason
  | .catalog fault => fault.message

namespace Config

/-- The configuration for the benchmark firmware and its board. -/
def standard : Config where
  clock := 216000000
  flashCapacity := 2048 * 1024
  ramCapacity := 512 * 1024
  logTag := "UART >>"
  reference := "RSA"
  categories := standardCategories
  baselines := standardBaselines

/-- The tag of the result lines. That a search engine may refuse it is a matter of the run
(`Host.tagRefusal?`), not of the configuration. -/
def tag (config : Config) : Except ConfigFault Log.Tag :=
  match Log.Tag.ofString? config.logTag with
  | some tag => .ok tag
  | none => .error .emptyTag

/-- The module catalog. -/
def catalog (config : Config) : Except ConfigFault Catalog :=
  match Catalog.ofCategories config.categories with
  | .ok catalog => .ok catalog
  | .error fault => .error (.catalog fault)

/-- What is wrong with a configuration apart from its categories. -/
def valueFault? (config : Config) : Option ConfigFault :=
  if config.clock = 0 then some .zeroClock
  else if config.flashCapacity = 0 then some (.zeroCapacity "Flash")
  else if config.ramCapacity = 0 then some (.zeroCapacity "RAM")
  else match config.tag with
    | .ok _ => none
    | .error fault => some fault

/-- **Whether a run can work with a configuration.** The categories are looked at last. -/
def validate (config : Config) : Except ConfigFault Unit :=
  match config.valueFault? with
  | some fault => .error fault
  | none =>
    match config.catalog with
    | .ok _ => .ok ()
    | .error fault => .error fault

/-- The categories that `validate` finds to be idle, by name: none if it does not get to
the categories. -/
def idleNames (config : Config) : List String :=
  if config.valueFault?.isSome then [] else FirmwareReport.idleNames config.categories

end Config

end FirmwareReport
