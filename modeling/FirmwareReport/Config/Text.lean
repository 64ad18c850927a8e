import FirmwareReport.Config
import FirmwareReport.Toml.Document

/-!
# Configurations as text

A configuration is kept as a TOML document. Reading it starts from the standard
configuration: a name the document gives replaces the standard value, and a list
replaces the whole standard list. `Config.parse` reads such a document and validates
what it read; `Config.render?` writes one that gives every name. Numbers in a document
are signed words, so a configuration with a larger one has no text.

Names a configuration does not have are refused; in the tables of a list they are passed
over. Such a table may also be given as an array of its values, in their order.
-/

namespace FirmwareReport

open Toml

/-! ### Reading -/

namespace Toml.Item

/-- A whole number that is not negative. -/
def natural? : Item → Option Nat
  | .scalar (.integer (.ofNat n)) => some n
  | _ => none

/-- A string. -/
def text? : Item → Option String
  | .text value => some value
  | _ => none

/-- A list of strings. -/
def texts? : Item → Option (List String)
  | .array items => items.mapM text?
  | _ => none

/-- A list whose elements are tables, or arrays that hold the values of a table. -/
def elements? {α : Type} (ofEntries? : Entries → Option α) (ofItems? : List Item → Option α) :
    Item → Option (List α)
  | .tables elements => elements.mapM ofEntries?
  | .array items => items.mapM fun
    | .table _ entries => ofEntries? entries
    | .array items => ofItems? items
    | _ => none
  | _ => none

end Toml.Item

/-- The value of a name, read in one way; the given value if the name is missing. -/
def Toml.Entries.getD? {α : Type} (entries : Entries) (name : String) (read? : Item → Option α)
    (missing : α) : Option α :=
  match entries.find? name with
  | some item => read? item
  | none => some missing

namespace Category

/-- A category as a table; patterns may be missing. -/
def ofEntries? (entries : Entries) : Option Category := do
  let name ← (← entries.find? "name").text?
  let patterns ← entries.getD? "patterns" Item.texts? []
  return ⟨name, patterns⟩

/-- A category as an array; patterns may be missing, and what follows them is passed over. -/
def ofItems? : List Item → Option Category
  | [] => none
  | [name] => do return ⟨← name.text?, []⟩
  | name :: patterns :: _ => do return ⟨← name.text?, ← patterns.texts?⟩

end Category

namespace Baseline

/-- A baseline as a table. -/
def ofEntries? (entries : Entries) : Option Baseline := do
  let algorithm ← (← entries.find? "algorithm").text?
  let operation ← (← entries.find? "operation").text?
  let cycles ← (← entries.find? "cycles").natural?
  return ⟨algorithm, operation, cycles⟩

/-- A baseline as an array; what follows the cycles is passed over. -/
def ofItems? : List Item → Option Baseline
  | algorithm :: operation :: cycles :: _ => do
    return ⟨← algorithm.text?, ← operation.text?, ← cycles.natural?⟩
  | _ => none

end Baseline

namespace Config

/-- The names of a configuration. -/
def fieldNames : List String :=
  ["clock_hz", "flash_capacity_bytes", "ram_capacity_bytes", "log_tag", "reference_prefix",
   "categories", "baselines"]

/-- A configuration as a table. -/
def ofEntries? (entries : Entries) : Option Config := do
  let clock ← entries.getD? "clock_hz" Item.natural? standard.clock
  let flashCapacity ← entries.getD? "flash_capacity_bytes" Item.natural? standard.flashCapacity
  let ramCapacity ← entries.getD? "ram_capacity_bytes" Item.natural? standard.ramCapacity
  let logTag ← entries.getD? "log_tag" Item.text? standard.logTag
  let reference ← entries.getD? "reference_prefix" Item.text? standard.reference
  let categories ← entries.getD? "categories"
    (Item.elements? Category.ofEntries? Category.ofItems?) standard.categories
  let baselines ← entries.getD? "baselines"
    (Item.elements? Baseline.ofEntries? Baseline.ofItems?) standard.baselines
  if entries.all fun entry => fieldNames.contains entry.1 then
    return { clock, flashCapacity, ramCapacity, logTag, reference, categories, baselines }
  else none

/-- The configuration that a text holds, whether a run can work with it or not. -/
def read? (text : String) : Option Config := do
  let document ← Document.read? text.toList
  ofEntries? (← document.entries?)

/-- **The configuration that a text holds**, if a run can work with it. -/
def parse (text : String) : Except ConfigFault Config :=
  match read? text with
  | none => .error .malformed
  | some config =>
    match config.validate with
    | .ok () => .ok config
    | .error fault => .error fault

/-- The categories that `parse` finds to be idle, by name. -/
def idleNamesOfText (text : String) : List String :=
  match read? text with
  | none => []
  | some config => config.idleNames

/-! ### Writing -/

/-- A name with its value, on a line. -/
def line (name : String) (value : List Char) : List Char :=
  name.toList ++ [' ', '=', ' '] ++ value ++ ['\n']

/-- A string in quotes. -/
def quoted (s : String) : List Char :=
  Toml.quote s.toList

/-- A list of strings: on one line if there is at most one, else each on its own. -/
def quotedList : List String → List Char
  | [] => ['[', ']']
  | [s] => ['['] ++ quoted s ++ [']']
  | list =>
    ['[', '\n'] ++ list.flatMap (fun s => [' ', ' ', ' ', ' '] ++ quoted s ++ [',', '\n']) ++ [']']

/-- The header of an element of a list, behind an empty line. -/
def elementHeader (name : String) : List Char :=
  ['\n', '[', '['] ++ name.toList ++ [']', ']', '\n']

/-- A category as an element of the list of categories. -/
def categoryLines (category : Category) : List Char :=
  elementHeader "categories" ++ line "name" (quoted category.name) ++
    line "patterns" (quotedList category.patterns)

/-- A baseline as an element of the list of baselines. -/
def baselineLines (baseline : Baseline) : List Char :=
  elementHeader "baselines" ++ line "algorithm" (quoted baseline.algorithm) ++
    line "operation" (quoted baseline.operation) ++
    line "cycles" (Nat.toDigits 10 baseline.cycles)

/-- The line for a list without elements, which has no headers to show it. -/
def emptyListLine {α : Type} (name : String) (list : List α) : List Char :=
  if list.isEmpty then line name ['[', ']'] else []

/-- Whether a document can hold the numbers of a configuration. -/
def isRepresentable (config : Config) : Bool :=
  config.clock < signedLimit && config.flashCapacity < signedLimit &&
    config.ramCapacity < signedLimit && config.baselines.all (·.cycles < signedLimit)

/-- The lines of a configuration. -/
def render (config : Config) : List Char :=
  line "clock_hz" (Nat.toDigits 10 config.clock) ++
  line "flash_capacity_bytes" (Nat.toDigits 10 config.flashCapacity) ++
  line "ram_capacity_bytes" (Nat.toDigits 10 config.ramCapacity) ++
  line "log_tag" (quoted config.logTag) ++
  line "reference_prefix" (quoted config.reference) ++
  emptyListLine "categories" config.categories ++
  emptyListLine "baselines" config.baselines ++
  config.categories.flatMap categoryLines ++
  config.baselines.flatMap baselineLines

/-- **The text of a configuration**, if a document can hold its numbers. -/
def render? (config : Config) : Except ConfigFault String :=
  if config.isRepresentable then .ok (String.ofList config.render) else .error .unrepresentable

end Config

end FirmwareReport
