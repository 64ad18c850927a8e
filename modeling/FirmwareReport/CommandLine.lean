import FirmwareReport.Number.Numeral

/-!
# The command line

    fwscope LOG [MAP] [-r FILE | --markdown] [-c FILE] [--json FILE]
            [--clock-hz HZ] [--tag TAG] [--dump-config] [-q] [-V]

Words are read from the left. An option may stand anywhere, a value stands in the next word or
behind an equals sign, and short options may share a word, a value filling the rest of
it. `--` makes all words behind it operands. Anything else is a usage error, and so is
an option given twice, an empty path, a number out of range, a value in a word of its own
that looks like an option, a third operand, and two places for the tables.

The options of a run are those of `Arguments`; what a run prints or writes its tables
to is one of the three `View`s.
-/

namespace FirmwareReport

/-- Where the tables of a run go. -/
inductive View
  /-- To the terminal, in columns. -/
  | console
  /-- To the terminal, in Markdown. -/
  | markdown
  /-- Into the sections of a report. -/
  | report (path : String)
deriving DecidableEq, Repr

/-- What a run is asked to do. -/
inductive Task
  /-- Show the configuration. -/
  | dumpConfig
  /-- Make tables of a log and perhaps a map, and perhaps a dataset. -/
  | tabulate (log : String) (map : Option String) (view : View) (dataset : Option String)
deriving DecidableEq, Repr

/-- The options of a run. -/
structure Arguments where
  config : Option String
  clock : Option Nat
  tag : Option String
  quiet : Bool
  task : Task
deriving DecidableEq, Repr

/-- What a command line asks for. -/
inductive Command
  /-- The name and version of the program. -/
  | version
  | run (arguments : Arguments)
deriving DecidableEq, Repr

/-! ### Options -/

/-- The options with a value. -/
inductive ValueOption
  | report
  | config
  | dataset
  | clock
  | tag
deriving DecidableEq, Repr

/-- The options without one. -/
inductive Flag
  | markdown
  | dumpConfig
  | quiet
  | version
deriving DecidableEq, Repr

/-- An option. -/
inductive AnyOption
  | value (option : ValueOption)
  | flag (flag : Flag)
deriving DecidableEq, Repr

/-- The option of a long name. -/
def AnyOption.ofLong? (name : List Char) : Option AnyOption :=
  [("report", value .report), ("config", value .config), ("json", value .dataset),
   ("clock-hz", value .clock), ("tag", value .tag), ("markdown", flag .markdown),
   ("dump-config", flag .dumpConfig), ("quiet", flag .quiet),
   ("version", flag .version)].lookup (String.ofList name)

/-- The option of a letter. -/
def AnyOption.ofShort? (letter : Char) : Option AnyOption :=
  [('r', value .report), ('c', value .config), ('q', flag .quiet),
   ('V', flag .version)].lookup letter

/-! ### What has been read -/

/-- The options and operands read so far. -/
structure Gathered where
  operands : List String
  report : Option String
  config : Option String
  dataset : Option String
  clock : Option Nat
  tag : Option String
  markdown : Bool
  dumpConfig : Bool
  quiet : Bool

namespace Gathered

/-- Nothing read yet. -/
def none : Gathered :=
  { operands := [], report := .none, config := .none, dataset := .none, clock := .none,
    tag := .none, markdown := false, dumpConfig := false, quiet := false }

/-- A path, which may not be empty. -/
def path? (s : String) : Option String :=
  if s.isEmpty then .none else some s

/-- A value that no value was given for before. -/
def once? {α : Type} (before : Option α) (value : Option α) : Option (Option α) :=
  if before.isSome then .none else value.map some

/-- One more operand: a path, and not the third. -/
def operand? (g : Gathered) (word : String) : Option Gathered := do
  let path ← path? word
  if g.operands.length < 2 then some { g with operands := g.operands ++ [path] } else .none

/-- One more option with its value. -/
def value? (g : Gathered) (option : ValueOption) (value : String) : Option Gathered :=
  match option with
  | .report => (once? g.report (path? value)).map fun report => { g with report }
  | .config => (once? g.config (path? value)).map fun config => { g with config }
  | .dataset => (once? g.dataset (path? value)).map fun dataset => { g with dataset }
  | .clock => (once? g.clock (unsigned? 10 value.toList)).map fun clock => { g with clock }
  | .tag => (once? g.tag (some value)).map fun tag => { g with tag }

/-- One more flag that does not end the reading. -/
def flag? (g : Gathered) (flag : Flag) : Option Gathered :=
  match flag with
  | .markdown => if g.markdown then .none else some { g with markdown := true }
  | .dumpConfig => if g.dumpConfig then .none else some { g with dumpConfig := true }
  | .quiet => if g.quiet then .none else some { g with quiet := true }
  | .version => .none

/-- The task, if the options go together and the log is named where one is needed. -/
def task? (g : Gathered) : Option Task :=
  match g.markdown, g.report with
  | true, some _ => .none
  | markdown, report =>
    if g.dumpConfig then some .dumpConfig
    else
      let view := match report with
        | some path => .report path
        | .none => if markdown then .markdown else .console
      match g.operands with
      | [] => .none
      | log :: operands => some (.tabulate log operands.head? view g.dataset)

/-- The command at the end of the line. -/
def command? (g : Gathered) : Option Command := do
  let task ← g.task?
  return .run { config := g.config, clock := g.clock, tag := g.tag, quiet := g.quiet, task }

end Gathered

/-! ### Reading words -/

/-- A word as the value of the option in front of it, unless it looks like an option. -/
def separateValue? (word : String) : Option String :=
  match word.toList with
  | ['-'] => some word
  | '-' :: _ => none
  | _ => some word

/-- How far the reading of a word has come. -/
inductive Progress
  /-- The word is read. -/
  | on (gathered : Gathered)
  /-- The value of an option is in the next word. -/
  | wants (gathered : Gathered) (option : ValueOption)
  /-- The version was asked for, and nothing else matters. -/
  | version

/-- Read the letters of a word of short options. -/
def shortOptions? (g : Gathered) : List Char → Option Progress
  | [] => some (.on g)
  | letter :: rest =>
    match AnyOption.ofShort? letter with
    | none => none
    | some (.flag .version) => some .version
    | some (.flag flag) =>
      match g.flag? flag with
      | some g => shortOptions? g rest
      | none => none
    | some (.value option) =>
      match rest with
      | [] => some (.wants g option)
      | '=' :: value => (g.value? option (String.ofList value)).map .on
      | value => (g.value? option (String.ofList value)).map .on

/-- Read a long option behind its two dashes. -/
def longOption? (g : Gathered) (word : List Char) : Option Progress :=
  let name := word.takeWhile (· != '=')
  let attached := match word.dropWhile (· != '=') with
    | '=' :: value => some (String.ofList value)
    | _ => none
  match AnyOption.ofLong? name, attached with
  | some (.flag .version), none => some .version
  | some (.flag flag), none => (g.flag? flag).map .on
  | some (.value option), some value => (g.value? option value).map .on
  | some (.value option), none => some (.wants g option)
  | _, _ => none

/-- Read a word that is not the value of an option. -/
def readWord? (g : Gathered) (word : String) : Option Progress :=
  match word.toList with
  | '-' :: '-' :: rest => longOption? g rest
  | '-' :: letter :: letters => shortOptions? g (letter :: letters)
  | _ => (g.operand? word).map .on

/-- Read words with what has been read before; `wanted` is the option whose value comes
next. -/
def words? (g : Gathered) (wanted : Option ValueOption) : List String → Option Command
  | [] =>
    match wanted with
    | some _ => none
    | none => g.command?
  | word :: words =>
    match wanted with
    | some option =>
      match (separateValue? word).bind (g.value? option) with
      | some g => words? g none words
      | none => none
    | none =>
      if word = "--" then (words.foldlM Gathered.operand? g).bind Gathered.command?
      else match readWord? g word with
        | some (.on g) => words? g none words
        | some (.wants g option) => words? g (some option) words
        | some .version => some .version
        | none => none

/-- **What a command line asks for**; none for a usage error. -/
def Command.parse? (words : List String) : Option Command :=
  words? .none none words

end FirmwareReport
