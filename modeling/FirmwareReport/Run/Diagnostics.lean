import FirmwareReport.Run.Program
import FirmwareReport.Text.ControlSequence
import FirmwareReport.Text.Search

/-!
# What a run says beside its output

Warnings and the error that ended a run go to a stream of their own. A warning is a line
that begins with `warning: `; what its text has behind a line feed is indented. Names of
files and of categories stand in that text, so control sequences are taken out of it, and
a name cannot take hold of the terminal. The error comes last, as it is.

A control sequence that does not end takes along the rest of its warning, the line feed
included; what comes next then stands in the same line.

`Diagnostics.ofText` is the other side: what a reader who goes by lines finds in the
stream.
-/

namespace FirmwareReport

/-- What a line with a warning begins with. -/
def warningHead : String := "warning: "

/-- What a line with an error begins with. -/
def errorHead : String := "error: "

/-- A text with everything behind a line feed indented. -/
def indentLines (s : List Char) : List Char :=
  s.flatMap fun c => if c = '\n' then "\n    ".toList else [c]

/-- A warning as it goes to the stream. -/
def Warning.report (warning : Warning) : String :=
  String.ofList (Text.withoutControls
    (warningHead.toList ++ indentLines warning.message.toList ++ ['\n']))

/-- How to call the program. -/
def usageText : String :=
  "usage: fwscope LOG [MAP] [-r FILE | --markdown] [-c FILE] [--json FILE]\n" ++
  "               [--clock-hz HZ] [--tag TAG] [--dump-config] [-q] [-V]\n"

/-- What goes to the stream at the end of a run. -/
def Ending.report : Ending → String
  | .success => ""
  | .usage => usageText
  | .failure cause => errorHead ++ cause.report ++ "\n"

/-- All that goes to the stream in a run. -/
def diagnosticText (warnings : List Warning) (ending : Ending) : String :=
  warnings.foldr (fun warning rest => warning.report ++ rest) ending.report

/-! ### Reading the stream -/

/-- The lines of a text without their ends, a line feed or a return and a line feed. -/
def textLines : List Char → List (List Char)
  | [] => []
  | '\n' :: s => [] :: textLines s
  | '\r' :: '\n' :: s => [] :: textLines s
  | c :: s =>
    match textLines s with
    | [] => [[c]]
    | line :: lines => (c :: line) :: lines

/-- What stands in the stream, line by line. -/
structure Diagnostics where
  /-- The first lines of the warnings. -/
  warnings : List String
  /-- The first line of the error. -/
  error : Option String
deriving DecidableEq, Repr

/-- What a reader who goes by lines finds in the stream. Nothing but the rest of the
error comes behind its first line. -/
def Diagnostics.ofText (text : String) : Diagnostics :=
  let lines := textLines text.toList
  { warnings := (lines.takeWhile fun line => (Text.after? errorHead.toList line).isNone).filterMap
      fun line => (Text.after? warningHead.toList line).map String.ofList
    error := (lines.findSome? (Text.after? errorHead.toList)).map String.ofList }

end FirmwareReport
