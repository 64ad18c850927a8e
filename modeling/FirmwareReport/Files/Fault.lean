/-!
# What can be wrong with a file

Reading or creating a file fails for one of a few reasons. The wording is that of the
operating system, with its error number where it has one.
-/

namespace FirmwareReport

/-- Why a file cannot be read or created. -/
inductive FileFault
  /-- There is nothing of that name. -/
  | notFound
  /-- There is a directory of that name. -/
  | isDirectory
  /-- A name on the way is not that of a directory. -/
  | notDirectory
  /-- A name, or the path as a whole, is too long. -/
  | nameTooLong
  /-- The path has a zero character in it. -/
  | zeroInPath
  /-- A text file is not well-formed UTF-8. -/
  | notText
  /-- Anything else, in the words of the system. -/
  | other (message : String)
deriving DecidableEq, Repr

/-- The wording of a fault. -/
def FileFault.message : FileFault → String
  | .notFound => "No such file or directory (os error 2)"
  | .isDirectory => "Is a directory (os error 21)"
  | .notDirectory => "Not a directory (os error 20)"
  | .nameTooLong => "File name too long (os error 36)"
  | .zeroInPath => "file name contained an unexpected NUL byte"
  | .notText => "stream did not contain valid UTF-8"
  | .other message => message

end FirmwareReport
