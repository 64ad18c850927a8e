import FirmwareReport.Run.Diagnostics

/-!
# The program

The command line program: a run over the files of the system. Warnings and errors go to
the standard error stream.
-/

namespace FirmwareReport

/-- The number and the words of an error of the system, if it has them. Some errors come
with their number negated, as a word of 32 bits. -/
def systemError? : IO.Error → Option (Nat × String)
  | .alreadyExists _ code words | .invalidArgument _ code words
  | .permissionDenied _ code words | .resourceExhausted _ code words
  | .inappropriateType _ code words | .noSuchThing _ code words
  | .noFileOrDirectory _ code words | .interrupted _ code words
  | .otherError code words | .resourceBusy code words | .resourceVanished code words
  | .unsupportedOperation code words | .hardwareFault code words
  | .unsatisfiedConstraints code words | .illegalOperation code words
  | .protocolError code words | .timeExpired code words =>
    let number := code.toNat
    some (if number < 0x80000000 then number else 0x100000000 - number, words)
  | .unexpectedEof | .userError _ => none

/-- The fault behind an error of the system. -/
def FileFault.ofError (error : IO.Error) : FileFault :=
  match systemError? error with
  | some (2, _) => .notFound
  | some (20, _) => .notDirectory
  | some (21, _) => .isDirectory
  | some (36, _) => .nameTooLong
  | some (code, words) => .other (words ++ " (os error " ++ decimal code ++ ")")
  | none => .other (toString error)

/-- Whether an action on a file succeeded, and if not, why. -/
def attempt {α : Type} (action : IO α) : IO (Except FileFault α) := do
  match ← action.toBaseIO with
  | .ok value => return .ok value
  | .error error => return .error (.ofError error)

instance : Host IO where
  readFile path := attempt do
    let contents ← IO.FS.readBinFile path
    return contents.toList
  writeFile path contents := attempt (IO.FS.writeBinFile path contents.toByteArray)
  tagRefusal? _ := pure none
  print text := do (← IO.getStdout).putStr text
  warn warning := IO.eprint warning.report

end FirmwareReport

/-- Run the program, say what went wrong, and hand back the exit code. -/
def main (words : List String) : IO UInt32 := do
  let ending ← FirmwareReport.runProgram words
  IO.eprint ending.report
  return ending.exitCode.toUInt32
