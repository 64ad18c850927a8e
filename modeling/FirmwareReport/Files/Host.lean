import FirmwareReport.Warning

/-!
# What a run needs from its surroundings

A run reads files, creates files, prints and warns, and it has a log searched by an engine
that may refuse the tag; nothing else. `Host` is the interface to whatever does that: a system
with real files, or a `Session` over a store of files that is a value.
-/

namespace FirmwareReport

/-- The surroundings of a run. -/
class Host (m : Type → Type) where
  /-- The contents of a file. -/
  readFile (path : String) : m (Except FileFault (List UInt8))
  /-- Put contents into a file, in place of those it has; it need not exist. -/
  writeFile (path : String) (contents : List UInt8) : m (Except FileFault Unit)
  /-- Why logs cannot be searched for a tag, if they cannot: the tag in quotes, and what the
  search engine has against it. -/
  tagRefusal? (tag : String) : m (Option String)
  /-- Print a text as it is. -/
  print (text : String) : m Unit
  /-- Give a warning. -/
  warn (warning : Warning) : m Unit

end FirmwareReport
