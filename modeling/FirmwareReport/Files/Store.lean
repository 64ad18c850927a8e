import FirmwareReport.Files.Host

/-!
# A store of files

A store is a tree of directories and files around a working directory, kept as a list of
its nodes with their places. A path is followed name by name, from the working directory
or, if it begins with a slash, from the root; every name but the last has to be that of a
directory; `.` and `..` are the directory itself and the one above it.

Of what lies outside the working directory, a store knows at first the directories above
it and a few that every system has (`systemNodes`). How deep the working directory lies
is not known, so the root is not one of those above it.

A path that ends in a slash asks for a directory.
-/

namespace FirmwareReport

/-- What stands at a place. -/
inductive Node
  | file (contents : List UInt8)
  | directory
  /-- A device that is empty and keeps nothing of what is written. -/
  | sink
deriving DecidableEq, Repr

/-- Where the way to a place begins. -/
inductive Origin
  /-- In the directory so many levels above the working directory. -/
  | above (levels : Nat)
  /-- In the root of all directories. -/
  | root
deriving DecidableEq, Repr

/-- The way to a node: a directory, and the names that lead on from there. -/
structure Place where
  origin : Origin
  names : List String
deriving DecidableEq, Repr

namespace Place

/-- The working directory. -/
def here : Place := ⟨.above 0, []⟩

/-- The place of a name in a directory. -/
def child (place : Place) (name : String) : Place :=
  { place with names := place.names ++ [name] }

/-- The directory above a place; the root is above itself. -/
def parent (place : Place) : Place :=
  if place.names.isEmpty then
    match place.origin with
    | .above levels => ⟨.above (levels + 1), []⟩
    | .root => place
  else { place with names := place.names.dropLast }

end Place

/-- Files and directories with their places. -/
structure Store where
  nodes : List (Place × Node)

namespace Store

/-- No files. -/
def empty : Store := ⟨[]⟩

/-- What every system has. -/
def systemNodes : List (Place × Node) :=
  [(⟨.root, ["dev"]⟩, .directory), (⟨.root, ["dev", "null"]⟩, .sink),
   (⟨.root, ["etc"]⟩, .directory), (⟨.root, ["tmp"]⟩, .directory),
   (⟨.root, ["usr"]⟩, .directory)]

/-- What stands at a place, if anything does. The places that ways begin in are
directories. -/
def at? (store : Store) (place : Place) : Option Node :=
  if place.names.isEmpty then some .directory
  else store.nodes.lookup place <|> systemNodes.lookup place

/-- The store with a node put at a place. -/
def put (store : Store) (place : Place) (node : Node) : Store :=
  if store.nodes.any (·.1 == place) then
    ⟨store.nodes.map fun other => if other.1 = place then (place, node) else other⟩
  else ⟨store.nodes ++ [(place, node)]⟩

/-! ### Following a path -/

/-- The parts of a path between its slashes, empty ones left out. -/
def parts (path : String) : List String :=
  (path.toList.splitBy fun a b => a != '/' && b != '/').filterMap fun part =>
    if part = ['/'] then none else some (String.ofList part)

/-- Where a path begins. -/
def start (path : String) : Place :=
  if path.toList.head? = some '/' then ⟨.root, []⟩ else .here

/-- The longest name, in bytes. -/
def nameLimit : Nat := 255

/-- The longest path, in bytes. -/
def pathLimit : Nat := 4095

/-- Follow names from a place to the place they lead to. Every place that a name is
looked up in has to be a directory; the last place need not exist. -/
def follow (store : Store) (place : Place) : List String → Except FileFault Place
  | [] => .ok place
  | name :: names =>
    match store.at? place with
    | none => .error .notFound
    | some .directory =>
      if name = "." then store.follow place names
      else if name = ".." then store.follow place.parent names
      else if nameLimit < name.utf8ByteSize then .error .nameTooLong
      else store.follow (place.child name) names
    | some _ => .error .notDirectory

/-- Follow names from where a path begins, if the path can be one. -/
def locate (store : Store) (path : String) (names : List String) : Except FileFault Place :=
  if path.toList.contains '\x00' then .error .zeroInPath
  else if path.isEmpty then .error .notFound
  else if pathLimit < path.utf8ByteSize then .error .nameTooLong
  else store.follow (start path) names

/-- Whether a path ends in a slash. -/
def endsInSlash (path : String) : Bool :=
  path.toList.getLast? = some '/'

/-! ### Reading and writing -/

/-- The contents of a file. -/
def read (store : Store) (path : String) : Except FileFault (List UInt8) := do
  let node := store.at? (← store.locate path (parts path))
  let contents ← match node with
    | none => .error .notFound
    | some .directory => .error .isDirectory
    | some .sink => .ok []
    | some (.file contents) => .ok contents
  if endsInSlash path then .error .notDirectory else .ok contents

/-- The store with contents put into a file. A new file needs a directory to stand in.
What a path that ends in a slash leads to is not looked at, only the way there. -/
def write (store : Store) (path : String) (contents : List UInt8) : Except FileFault Store := do
  if endsInSlash path then
    let _ ← store.locate path ((parts path).dropLast ++ ["."])
    .error .isDirectory
  else
    let place ← store.locate path (parts path)
    match store.at? place with
    | some .directory => .error .isDirectory
    | some .sink => .ok store
    | _ => .ok (store.put place (.file contents))

/-! ### Filling a store -/

/-- Go along names from a place and make a directory wherever nothing stands yet: the
store with these directories, and the place the names lead to. -/
def enter (store : Store) (place : Place) : List String → Store × Place
  | [] => (store, place)
  | name :: names =>
    if name = "." then store.enter place names
    else if name = ".." then store.enter place.parent names
    else
      let inner := place.child name
      let store := if (store.at? inner).isSome then store else store.put inner .directory
      store.enter inner names

/-- The store with a directory at a path, and the directories on the way to it. -/
def addDirectory (store : Store) (path : String) : Store :=
  (store.enter (start path) (parts path)).1

/-- The store with a file at a path, and the directories on the way to it. -/
def addFile (store : Store) (path : String) (contents : List UInt8) : Store :=
  match (parts path).getLast? with
  | none => store
  | some name =>
    let (store, place) := store.enter (start path) (parts path).dropLast
    store.put (place.child name) (.file contents)

/-- The files below the working directory that another store does not have, or has with
other contents. -/
def changedSince (store before : Store) : List (String × List UInt8) :=
  store.nodes.filterMap fun
    | (place, .file contents) =>
      if place.origin ≠ .above 0 || before.at? place = some (.file contents) then none
      else some ("/".intercalate place.names, contents)
    | _ => none

end Store

/-! ### Sessions -/

/-- A store, and what has been printed and warned of so far. -/
structure Session where
  store : Store
  /-- The printed texts, in order. -/
  output : List String
  warnings : List Warning

/-- A session at its start. -/
def Session.start (store : Store) : Session := ⟨store, [], []⟩

/-- Everything printed, as one text. -/
def Session.printed (session : Session) : String :=
  session.output.foldl (· ++ ·) ""

/-- Actions on a session. -/
abbrev SessionM := StateM Session

instance : Host SessionM where
  readFile path := fun session => (session.store.read path, session)
  writeFile path contents := fun session =>
    match session.store.write path contents with
    | .ok store => (.ok (), { session with store })
    | .error fault => (.error fault, session)
  tagRefusal? _ := pure none
  print text := fun session => ((), { session with output := session.output ++ [text] })
  warn warning := fun session =>
    ((), { session with warnings := session.warnings ++ [warning] })

end FirmwareReport
