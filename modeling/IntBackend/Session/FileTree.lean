/-
# IntBackend.Session.FileTree — files and directories

A tree maps locations to entries. A path is followed name by name from the
working directory, or from the root: every name but the last has to be that of a
directory. Names and paths have a greatest length, and none holds a NUL.
`/dev/full` is a device that can be opened and has room for nothing.
-/
import IntBackend.Session.Path

namespace IntBackend

set_option autoImplicit false

inductive IoFault where
  | notFound
  | notDirectory
  | isDirectory
  | noSpace
  | nameTooLong
  /-- A path with a NUL in it; the system is not asked. -/
  | nulInName
  | notText
  /-- Any other fault, in the words of the system. -/
  | other (text : String)
  deriving DecidableEq, Repr

def IoFault.message : IoFault → String
  | .notFound => "No such file or directory (os error 2)"
  | .notDirectory => "Not a directory (os error 20)"
  | .isDirectory => "Is a directory (os error 21)"
  | .noSpace => "No space left on device (os error 28)"
  | .nameTooLong => "File name too long (os error 36)"
  | .nulInName => "file name contained an unexpected NUL byte"
  | .notText => "stream did not contain valid UTF-8"
  | .other text => text

/-- The names from the root to an entry. -/
abbrev Location := List String

/-- Contents are compared byte by byte, by this instance whatever else is in scope. -/
instance decidableEqContent : DecidableEq ByteArray := ByteArray.instDecidableEq

inductive Entry where
  | directory
  | file (content : ByteArray)
  | fullDevice
  deriving DecidableEq

structure FileTree where
  entries : List (Location × Entry)
  cwd : Location

namespace FileTree

/-- The root, an empty working directory and the full device. -/
def fresh : FileTree where
  entries := [([], .directory), (["dev"], .directory), (["dev", "full"], .fullDevice),
    (["work"], .directory)]
  cwd := ["work"]

def entry? (tree : FileTree) (location : Location) : Option Entry := tree.entries.lookup location

def put (tree : FileTree) (location : Location) (entry : Entry) : FileTree :=
  { tree with entries := (location, entry) :: tree.entries.filter fun e => e.1 ≠ location }

/-- The most bytes that a name has. -/
def longestName : Nat := 255

/-- The most bytes that a path has. -/
def longestPath : Nat := 4095

/-- Refuses a path that means nothing in any tree. -/
def checkPath (path : String) : Except IoFault Unit :=
  if '\x00' ∈ path.toList then .error .nulInName
  else if longestPath < path.utf8ByteSize then .error .nameTooLong
  else .ok ()

/-- Follows names from a location. The end need not exist, but all before it is
a directory. -/
def walk (tree : FileTree) : Location → List String → Except IoFault Location
  | location, [] => .ok location
  | location, name :: names =>
      match tree.entry? location with
      | none => .error .notFound
      | some .directory =>
          if Path.isBlank name then tree.walk location names
          else if name = ".." then tree.walk location.dropLast names
          else if longestName < name.utf8ByteSize then .error .nameTooLong
          else tree.walk (location ++ [name]) names
      | some _ => .error .notDirectory

def start (tree : FileTree) (path : String) : Location :=
  if path.startsWith "/" then [] else tree.cwd

def locate (tree : FileTree) (path : String) : Except IoFault Location := do
  checkPath path
  tree.walk (tree.start path) (Path.names path)

def read (tree : FileTree) (path : String) : Except IoFault ByteArray := do
  match tree.entry? (← tree.locate path) with
  | none => .error .notFound
  | some .directory => .error .isDirectory
  | some (.file content) => .ok content
  | some .fullDevice => .ok .empty

/-- Where a file of that path can be created or emptied. A path that ends in a
slash names a directory, whatever its last name is, once the way there is one. -/
def creatable (tree : FileTree) (path : String) : Except IoFault Location := do
  checkPath path
  let names := Path.names path
  let plain := (names.reverse.dropWhile (· == "")).reverse
  if plain.length < names.length then
    let _ ← tree.walk (tree.start path) (plain.dropLast ++ ["."])
    .error .isDirectory
  else
    let location ← tree.walk (tree.start path) plain
    match tree.entry? location with
    | some .directory => .error .isDirectory
    | _ => .ok location

/-- Puts content at a path; a device keeps none. -/
def store (tree : FileTree) (path : String) (content : ByteArray) : FileTree :=
  match tree.creatable path with
  | .error _ => tree
  | .ok location =>
      match tree.entry? location with
      | some .fullDevice => tree
      | _ => tree.put location (.file content)

/-- A device without room refuses every byte. -/
def writable (tree : FileTree) (path : String) : Except IoFault Unit := do
  match tree.entry? (← tree.creatable path) with
  | some .fullDevice => .error .noSpace
  | _ => .ok ()

/-- Makes a directory where there is nothing yet. -/
def makeDirectory (tree : FileTree) (location : Location) : FileTree :=
  match tree.entry? location with
  | none => tree.put location .directory
  | some _ => tree

/-- Follows names from a location and makes the directories that are missing on
the way, those that a later `..` leaves again included. -/
def makeDirectories (tree : FileTree) : Location → List String → FileTree
  | _, [] => tree
  | location, name :: names =>
      if Path.isBlank name then tree.makeDirectories location names
      else if name = ".." then tree.makeDirectories location.dropLast names
      else (tree.makeDirectory (location ++ [name])).makeDirectories (location ++ [name]) names

def addDirectory (tree : FileTree) (path : String) : FileTree :=
  tree.makeDirectories (tree.start path) (Path.names path)

def addFile (tree : FileTree) (path : String) (content : ByteArray) : FileTree :=
  (tree.makeDirectories (tree.start path) (Path.names path).dropLast).store path content

/-- The files below the working directory whose content is not that of an
earlier tree, by relative path. -/
def changesSince (tree earlier : FileTree) : List (String × ByteArray) :=
  tree.entries.filterMap fun (location, entry) =>
    match entry with
    | .file content =>
        if tree.cwd.isPrefixOf location && earlier.entry? location ≠ some entry then
          some ("/".intercalate (location.drop tree.cwd.length), content)
        else none
    | _ => none

end FileTree

end IntBackend
