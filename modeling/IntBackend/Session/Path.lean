/-
# IntBackend.Session.Path — path names

A path is names between slashes. Trailing slashes and trailing `.` names do not
change which file it means. The extension of a file is what follows the last dot
of its name, unless that dot is the first character.
-/

namespace IntBackend.Path

set_option autoImplicit false

/-- The names of a path; an absolute one starts with an empty name. -/
def names (path : String) : List String := path.splitOn "/"

def isBlank (name : String) : Bool := name == "" || name == "."

/-- Drops blank names at the end, except the first name of all. -/
def trimmed : List String → List String
  | [] => []
  | name :: rest => name :: (rest.reverse.dropWhile isBlank).reverse

/-- The stem and the extension of a file name. -/
def splitName (name : String) : String × Option String :=
  match name.toList.reverse.span (· ≠ '.') with
  | (_, []) => (name, none)
  | (_, [_]) => (name, none)
  | (ext, _ :: stem) => (String.ofList stem.reverse, some (String.ofList ext.reverse))

/-- The path with another extension on its file; a path that ends in no file
name stays as it is. The old extension is cut off first: a name that is two dots
without it is no file name any more. -/
def withExtension (path extension : String) : String :=
  let parts := trimmed (names path)
  match parts.getLast? with
  | none => path
  | some name =>
      if name = ".." || parts.length = 1 && isBlank name then path
      else
        let directory := parts.dropLast
        let join := fun name => "/".intercalate (directory ++ [name])
        match splitName name with
        | (".", some _) =>
            if join name = path then join ".." else join ("." ++ "." ++ extension)
        | (stem, _) => join (stem ++ "." ++ extension)

end IntBackend.Path
