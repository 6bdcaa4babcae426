/-
# IntBackend.Machine.Target — target systems

The two operating systems whose conventions are known, their names, and the
number each gives to the system call that ends a process.
-/

namespace IntBackend

set_option autoImplicit false

inductive Target where
  | linux
  | macos
  deriving DecidableEq, Repr

/-- A name that is no target's. -/
structure UnknownTarget where
  name : String
  deriving DecidableEq, Repr

def UnknownTarget.message (unknown : UnknownTarget) : String :=
  "Unknown operating system \"" ++ unknown.name ++ "\", expected \"linux\" or \"macos\""

namespace Target

def name : Target → String
  | .linux => "linux"
  | .macos => "macos"

/-- The target of a name. The case of ASCII letters does not matter. -/
def ofName (name : String) : Except UnknownTarget Target :=
  match name.map Char.toLower with
  | "linux" => .ok .linux
  | "macos" => .ok .macos
  | "darwin" => .ok .macos
  | _ => .error ⟨name⟩

/-- The number of the system call that ends the process. On macOS the BSD calls
are numbered from 2 · 2²⁴. -/
def exitNumber : Target → Nat
  | .linux => 60
  | .macos => 0x2000001

end Target

end IntBackend
