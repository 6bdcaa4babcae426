/-
# IntBackend.Lowering.Frame — the size of a function's frame

A frame has a slot for each argument that arrives in a register and for each
variable declared anywhere in the body. Arguments that arrive on the stack stay
in the caller's frame.
-/
import IntBackend.Source.Basic
import IntBackend.Machine.Convention

namespace IntBackend

set_option autoImplicit false

mutual

/-- The number of variables that a statement declares, at any depth. -/
def Stmt.declarations : Stmt → Nat
  | .declare _ => 1
  | .assign .. => 0
  | .eval _ => 0
  | .ret _ => 0
  | .block body => Stmt.declarationsAll body

def Stmt.declarationsAll : List Stmt → Nat
  | [] => 0
  | s :: ss => s.declarations + Stmt.declarationsAll ss

end

namespace Func

/-- The number of arguments that arrive in registers. -/
def registerArgs (f : Func) : Nat := min f.params.length Convention.argRegisters.length

def frameSize (f : Func) : Nat :=
  Convention.slotSize * (f.registerArgs + Stmt.declarationsAll f.body)

end Func

end IntBackend
