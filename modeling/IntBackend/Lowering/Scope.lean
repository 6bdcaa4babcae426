/-
# IntBackend.Lowering.Scope — the names that a function knows

A scope binds variables to operands and hands out the slots of the frame from
the top down. All functions of the program may be called from everywhere; a
function has one scope of variables, whatever its blocks.
-/
import IntBackend.Lowering.Fault
import IntBackend.Machine.Convention

namespace IntBackend

set_option autoImplicit false

structure Scope where
  function : String
  /-- The names of all functions of the program. -/
  callees : List String
  bindings : List (String × Operand)
  /-- The offset of the slot that was handed out last. -/
  cursor : Int
  deriving DecidableEq, Repr

/-- The label of a function that the program declares. -/
def resolve (callees : List String) (name : String) : Except LoweringFault Label :=
  if name ∈ callees then .ok (.function name) else .error (.functionNotFound name)

namespace Scope

/-- The scope at the start of a function. -/
def fresh (function : String) (callees : List String) : Scope := ⟨function, callees, [], 0⟩

def find? (scope : Scope) (name : String) : Option Operand := scope.bindings.lookup name

/-- Binds a new name to an operand. -/
def bind (scope : Scope) (name : String) (operand : Operand) : Except LoweringFault Scope :=
  match scope.find? name with
  | some _ => .error (.alreadyDeclared name scope.function)
  | none => .ok { scope with bindings := (name, operand) :: scope.bindings }

/-- The slot below the cursor. -/
def nextSlot (scope : Scope) : Operand :=
  Convention.frameCell (scope.cursor - Convention.slotSize)

/-- Binds a new name to the next slot, which is taken only then. -/
def declare (scope : Scope) (name : String) : Except LoweringFault Scope := do
  let bound ← scope.bind name scope.nextSlot
  .ok { bound with cursor := scope.cursor - Convention.slotSize }

def lookup (scope : Scope) (name : String) : Except LoweringFault Operand :=
  match scope.find? name with
  | some operand => .ok operand
  | none => .error (.variableNotFound name scope.function)

def callee (scope : Scope) (name : String) : Except LoweringFault Label :=
  resolve scope.callees name

def exit (scope : Scope) : Label := .epilogue scope.function

end Scope

end IntBackend
