/-
# IntBackend.Machine.Convention — the calling convention

Six registers carry the first arguments, further ones lie on the stack above the
return address and the saved frame pointer. Results are left in the accumulator;
a second register keeps the left value of an operation while the right one is
computed.
-/
import IntBackend.Machine.Basic

namespace IntBackend.Convention

set_option autoImplicit false

/-- The width of a value. -/
def valueWidth : Width := .long

/-- The bytes that a variable takes in the frame. -/
def slotSize : Nat := 4

/-- The bytes that an argument takes on the stack. -/
def stackArgSize : Nat := 8

/-- The distance from the frame pointer to the first argument on the stack. -/
def stackArgsOffset : Nat := 16

/-- The registers of the first arguments, in order. -/
def argRegisters : List Register := [.di, .si, .dx, .cx, .r8, .r9]

def accumulator : Operand := .reg .ax valueWidth

def scratch : Operand := .reg .r10 valueWidth

def basePointer : Operand := .reg .bp .quad

def stackPointer : Operand := .reg .sp .quad

def argRegister? (index : Nat) : Option Operand :=
  argRegisters[index]?.map fun r => .reg r valueWidth

/-- A variable at an offset from the frame pointer. -/
def frameCell (offset : Int) : Operand := .mem .bp valueWidth offset

/-- Where the callee finds the argument that is `index` places after the last
one in a register. -/
def stackArg (index : Nat) : Operand := frameCell (stackArgsOffset + stackArgSize * index)

end IntBackend.Convention
