/-
# IntBackend.Machine.Assembly — AT&T assembly text

A label is printed as its target wants it, so definitions and uses agree. An
instruction is printed with its last operand first, which for two operands is
the AT&T order; the widest operand decides the suffix of the mnemonic. A line
that would be empty is left out.
-/
import IntBackend.Machine.Basic
import IntBackend.Machine.Target

namespace IntBackend

set_option autoImplicit false

def Label.render (target : Target) : Label → String
  | .start =>
      match target with
      | .linux => "_start"
      | .macos => "start"
  | .function name =>
      match target with
      | .linux => name
      | .macos => "_" ++ name
  | .epilogue name => ".L" ++ name ++ "_epilogue"

def Operand.render (target : Target) : Operand → String
  | .reg r w => "%" ++ r.name w
  | .mem r _ offset => offset.repr ++ "(%" ++ r.name .quad ++ ")"
  | .const text => "$" ++ text
  | .label l => l.render target

/-- Object files of macOS have no note on the stack. -/
def Section.render (target : Target) : Section → String
  | .text =>
      match target with
      | .linux => ".section .text"
      | .macos => ".section __TEXT,__text"
  | .gnuStack =>
      match target with
      | .linux => ".section .note.GNU-stack,\"\",@progbits"
      | .macos => ""

def Opcode.mnemonic : Opcode → String
  | .enter _ => ".section"
  | .global => ".globl"
  | .mov => "mov"
  | .add => "add"
  | .sub => "sub"
  | .imul => "imul"
  | .jmp => "jmp"
  | .call => "call"
  | .ret => "ret"
  | .push => "push"
  | .pop => "pop"
  | .syscall => "syscall"

/-- The last element first, the others after it in order. -/
def lastFirst {α : Type} (xs : List α) : List α :=
  match xs.getLast? with
  | none => []
  | some last => last :: xs.dropLast

namespace Instruction

def renderOperands (target : Target) (operands : List Operand) : String :=
  ", ".intercalate ((lastFirst operands).map (Operand.render target))

/-- The mnemonic with its width suffix, if it takes one. -/
def sizedMnemonic (op : Opcode) (operands : List Operand) : String :=
  if op.isSized then op.mnemonic ++ String.singleton (Operand.size operands).suffix
  else op.mnemonic

/-- The line of an instruction, without its label and its line end. -/
def renderLine (target : Target) (i : Instruction) : String :=
  let operands := renderOperands target i.operands
  match i.op with
  | .enter s => s.render target
  | .global => Opcode.global.mnemonic ++ " " ++ operands
  | op =>
      if operands.isEmpty then "\t" ++ sizedMnemonic op i.operands
      else "\t" ++ sizedMnemonic op i.operands ++ " " ++ operands

def renderLabel (target : Target) : Option Label → String
  | none => ""
  | some l => l.render target ++ ":\n"

def render (target : Target) (i : Instruction) : String :=
  let line := i.renderLine target
  renderLabel target i.label ++ (if line.isEmpty then "" else line ++ "\n")

end Instruction

def Code.render (target : Target) (code : Code) : String :=
  String.join (code.map (Instruction.render target))

end IntBackend
