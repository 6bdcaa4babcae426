/-
# IntBackend.Machine.Listing — code as an indented tree

Every part of an instruction is listed by the name of its case with its own
parts below it, one to a line, four spaces further in and with a comma after
each. Cases without parts, numbers and quoted texts stand alone.
-/
import IntBackend.Machine.Basic
import IntBackend.Text.Quoted

namespace IntBackend

set_option autoImplicit false

/-- What a listing shows. -/
inductive Listing where
  | leaf (text : String)
  | case (name : String) (parts : List Listing)
  | record (name : String) (names : List String) (parts : List Listing)
  | list (parts : List Listing)
  deriving Repr

namespace Listing

def indent (depth : Nat) : String := "".pushn ' ' (4 * depth)

mutual

/-- The text of a part whose first line is already indented. -/
def render (depth : Nat) : Listing → String
  | .leaf text => text
  | .case name parts =>
      name ++ "(\n" ++ renderParts (depth + 1) parts ++ indent depth ++ ")"
  | .record name names parts =>
      name ++ " \x7b\n" ++ renderFields (depth + 1) names parts ++ indent depth ++ "\x7d"
  | .list [] => "[]"
  | .list (part :: parts) =>
      "[\n" ++ indent (depth + 1) ++ part.render (depth + 1) ++ ",\n" ++
        renderParts (depth + 1) parts ++ indent depth ++ "]"

def renderParts (depth : Nat) : List Listing → String
  | [] => ""
  | part :: parts =>
      indent depth ++ part.render depth ++ ",\n" ++ renderParts depth parts

def renderFields (depth : Nat) : List String → List Listing → String
  | name :: names, part :: parts =>
      indent depth ++ name ++ ": " ++ part.render depth ++ ",\n" ++ renderFields depth names parts
  | _, _ => ""

end

end Listing

def Width.caseName : Width → String
  | .byte => "Byte"
  | .word => "Word"
  | .long => "Long"
  | .quad => "Quad"

def Register.caseName : Register → String
  | .ax => "AX"
  | .cx => "CX"
  | .dx => "DX"
  | .di => "DI"
  | .si => "SI"
  | .r8 => "R8"
  | .r9 => "R9"
  | .r10 => "R10"
  | .sp => "SP"
  | .bp => "BP"

def Section.caseName : Section → String
  | .text => "Text"
  | .gnuStack => "GnuStack"

def Opcode.caseName : Opcode → String
  | .enter _ => "Section"
  | .global => "Global"
  | .mov => "Mov"
  | .add => "Add"
  | .sub => "Sub"
  | .imul => "Imul"
  | .jmp => "Jmp"
  | .call => "Call"
  | .ret => "Ret"
  | .push => "Push"
  | .pop => "Pop"
  | .syscall => "Syscall"

def Width.listing (w : Width) : Listing := .leaf w.caseName

def Register.listing (r : Register) : Listing := .leaf r.caseName

def Label.listing : Label → Listing
  | .start => .leaf "Start"
  | .function name => .case "Function" [.leaf (Text.quote name)]
  | .epilogue name => .case "Epilogue" [.leaf (Text.quote name)]

def Operand.listing : Operand → Listing
  | .reg r w => .case "Register" [r.listing, w.listing]
  | .mem r w offset => .case "RegisterOffset" [r.listing, w.listing, .leaf offset.repr]
  | .const text => .case "Constant" [.leaf (Text.quote text)]
  | .label l => .case "Label" [l.listing]

def Opcode.listing : Opcode → Listing
  | .enter s => .case (Opcode.enter s).caseName [.leaf s.caseName]
  | op => .leaf op.caseName

namespace Instruction

def labelListing : Option Label → Listing
  | none => .leaf "None"
  | some l => .case "Some" [l.listing]

def listing (i : Instruction) : Listing :=
  .record "Instruction" ["label", "op", "operands"]
    [labelListing i.label, i.op.listing, .list (i.operands.map Operand.listing)]

end Instruction

def Code.listing (code : Code) : Listing :=
  .case "Program" [.list (code.map Instruction.listing)]

/-- The listing of code, without a final line end. -/
def Code.list (code : Code) : String := (Code.listing code).render 0

end IntBackend
