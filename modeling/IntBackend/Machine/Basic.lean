/-
# IntBackend.Machine.Basic — instructions

The part of x86-64 that code generation uses: registers seen at four widths,
labels, operands, opcodes and instructions. Operands are kept destination first.
A constant operand is kept as the text that is printed for it. All types are
ordered: constructors as listed, then fields from left to right.
-/

namespace IntBackend

set_option autoImplicit false

inductive Width where
  | byte
  | word
  | long
  | quad
  deriving DecidableEq, Ord, Repr

namespace Width

/-- The letter that a mnemonic takes for operands of this width. -/
def suffix : Width → Char
  | .byte => 'b'
  | .word => 'w'
  | .long => 'l'
  | .quad => 'q'

def bytes : Width → Nat
  | .byte => 1
  | .word => 2
  | .long => 4
  | .quad => 8

/-- The wider of two widths. -/
def sup (v w : Width) : Width := if v.bytes ≤ w.bytes then w else v

end Width

inductive Register where
  | ax
  | cx
  | dx
  | di
  | si
  | r8
  | r9
  | r10
  | sp
  | bp
  deriving DecidableEq, Ord, Repr

/-- The name of a register seen at a width, without the percent sign. -/
def Register.name : Register → Width → String
  | .ax, .byte => "al"
  | .ax, .word => "ax"
  | .ax, .long => "eax"
  | .ax, .quad => "rax"
  | .cx, .byte => "cl"
  | .cx, .word => "cx"
  | .cx, .long => "ecx"
  | .cx, .quad => "rcx"
  | .dx, .byte => "dl"
  | .dx, .word => "dx"
  | .dx, .long => "edx"
  | .dx, .quad => "rdx"
  | .di, .byte => "dil"
  | .di, .word => "di"
  | .di, .long => "edi"
  | .di, .quad => "rdi"
  | .si, .byte => "sil"
  | .si, .word => "si"
  | .si, .long => "esi"
  | .si, .quad => "rsi"
  | .r8, .byte => "r8b"
  | .r8, .word => "r8w"
  | .r8, .long => "r8d"
  | .r8, .quad => "r8"
  | .r9, .byte => "r9b"
  | .r9, .word => "r9w"
  | .r9, .long => "r9d"
  | .r9, .quad => "r9"
  | .r10, .byte => "r10b"
  | .r10, .word => "r10w"
  | .r10, .long => "r10d"
  | .r10, .quad => "r10"
  | .sp, .byte => "spl"
  | .sp, .word => "sp"
  | .sp, .long => "esp"
  | .sp, .quad => "rsp"
  | .bp, .byte => "bpl"
  | .bp, .word => "bp"
  | .bp, .long => "ebp"
  | .bp, .quad => "rbp"

/-- A place in the code: where the process starts, where a function starts, or
the single exit of a function. -/
inductive Label where
  | start
  | function (name : String)
  | epilogue (name : String)
  deriving DecidableEq, Ord, Repr

inductive Operand where
  | reg (register : Register) (width : Width)
  /-- Memory of a width at an offset from a register, which is taken in 64 bits. -/
  | mem (base : Register) (width : Width) (offset : Int)
  | const (text : String)
  | label (label : Label)
  deriving DecidableEq, Ord, Repr

namespace Operand

/-- A natural number in decimal. -/
def nat (n : Nat) : Operand := .const n.repr

/-- Constants and labels have no width of their own. -/
def width? : Operand → Option Width
  | .reg _ w => some w
  | .mem _ w _ => some w
  | .const _ => none
  | .label _ => none

/-- The same place seen at another width. -/
def withWidth (w : Width) : Operand → Operand
  | .reg r _ => .reg r w
  | .mem r _ offset => .mem r w offset
  | .const text => .const text
  | .label l => .label l

def isRegister (register : Register) : Operand → Bool
  | .reg r _ => r == register
  | _ => false

def isMemory : Operand → Bool
  | .mem .. => true
  | _ => false

/-- The widest operand decides; without one the size is 64 bits. -/
def size (operands : List Operand) : Width :=
  match operands.filterMap width? with
  | [] => .quad
  | w :: ws => ws.foldl Width.sup w

end Operand

inductive Section where
  | text
  /-- Marks the stack as not executable. -/
  | gnuStack
  deriving DecidableEq, Ord, Repr

inductive Opcode where
  | enter (target : Section)
  | global
  | mov
  | add
  | sub
  | imul
  | jmp
  | call
  | ret
  | push
  | pop
  | syscall
  deriving DecidableEq, Ord, Repr

/-- The opcodes whose mnemonic takes a width suffix. -/
def Opcode.isSized : Opcode → Bool
  | .mov | .add | .sub | .imul | .push | .pop => true
  | _ => false

/-- An instruction or directive; its operands stand destination first. -/
structure Instruction where
  label : Option Label
  op : Opcode
  operands : List Operand
  deriving DecidableEq, Ord, Repr

abbrev Code := List Instruction

namespace Instruction

def plain (op : Opcode) (operands : List Operand) : Instruction := ⟨none, op, operands⟩

/-- The same instruction with a label right before it. -/
def labelled (l : Label) (i : Instruction) : Instruction := { i with label := some l }

def enter (target : Section) : Instruction := plain (.enter target) []

def global (l : Label) : Instruction := plain .global [.label l]

def mov (dst src : Operand) : Instruction := plain .mov [dst, src]

def add (dst src : Operand) : Instruction := plain .add [dst, src]

def sub (dst src : Operand) : Instruction := plain .sub [dst, src]

def imul (dst src : Operand) : Instruction := plain .imul [dst, src]

def jmp (l : Label) : Instruction := plain .jmp [.label l]

def call (l : Label) : Instruction := plain .call [.label l]

def ret : Instruction := plain .ret []

def push (operand : Operand) : Instruction := plain .push [operand]

def pop (operand : Operand) : Instruction := plain .pop [operand]

def syscall : Instruction := plain .syscall []

end Instruction

/-! ## Sorting -/

/-- The positions of a list in sorted order, equal elements in their given order. -/
def sortedPositions {α : Type} [Ord α] (values : List α) : List (α × Nat) :=
  values.zipIdx.mergeSort fun a b => (compare a.1 b.1).isLE

/-- For each neighbouring pair of a list, whether the two are equal. -/
def neighboursEqual {α : Type} [DecidableEq α] (values : List α) : List Bool :=
  (values.zip values.tail).map fun pair => decide (pair.1 = pair.2)

end IntBackend
