/-
# IntBackend.Proofs.Machine.Execution — what instructions do

A machine has 64-bit registers and memory. Moves and arithmetic work at the width
of their operands; a write of 32 bits to a register clears its upper half. Pushing
moves the stack pointer down by eight bytes first.

An image is code with an address for each instruction. Where the instructions end
up is not fixed here, only that no two of them share an address. A call pushes the
address of what follows it, and a return goes on at the instruction whose address
is on top of the stack. A process ends at a system call with the number of `exit`
in the accumulator, and its status is in the register of the first argument.
-/
import Mathlib.Logic.Function.Basic
import IntBackend.Machine.Convention
import IntBackend.Machine.Target
import IntBackend.Proofs.Machine.Memory

namespace IntBackend

set_option autoImplicit false

/-! ## Registers and operands -/

structure Machine where
  regs : Register → BitVec 64
  mem : Memory

/-- What a register holds after a value of some width was written to it. -/
def Width.merge (old value : BitVec 64) : Width → BitVec 64
  | .byte => old &&& 0xffffffffffffff00#64 ||| (value.setWidth 8).setWidth 64
  | .word => old &&& 0xffffffffffff0000#64 ||| (value.setWidth 16).setWidth 64
  | .long => (value.setWidth 32).setWidth 64
  | .quad => value

namespace Machine

def address (m : Machine) (base : Register) (offset : Int) : Address :=
  m.regs base + BitVec.ofInt 64 offset

/-- The value of an operand. Of a register all bits are given; those beyond the
width are dropped where the value is written. -/
def read (m : Machine) (w : Width) : Operand → Option (BitVec 64)
  | .reg r _ => some (m.regs r)
  | .mem base _ offset => some (BitVec.ofNat 64 (m.mem.load (m.address base offset) w.bytes))
  | .const text => text.toInt?.map (BitVec.ofInt 64)
  | .label _ => none

def set (m : Machine) (r : Register) (value : BitVec 64) : Machine :=
  { m with regs := Function.update m.regs r value }

def write (m : Machine) (w : Width) (value : BitVec 64) : Operand → Option Machine
  | .reg r _ => some (m.set r (w.merge (m.regs r) value))
  | .mem base _ offset =>
      some { m with mem := m.mem.store (m.address base offset) value.toNat w.bytes }
  | .const _ => none
  | .label _ => none

/-- An instruction with two operands; not both may be in memory. -/
def operate (m : Machine) (f : BitVec 64 → BitVec 64 → BitVec 64) (dst src : Operand) :
    Option Machine :=
  if dst.isMemory && src.isMemory then none
  else do
    let w := Operand.size [dst, src]
    let old ← m.read w dst
    let value ← m.read w src
    m.write w (f old value) dst

def push (m : Machine) (value : BitVec 64) : Machine :=
  ⟨Function.update m.regs .sp (m.regs .sp - 8),
    m.mem.store (m.regs .sp - 8) value.toNat 8⟩

/-- The word that the stack pointer points to. -/
def top (m : Machine) : BitVec 64 := BitVec.ofNat 64 (m.mem.load (m.regs .sp) 8)

def drop (m : Machine) : Machine := m.set .sp (m.regs .sp + 8)

end Machine

/-- What an instruction does that hands control to the next one. -/
def Instruction.effect? (i : Instruction) (m : Machine) : Option Machine :=
  match i.op, i.operands with
  | .mov, [dst, src] => m.operate (fun _ value => value) dst src
  | .add, [dst, src] => m.operate (· + ·) dst src
  | .sub, [dst, src] => m.operate (· - ·) dst src
  | .imul, [dst, src] => m.operate (· * ·) dst src
  | .push, [src] => (m.read .quad src).map m.push
  | .pop, [dst] => m.drop.write .quad m.top dst
  | _, _ => none

/-- Runs code that has no jumps, calls or returns. -/
def runLine : Code → Machine → Option Machine
  | [], m => some m
  | i :: code, m => (i.effect? m).bind (runLine code)

/-! ## Processes -/

def Instruction.isDirective (i : Instruction) : Bool :=
  match i.op with
  | .enter _ => true
  | .global => true
  | _ => false

/-- Code in memory. Directives take no space; two instructions are never in the
same place. -/
structure Image where
  code : Code
  address : Nat → Address
  apart : ∀ {i j : Nat} {a b : Instruction}, code[i]? = some a → code[j]? = some b →
    a.isDirective = false → b.isDirective = false → address i = address j → i = j

/-- A machine and the position of the instruction that comes next. -/
structure Process where
  pc : Nat
  machine : Machine

namespace Image

/-- The position of a label. -/
def position? (image : Image) (l : Label) : Option Nat :=
  image.code.findIdx? fun i => i.label = some l

/-- The position of the instruction at an address. -/
def locate? (image : Image) (a : Address) : Option Nat :=
  (List.range image.code.length).find? fun k =>
    image.address k = a ∧ ∃ i ∈ image.code[k]?, i.isDirective = false

def step (image : Image) (p : Process) : Option Process :=
  match image.code[p.pc]? with
  | none => none
  | some i =>
      match i.op, i.operands with
      | .enter _, _ => some { p with pc := p.pc + 1 }
      | .global, _ => some { p with pc := p.pc + 1 }
      | .jmp, [.label l] => (image.position? l).map fun k => { p with pc := k }
      | .call, [.label l] =>
          (image.position? l).map fun k => ⟨k, p.machine.push (image.address (p.pc + 1))⟩
      | .ret, [] => (image.locate? p.machine.top).map fun k => ⟨k, p.machine.drop⟩
      | _, _ => (i.effect? p.machine).map fun m => ⟨p.pc + 1, m⟩

def run (image : Image) : (steps : Nat) → Process → Option Process
  | 0, p => some p
  | n + 1, p => (image.step p).bind (image.run n)

end Image

/-- The signed number in the lower half of a word. -/
def lowInt (word : BitVec 64) : Int32 := Int32.ofBitVec (word.setWidth 32)

/-- The status of a process that is about to end. -/
def Image.exitStatus? (image : Image) (target : Target) (p : Process) : Option Int32 :=
  match image.code[p.pc]? with
  | some i =>
      if i.op = .syscall ∧ p.machine.regs .ax = BitVec.ofNat 64 target.exitNumber then
        some (lowInt (p.machine.regs .di))
      else none
  | none => none

end IntBackend
