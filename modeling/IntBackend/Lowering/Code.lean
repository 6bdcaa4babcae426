/-
# IntBackend.Lowering.Code — the code of a program

Every piece of source gets code of its own, and the code of a whole is that of
its parts laid end to end. The code of an expression leaves its value in an
operand that is returned beside it: a constant and a variable need no code, an
operation and a call leave their result in the accumulator. The left value of an
operation waits in the scratch register if it was in the accumulator.
-/
import IntBackend.Lowering.Frame
import IntBackend.Lowering.Scope
import IntBackend.Machine.Target

namespace IntBackend

set_option autoImplicit false

open Convention

/-- Code, and the operand that holds the value when it has run. -/
structure Valued where
  code : Code
  value : Operand
  deriving DecidableEq, Repr

/-- Brings a value into the accumulator, unless it is there. -/
def intoAccumulator (value : Operand) : Code :=
  if value.isRegister .ax then [] else [.mov accumulator value]

/-- Moves a value out of the accumulator, which the next computation needs. -/
def park (left : Valued) : Valued :=
  if left.value.isRegister .ax then
    ⟨left.code ++ [.mov scratch left.value], scratch⟩
  else left

/-- The code that combines a left operand with the right value in the accumulator.
A difference is the left value plus the right one negated. Division has no code. -/
def operation : BinOp → Except LoweringFault (Operand → Code)
  | .add => .ok fun left => [.add accumulator left]
  | .mul => .ok fun left => [.imul accumulator left]
  | .sub => .ok fun left => [.imul accumulator (.const "-1"), .add accumulator left]
  | .div => .error (.unsupportedOperator .div)
  | .rem => .error (.unsupportedOperator .rem)

/-- Takes `count` arguments off the stack again. -/
def dropArgs (count : Nat) : Code :=
  if count = 0 then [] else [.add stackPointer (.nat (stackArgSize * count))]

def constText (n : Int32) : String := n.toInt.repr

mutual

def Expr.lower (scope : Scope) : Expr → Except LoweringFault Valued
  | .const n => .ok ⟨[], .const (constText n)⟩
  | .var name => do
      let operand ← scope.lookup name
      .ok ⟨[], operand⟩
  | .binary op lhs rhs => do
      let combine ← operation op
      let left := park (← lhs.lower scope)
      let right ← rhs.lower scope
      .ok ⟨left.code ++ right.code ++ intoAccumulator right.value ++ combine left.value,
        accumulator⟩
  | .call name args => do
      let callee ← scope.callee name
      let passed ← Expr.lowerArgs scope argRegisters args
      .ok ⟨passed ++ [.call callee] ++ dropArgs (args.length - argRegisters.length), accumulator⟩

/-- Arguments go into the registers that are left, in order; those beyond are
pushed from the last one back, so that the first of them ends up on top. -/
def Expr.lowerArgs (scope : Scope) : List Register → List Expr → Except LoweringFault Code
  | _, [] => .ok []
  | r :: rs, arg :: args => do
      let arg ← arg.lower scope
      let rest ← Expr.lowerArgs scope rs args
      .ok (arg.code ++ [.mov (.reg r valueWidth) arg.value] ++ rest)
  | [], arg :: args => do
      let rest ← Expr.lowerArgs scope [] args
      let arg ← arg.lower scope
      .ok (rest ++ arg.code ++ [.push (arg.value.withWidth .quad)])

end

/-- Stores a value. Memory is not moved to memory, but through the accumulator. -/
def store (dst src : Operand) : Code :=
  if dst.isMemory && src.isMemory then intoAccumulator src ++ [.mov dst accumulator]
  else [.mov dst src]

mutual

/-- The code of a statement, and the scope after it. -/
def Stmt.lower (scope : Scope) : Stmt → Except LoweringFault (Code × Scope)
  | .declare binding => do
      let scope ← scope.declare binding.name
      .ok ([], scope)
  | .assign target value => do
      let dst ← scope.lookup target
      let src ← value.lower scope
      .ok (src.code ++ store dst src.value, scope)
  | .eval value => do
      let value ← value.lower scope
      .ok (value.code, scope)
  | .ret none => .ok ([.jmp scope.exit], scope)
  | .ret (some value) => do
      let value ← value.lower scope
      .ok (value.code ++ intoAccumulator value.value ++ [.jmp scope.exit], scope)
  | .block body => Stmt.lowerAll scope body

def Stmt.lowerAll (scope : Scope) : List Stmt → Except LoweringFault (Code × Scope)
  | [] => .ok ([], scope)
  | s :: ss => do
      let (head, scope) ← s.lower scope
      let (tail, scope) ← Stmt.lowerAll scope ss
      .ok (head ++ tail, scope)

end

/-- Binds the parameters: those that arrive in registers are stored to slots,
further ones stay where the caller put them. -/
def lowerParams (scope : Scope) : List Register → (onStack : Nat) → List Binding →
    Except LoweringFault (Code × Scope)
  | _, _, [] => .ok ([], scope)
  | r :: rs, onStack, param :: params => do
      let slot := scope.nextSlot
      let scope ← scope.declare param.name
      let (rest, scope) ← lowerParams scope rs onStack params
      .ok (.mov slot (.reg r valueWidth) :: rest, scope)
  | [], onStack, param :: params => do
      let scope ← scope.bind param.name (stackArg onStack)
      lowerParams scope [] (onStack + 1) params

namespace Func

/-- Saves the caller's frame pointer and takes the frame. -/
def prologue (f : Func) : Code :=
  [.global (.function f.name),
    (Instruction.push basePointer).labelled (.function f.name),
    .mov basePointer stackPointer,
    .sub stackPointer (.nat f.frameSize)]

/-- Gives the frame back and returns; every return of the function leads here. -/
def epilogue (f : Func) : Code :=
  [(Instruction.add stackPointer (.nat f.frameSize)).labelled (.epilogue f.name),
    .pop basePointer,
    .ret]

/-- The code of parameters and statements, and the scope at the end. -/
def lowerBody (f : Func) (callees : List String) : Except LoweringFault (Code × Scope) := do
  let (stores, scope) ← lowerParams (.fresh f.name callees) argRegisters 0 f.params
  let (body, scope) ← Stmt.lowerAll scope f.body
  .ok (stores ++ body, scope)

def lower (f : Func) (callees : List String) : Except LoweringFault Code := do
  let (body, scope) ← f.lowerBody callees
  if scope.cursor.natAbs = f.frameSize then
    .ok (f.prologue ++ body ++ f.epilogue)
  else .error (.frameMismatch f.name f.frameSize scope.cursor)

end Func

namespace Program

def names (p : Program) : List String := p.functions.map Func.name

/-- The function that a process runs. -/
def entry : String := "main"

/-- Calls the entry function and ends the process with its result. -/
def startRoutine (target : Target) (main : Label) : Code :=
  [.global .start,
    (Instruction.call main).labelled .start,
    .mov (.reg .di valueWidth) accumulator,
    .mov (.reg .ax .quad) (.nat target.exitNumber),
    .syscall]

/-- The code of functions, laid end to end. -/
def lowerFunctions (callees : List String) : List Func → Except LoweringFault Code
  | [] => .ok []
  | f :: fs => do
      let head ← f.lower callees
      let tail ← lowerFunctions callees fs
      .ok (head ++ tail)

def lower (p : Program) (target : Target) : Except LoweringFault Code := do
  let main ← resolve p.names entry
  let functions ← lowerFunctions p.names p.functions
  .ok (.enter .text :: startRoutine target main ++ functions ++ [.enter .gnuStack])

end Program

end IntBackend
