/-
# IntBackend.Source.Builder — making trees step by step

Expressions are built on a stack, operands before what combines them. Programs
grow and shrink at their end: functions are added to the program, parameters and
statements to its last function.
-/
import IntBackend.Source.Basic

namespace IntBackend

set_option autoImplicit false

/-- A step of building expressions on a stack. -/
inductive ExprStep where
  | const (value : Int32)
  | var (name : String)
  | binary (op : BinOp)
  | call (callee : String) (count : Nat)
  deriving DecidableEq, Repr

/-- The stack, its top first, after a step; `none` if it holds too little. Of
two operands the right one is on top, and arguments keep the order in which
they were pushed. -/
def ExprStep.onto? : ExprStep → List Expr → Option (List Expr)
  | .const value, stack => some (.const value :: stack)
  | .var name, stack => some (.var name :: stack)
  | .binary op, rhs :: lhs :: stack => some (.binary op lhs rhs :: stack)
  | .binary _, _ => none
  | .call callee count, stack =>
      if count ≤ stack.length then
        some (.call callee (stack.take count).reverse :: stack.drop count)
      else none

/-- A change at the end of a program. -/
inductive Edit where
  | addFunction (name : String)
  | addParam (name : String)
  | addStatement (statement : Stmt)
  | dropFunction
  | dropStatement
  deriving DecidableEq, Repr

namespace Program

def empty : Program := ⟨[]⟩

def last? (p : Program) : Option Func := p.functions.getLast?

/-- Changes the last function, if there is one. -/
def modifyLast (p : Program) (change : Func → Func) : Program :=
  match p.last? with
  | none => p
  | some f => ⟨p.functions.dropLast ++ [change f]⟩

def edit (p : Program) : Edit → Program
  | .addFunction name => ⟨p.functions ++ [⟨name, [], none, []⟩]⟩
  | .addParam name => p.modifyLast fun f => { f with params := f.params ++ [⟨name, .int⟩] }
  | .addStatement s => p.modifyLast fun f => { f with body := f.body ++ [s] }
  | .dropFunction => ⟨p.functions.dropLast⟩
  | .dropStatement => p.modifyLast fun f => { f with body := f.body.dropLast }

end Program

end IntBackend
