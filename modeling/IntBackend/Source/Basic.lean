/-
# IntBackend.Source.Basic — the source language

A program is a list of functions over one type, the signed 32-bit integer.
Statements declare and assign variables, evaluate expressions, return, and nest
in blocks; expressions are variables, constants, binary operations and calls.
Equality of trees is decidable throughout.
-/

namespace IntBackend

set_option autoImplicit false

inductive BinOp where
  | add
  | sub
  | mul
  | div
  | rem
  deriving DecidableEq, Repr

def BinOp.symbol : BinOp → String
  | .add => "+"
  | .sub => "-"
  | .mul => "*"
  | .div => "/"
  | .rem => "%"

/-- The one value type: a signed 32-bit integer. -/
inductive Ty where
  | int
  deriving DecidableEq, Repr

/-- A name with its type: a parameter of a function, or a variable that a
statement declares. -/
structure Binding where
  name : String
  type : Ty
  deriving DecidableEq, Repr

inductive Expr where
  | var (name : String)
  | const (value : Int32)
  | binary (op : BinOp) (lhs rhs : Expr)
  | call (callee : String) (args : List Expr)
  deriving Repr

inductive Stmt where
  | declare (binding : Binding)
  | assign (target : String) (value : Expr)
  | eval (value : Expr)
  | ret (value : Option Expr)
  | block (body : List Stmt)
  deriving Repr

/-- A function declaration. A function without a result type has `none`. -/
structure Func where
  name : String
  params : List Binding
  result : Option Ty
  body : List Stmt
  deriving Repr

structure Program where
  functions : List Func
  deriving Repr

/-! ## Decidable equality -/

mutual

def Expr.decEq : (a b : Expr) → Decidable (a = b)
  | .var x, .var y => decidable_of_iff (x = y) (by simp)
  | .const m, .const n => decidable_of_iff (m = n) (by simp)
  | .binary o l r, .binary o' l' r' =>
      match Expr.decEq l l', Expr.decEq r r' with
      | isTrue hl, isTrue hr => decidable_of_iff (o = o') (by simp [hl, hr])
      | isFalse hl, _ => isFalse (by simp [hl])
      | _, isFalse hr => isFalse (by simp [hr])
  | .call f as, .call g bs =>
      match Expr.decEqList as bs with
      | isTrue h => decidable_of_iff (f = g) (by simp [h])
      | isFalse h => isFalse (by simp [h])
  | .var _, .const _ | .var _, .binary .. | .var _, .call .. => isFalse nofun
  | .const _, .var _ | .const _, .binary .. | .const _, .call .. => isFalse nofun
  | .binary .., .var _ | .binary .., .const _ | .binary .., .call .. => isFalse nofun
  | .call .., .var _ | .call .., .const _ | .call .., .binary .. => isFalse nofun

def Expr.decEqList : (as bs : List Expr) → Decidable (as = bs)
  | [], [] => isTrue rfl
  | a :: as, b :: bs =>
      match Expr.decEq a b, Expr.decEqList as bs with
      | isTrue h, isTrue t => isTrue (by rw [h, t])
      | isFalse h, _ => isFalse (by simp [h])
      | _, isFalse t => isFalse (by simp [t])
  | [], _ :: _ => isFalse nofun
  | _ :: _, [] => isFalse nofun

end

instance : DecidableEq Expr := Expr.decEq

mutual

def Stmt.decEq : (a b : Stmt) → Decidable (a = b)
  | .declare x, .declare y => decidable_of_iff (x = y) (by simp)
  | .assign x v, .assign y w => decidable_of_iff (x = y ∧ v = w) (by simp)
  | .eval v, .eval w => decidable_of_iff (v = w) (by simp)
  | .ret v, .ret w => decidable_of_iff (v = w) (by simp)
  | .block as, .block bs =>
      match Stmt.decEqList as bs with
      | isTrue h => isTrue (by rw [h])
      | isFalse h => isFalse (by simp [h])
  | .declare _, .assign .. | .declare _, .eval _ | .declare _, .ret _ | .declare _, .block _
  | .assign .., .declare _ | .assign .., .eval _ | .assign .., .ret _ | .assign .., .block _
  | .eval _, .declare _ | .eval _, .assign .. | .eval _, .ret _ | .eval _, .block _
  | .ret _, .declare _ | .ret _, .assign .. | .ret _, .eval _ | .ret _, .block _
  | .block _, .declare _ | .block _, .assign .. | .block _, .eval _ | .block _, .ret _ =>
      isFalse nofun

def Stmt.decEqList : (as bs : List Stmt) → Decidable (as = bs)
  | [], [] => isTrue rfl
  | a :: as, b :: bs =>
      match Stmt.decEq a b, Stmt.decEqList as bs with
      | isTrue h, isTrue t => isTrue (by rw [h, t])
      | isFalse h, _ => isFalse (by simp [h])
      | _, isFalse t => isFalse (by simp [t])
  | [], _ :: _ => isFalse nofun
  | _ :: _, [] => isFalse nofun

end

instance : DecidableEq Stmt := Stmt.decEq

deriving instance DecidableEq for Func
deriving instance DecidableEq for Program

end IntBackend
