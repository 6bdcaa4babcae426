/-
# IntBackend.Source.Document — source trees as JSON

`grammar` says how each part of a program stands in a JSON text, and
`Document.read` reads a text by it. `Document.write` gives a value its one
compact text: no blanks, fields in declared order, a case that holds nothing as
its bare name, an absent result type as null.
-/
import IntBackend.Source.Basic
import IntBackend.Json.Grammar
import IntBackend.Json.Write

namespace IntBackend

set_option autoImplicit false

open Json

/-- The kinds of documents that a program is made of. -/
inductive Kind where
  | name
  | number
  | operator
  | type
  | resultType
  | binding
  | bindings
  | expr
  | exprs
  | binary
  | call
  | returned
  | stmt
  | assignment
  | block
  | func
  | funcs
  | program
  deriving DecidableEq, Repr

/-- The values that a kind's documents denote. -/
@[reducible] def Kind.El : Kind → Type
  | .name => String
  | .number => Int32
  | .operator => BinOp
  | .type => Ty
  | .resultType => Option Ty
  | .binding => Binding
  | .bindings => List Binding
  | .expr => Expr
  | .exprs => List Expr
  | .binary => BinOp × Expr × Expr
  | .call => String × List Expr
  | .returned => Option Expr
  | .stmt => Stmt
  | .assignment => String × Expr
  | .block => List Stmt
  | .func => Func
  | .funcs => List Func
  | .program => Program

namespace Kind

def operatorCases : List (Case El BinOp) :=
  [.unit "Add" .add, .unit "Subtract" .sub, .unit "Multiply" .mul, .unit "Divide" .div,
    .unit "Remainder" .rem]

/-- The cases of a type, made into something else by `make`. -/
def typeCases {α : Type} (make : Ty → α) : List (Case El α) :=
  [.unit "Int" (make .int)]

/-- The cases of an expression, made into something else by `make`. -/
def exprCases {α : Type} (make : Expr → α) : List (Case El α) :=
  [.holding "Var" .name fun x => make (.var x),
    .holding "Constant" .number fun n => make (.const n),
    .holding "Binary" .binary fun (op, lhs, rhs) => make (.binary op lhs rhs),
    .holding "FunctionCall" .call fun (callee, args) => make (.call callee args)]

def stmtCases : List (Case El Stmt) :=
  [.holding "VarDecl" .binding .declare,
    .holding "Assignment" .assignment fun (x, v) => .assign x v,
    .holding "Expression" .expr .eval,
    .holding "Return" .returned .ret,
    .holding "Compound" .block .block]

end Kind

def grammar : Grammar Kind.El
  | .name => ⟨.text id, none⟩
  | .number => ⟨.int32 id, none⟩
  | .operator => ⟨.choice Kind.operatorCases, none⟩
  | .type => ⟨.choice (Kind.typeCases id), none⟩
  | .resultType => ⟨.choice (Kind.typeCases some), some none⟩
  | .binding => ⟨.record [("name", .name), ("ty", .type)] fun (x, t, _) => ⟨x, t⟩, none⟩
  | .bindings => ⟨.list .binding id, none⟩
  | .expr => ⟨.choice (Kind.exprCases id), none⟩
  | .exprs => ⟨.list .expr id, none⟩
  | .binary =>
      ⟨.record [("op", .operator), ("lhs", .expr), ("rhs", .expr)]
        fun (op, lhs, rhs, _) => (op, lhs, rhs), none⟩
  | .call =>
      ⟨.tuple [("callee", .name), ("args", .exprs)] fun (callee, args, _) => (callee, args), none⟩
  | .returned => ⟨.choice (Kind.exprCases some), some none⟩
  | .stmt => ⟨.choice Kind.stmtCases, none⟩
  | .assignment =>
      ⟨.record [("name", .name), ("value", .expr)] fun (x, v, _) => (x, v), none⟩
  | .block => ⟨.list .stmt id, none⟩
  | .func =>
      ⟨.record [("name", .name), ("params", .bindings), ("return_type", .resultType),
          ("body", .block)]
        fun (name, params, result, body, _) => ⟨name, params, result, body⟩, none⟩
  | .funcs => ⟨.list .func id, none⟩
  | .program => ⟨.record [("declarations", .funcs)] fun (functions, _) => ⟨functions⟩, none⟩

/-! ## Writing -/

def BinOp.caseName : BinOp → String
  | .add => "Add"
  | .sub => "Subtract"
  | .mul => "Multiply"
  | .div => "Divide"
  | .rem => "Remainder"

def BinOp.write (op : BinOp) : List Char := writeText op.caseName

def Ty.write : Ty → List Char
  | .int => writeText "Int"

def Binding.write (b : Binding) : List Char :=
  writeObject [("name", writeText b.name), ("ty", b.type.write)]

mutual

def Expr.write : Expr → List Char
  | .var x => writeObject [("Var", writeText x)]
  | .const n => writeObject [("Constant", writeInt n.toInt)]
  | .binary op lhs rhs =>
      writeObject [("Binary",
        writeObject [("op", op.write), ("lhs", lhs.write), ("rhs", rhs.write)])]
  | .call callee args =>
      writeObject [("FunctionCall", writeArray [writeText callee, writeArray (Expr.writeAll args)])]

def Expr.writeAll : List Expr → List (List Char)
  | [] => []
  | e :: es => e.write :: Expr.writeAll es

end

mutual

def Stmt.write : Stmt → List Char
  | .declare b => writeObject [("VarDecl", b.write)]
  | .assign x v =>
      writeObject [("Assignment", writeObject [("name", writeText x), ("value", v.write)])]
  | .eval v => writeObject [("Expression", v.write)]
  | .ret none => writeObject [("Return", writeNull)]
  | .ret (some v) => writeObject [("Return", v.write)]
  | .block body => writeObject [("Compound", writeArray (Stmt.writeAll body))]

def Stmt.writeAll : List Stmt → List (List Char)
  | [] => []
  | s :: ss => s.write :: Stmt.writeAll ss

end

def writeBlock (body : List Stmt) : List Char := writeArray (Stmt.writeAll body)

def Func.write (f : Func) : List Char :=
  writeObject [("name", writeText f.name),
    ("params", writeArray (f.params.map Binding.write)),
    ("return_type", match f.result with | some t => t.write | none => writeNull),
    ("body", writeBlock f.body)]

def Program.write (p : Program) : List Char :=
  writeObject [("declarations", writeArray (p.functions.map Func.write))]

/-! ## Types that have a document -/

/-- A type whose values are the documents of a kind. -/
class Document (α : Type) where
  kind : Kind
  /-- The values of the kind are the values of the type. -/
  ofEl : kind.El → α
  writeChars : α → List Char

namespace Document

def read {α : Type} [Document α] (text : String) : Except Fault α :=
  (Grammar.document grammar (kind α) text.toList).map ofEl

def write {α : Type} [Document α] (value : α) : String := String.ofList (writeChars value)

end Document

instance : Document BinOp := ⟨.operator, id, BinOp.write⟩

instance : Document Ty := ⟨.type, id, Ty.write⟩

instance : Document Binding := ⟨.binding, id, Binding.write⟩

instance : Document Expr := ⟨.expr, id, Expr.write⟩

instance : Document Stmt := ⟨.stmt, id, Stmt.write⟩

instance : Document (List Stmt) := ⟨.block, id, writeBlock⟩

instance : Document Func := ⟨.func, id, Func.write⟩

instance : Document Program := ⟨.program, id, Program.write⟩

end IntBackend
