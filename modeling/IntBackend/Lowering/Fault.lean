/-
# IntBackend.Lowering.Fault — why a program cannot be lowered

Programs are checked before they get here, so each of these points at a mistake
of an earlier stage rather than of the program's author.
-/
import IntBackend.Source.Basic

namespace IntBackend

set_option autoImplicit false

inductive LoweringFault where
  | alreadyDeclared (name function : String)
  | variableNotFound (name function : String)
  | functionNotFound (name : String)
  | unsupportedOperator (op : BinOp)
  /-- The slots handed out do not fill the frame. -/
  | frameMismatch (function : String) (frameSize : Nat) (cursor : Int)
  deriving DecidableEq, Repr

namespace LoweringFault

def quoted (name : String) : String := "\"" ++ name ++ "\""

def message : LoweringFault → String
  | .alreadyDeclared name function =>
      "Variable " ++ quoted name ++ " is already declared in function " ++ quoted function
  | .variableNotFound name function =>
      "Could not find variable " ++ quoted name ++ " in function " ++ quoted function
  | .functionNotFound name => "Could not find function " ++ quoted name
  | .unsupportedOperator op => "Unsupported binary operator " ++ quoted op.symbol
  | .frameMismatch function frameSize cursor =>
      "Stack cursor of " ++ quoted function ++ " ended at " ++ cursor.repr ++
        ", its frame has " ++ frameSize.repr ++ " bytes"

end LoweringFault

end IntBackend
