/-
# IntBackend.Session.Failure — why a run produced nothing

A failure is reported with its causes, the outermost first. A single cause stands
alone, several are numbered; the further lines of a cause are set in as far as
its first one.
-/
import IntBackend.Json.Fault
import IntBackend.Lowering.Fault
import IntBackend.Session.FileTree

namespace IntBackend

set_option autoImplicit false

inductive Failure where
  | input (path : String) (fault : IoFault)
  | document (path : String) (fault : Json.Fault)
  | lowering (fault : LoweringFault)
  | create (path : String) (fault : IoFault)
  | write (path : String) (fault : IoFault)
  | stdout (fault : IoFault)
  deriving DecidableEq, Repr

/-- What is wrong with a text, in words. -/
def Json.Fault.describe (fault : Json.Fault) : String :=
  match fault.message? with
  | some message => message
  | none =>
      match fault with
      | .truncated => "the text ends too early"
      | .mismatch => "a value of another kind is expected"
      | _ => "the text is not well formed"

namespace Failure

/-- A failure that only a mistake of an earlier stage can cause. -/
def isInternal : Failure → Bool
  | .lowering _ => true
  | _ => false

def message : Failure → String
  | .input path fault => "Could not read input file " ++ path ++ ": " ++ fault.message
  | .document path fault => "Could not parse the AST in " ++ path ++ ": " ++ fault.describe
  | .lowering fault => fault.message
  | .create path fault => "Could not create output file " ++ path ++ ": " ++ fault.message
  | .write path fault => "Could not write output file " ++ path ++ ": " ++ fault.message
  | .stdout fault => "Could not write to stdout: " ++ fault.message

/-- The failure and what lies behind it. -/
def causes (failure : Failure) : List String :=
  match failure with
  | .lowering _ => [failure.message]
  | .document _ fault => [failure.message, fault.describe]
  | .input _ fault | .create _ fault | .write _ fault | .stdout fault =>
      [failure.message, fault.message]

def context (failure : Failure) : String :=
  if failure.isInternal then "internal compiler error, no assembly was produced"
  else "no assembly was produced"

/-- Sets every line of a text but the first in by `margin`. -/
def setIn (margin text : String) : String := ("\n" ++ margin).intercalate (text.splitOn "\n")

/-- A cause with its number. -/
def numbered (cause : String × Nat) : String :=
  "    " ++ cause.2.repr ++ ": " ++ setIn "       " cause.1

def renderCauses : List String → String
  | [cause] => "    " ++ setIn "    " cause
  | causes => "\n".intercalate (causes.zipIdx.map numbered)

def report (failure : Failure) : String :=
  "Error: " ++ failure.context ++ "\n\nCaused by:\n" ++ renderCauses failure.causes ++ "\n"

end Failure

end IntBackend
