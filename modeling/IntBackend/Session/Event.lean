/-
# IntBackend.Session.Event — what a run notes down

A run notes each stage as it comes to it. Notes made before a failure stay.
-/
import IntBackend.Machine.Target

namespace IntBackend

set_option autoImplicit false

inductive Event where
  | compiling (input : String) (target : Target)
  | read (functions : Nat)
  | lowering (function : String) (frameSize : Nat)
  | lowered (instructions : Nat)
  | printing (instructions : Nat) (target : Target)
  | wrote (bytes : Nat) (path : String)
  deriving DecidableEq, Repr

namespace Event

/-- The level of a note and the part of the program that makes it. -/
def source : Event → String
  | .compiling .. => "INFO minc::driver"
  | .read _ => "DEBUG minc::driver"
  | .lowering .. => "DEBUG minc_asmgen::lower"
  | .lowered _ => "TRACE minc_asmgen::lower"
  | .printing .. => "TRACE minc_emit"
  | .wrote .. => "DEBUG minc_emit"

def message : Event → String
  | .compiling input target => "compiling " ++ input ++ " for " ++ target.name
  | .read functions => "read " ++ functions.repr ++ " function declarations"
  | .lowering function frameSize =>
      "lowering function " ++ function ++ " with a frame of " ++ frameSize.repr ++ " bytes"
  | .lowered instructions => "lowered program into " ++ instructions.repr ++ " instructions"
  | .printing instructions target =>
      "printing " ++ instructions.repr ++ " instructions for " ++ target.name
  | .wrote bytes path => "wrote " ++ bytes.repr ++ " bytes of assembly to " ++ path

def render (event : Event) : String := event.source ++ ": " ++ event.message

end Event

end IntBackend
