/-
# IntBackend.Main — the command

Reads the input file, lets the plan of the run decide, and asks the real file system
for what the plan wants. The answers make up a `Host`, and the ending and the report are
those of `Options.run` on it.
-/
import IntBackend.Session.Run

namespace IntBackend.Main

set_option autoImplicit false

/-- A fault of the system by its number, which may come negated. -/
def faultOfCode (code : UInt32) (text : String) : IoFault :=
  let number := if code < 0x80000000 then code else 0 - code
  if number = 2 then .notFound
  else if number = 20 then .notDirectory
  else if number = 21 then .isDirectory
  else if number = 28 then .noSpace
  else if number = 36 then .nameTooLong
  else .other text

def faultOf (error : IO.Error) : IoFault :=
  match error with
  | .noFileOrDirectory _ code text => faultOfCode code text
  | .inappropriateType _ code text => faultOfCode code text
  | .invalidArgument _ code text => faultOfCode code text
  | .resourceExhausted _ code text => faultOfCode code text
  | error => .other (toString error)

/-- The outcome of an action of the system. -/
def attempt {α : Type} (action : IO α) : BaseIO (Except IoFault α) := do
  match ← action.toBaseIO with
  | .ok value => return .ok value
  | .error error => return .error (faultOf error)

def printText (text : String) : IO Unit := do
  let stdout ← IO.getStdout
  stdout.putStr text
  stdout.flush

/-- How much of a text was taken. A system that reports a fault does not say what it took
before, which then counts as nothing. -/
def storedOf : Except IoFault Unit → Stored
  | .ok _ => .all
  | .error fault => .part 0 fault

/-- The answers so far: what reading gave, and no fault. -/
def afterReading (content : Except IoFault ByteArray) : Host where
  read _ := content
  create _ := .ok ()
  write _ _ := .all
  print _ := .all

/-- Asks the system for what the plan wants and adds its answers. -/
def ask (host : Host) : Action → BaseIO Host
  | .list text | .print text => do
      let answer := storedOf (← attempt (printText text))
      return { host with print := fun _ => answer }
  | .write path text => do
      match ← attempt (IO.FS.Handle.mk path .write) with
      | .error fault => return { host with create := fun _ => .error fault }
      | .ok handle =>
          let answer := storedOf (← attempt (do handle.write text.toUTF8; handle.flush))
          return { host with write := fun _ _ => answer }

/-- A run on the real file system: its outcome is the one that the system's answers lead to. -/
def command (options : Options) : BaseIO Outcome := do
  let host := afterReading (← attempt (IO.FS.readBinFile options.input))
  match (options.plan (host.read options.input)).action with
  | .error _ => return options.run host
  | .ok action => return options.run (← ask host action)

end IntBackend.Main

open IntBackend in
def main (arguments : List String) : IO UInt32 := do
  match Options.parse arguments with
  | .error usage =>
      if usage = .version then IO.print versionText
      return UInt32.ofNat usage.exitCode
  | .ok options =>
      let outcome ← Main.command options
      IO.eprint outcome.report
      return UInt32.ofNat outcome.exitCode
