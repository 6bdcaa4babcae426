/-
# IntBackend.Session.Run — from options to effects

A run is planned before anything is changed: the plan follows from the options
and from what reading the input file gave, and ends in a failure or in one thing
to do. Only then does the run touch the outside, whose answers are a `Host`.
-/
import IntBackend.Source.Document
import IntBackend.Lowering.Code
import IntBackend.Machine.Assembly
import IntBackend.Machine.Listing
import IntBackend.Output.Sink
import IntBackend.Session.Options
import IntBackend.Session.Event
import IntBackend.Session.Failure

namespace IntBackend

set_option autoImplicit false

/-- The one thing that a successful plan asks for. -/
inductive Action where
  /-- Print the listing of the code. -/
  | list (text : String)
  | print (text : String)
  | write (path text : String)
  deriving DecidableEq, Repr

structure Plan where
  events : List Event
  action : Except Failure Action

/-- The functions up to the first that cannot be lowered, that one included. -/
def attempted (callees : List String) : List Func → List Func
  | [] => []
  | f :: fs =>
      match f.lower callees with
      | .ok _ => f :: attempted callees fs
      | .error _ => [f]

/-- What lowering a program notes down. -/
def Program.loweringEvents (p : Program) (target : Target) : List Event :=
  match resolve p.names Program.entry with
  | .error _ => []
  | .ok _ =>
      (attempted p.names p.functions).map (fun f => .lowering f.name f.frameSize) ++
        match p.lower target with
        | .ok code => [.lowered code.length]
        | .error _ => []

namespace Options

/-- The program in the input file, given what reading the file gave. -/
def program (options : Options) (content : Except IoFault ByteArray) : Except Failure Program :=
  match content with
  | .error fault => .error (.input options.input fault)
  | .ok bytes =>
      match String.fromUTF8? bytes with
      | none => .error (.input options.input .notText)
      | some text => (Document.read text).mapError (.document options.input)

/-- What is to be done with the code. -/
def action (options : Options) (code : Code) : Action :=
  if options.listing then .list (Code.list code ++ "\n")
  else match options.destination with
    | .stdout => .print (Code.render options.target code)
    | .file path => .write path (Code.render options.target code)

/-- What turning code into assembly notes down. -/
def printingEvents (options : Options) (code : Code) : List Event :=
  if options.listing then [] else [.printing code.length options.target]

def plan (options : Options) (content : Except IoFault ByteArray) : Plan :=
  let started := [Event.compiling options.input options.target]
  match options.program content with
  | .error failure => ⟨started, .error failure⟩
  | .ok program =>
      let read := started ++ [.read program.functions.length]
      let lowering := read ++ program.loweringEvents options.target
      match program.lower options.target with
      | .error fault => ⟨lowering, .error (.lowering fault)⟩
      | .ok code => ⟨lowering ++ options.printingEvents code, .ok (options.action code)⟩

end Options

/-! ## Carrying out a plan -/

/-- How much of a text a file or the standard output has taken. -/
inductive Stored where
  | all
  | part (bytes : Nat) (fault : IoFault)
  deriving DecidableEq, Repr

/-- What the outside answers. -/
structure Host where
  read : String → Except IoFault ByteArray
  create : String → Except IoFault Unit
  write : String → ByteArray → Stored
  print : ByteArray → Stored

/-- A change that a run makes. -/
inductive Effect where
  | stored (path : String) (content : ByteArray)
  | printed (content : ByteArray)

/-- How a run ends. -/
inductive Ending where
  | done
  | failed (failure : Failure)
  /-- The listing could not be printed. -/
  | aborted
  deriving DecidableEq, Repr

structure Outcome where
  events : List Event
  effects : List Effect
  ending : Ending

/-- Carries out an action: what it notes down, what it changes, and how it ends.
A file is created only when the text for it is there. -/
def Action.perform (host : Host) : Action → Outcome
  | .list text =>
      match host.print text.toUTF8 with
      | .all => ⟨[], [.printed text.toUTF8], .done⟩
      | .part bytes _ => ⟨[], [.printed (text.toUTF8.extract 0 bytes)], .aborted⟩
  | .print text =>
      match host.print text.toUTF8 with
      | .all => ⟨[], [.printed text.toUTF8], .done⟩
      | .part bytes fault =>
          ⟨[], [.printed (text.toUTF8.extract 0 bytes)], .failed (.stdout fault)⟩
  | .write path text =>
      match host.create path with
      | .error fault => ⟨[], [], .failed (.create path fault)⟩
      | .ok _ =>
          match host.write path text.toUTF8 with
          | .all => ⟨[.wrote text.utf8ByteSize path], [.stored path text.toUTF8], .done⟩
          | .part bytes fault =>
              ⟨[], [.stored path (text.toUTF8.extract 0 bytes)], .failed (.write path fault)⟩

def Options.run (options : Options) (host : Host) : Outcome :=
  let plan := options.plan (host.read options.input)
  match plan.action with
  | .error failure => ⟨plan.events, [], .failed failure⟩
  | .ok action =>
      let outcome := action.perform host
      { outcome with events := plan.events ++ outcome.events }

namespace Outcome

/-- The bytes on the standard output. -/
def output (outcome : Outcome) : ByteArray :=
  outcome.effects.foldl (fun before effect =>
    match effect with
    | .printed content => before ++ content
    | .stored .. => before) .empty

def printed (outcome : Outcome) : String := textOfBytes outcome.output

def exitCode (outcome : Outcome) : Nat :=
  match outcome.ending with
  | .done => 0
  | .failed _ => 1
  | .aborted => 101

/-- What is said about the ending. -/
def report (outcome : Outcome) : String :=
  match outcome.ending with
  | .failed failure => failure.report
  | _ => ""

end Outcome

/-! ## A file tree as the outside -/

namespace FileTree

def host (tree : FileTree) (stdoutFull : Bool) : Host where
  read := tree.read
  create path := do
    let _ ← tree.creatable path
    .ok ()
  write path _ :=
    match tree.writable path with
    | .ok _ => .all
    | .error fault => .part 0 fault
  print _ := if stdoutFull then .part 0 .noSpace else .all

def apply (tree : FileTree) : Effect → FileTree
  | .stored path content => tree.store path content
  | .printed _ => tree

def after (tree : FileTree) (outcome : Outcome) : FileTree := outcome.effects.foldl apply tree

end FileTree

/-! ## The command -/

/-- What `--version` prints. -/
def versionText : String := "minc 0.1.0\n"

/-- The exit code of a command line that starts no run. -/
def Usage.exitCode : Usage → Nat
  | .version | .help => 0
  | _ => 2

end IntBackend
