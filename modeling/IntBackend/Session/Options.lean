/-
# IntBackend.Session.Options — the command line

    <INPUT_FILE> [-o|--output PATH] [--target-os OS] [--codegen] [-V|--version] [-h|--help]

Arguments are taken from left to right. The value of an option may be attached
to it or be the next argument; a value that was its own argument is checked when
the next argument that is understood has been seen, or at the end. After `--`
every argument is a file.
-/
import IntBackend.Machine.Target
import IntBackend.Session.Path

namespace IntBackend

set_option autoImplicit false

structure Options where
  input : String
  output : Option String
  target : Target
  listing : Bool
  deriving DecidableEq, Repr

inductive Destination where
  | stdout
  | file (path : String)
  deriving DecidableEq, Repr

/-- The assembly goes beside the input unless the command line says otherwise. -/
def Options.destination (options : Options) : Destination :=
  match options.output with
  | some "-" => .stdout
  | some path => .file path
  | none => .file (Path.withExtension options.input "s")

/-- Why a command line does not start a run. -/
inductive Usage where
  | missingInput
  | unknownArgument
  /-- An option without its value, or an empty path. -/
  | missingValue
  | unknownTarget
  | unexpectedValue
  | repeated
  | version
  | help
  deriving DecidableEq, Repr

/-- What takes a value. -/
inductive Slot where
  | input
  | output
  | target
  deriving DecidableEq, Repr

/-- What the arguments so far have said. -/
structure Draft where
  input : Option String
  output : Option String
  target : Option Target
  listing : Bool
  /-- A slot whose value is still to come, or has come and is not yet checked. -/
  pending : Option (Slot × Option String)
  fileSeen : Bool
  filesOnly : Bool
  deriving DecidableEq, Repr

namespace Draft

def empty : Draft := ⟨none, none, none, false, none, false, false⟩

/-- A path that is not empty, for a slot that has none yet. -/
def newPath (old : Option String) (value : String) : Except Usage (Option String) :=
  if old.isSome then .error .repeated
  else if value.isEmpty then .error .missingValue
  else .ok (some value)

/-- Gives a slot its value. -/
def fill (draft : Draft) (slot : Slot) (value : String) : Except Usage Draft :=
  match slot with
  | .input => do
      let input ← newPath draft.input value
      .ok { draft with input }
  | .output => do
      let output ← newPath draft.output value
      .ok { draft with output }
  | .target =>
      if draft.target.isSome then .error .repeated
      else match Target.ofName value with
        | .ok target => .ok { draft with target := some target }
        | .error _ => .error .unknownTarget

/-- Settles what is pending. -/
def settle (draft : Draft) : Except Usage Draft :=
  match draft.pending with
  | none => .ok draft
  | some (_, none) => .error .missingValue
  | some (slot, some value) => { draft with pending := none }.fill slot value

/-- An option with the value attached to it, or else with the next argument as its value. -/
def option (draft : Draft) (slot : Slot) (attached : Option String) : Except Usage Draft := do
  let draft ← draft.settle
  match attached with
  | some value => draft.fill slot value
  | none => .ok { draft with pending := some (slot, none) }

def file (draft : Draft) (path : String) : Except Usage Draft :=
  if draft.fileSeen then .error .unknownArgument
  else do
    let draft ← draft.settle
    .ok { draft with pending := some (.input, some path), fileSeen := true }

/-- An option that ends the command line once what is pending has been settled. -/
def ending (draft : Draft) (usage : Usage) : Except Usage Draft := do
  let _ ← draft.settle
  .error usage

def listingFlag (draft : Draft) : Except Usage Draft := do
  let draft ← draft.settle
  if draft.listing then .error .repeated else .ok { draft with listing := true }

/-- An argument after two dashes: a name, and perhaps `=` and a value. -/
def long (draft : Draft) (argument : List Char) : Except Usage Draft :=
  let (name, rest) := argument.span (· ≠ '=')
  let attached := match rest with
    | [] => none
    | _ :: value => some (String.ofList value)
  match String.ofList name, attached with
  | "output", _ => draft.option .output attached
  | "target-os", _ => draft.option .target attached
  | "codegen", none => draft.listingFlag
  | "help", none => draft.ending .help
  | "version", none => draft.ending .version
  | "codegen", some _ => .error .unexpectedValue
  | "help", some _ => .error .unexpectedValue
  | "version", some _ => .error .unexpectedValue
  | _, _ => .error .unknownArgument

/-- The letters after one dash. The first that is an option decides: the rest is
its value, with or without `=`. -/
def short (draft : Draft) : List Char → Except Usage Draft
  | 'o' :: [] => draft.option .output none
  | 'o' :: '=' :: value => draft.option .output (some (String.ofList value))
  | 'o' :: value => draft.option .output (some (String.ofList value))
  | 'h' :: _ => draft.ending .help
  | 'V' :: _ => draft.ending .version
  | _ => .error .unknownArgument

/-- An argument that is no option: a value that is awaited, or the file. -/
def plain (draft : Draft) (argument : String) : Except Usage Draft :=
  match draft.pending with
  | some (slot, none) => .ok { draft with pending := some (slot, some argument) }
  | _ => draft.file argument

def take (draft : Draft) (argument : String) : Except Usage Draft :=
  if draft.filesOnly then draft.file argument
  else match argument.toList with
    | ['-', '-'] => .ok { draft with filesOnly := true }
    | '-' :: '-' :: rest => draft.long rest
    | '-' :: c :: rest => draft.short (c :: rest)
    | _ => draft.plain argument

/-- The options at the end of the arguments. -/
def finish (draft : Draft) : Except Usage Options := do
  let draft ← draft.settle
  match draft.input with
  | none => .error .missingInput
  | some input => .ok ⟨input, draft.output, draft.target.getD .linux, draft.listing⟩

end Draft

def Options.parse (arguments : List String) : Except Usage Options := do
  let draft ← arguments.foldlM Draft.take Draft.empty
  draft.finish

end IntBackend
