/-
# IntBackend.Proofs.Session.Containment — what a run can change

A run reads one file and then does at most one thing: it prints, or it writes one
file. Up to the code everything is decided before anything is touched, so a run that
fails there leaves no trace (`Outcome.Traceless`). The outside may refuse to read,
create, write or print at any point and for any reason (`Faults`), and may stop in the
middle of a text. `Outcome.Contained` lists what a run can do to the files and to the
standard output, stage by stage, and `Options.run_contained` says that no run does more.
-/
import IntBackend.Session.Run
import IntBackend.Proofs.Session.FileTrees
import IntBackend.Proofs.Source.Documents

namespace IntBackend

set_option autoImplicit false

/-! ## An outside that fails -/

/-- What goes wrong outside, besides what the tree itself forbids. -/
structure Faults where
  read : Option IoFault
  create : Option IoFault
  /-- After so many bytes. -/
  write : Option (Nat × IoFault)
  print : Option (Nat × IoFault)

/-- A tree as the outside that may fail at any point. -/
def FileTree.hostWith (tree : FileTree) (faults : Faults) : Host where
  read path :=
    match faults.read with
    | some fault => .error fault
    | none => tree.read path
  create path :=
    match faults.create with
    | some fault => .error fault
    | none => do
        let _ ← tree.creatable path
        .ok ()
  write path _ :=
    match faults.write with
    | some (bytes, fault) => .part bytes fault
    | none =>
        match tree.writable path with
        | .ok _ => .all
        | .error fault => .part 0 fault
  print _ :=
    match faults.print with
    | some (bytes, fault) => .part bytes fault
    | none => .all

theorem FileTree.host_eq_hostWith (tree : FileTree) (stdoutFull : Bool) :
    tree.host stdoutFull =
      tree.hostWith ⟨none, none, none, if stdoutFull then some (0, .noSpace) else none⟩ := by
  cases stdoutFull <;> rfl

theorem FileTree.writable_of_all {tree : FileTree} {faults : Faults} {path : String}
    {content : ByteArray} (all : (tree.hostWith faults).write path content = .all) :
    tree.writable path = .ok () := by
  simp only [hostWith] at all
  split at all
  · cases all
  · split at all
    · rename_i ok
      exact ok
    · cases all

/-! ## What is said of a run -/

/-- The file at a path can be read and holds a text. -/
def Host.Holds (host : Host) (path text : String) : Prop :=
  ∃ bytes, host.read path = .ok bytes ∧ String.fromUTF8? bytes = some text

/-- The input is a program with this code. -/
def Options.Yields (options : Options) (host : Host) (code : Code) : Prop :=
  ∃ text program, host.Holds options.input text ∧ Document.read text = .ok program ∧
    Program.lower program options.target = .ok code

namespace Outcome

/-- Neither the files nor the standard output show that there was a run. -/
def Traceless (outcome : Outcome) (tree : FileTree) : Prop :=
  tree.after outcome = tree ∧ outcome.output = .empty

/-- How a run ends and what it changes, by the stage that it comes to. -/
structure Contained (outcome : Outcome) (options : Options) (tree : FileTree) (host : Host) :
    Prop where
  unreadable {fault : IoFault} : host.read options.input = .error fault →
    outcome.ending = .failed (.input options.input fault) ∧ outcome.Traceless tree
  notText {bytes : ByteArray} : host.read options.input = .ok bytes →
    String.fromUTF8? bytes = none →
    outcome.ending = .failed (.input options.input .notText) ∧ outcome.Traceless tree
  unparsed {text : String} {fault : Json.Fault} : host.Holds options.input text →
    (Document.read text : Except Json.Fault Program) = .error fault →
    outcome.ending = .failed (.document options.input fault) ∧ outcome.Traceless tree
  unlowered {text : String} {program : Program} {fault : LoweringFault} :
    host.Holds options.input text → Document.read text = .ok program →
    program.lower options.target = .error fault →
    outcome.ending = .failed (.lowering fault) ∧ outcome.Traceless tree
  /-- A failure is internal exactly if a program was read and could not be lowered. -/
  internal {failure : Failure} : outcome.ending = .failed failure →
    (failure.isInternal = true ↔ ∃ text program fault, host.Holds options.input text ∧
      Document.read text = .ok program ∧ Program.lower program options.target = .error fault)
  /-- A listing goes to the standard output. -/
  listed {code : Code} : options.Yields host code → options.listing = true →
    tree.after outcome = tree
  printed {code : Code} : options.Yields host code → options.listing = false →
    options.destination = .stdout →
    tree.after outcome = tree ∧
      (outcome.ending = .done ↔ host.print (Code.render options.target code).toUTF8 = .all) ∧
      (outcome.ending = .done → outcome.output = (Code.render options.target code).toUTF8)
  /-- One file may change, the one that the path leads to. -/
  written {code : Code} {path : String} : options.Yields host code → options.listing = false →
    options.destination = .file path →
    outcome.output = .empty ∧
      (∀ location, FileTree.entry? (tree.after outcome) location ≠ tree.entry? location →
        tree.creatable path = .ok location) ∧
      (outcome.ending = .done ↔ host.create path = .ok () ∧
        host.write path (Code.render options.target code).toUTF8 = .all) ∧
      (outcome.ending = .done →
        (tree.after outcome).read path = .ok (Code.render options.target code).toUTF8)
  notCreated {code : Code} {path : String} {fault : IoFault} : options.Yields host code →
    options.listing = false → options.destination = .file path →
    host.create path = .error fault →
    outcome.ending = .failed (.create path fault) ∧ outcome.Traceless tree

theorem traceless_of_effects {outcome : Outcome} (none : outcome.effects = [])
    (tree : FileTree) : outcome.Traceless tree := by
  simp [Traceless, FileTree.after, output, none]

/-- Printing changes no file. -/
theorem after_of_printed {outcome : Outcome} {content : ByteArray}
    (printed : outcome.effects = [.printed content]) (tree : FileTree) :
    tree.after outcome = tree ∧ outcome.output = content := by
  simp [FileTree.after, FileTree.apply, output, printed]

/-- Storing prints nothing. -/
theorem after_of_stored {outcome : Outcome} {path : String} {content : ByteArray}
    (stored : outcome.effects = [.stored path content]) (tree : FileTree) :
    tree.after outcome = tree.store path content ∧ outcome.output = .empty := by
  simp [FileTree.after, FileTree.apply, output, stored]

end Outcome

/-! ## Up to the code -/

namespace Options

variable {options : Options} {host : Host}

/-- A run that fails before it acts has no effects. -/
theorem run_of_error {failure : Failure}
    (fails : (options.plan (host.read options.input)).action = .error failure) :
    (options.run host).ending = .failed failure ∧ (options.run host).effects = [] := by
  simp only [run, fails, and_self]

theorem run_of_ok {action : Action}
    (plans : (options.plan (host.read options.input)).action = .ok action) :
    (options.run host).ending = (action.perform host).ending ∧
      (options.run host).effects = (action.perform host).effects := by
  simp only [run, plans, and_self]

/-- What is done is decided by reading, parsing and lowering, in this order. -/
theorem action_plan (content : Except IoFault ByteArray) :
    (options.plan content).action = (options.program content).bind fun program =>
      ((program.lower options.target).mapError Failure.lowering).map options.action := by
  rw [plan]
  cases options.program content with
  | error failure => rfl
  | ok program =>
      simp only [Except.bind]
      cases program.lower options.target <;> rfl

theorem program_of_holds {text : String} (holds : host.Holds options.input text) :
    options.program (host.read options.input) =
      (Document.read text).mapError (.document options.input) := by
  obtain ⟨bytes, reads, decodes⟩ := holds
  simp only [program, reads, decodes]

theorem plan_of_lower {text : String} {program : Program}
    (holds : host.Holds options.input text) (parses : Document.read text = .ok program) :
    (options.plan (host.read options.input)).action =
      ((program.lower options.target).mapError Failure.lowering).map options.action := by
  rw [action_plan, program_of_holds holds, parses]
  rfl

/-- If the input yields code, the action is the one that the options ask for. -/
theorem plan_of_yields {code : Code} (yields : options.Yields host code) :
    (options.plan (host.read options.input)).action = .ok (options.action code) := by
  obtain ⟨text, program, holds, parses, lowers⟩ := yields
  rw [plan_of_lower holds parses, lowers]
  rfl

/-- A run that fails before it acts leaves every tree as it is. -/
theorem refused {failure : Failure}
    (fails : (options.plan (host.read options.input)).action = .error failure)
    (tree : FileTree) :
    (options.run host).ending = .failed failure ∧ (options.run host).Traceless tree := by
  obtain ⟨ending, effects⟩ := run_of_error fails
  exact ⟨ending, Outcome.traceless_of_effects effects tree⟩

theorem fromUTF8?_toUTF8 (text : String) : String.fromUTF8? text.toUTF8 = some text := by
  rw [String.fromUTF8?, dif_pos (by simpa using text.isValidUTF8)]
  rfl

/-- The text of a program that lowers yields its code. -/
theorem yields_of_write {p : Program} {code : Code}
    (reads : host.read options.input = .ok (Document.write p).toUTF8)
    (shallow : Json.nesting (Document.write p).toList ≤ Json.depthLimit)
    (lowers : p.lower options.target = .ok code) : options.Yields host code := by
  have parses : Document.read (Document.write p) = .ok p := by
    rw [Document.read_write_eq_allow, Json.allow_of_le shallow]
  exact ⟨Document.write p, p, ⟨_, reads, fromUTF8?_toUTF8 _⟩, parses, lowers⟩

/-! ## Internal failures -/

theorem not_internal_of_program {content : Except IoFault ByteArray} {failure : Failure}
    (fails : options.program content = .error failure) : failure.isInternal = false := by
  cases content with
  | error fault =>
      cases fails
      rfl
  | ok bytes =>
      simp only [program] at fails
      split at fails
      · cases fails
        rfl
      · rename_i text _
        cases parsed : (Document.read text : Except Json.Fault Program) with
        | ok program => simp [parsed, Except.mapError] at fails
        | error fault =>
            rw [parsed] at fails
            cases fails
            rfl

/-- A program can only come from a text that the host holds. -/
theorem holds_of_program {program : Program}
    (ok : options.program (host.read options.input) = .ok program) :
    ∃ text, host.Holds options.input text ∧ Document.read text = .ok program := by
  cases reads : host.read options.input with
  | error fault => simp [reads, Options.program] at ok
  | ok bytes =>
      simp only [reads, Options.program] at ok
      split at ok
      · cases ok
      · rename_i text decodes
        refine ⟨text, ⟨bytes, reads, decodes⟩, ?_⟩
        cases parsed : (Document.read text : Except Json.Fault Program) with
        | ok program =>
            rw [parsed] at ok
            cases ok
            rfl
        | error fault => simp [parsed, Except.mapError] at ok

theorem not_internal_of_perform {action : Action} {failure : Failure}
    (fails : (action.perform host).ending = .failed failure) : failure.isInternal = false := by
  cases action with
  | list text =>
      rw [Action.perform] at fails
      split at fails <;> cases fails
  | print text =>
      rw [Action.perform] at fails
      split at fails <;> cases fails
      rfl
  | write path text =>
      rw [Action.perform] at fails
      split at fails
      · cases fails
        rfl
      · split at fails <;> cases fails
        rfl

/-- An internal failure is one of lowering, on an input that was read and parsed. -/
theorem lowering_of_internal {failure : Failure}
    (fails : (options.run host).ending = .failed failure) (internal : failure.isInternal = true) :
    ∃ text program fault, host.Holds options.input text ∧ Document.read text = .ok program ∧
      Program.lower program options.target = .error fault := by
  cases plans : (options.plan (host.read options.input)).action with
  | ok action =>
      rw [(run_of_ok plans).1] at fails
      simp [not_internal_of_perform fails] at internal
  | error other =>
      rw [(run_of_error plans).1] at fails
      cases fails
      rw [action_plan] at plans
      cases reads : options.program (host.read options.input) with
      | error other =>
          rw [reads] at plans
          cases plans
          simp [not_internal_of_program reads] at internal
      | ok program =>
          obtain ⟨text, holds, parses⟩ := holds_of_program reads
          rw [reads] at plans
          cases lowers : program.lower options.target with
          | error fault => exact ⟨text, program, fault, holds, parses, lowers⟩
          | ok code => simp [Except.bind, lowers, Except.mapError, Except.map] at plans

/-! ## Performing -/

theorem action_listing (listing : options.listing = true) (code : Code) :
    ∃ text, options.action code = .list text := by
  simp [action, listing]

theorem action_stdout (notListing : options.listing = false)
    (there : options.destination = .stdout) (code : Code) :
    options.action code = .print (Code.render options.target code) := by
  simp [action, notListing, there]

theorem action_file (notListing : options.listing = false) {path : String}
    (there : options.destination = .file path) (code : Code) :
    options.action code = .write path (Code.render options.target code) := by
  simp [action, notListing, there]

theorem run_listing {code : Code} (yields : options.Yields host code)
    (listing : options.listing = true) (tree : FileTree) :
    tree.after (options.run host) = tree := by
  obtain ⟨-, effects⟩ := run_of_ok (plan_of_yields yields)
  obtain ⟨text, lists⟩ := action_listing listing code
  rw [lists, Action.perform] at effects
  split at effects <;> exact (Outcome.after_of_printed effects tree).1

/-- Printing changes no file, and ends well exactly if all of the text is taken. -/
theorem run_printing {code : Code} (yields : options.Yields host code)
    (notListing : options.listing = false) (there : options.destination = .stdout)
    (tree : FileTree) :
    tree.after (options.run host) = tree ∧
      ((host.print (Code.render options.target code).toUTF8 = .all ∧
        (options.run host).ending = .done ∧
        (options.run host).output = (Code.render options.target code).toUTF8) ∨
      ∃ bytes fault, host.print (Code.render options.target code).toUTF8 = .part bytes fault ∧
        (options.run host).ending = .failed (.stdout fault)) := by
  obtain ⟨ending, effects⟩ := run_of_ok (plan_of_yields yields)
  rw [action_stdout notListing there, Action.perform] at ending effects
  cases taken : host.print (Code.render options.target code).toUTF8 with
  | all =>
      rw [taken] at ending effects
      obtain ⟨same, shown⟩ := Outcome.after_of_printed effects tree
      exact ⟨same, .inl ⟨rfl, ending, shown⟩⟩
  | part bytes fault =>
      rw [taken] at ending effects
      exact ⟨(Outcome.after_of_printed effects tree).1, .inr ⟨bytes, fault, rfl, ending⟩⟩

/-- A file that cannot be created is left alone; one that is created holds the text, or the
part of it that was taken. -/
theorem run_writing {code : Code} {path : String} (yields : options.Yields host code)
    (notListing : options.listing = false) (there : options.destination = .file path)
    (tree : FileTree) :
    (∃ fault, host.create path = .error fault ∧
      (options.run host).ending = .failed (.create path fault) ∧
      (options.run host).Traceless tree) ∨
    host.create path = .ok () ∧ (options.run host).output = .empty ∧
      ((host.write path (Code.render options.target code).toUTF8 = .all ∧
        (options.run host).ending = .done ∧
        tree.after (options.run host) =
          tree.store path (Code.render options.target code).toUTF8) ∨
      ∃ bytes fault, host.write path (Code.render options.target code).toUTF8 =
          .part bytes fault ∧ (options.run host).ending = .failed (.write path fault) ∧
        tree.after (options.run host) =
          tree.store path ((Code.render options.target code).toUTF8.extract 0 bytes)) := by
  obtain ⟨ending, effects⟩ := run_of_ok (plan_of_yields yields)
  rw [action_file notListing there, Action.perform] at ending effects
  cases created : host.create path with
  | error fault =>
      rw [created] at ending effects
      exact .inl ⟨fault, rfl, ending, Outcome.traceless_of_effects effects tree⟩
  | ok =>
      rw [created] at ending effects
      cases taken : host.write path (Code.render options.target code).toUTF8 with
      | all =>
          simp only [taken] at ending effects
          obtain ⟨after, silent⟩ := Outcome.after_of_stored effects tree
          exact .inr ⟨rfl, silent, .inl ⟨rfl, ending, after⟩⟩
      | part bytes fault =>
          simp only [taken] at ending effects
          obtain ⟨after, silent⟩ := Outcome.after_of_stored effects tree
          exact .inr ⟨rfl, silent, .inr ⟨bytes, fault, rfl, ending, after⟩⟩

/-- Output is produced only for programs that lower, and in one place only. -/
theorem run_contained (options : Options) (tree : FileTree) (faults : Faults) :
    (options.run (tree.hostWith faults)).Contained options tree (tree.hostWith faults) where
  unreadable reads := by
    apply refused
    rw [action_plan, reads]
    rfl
  notText reads binary := by
    apply refused
    rw [action_plan, reads]
    simp [program, binary, Except.bind]
  unparsed holds fails := by
    apply refused
    rw [action_plan, program_of_holds holds, fails]
    rfl
  unlowered holds parses fails := by
    apply refused
    rw [plan_of_lower holds parses, fails]
    rfl
  internal fails := by
    constructor
    · exact lowering_of_internal fails
    · rintro ⟨text, program, fault, holds, parses, lowers⟩
      have plans := plan_of_lower holds parses
      rw [lowers] at plans
      rw [(run_of_error plans).1] at fails
      cases fails
      rfl
  listed yields listing := run_listing yields listing tree
  printed yields notListing there := by
    obtain ⟨same, ⟨takes, ends, shown⟩ | ⟨bytes, fault, stops, ends⟩⟩ :=
      run_printing yields notListing there tree
    · exact ⟨same, ⟨fun _ => takes, fun _ => ends⟩, fun _ => shown⟩
    · rw [ends, stops]
      simp [same]
  written yields notListing there := by
    rcases run_writing yields notListing there tree with ⟨fault, refuses, ends, same, silent⟩ |
      ⟨creates, silent, ⟨writes, ends, after⟩ | ⟨bytes, fault, stops, ends, after⟩⟩
    · rw [same, ends, refuses]
      simp [silent]
    · rw [after]
      exact ⟨silent, fun _ => FileTree.creatable_of_store_ne,
        ⟨fun _ => ⟨creates, writes⟩, fun _ => ends⟩,
        fun _ => FileTree.read_store _ (FileTree.writable_of_all writes)⟩
    · rw [after, ends, stops]
      refine ⟨silent, fun _ => FileTree.creatable_of_store_ne, ?_, ?_⟩
      · simp
      · simp
  notCreated yields notListing there refuses := by
    rcases run_writing yields notListing there tree with ⟨fault, refusesToo, ends, traceless⟩ |
      ⟨creates, -⟩
    · cases refuses.symm.trans refusesToo
      exact ⟨ends, traceless⟩
    · cases refuses.symm.trans creates

end Options

/-- The entry function alone, which does nothing. -/
def idleEntry : Program := ⟨[⟨"main", [], none, []⟩]⟩

/-- A working directory with the text of that program in it. -/
def besideProgram : FileTree where
  entries := [([], .directory), (["work"], .directory),
    (["work", "p"], .file (Document.write idleEntry).toUTF8)]
  cwd := ["work"]

/-- From the program to a file beside it. -/
def intoFile : Options := ⟨"p", some "q", .linux, false⟩

/-- Room for seven bytes is left. -/
def almostFull : Faults := ⟨none, none, some (7, .noSpace), none⟩

def nothingCreated : Faults := ⟨none, some .noSpace, none, none⟩

def noFaults : Faults := ⟨none, none, none, none⟩

/-- The two paths are names in the working directory. -/
theorem names_besideProgram {path : String} (either : path ∈ ["p", "q"]) :
    Path.names path = [path] ∧ besideProgram.start path = ["work"] := by
  have paths : path = "p" ∨ path = "q" := by simpa using either
  -- Splitting recurs on positions: one step for the only character and one for the end.
  rcases paths with rfl | rfl <;> refine ⟨?_, by simp [FileTree.start, besideProgram]⟩ <;>
    rw [Path.names, String.splitOn, if_neg (by decide), String.splitOnAux, if_neg (by decide),
      if_neg (by decide), String.splitOnAux, if_pos (by decide)] <;>
    rfl

theorem creatable_besideProgram : besideProgram.creatable "q" = .ok ["work", "q"] := by
  obtain ⟨names, start⟩ := names_besideProgram (by simp : "q" ∈ ["p", "q"])
  rw [FileTree.creatable, names, start]
  rfl

theorem writable_besideProgram : besideProgram.writable "q" = .ok () := by
  rw [FileTree.writable, creatable_besideProgram]
  rfl

theorem create_besideProgram (faults : Faults) (creates : faults.create = none) :
    (besideProgram.hostWith faults).create "q" = .ok () := by
  simp [FileTree.hostWith, creates, creatable_besideProgram, bind, Except.bind]

theorem read_besideProgram : besideProgram.read "p" = .ok (Document.write idleEntry).toUTF8 := by
  obtain ⟨names, start⟩ := names_besideProgram (by simp : "p" ∈ ["p", "q"])
  rw [FileTree.read, FileTree.locate, names, start]
  rfl

/-- If reading does not fail, the input yields the code of its program. -/
theorem yields_besideProgram (faults : Faults) (reads : faults.read = none) {code : Code}
    (lowers : idleEntry.lower .linux = .ok code) :
    intoFile.Yields (besideProgram.hostWith faults) code := by
  have shallow : Json.nesting (Document.write idleEntry).toList ≤ Json.depthLimit := by
    rw [Document.write, String.toList_ofList]
    decide +kernel
  have holds : (besideProgram.hostWith faults).read intoFile.input =
      .ok (Document.write idleEntry).toUTF8 := by
    rw [FileTree.hostWith, reads]
    exact read_besideProgram
  exact Options.yields_of_write holds shallow lowers

def outcomeWith (faults : Faults) : Outcome := intoFile.run (besideProgram.hostWith faults)

/-- The same program and the same path on a disk that takes seven bytes, on one where no file
can be created and on one without faults. -/
theorem Options.run_contained_besideProgram :
    ∃ code, idleEntry.lower .linux = .ok code ∧
      ((outcomeWith almostFull).ending = .failed (.write "q" .noSpace) ∧
        (outcomeWith almostFull).output = .empty ∧
        (besideProgram.after (outcomeWith almostFull)).read "q" =
          .ok ((Code.render .linux code).toUTF8.extract 0 7) ∧
        ∀ location, location ≠ ["work", "q"] →
          FileTree.entry? (besideProgram.after (outcomeWith almostFull)) location =
            besideProgram.entry? location) ∧
      ((outcomeWith nothingCreated).ending = .failed (.create "q" .noSpace) ∧
        (outcomeWith nothingCreated).Traceless besideProgram) ∧
      (outcomeWith noFaults).ending = .done ∧
        (besideProgram.after (outcomeWith noFaults)).read "q" =
          .ok (Code.render .linux code).toUTF8 := by
  have lowersOk : (idleEntry.lower .linux).isOk = true := by decide +kernel
  obtain ⟨code, lowers⟩ := exists_ok_of_isOk lowersOk
  have there : intoFile.destination = .file "q" := by decide +kernel
  refine ⟨code, lowers, ?_, ?_, ?_⟩
  · have yields := yields_besideProgram almostFull rfl lowers
    obtain ⟨silent, only, -, -⟩ :=
      (Options.run_contained intoFile besideProgram almostFull).written yields rfl there
    rcases Options.run_writing yields rfl there besideProgram with
      ⟨fault, refuses, -⟩ | ⟨-, -, ⟨takes, -⟩ | ⟨bytes, fault, stops, ends, after⟩⟩
    · cases refuses.symm.trans (create_besideProgram almostFull rfl)
    · cases takes
    · cases stops
      refine ⟨ends, silent, ?_, ?_⟩
      · rw [outcomeWith, after]
        exact FileTree.read_store _ writable_besideProgram
      · intro location elsewhere
        refine Classical.byContradiction fun changed => ?_
        have same := (only location changed).symm.trans creatable_besideProgram
        exact elsewhere (Except.ok.inj same)
  · exact (Options.run_contained intoFile besideProgram nothingCreated).notCreated
      (yields_besideProgram nothingCreated rfl lowers) rfl there rfl
  · obtain ⟨-, -, ends, holds⟩ :=
      (Options.run_contained intoFile besideProgram noFaults).written
        (yields_besideProgram noFaults rfl lowers) rfl there
    have done := ends.mpr ⟨create_besideProgram noFaults rfl,
      by simp [FileTree.hostWith, noFaults, writable_besideProgram]⟩
    exact ⟨done, holds done⟩

end IntBackend
