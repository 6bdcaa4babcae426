/-
# IntBackend.Proofs.Lowering.Renaming — lowering does not look at names

Lowering asks two things of names only: what a variable is bound to, and whether a
function is declared. So two scopes that answer alike (`Scope.Mirrors`), one to the
names of a program and the other to new ones, lead to the same code and to the same
faults, new names apart. The steps of lowering are compared one by one
(`Renaming.Carries`), and whole programs follow.

Two cases are used: new names that keep different names apart
(`Program.lower_renamed`), and the old names with another list of declared functions
(`Func.lower_congr`).
-/
import Mathlib.Data.Set.Function
import IntBackend.Proofs.Lowering.Accesses

namespace IntBackend

set_option autoImplicit false

open Convention

/-! ## New names -/

/-- New names for functions and, within one of them, for variables. -/
structure Renaming where
  ofFunction : String → String
  ofVariable : String → String

mutual

def Expr.renamed (names : Renaming) : Expr → Expr
  | .var name => .var (names.ofVariable name)
  | .const value => .const value
  | .binary op lhs rhs => .binary op (lhs.renamed names) (rhs.renamed names)
  | .call callee args => .call (names.ofFunction callee) (Expr.renamedAll names args)

def Expr.renamedAll (names : Renaming) : List Expr → List Expr
  | [] => []
  | e :: es => e.renamed names :: Expr.renamedAll names es

end

def Binding.renamed (names : Renaming) (binding : Binding) : Binding :=
  { binding with name := names.ofVariable binding.name }

mutual

def Stmt.renamed (names : Renaming) : Stmt → Stmt
  | .declare binding => .declare (binding.renamed names)
  | .assign target value => .assign (names.ofVariable target) (value.renamed names)
  | .eval value => .eval (value.renamed names)
  | .ret none => .ret none
  | .ret (some value) => .ret (some (value.renamed names))
  | .block body => .block (Stmt.renamedAll names body)

def Stmt.renamedAll (names : Renaming) : List Stmt → List Stmt
  | [] => []
  | s :: ss => s.renamed names :: Stmt.renamedAll names ss

end

def Func.renamed (names : Renaming) (f : Func) : Func :=
  { name := names.ofFunction f.name
    params := f.params.map (Binding.renamed names)
    result := f.result
    body := Stmt.renamedAll names f.body }

/-- Each function has its own renaming of variables, by its position. -/
def Program.renamed (ofFunction : String → String) (ofVariable : Nat → String → String)
    (p : Program) : Program :=
  ⟨p.functions.mapIdx fun k f => f.renamed ⟨ofFunction, ofVariable k⟩⟩

def Label.renamed (ofFunction : String → String) : Label → Label
  | .start => .start
  | .function name => .function (ofFunction name)
  | .epilogue name => .epilogue (ofFunction name)

def Operand.renamed (ofFunction : String → String) : Operand → Operand
  | .label l => .label (l.renamed ofFunction)
  | operand => operand

/-- Names occur in code inside labels only. -/
def Instruction.renamed (ofFunction : String → String) (i : Instruction) : Instruction :=
  { label := i.label.map (Label.renamed ofFunction)
    op := i.op
    operands := i.operands.map (Operand.renamed ofFunction) }

def Valued.renamed (ofFunction : String → String) (out : Valued) : Valued :=
  ⟨out.code.map (Instruction.renamed ofFunction), out.value.renamed ofFunction⟩

def LoweringFault.renamed (names : Renaming) : LoweringFault → LoweringFault
  | .alreadyDeclared name function =>
      .alreadyDeclared (names.ofVariable name) (names.ofFunction function)
  | .variableNotFound name function =>
      .variableNotFound (names.ofVariable name) (names.ofFunction function)
  | .functionNotFound name => .functionNotFound (names.ofFunction name)
  | .unsupportedOperator op => .unsupportedOperator op
  | .frameMismatch function frameSize cursor =>
      .frameMismatch (names.ofFunction function) frameSize cursor

/-! ## Names that occur -/

namespace Expr

def calleeName? : Expr → Option String
  | .call callee _ => some callee
  | _ => none

/-- The functions that an expression calls, from left to right. -/
def called (e : Expr) : List String := e.nodes.filterMap calleeName?

theorem called_binary (op : BinOp) (lhs rhs : Expr) :
    (binary op lhs rhs).called = lhs.called ++ rhs.called := by
  rw [called, nodes, List.filterMap_cons_none rfl, List.filterMap_append, called, called]

theorem called_call (callee : String) (args : List Expr) :
    (call callee args).called = callee :: args.flatMap called := by
  have own : calleeName? (call callee args) = some callee := rfl
  rw [called, nodes, List.filterMap_cons_some own, nodesAll_eq_flatMap, List.filterMap_flatMap]
  rfl

end Expr

namespace Stmt

/-- The variables that a statement itself names. -/
def ownNames : Stmt → List String
  | .declare binding => [binding.name]
  | .assign target value => target :: value.named
  | .eval value => value.named
  | .ret (some value) => value.named
  | _ => []

/-- The variables that a statement names at any depth. -/
def named (s : Stmt) : List String := s.leaves.flatMap ownNames

def namedAll (body : List Stmt) : List String := (leavesAll body).flatMap ownNames

/-- The functions that a statement calls at any depth. -/
def called (s : Stmt) : List String := s.exprs.flatMap Expr.called

def calledAll (body : List Stmt) : List String := (exprsAll body).flatMap Expr.called

theorem namedAll_cons (s : Stmt) (ss : List Stmt) :
    namedAll (s :: ss) = s.named ++ namedAll ss := by
  rw [namedAll, leavesAll, List.flatMap_append, named, namedAll]

theorem calledAll_cons (s : Stmt) (ss : List Stmt) :
    calledAll (s :: ss) = s.called ++ calledAll ss := by
  rw [calledAll, exprsAll_cons, List.flatMap_append, called, calledAll]

theorem called_assign (target : String) (value : Expr) :
    (assign target value).called = value.called := by
  simp [called, exprs, leaves, values]

theorem called_eval (value : Expr) : (eval value).called = value.called := by
  simp [called, exprs, leaves, values]

theorem called_ret (value : Expr) : (ret (some value)).called = value.called := by
  simp [called, exprs, leaves, values]

end Stmt

/-- The variables that a function names: its parameters, and what its statements
declare, assign and read. -/
def Func.named (f : Func) : List String := f.params.map Binding.name ++ Stmt.namedAll f.body

def Func.called (f : Func) : List String := Stmt.calledAll f.body

/-- The functions that a program names: those it declares, those it calls, and the one
that a process runs. -/
def Program.functionNames (p : Program) : List String :=
  Program.entry :: (p.names ++ p.functions.flatMap Func.called)

/-! ## Code under new names -/

section Code

variable (names : Renaming) (ofFunction : String → String)

@[simp] theorem isRegister_renamed (operand : Operand) (r : Register) :
    (operand.renamed ofFunction).isRegister r = operand.isRegister r := by
  cases operand <;> rfl

@[simp] theorem isMemory_renamed (operand : Operand) :
    (operand.renamed ofFunction).isMemory = operand.isMemory := by
  cases operand <;> rfl

theorem withWidth_renamed (operand : Operand) (w : Width) :
    (operand.withWidth w).renamed ofFunction = (operand.renamed ofFunction).withWidth w := by
  cases operand <;> rfl

/-- Whether a value has to be moved does not depend on names. -/
theorem intoAccumulator_renamed (operand : Operand) :
    (intoAccumulator operand).map (Instruction.renamed ofFunction) =
      intoAccumulator (operand.renamed ofFunction) := by
  rw [intoAccumulator, intoAccumulator, isRegister_renamed]
  split <;> rfl

theorem park_renamed (left : Valued) :
    (park left).renamed ofFunction = park (left.renamed ofFunction) := by
  have value : (left.renamed ofFunction).value = left.value.renamed ofFunction := rfl
  rw [park, park, value, isRegister_renamed]
  split
  · rw [Valued.renamed, List.map_append]
    rfl
  · rfl

theorem operation_renamed {op : BinOp} {combine : Operand → Code}
    (known : operation op = .ok combine) (left : Operand) :
    (combine left).map (Instruction.renamed ofFunction) = combine (left.renamed ofFunction) := by
  cases op with
  | add => cases known; rfl
  | mul => cases known; rfl
  | sub => cases known; rfl
  | div => cases known
  | rem => cases known

theorem dropArgs_renamed (count : Nat) :
    (dropArgs count).map (Instruction.renamed ofFunction) = dropArgs count := by
  unfold dropArgs
  split <;> rfl

theorem store_renamed (dst src : Operand) :
    (store dst src).map (Instruction.renamed ofFunction) =
      store (dst.renamed ofFunction) (src.renamed ofFunction) := by
  rw [store, store, isMemory_renamed, isMemory_renamed]
  split
  · rw [List.map_append, intoAccumulator_renamed]
    rfl
  · rfl

theorem Expr.length_renamedAll (es : List Expr) :
    (Expr.renamedAll names es).length = es.length := by
  induction es with
  | nil => rfl
  | cons e es ih => rw [Expr.renamedAll, List.length_cons, ih, List.length_cons]

theorem Stmt.declarationsAll_renamedAll {body : List Stmt}
    (each : ∀ s ∈ body, (s.renamed names).declarations = s.declarations) :
    Stmt.declarationsAll (Stmt.renamedAll names body) = Stmt.declarationsAll body := by
  induction body with
  | nil => rfl
  | cons s ss ih =>
      rw [Stmt.renamedAll, Stmt.declarationsAll, Stmt.declarationsAll,
        each s (List.mem_cons_self ..), ih fun t among => each t (List.mem_cons_of_mem _ among)]

theorem Stmt.declarations_renamed (s : Stmt) :
    (s.renamed names).declarations = s.declarations := by
  induction s with
  | declare binding => rfl
  | assign target value => rfl
  | eval value => rfl
  | ret value => cases value <;> rfl
  | block body each => exact Stmt.declarationsAll_renamedAll names each

/-- Renaming keeps the number of declarations and so the frame. -/
theorem Func.frameSize_renamed (f : Func) : (f.renamed names).frameSize = f.frameSize := by
  have body : Stmt.declarationsAll (f.renamed names).body = Stmt.declarationsAll f.body :=
    Stmt.declarationsAll_renamedAll names fun s _ => s.declarations_renamed names
  rw [Func.frameSize, Func.frameSize, Func.registerArgs, Func.registerArgs, body, Func.renamed,
    List.length_map]

theorem Func.prologue_renamed (f : Func) :
    f.prologue.map (Instruction.renamed names.ofFunction) = (f.renamed names).prologue := by
  rw [Func.prologue, Func.prologue, Func.frameSize_renamed]
  rfl

theorem Func.epilogue_renamed (f : Func) :
    f.epilogue.map (Instruction.renamed names.ofFunction) = (f.renamed names).epilogue := by
  rw [Func.epilogue, Func.epilogue, Func.frameSize_renamed]
  rfl

end Code

/-! ## Steps that go together -/

/-- Two results go together: values that are related, or a fault and the same fault
under the new names. -/
inductive Renaming.Carries {α β : Type} (names : Renaming) (related : α → β → Prop) :
    Except LoweringFault α → Except LoweringFault β → Prop
  | value {a : α} {b : β} (holds : related a b) : names.Carries related (.ok a) (.ok b)
  | fault (fault : LoweringFault) :
      names.Carries related (.error fault) (.error (fault.renamed names))

/-- Steps that go together in sequence: a fault of the first is a fault of both. -/
theorem Renaming.Carries.bind {α β γ δ : Type} {names : Renaming} {related : α → β → Prop}
    {further : γ → δ → Prop} {first : Except LoweringFault α} {image : Except LoweringFault β}
    {next : α → Except LoweringFault γ} {nextImage : β → Except LoweringFault δ}
    (carries : names.Carries related first image)
    (onward : ∀ a b, related a b → names.Carries further (next a) (nextImage b)) :
    names.Carries further (first >>= next) (image >>= nextImage) := by
  cases carries with
  | value holds => exact onward _ _ holds
  | fault fault => exact .fault fault

/-- If values are related by renaming them, one result is the other with new names throughout. -/
theorem Renaming.Carries.eq_map {α β : Type} {names : Renaming} {rename : α → β}
    {first : Except LoweringFault α} {image : Except LoweringFault β}
    (carries : names.Carries (fun a b => b = rename a) first image) :
    image = (first.map rename).mapError (LoweringFault.renamed names) := by
  cases carries with
  | value holds => exact congrArg Except.ok holds
  | fault fault => rfl

/-- A callee is known under its new name if it is under the old one. -/
theorem Renaming.carries_resolve (names : Renaming) {callees calleesImage : List String}
    {name : String} (known : names.ofFunction name ∈ calleesImage ↔ name ∈ callees) :
    names.Carries (fun l other => other = l.renamed names.ofFunction)
      (resolve callees name) (resolve calleesImage (names.ofFunction name)) := by
  rw [resolve, resolve]
  by_cases declared : name ∈ callees
  · rw [if_pos declared, if_pos (known.mpr declared)]
    exact .value rfl
  · rw [if_neg declared, if_neg (mt known.mp declared)]
    exact .fault (.functionNotFound name)

/-- The scope `image` answers to the new names as `scope` does to the old ones, for
the variables `vars` and the functions `funs`. -/
structure Scope.Mirrors (names : Renaming) (vars funs : List String) (scope image : Scope) :
    Prop where
  function : image.function = names.ofFunction scope.function
  cursor : image.cursor = scope.cursor
  finds : ∀ name ∈ vars, image.find? (names.ofVariable name) =
    (scope.find? name).map (Operand.renamed names.ofFunction)
  callees : ∀ name ∈ funs, names.ofFunction name ∈ image.callees ↔ name ∈ scope.callees

section Mirrors

variable {names : Renaming} {vars funs : List String} {scope image : Scope}

namespace Scope.Mirrors

/-- A variable is found, or is missing, in both scopes alike. -/
theorem lookup (mirrors : scope.Mirrors names vars funs image) {name : String}
    (occurs : name ∈ vars) :
    names.Carries (fun operand other => other = operand.renamed names.ofFunction)
      (scope.lookup name) (image.lookup (names.ofVariable name)) := by
  rw [Scope.lookup, Scope.lookup, mirrors.finds name occurs, mirrors.function]
  cases scope.find? name with
  | none => exact .fault (.variableNotFound name scope.function)
  | some operand => exact .value rfl

/-- A callee is found, or is missing, in both scopes alike. -/
theorem callee (mirrors : scope.Mirrors names vars funs image) {name : String}
    (occurs : name ∈ funs) :
    names.Carries (fun l other => other = l.renamed names.ofFunction)
      (scope.callee name) (image.callee (names.ofFunction name)) := by
  exact names.carries_resolve (mirrors.callees name occurs)

/-- A new name that is bound is no other variable's new name. -/
theorem bind (mirrors : scope.Mirrors names vars funs image)
    (apart : Set.InjOn names.ofVariable {name | name ∈ vars}) {name : String}
    (occurs : name ∈ vars) (operand : Operand) :
    names.Carries (fun bound other => bound.Mirrors names vars funs other)
      (scope.bind name operand)
      (image.bind (names.ofVariable name) (operand.renamed names.ofFunction)) := by
  rw [Scope.bind, Scope.bind, mirrors.finds name occurs, mirrors.function]
  cases scope.find? name with
  | some taken => exact .fault (.alreadyDeclared name scope.function)
  | none =>
      refine .value ⟨rfl, mirrors.cursor, ?_, mirrors.callees⟩
      intro other occursOther
      have same : names.ofVariable other = names.ofVariable name ↔ other = name :=
        ⟨apart occursOther occurs, congrArg _⟩
      rw [Scope.find?_cons]
      refine Eq.trans (Scope.find?_cons image ..) ?_
      by_cases this : other = name
      · rw [if_pos this, if_pos (same.mpr this)]
        rfl
      · rw [if_neg this, if_neg (mt same.mp this), mirrors.finds other occursOther]

/-- Slots do not depend on names. -/
theorem nextSlot (mirrors : scope.Mirrors names vars funs image) :
    image.nextSlot = scope.nextSlot.renamed names.ofFunction := by
  rw [Scope.nextSlot, mirrors.cursor]
  rfl

/-- Declaring a variable in both scopes keeps them alike. This is where names have to stay apart: a
name that is free must not become one that is bound. -/
theorem declare (mirrors : scope.Mirrors names vars funs image)
    (apart : Set.InjOn names.ofVariable {name | name ∈ vars}) {name : String}
    (occurs : name ∈ vars) :
    names.Carries (fun declared other => declared.Mirrors names vars funs other)
      (scope.declare name) (image.declare (names.ofVariable name)) := by
  rw [Scope.declare, Scope.declare, mirrors.nextSlot]
  refine (mirrors.bind apart occurs _).bind ?_
  intro bound other mirrored
  rw [mirrors.cursor]
  exact .value ⟨mirrored.function, rfl, mirrored.finds, mirrored.callees⟩

theorem exit (mirrors : scope.Mirrors names vars funs image) :
    image.exit = scope.exit.renamed names.ofFunction := by
  rw [Scope.exit, mirrors.function]
  rfl

end Scope.Mirrors

/-! ## Expressions -/

theorem operation_carries (names : Renaming) (op : BinOp) :
    names.Carries (fun combine other => other = combine ∧ operation op = .ok combine)
      (operation op) (operation op) := by
  cases op with
  | add => exact .value ⟨rfl, rfl⟩
  | mul => exact .value ⟨rfl, rfl⟩
  | sub => exact .value ⟨rfl, rfl⟩
  | div => exact .fault (.unsupportedOperator .div)
  | rem => exact .fault (.unsupportedOperator .rem)

/-- The code of `e` under the new names is its code with new names. -/
def Expr.Equivariant (names : Renaming) (scope image : Scope) (e : Expr) : Prop :=
  names.Carries (fun out other => other = out.renamed names.ofFunction)
    (e.lower scope) ((e.renamed names).lower image)

/-- Passing arguments, given that each argument's code only changes its names. -/
theorem Expr.carries_args {args : List Expr}
    (each : ∀ arg ∈ args, arg.Equivariant names scope image) (registers : List Register) :
    names.Carries (fun code other => other = code.map (Instruction.renamed names.ofFunction))
      (Expr.lowerArgs scope registers args)
      (Expr.lowerArgs image registers (Expr.renamedAll names args)) := by
  induction args generalizing registers with
  | nil =>
      rw [Expr.renamedAll, Expr.lowerArgs_nil, Expr.lowerArgs_nil]
      exact .value rfl
  | cons arg args ih =>
      have here := each arg (List.mem_cons_self ..)
      have there := ih fun other among => each other (List.mem_cons_of_mem _ among)
      rw [Expr.renamedAll]
      cases registers with
      | nil =>
          rw [Expr.lowerArgs, Expr.lowerArgs]
          refine (there []).bind ?_
          rintro rest _ rfl
          refine here.bind ?_
          rintro first _ rfl
          refine .value ?_
          rw [List.map_append, List.map_append, Valued.renamed, ← withWidth_renamed]
          rfl
      | cons r rs =>
          rw [Expr.lowerArgs, Expr.lowerArgs]
          refine here.bind ?_
          rintro first _ rfl
          refine (there rs).bind ?_
          rintro rest _ rfl
          refine .value ?_
          rw [List.map_append, List.map_append]
          rfl

/-- Lowering an expression under new names renames its code or its fault. -/
theorem Expr.equivariant (e : Expr) (mirrors : scope.Mirrors names vars funs image)
    (reads : e.named ⊆ vars) (calls : e.called ⊆ funs) : e.Equivariant names scope image := by
  induction e with
  | var name =>
      rw [Expr.Equivariant, Expr.renamed, Expr.lower, Expr.lower]
      refine (mirrors.lookup (reads (List.mem_singleton_self name))).bind ?_
      rintro operand _ rfl
      exact .value rfl
  | const value =>
      rw [Expr.Equivariant, Expr.renamed, Expr.lower, Expr.lower]
      exact .value rfl
  | binary op lhs rhs left right =>
      rw [Expr.named_binary, List.append_subset] at reads
      rw [Expr.called_binary, List.append_subset] at calls
      rw [Expr.Equivariant, Expr.renamed, Expr.lower, Expr.lower]
      refine (operation_carries names op).bind ?_
      rintro combine _ ⟨rfl, known⟩
      refine (left reads.1 calls.1).bind ?_
      rintro l _ rfl
      refine (right reads.2 calls.2).bind ?_
      rintro r _ rfl
      refine .value ?_
      rw [← park_renamed]
      simp only [Valued.renamed, List.map_append, intoAccumulator_renamed,
        operation_renamed _ known]
      rfl
  | call callee args each =>
      rw [Expr.named_call] at reads
      rw [Expr.called_call, List.cons_subset] at calls
      have passes := Expr.carries_args fun arg among => each arg among
        (fun _ inside => reads (List.mem_flatMap_of_mem among inside))
        (fun _ inside => calls.2 (List.mem_flatMap_of_mem among inside))
      rw [Expr.Equivariant, Expr.renamed, Expr.lower, Expr.lower]
      refine (mirrors.callee calls.1).bind ?_
      rintro l _ rfl
      refine (passes argRegisters).bind ?_
      rintro passed _ rfl
      refine .value ?_
      rw [Valued.renamed, List.map_append, List.map_append, dropArgs_renamed,
        Expr.length_renamedAll]
      rfl

/-! ## Statements and parameters -/

/-- Code and the scope after it go together if the code is the same under the new
names and the scope still answers alike. -/
def Renaming.SameOutcome (names : Renaming) (vars funs : List String)
    (out other : Code × Scope) : Prop :=
  other.1 = out.1.map (Instruction.renamed names.ofFunction) ∧
    out.2.Mirrors names vars funs other.2

theorem Stmt.carries_all {body : List Stmt}
    (each : ∀ s ∈ body, ∀ {scope image : Scope}, scope.Mirrors names vars funs image →
      s.named ⊆ vars → s.called ⊆ funs →
      names.Carries (names.SameOutcome vars funs) (s.lower scope) ((s.renamed names).lower image))
    (mirrors : scope.Mirrors names vars funs image) (reads : Stmt.namedAll body ⊆ vars)
    (calls : Stmt.calledAll body ⊆ funs) :
    names.Carries (names.SameOutcome vars funs) (Stmt.lowerAll scope body)
      (Stmt.lowerAll image (Stmt.renamedAll names body)) := by
  induction body generalizing scope image with
  | nil =>
      rw [Stmt.renamedAll, Stmt.lowerAll, Stmt.lowerAll]
      exact .value ⟨rfl, mirrors⟩
  | cons s ss ih =>
      rw [Stmt.namedAll_cons, List.append_subset] at reads
      rw [Stmt.calledAll_cons, List.append_subset] at calls
      rw [Stmt.renamedAll, Stmt.lowerAll, Stmt.lowerAll]
      refine (each s (List.mem_cons_self ..) mirrors reads.1 calls.1).bind ?_
      rintro ⟨head, between⟩ ⟨_, betweenImage⟩ ⟨rfl, mirrorsBetween⟩
      have there := ih (fun t among => each t (List.mem_cons_of_mem _ among)) mirrorsBetween
        reads.2 calls.2
      refine there.bind ?_
      rintro ⟨tail, after⟩ ⟨_, afterImage⟩ ⟨rfl, mirrorsAfter⟩
      exact .value ⟨List.map_append.symm, mirrorsAfter⟩

/-- Lowering a statement under new names renames its code or its fault, and leaves scopes alike. -/
theorem Stmt.carries (s : Stmt) (apart : Set.InjOn names.ofVariable {name | name ∈ vars})
    (mirrors : scope.Mirrors names vars funs image) (reads : s.named ⊆ vars)
    (calls : s.called ⊆ funs) :
    names.Carries (names.SameOutcome vars funs) (s.lower scope)
      ((s.renamed names).lower image) := by
  induction s generalizing scope image with
  | declare binding =>
      rw [Stmt.renamed, Stmt.lower, Stmt.lower]
      refine (mirrors.declare apart (reads (List.mem_singleton_self _))).bind ?_
      intro declared other mirrored
      exact .value ⟨rfl, mirrored⟩
  | assign target value =>
      rw [Stmt.named, Stmt.leaves, List.flatMap_singleton, Stmt.ownNames,
        List.cons_subset] at reads
      rw [Stmt.called_assign] at calls
      rw [Stmt.renamed, Stmt.lower, Stmt.lower]
      refine (mirrors.lookup reads.1).bind ?_
      rintro dst _ rfl
      refine (value.equivariant mirrors reads.2 calls).bind ?_
      rintro src _ rfl
      refine .value ⟨?_, mirrors⟩
      rw [List.map_append, store_renamed]
      rfl
  | eval value =>
      rw [Stmt.named, Stmt.leaves, List.flatMap_singleton] at reads
      rw [Stmt.called_eval] at calls
      rw [Stmt.renamed, Stmt.lower, Stmt.lower]
      refine (value.equivariant mirrors reads calls).bind ?_
      rintro src _ rfl
      exact .value ⟨rfl, mirrors⟩
  | ret value =>
      cases value with
      | none =>
          rw [Stmt.renamed, Stmt.lower, Stmt.lower, mirrors.exit]
          exact .value ⟨rfl, mirrors⟩
      | some value =>
          rw [Stmt.named, Stmt.leaves, List.flatMap_singleton] at reads
          rw [Stmt.called_ret] at calls
          rw [Stmt.renamed, Stmt.lower, Stmt.lower, mirrors.exit]
          refine (value.equivariant mirrors reads calls).bind ?_
          rintro src _ rfl
          refine .value ⟨?_, mirrors⟩
          rw [List.map_append, List.map_append, intoAccumulator_renamed]
          rfl
  | block body each =>
      rw [Stmt.called, Stmt.exprs_block] at calls
      rw [Stmt.renamed, Stmt.lower, Stmt.lower]
      exact Stmt.carries_all (fun inner among => each inner among) mirrors reads calls

/-- Parameters under new names, from registers and from the stack. -/
theorem carries_lowerParams (apart : Set.InjOn names.ofVariable {name | name ∈ vars})
    (registers : List Register) (onStack : Nat) {params : List Binding}
    (mirrors : scope.Mirrors names vars funs image) (reads : params.map Binding.name ⊆ vars) :
    names.Carries (names.SameOutcome vars funs) (lowerParams scope registers onStack params)
      (lowerParams image registers onStack (params.map (Binding.renamed names))) := by
  induction params generalizing scope image registers onStack with
  | nil =>
      rw [List.map_nil]
      cases registers <;> exact .value ⟨rfl, mirrors⟩
  | cons param params ih =>
      rw [List.map_cons, List.cons_subset] at reads
      rw [List.map_cons]
      cases registers with
      | nil =>
          rw [lowerParams, lowerParams]
          refine (mirrors.bind apart reads.1 (stackArg onStack)).bind ?_
          intro bound other mirrored
          exact ih [] (onStack + 1) mirrored reads.2
      | cons r rs =>
          rw [lowerParams, lowerParams, mirrors.nextSlot]
          refine (mirrors.declare apart reads.1).bind ?_
          intro declared other mirrored
          refine (ih rs onStack mirrored reads.2).bind ?_
          rintro ⟨rest, after⟩ ⟨_, afterImage⟩ ⟨rfl, mirrorsAfter⟩
          exact .value ⟨rfl, mirrorsAfter⟩

end Mirrors

/-! ## Functions -/

section Functions

variable (names : Renaming)

/-- The start of a function knows no variables, and the functions that are declared. -/
theorem Scope.mirrors_fresh (f : Func) {callees calleesImage : List String}
    (known : ∀ name ∈ f.called, names.ofFunction name ∈ calleesImage ↔ name ∈ callees) :
    (Scope.fresh f.name callees).Mirrors names f.named f.called
      (Scope.fresh (names.ofFunction f.name) calleesImage) :=
  ⟨rfl, rfl, fun _ _ => rfl, known⟩

/-- A function under new names, among functions that are known under their new names. -/
theorem Func.carries_lower (f : Func) {callees calleesImage : List String}
    (apart : Set.InjOn names.ofVariable {name | name ∈ f.named})
    (known : ∀ name ∈ f.called, names.ofFunction name ∈ calleesImage ↔ name ∈ callees) :
    names.Carries (fun code other => other = code.map (Instruction.renamed names.ofFunction))
      (f.lower callees) ((f.renamed names).lower calleesImage) := by
  have reads := List.append_subset.mp (List.Subset.refl f.named)
  have binds := carries_lowerParams apart argRegisters 0 (Scope.mirrors_fresh names f known) reads.1
  have body : names.Carries (names.SameOutcome f.named f.called) (f.lowerBody callees)
      ((f.renamed names).lowerBody calleesImage) := by
    rw [Func.lowerBody, Func.lowerBody]
    refine binds.bind ?_
    rintro ⟨stores, between⟩ ⟨_, betweenImage⟩ ⟨rfl, mirrors⟩
    have runs := Stmt.carries_all (fun s _ => s.carries apart) mirrors reads.2
      (List.Subset.refl f.called)
    refine runs.bind ?_
    rintro ⟨code, after⟩ ⟨_, afterImage⟩ ⟨rfl, mirrorsAfter⟩
    exact .value ⟨List.map_append.symm, mirrorsAfter⟩
  rw [Func.lower_eq_map, Func.lower_eq_map]
  generalize f.lowerBody callees = first at body
  generalize (f.renamed names).lowerBody calleesImage = second at body
  cases body with
  | value holds =>
      refine .value ?_
      rw [List.map_append, List.map_append, f.prologue_renamed, f.epilogue_renamed, ← holds.1]
  | fault fault => exact .fault fault

end Functions

/-! ## Programs -/

/-- The position of the first function that does not lower. -/
def firstFaulty (callees : List String) (fs : List Func) : Nat :=
  fs.findIdx fun f => !(f.lower callees).isOk

theorem Program.carries_lowerFunctions (ofFunction : String → String)
    {ofVariable : Nat → String → String} {callees calleesImage : List String} {fs : List Func}
    (apart : ∀ k f, fs[k]? = some f → Set.InjOn (ofVariable k) {name | name ∈ f.named})
    (known : ∀ f ∈ fs, ∀ name ∈ f.called, ofFunction name ∈ calleesImage ↔ name ∈ callees) :
    (Renaming.mk ofFunction (ofVariable (firstFaulty callees fs))).Carries
      (fun code other => other = code.map (Instruction.renamed ofFunction))
      (Program.lowerFunctions callees fs)
      (Program.lowerFunctions calleesImage
        (fs.mapIdx fun k f => f.renamed ⟨ofFunction, ofVariable k⟩)) := by
  induction fs generalizing ofVariable with
  | nil => exact .value rfl
  | cons f fs ih =>
      have here := Func.carries_lower ⟨ofFunction, ofVariable 0⟩ f (apart 0 f rfl)
        (known f (List.mem_cons_self ..))
      have there := @ih (fun k => ofVariable (k + 1)) (fun k => apart (k + 1))
        fun g among => known g (List.mem_cons_of_mem _ among)
      rw [List.mapIdx_cons, Program.lowerFunctions, Program.lowerFunctions, here.eq_map]
      -- The new names of a fault are those of its own function, so positions count on.
      cases lowers : f.lower callees with
      | error fault =>
          have first : firstFaulty callees (f :: fs) = 0 := by
            simp [firstFaulty, List.findIdx_cons, lowers, Except.isOk, Except.toBool]
          rw [first]
          exact .fault fault
      | ok head =>
          have later : firstFaulty callees (f :: fs) = firstFaulty callees fs + 1 := by
            simp [firstFaulty, List.findIdx_cons, lowers, Except.isOk, Except.toBool]
          rw [later]
          refine there.bind ?_
          rintro tail _ rfl
          exact .value List.map_append.symm

/-- Declared functions are listed under their new names. -/
theorem Program.names_renamed (ofFunction : String → String) (ofVariable : Nat → String → String)
    (p : Program) : (p.renamed ofFunction ofVariable).names = p.names.map ofFunction := by
  apply List.ext_getElem?
  intro k
  simp only [Program.names, Program.renamed, List.getElem?_map, List.getElem?_mapIdx,
    Option.map_map]
  rfl

/-- Functions with different names keep different ones, so the same calls are known. -/
theorem mem_map_iff_of_injOn {ofFunction : String → String} {declared occurring : List String}
    (apart : Set.InjOn ofFunction {name | name ∈ occurring}) (within : declared ⊆ occurring)
    {name : String} (occurs : name ∈ occurring) :
    ofFunction name ∈ declared.map ofFunction ↔ name ∈ declared := by
  rw [List.mem_map]
  constructor
  · rintro ⟨other, among, same⟩
    rw [← apart (within among) occurs same]
    exact among
  · exact fun among => ⟨name, among, rfl⟩

/-- A program under new names. The renaming that a fault is told in is that of the first function
with a fault, since every function renames its own variables. -/
theorem Program.carries_lower {p : Program} {ofFunction : String → String}
    {ofVariable : Nat → String → String} (target : Target)
    (variablesApart : ∀ k f, p.functions[k]? = some f →
      Set.InjOn (ofVariable k) {name | name ∈ f.named})
    (functionsApart : Set.InjOn ofFunction {name | name ∈ p.functionNames})
    (entryKept : ofFunction Program.entry = Program.entry) :
    (Renaming.mk ofFunction (ofVariable (firstFaulty p.names p.functions))).Carries
      (fun code other => other = code.map (Instruction.renamed ofFunction))
      (p.lower target) ((p.renamed ofFunction ofVariable).lower target) := by
  have declared : p.names ⊆ p.functionNames := by
    intro name among
    exact List.mem_cons_of_mem _ (List.mem_append_left _ among)
  have known : ∀ f ∈ p.functions, ∀ name ∈ f.called,
      ofFunction name ∈ p.names.map ofFunction ↔ name ∈ p.names := by
    intro f among name called
    refine mem_map_iff_of_injOn functionsApart declared ?_
    exact List.mem_cons_of_mem _ (List.mem_append_right _ (List.mem_flatMap_of_mem among called))
  have entry := Renaming.carries_resolve
    ⟨ofFunction, ofVariable (firstFaulty p.names p.functions)⟩
    (mem_map_iff_of_injOn functionsApart declared (List.mem_cons_self ..))
  simp only [entryKept] at entry
  rw [Program.lower, Program.lower, Program.names_renamed]
  refine entry.bind ?_
  rintro main _ rfl
  refine (Program.carries_lowerFunctions ofFunction variablesApart known).bind ?_
  rintro functions _ rfl
  refine .value ?_
  rw [List.map_append, List.map_append]
  rfl

/-! ## Names that stay -/

/-- Every name is kept. -/
def Renaming.same : Renaming := ⟨id, id⟩

theorem Expr.renamedAll_same {es : List Expr} (each : ∀ e ∈ es, e.renamed .same = e) :
    Expr.renamedAll .same es = es := by
  induction es with
  | nil => rfl
  | cons e es ih =>
      rw [Expr.renamedAll, each e (List.mem_cons_self ..),
        ih fun other among => each other (List.mem_cons_of_mem _ among)]

theorem Expr.renamed_same (e : Expr) : e.renamed .same = e := by
  induction e with
  | var name => rfl
  | const value => rfl
  | binary op lhs rhs left right => rw [Expr.renamed, left, right]
  | call callee args each =>
      rw [Expr.renamed, Expr.renamedAll_same each]
      rfl

theorem Stmt.renamedAll_same {body : List Stmt} (each : ∀ s ∈ body, s.renamed .same = s) :
    Stmt.renamedAll .same body = body := by
  induction body with
  | nil => rfl
  | cons s ss ih =>
      rw [Stmt.renamedAll, each s (List.mem_cons_self ..),
        ih fun other among => each other (List.mem_cons_of_mem _ among)]

theorem Stmt.renamed_same (s : Stmt) : s.renamed .same = s := by
  induction s with
  | declare binding => rfl
  | assign target value =>
      rw [Stmt.renamed, value.renamed_same]
      rfl
  | eval value => rw [Stmt.renamed, value.renamed_same]
  | ret value =>
      cases value with
      | none => rfl
      | some value => rw [Stmt.renamed, value.renamed_same]
  | block body each => rw [Stmt.renamed, Stmt.renamedAll_same each]

/-- Keeping all names keeps a function. -/
theorem Func.renamed_same (f : Func) : f.renamed .same = f := by
  have params : f.params.map (Binding.renamed .same) = f.params := List.map_id f.params
  rw [Func.renamed, params, Stmt.renamedAll_same fun s _ => s.renamed_same]
  rfl

theorem Instruction.renamed_id (i : Instruction) : i.renamed id = i := by
  have label : ∀ l : Label, l.renamed id = l := by
    intro l
    cases l <;> rfl
  have operand : ∀ o : Operand, o.renamed id = o := by
    intro o
    cases o with
    | label l => rw [Operand.renamed, label]
    | _ => rfl
  rw [Instruction.renamed, funext label, funext operand, Option.map_id_fun', List.map_id_fun']
  rfl

theorem map_renamed_id (code : Code) : code.map (Instruction.renamed id) = code := by
  rw [funext Instruction.renamed_id, List.map_id']

theorem LoweringFault.renamed_same (fault : LoweringFault) : fault.renamed .same = fault := by
  cases fault <;> rfl

/-- A function sees of the program only which of the functions that it calls are
declared. -/
theorem Func.lower_congr (f : Func) {callees others : List String}
    (agree : ∀ name ∈ f.called, name ∈ others ↔ name ∈ callees) :
    f.lower others = f.lower callees := by
  have carried := (Func.carries_lower .same f (Set.injOn_id _) agree).eq_map
  rw [f.renamed_same] at carried
  rw [carried]
  cases f.lower callees with
  | ok code => exact congrArg Except.ok (map_renamed_id code)
  | error fault => exact congrArg Except.error fault.renamed_same

/-- Lowering under new names gives the same code, or the same fault, under new names.
The new names keep apart the variables of each function and all functions, and the
entry function has its own. With the old names of functions the code is just the
same: it does not depend on the names of variables. -/
theorem Program.lower_renamed (p : Program) (target : Target) (ofFunction : String → String)
    (ofVariable : Nat → String → String)
    (variablesApart : ∀ k f, p.functions[k]? = some f →
      Set.InjOn (ofVariable k) {name | name ∈ f.named})
    (functionsApart : Set.InjOn ofFunction {name | name ∈ p.functionNames})
    (entryKept : ofFunction "main" = "main") :
    (p.renamed ofFunction ofVariable).lower target =
      ((p.lower target).map (List.map (Instruction.renamed ofFunction))).mapError
        (LoweringFault.renamed ⟨ofFunction, ofVariable (firstFaulty p.names p.functions)⟩) ∧
    ((p.renamed id ofVariable).lower target).toOption = (p.lower target).toOption := by
  refine ⟨(Program.carries_lower target variablesApart functionsApart entryKept).eq_map, ?_⟩
  rw [(Program.carries_lower target variablesApart (Set.injOn_id _) rfl).eq_map]
  cases p.lower target with
  | ok code => exact congrArg some (map_renamed_id code)
  | error fault => rfl

/-- Two functions that call each other, with variables named alike, and an entry
function that assigns `target`, having declared a variable called as a function. -/
def namesakes (target : String) : Program :=
  ⟨[⟨"f", [⟨"a", .int⟩, ⟨"b", .int⟩], some .int,
      [.declare ⟨"c", .int⟩, .assign "c" (.call "g" [.var "b"]),
        .ret (some (.binary .sub (.var "a") (.var "c")))]⟩,
    ⟨"g", [⟨"a", .int⟩], some .int, [.ret (some (.call "f" [.var "a", .const 1]))]⟩,
    ⟨"main", [], none, [.block [.declare ⟨"f", .int⟩], .assign target (.call "f" [.var "f"])]⟩]⟩

def exchanged : String → String
  | "f" => "g"
  | "g" => "f"
  | name => name

def rotated : Nat → String → String
  | 0, "a" => "b"
  | 0, "b" => "c"
  | 0, _ => "a"
  | 1, _ => "main"
  | _, "f" => "a"
  | _, _ => "g"

theorem Program.lower_renamed_namesakes :
    (∃ code, (namesakes "f").lower .linux = .ok code ∧
      ((namesakes "f").renamed exchanged rotated).lower .linux =
        .ok (code.map (Instruction.renamed exchanged)) ∧
      (((namesakes "f").renamed id rotated).lower .linux).toOption = some code) ∧
    (namesakes "z").lower .linux = .error (.variableNotFound "z" "main") ∧
    ((namesakes "z").renamed exchanged rotated).lower .linux =
      .error (.variableNotFound "g" "main") := by
  have variablesApart : ∀ target ∈ ["f", "z"], ∀ k f,
      (namesakes target).functions[k]? = some f →
        Set.InjOn (rotated k) {name | name ∈ f.named} := by
    intro target among k f found
    have apart : ∀ a ∈ f.named, ∀ b ∈ f.named, rotated k a = rotated k b → a = b := by
      simp only [List.mem_cons, List.not_mem_nil, or_false] at among
      match k with
      | 0 => rcases among with rfl | rfl <;> cases found <;> decide +kernel
      | 1 => rcases among with rfl | rfl <;> cases found <;> decide +kernel
      | 2 => rcases among with rfl | rfl <;> cases found <;> decide +kernel
      | k + 3 => cases found
    exact fun a amongA b amongB => apart a amongA b amongB
  have functionsApart : ∀ target ∈ ["f", "z"],
      Set.InjOn exchanged {name | name ∈ (namesakes target).functionNames} := by
    intro target among
    have apart : ∀ target ∈ ["f", "z"], ∀ a ∈ (namesakes target).functionNames,
        ∀ b ∈ (namesakes target).functionNames, exchanged a = exchanged b → a = b := by
      decide +kernel
    exact fun a amongA b amongB => apart target among a amongA b amongB
  have lowered := Program.lower_renamed (namesakes "f") .linux exchanged rotated
    (variablesApart "f" (by decide)) (functionsApart "f" (by decide)) rfl
  have refused := Program.lower_renamed (namesakes "z") .linux exchanged rotated
    (variablesApart "z" (by decide)) (functionsApart "z" (by decide)) rfl
  have lowersOk : ((namesakes "f").lower .linux).isOk = true := by decide +kernel
  have fault : (namesakes "z").lower .linux = .error (.variableNotFound "z" "main") := by
    decide +kernel
  obtain ⟨code, lowers⟩ := exists_ok_of_isOk lowersOk
  rw [lowers] at lowered
  rw [fault] at refused
  exact ⟨⟨code, lowers, lowered.1, lowered.2⟩, fault, refused.1⟩

end IntBackend
