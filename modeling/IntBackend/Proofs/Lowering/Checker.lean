/-
# IntBackend.Proofs.Lowering.Checker — which fault a program has

A program can be checked without lowering it. Walking over a function leaves a
list of checks, in the order in which its places are visited:

* parameters come before statements, and blocks open no scope of their own;
* the target of an assignment comes before its value;
* the operator of an operation comes before its operands;
* the callee of a call comes before its arguments, of which the first six are
  visited in order and the others from the last one back.

The fault of a function is that of the first check that fails, given the names
bound by the checks before it. `Program.lower_error_iff` says that lowering fails
exactly if some check does, with that fault.
-/
import IntBackend.Proofs.Lowering.Scopes

namespace IntBackend

set_option autoImplicit false

open Convention

/-- What is looked at in one place of a function. -/
inductive Check where
  | binds (name : String)
  | mentions (name : String)
  | combines (op : BinOp)
  | calls (name : String)
  deriving DecidableEq, Repr

namespace Check

/-- Why a check fails where the names `bound` are bound. -/
def fault? (function : String) (callees bound : List String) : Check → Option LoweringFault
  | .binds name =>
      if name ∈ bound then some (.alreadyDeclared name function) else none
  | .mentions name =>
      if name ∈ bound then none else some (.variableNotFound name function)
  | .combines op =>
      if op = .div ∨ op = .rem then some (.unsupportedOperator op) else none
  | .calls name =>
      if name ∈ callees then none else some (.functionNotFound name)

def bound : Check → List String
  | .binds name => [name]
  | _ => []

/-- The fault of the first check that fails. -/
def firstFault (function : String) (callees : List String) :
    List String → List Check → Option LoweringFault
  | _, [] => none
  | bound, check :: checks =>
      match check.fault? function callees bound with
      | some fault => some fault
      | none => firstFault function callees (check.bound ++ bound) checks

end Check

/-- The first six in order, then the others from the last one back. -/
def inPassingOrder {α : Type} (args : List α) : List α := args.take 6 ++ (args.drop 6).reverse

mutual

def Expr.checks : Expr → List Check
  | .var name => [.mentions name]
  | .const _ => []
  | .binary op lhs rhs => .combines op :: (lhs.checks ++ rhs.checks)
  | .call callee args => .calls callee :: (inPassingOrder (Expr.checksEach args)).flatten

def Expr.checksEach : List Expr → List (List Check)
  | [] => []
  | e :: es => e.checks :: Expr.checksEach es

end

mutual

def Stmt.checks : Stmt → List Check
  | .declare binding => [.binds binding.name]
  | .assign target value => .mentions target :: value.checks
  | .eval value => value.checks
  | .ret none => []
  | .ret (some value) => value.checks
  | .block body => Stmt.checksAll body

def Stmt.checksAll : List Stmt → List Check
  | [] => []
  | s :: ss => s.checks ++ Stmt.checksAll ss

end

def Func.checks (f : Func) : List Check :=
  f.params.map (fun param => .binds param.name) ++ Stmt.checksAll f.body

/-- The fault of a function; its scope starts empty. -/
def Func.fault? (f : Func) (callees : List String) : Option LoweringFault :=
  Check.firstFault f.name callees [] f.checks

/-- The fault of a program: it has no entry function, or one of its functions has
a fault, of which that of the first such function counts. -/
def Program.fault? (p : Program) : Option LoweringFault :=
  if Program.entry ∈ p.names then p.functions.findSome? fun f => f.fault? p.names
  else some (.functionNotFound Program.entry)

/-! ## Lowering as a sequence of checks -/

/-- The fault of a step, or else what follows finds. -/
def faultOr {α : Type} (result : Except LoweringFault α) (next : α → Option LoweringFault) :
    Option LoweringFault :=
  match result with
  | .ok value => next value
  | .error fault => some fault

theorem faultOr_ok {α : Type} (value : α) (next : α → Option LoweringFault) :
    faultOr (.ok value) next = next value := rfl

/-- The fault of two steps is that of the first, or else that of the second. -/
theorem faultOr_bind {α β : Type} (first : Except LoweringFault α)
    (second : α → Except LoweringFault β) (next : β → Option LoweringFault) :
    faultOr (first >>= second) next = faultOr first fun value => faultOr (second value) next := by
  cases first <;> rfl

/-- With nothing to follow, the fault is the one that the step fails with. -/
theorem faultOr_eq_some_iff {α : Type} {result : Except LoweringFault α} {fault : LoweringFault} :
    faultOr result (fun _ => none) = some fault ↔ result = .error fault := by
  cases result <;> simp [faultOr]

namespace Scope

def names (scope : Scope) : List String := scope.bindings.map Prod.fst

/-- The fault of the first check that fails from a scope on. -/
def fault? (scope : Scope) (checks : List Check) : Option LoweringFault :=
  Check.firstFault scope.function scope.callees scope.names checks

/-- A name is free exactly if it is not listed. -/
theorem not_mem_names_iff {scope : Scope} {name : String} :
    name ∉ scope.names ↔ scope.find? name = none := by
  unfold names find?
  rw [List.lookup_eq_none_iff, List.mem_map]
  constructor
  · intro absent binding among
    rw [bne_iff_ne]
    rintro rfl
    exact absent ⟨binding, among, rfl⟩
  · rintro differs ⟨binding, among, rfl⟩
    exact bne_iff_ne.mp (differs binding among) rfl

theorem mem_names_of_find? {scope : Scope} {name : String} {operand : Operand}
    (found : scope.find? name = some operand) : name ∈ scope.names := by
  by_contra absent
  rw [not_mem_names_iff.mp absent] at found
  cases found

variable (scope : Scope) (rest : List Check)

theorem faultOr_lookup (name : String) :
    faultOr (scope.lookup name) (fun _ => scope.fault? rest) =
      scope.fault? (.mentions name :: rest) := by
  rw [lookup, fault?, fault?, Check.firstFault, Check.fault?]
  cases found : scope.find? name with
  | none => simp [not_mem_names_iff.mpr found, faultOr]
  | some operand => simp [mem_names_of_find? found, faultOr, Check.bound]

/-- Resolving a callee is the check that the program declares it. -/
theorem faultOr_callee (name : String) :
    faultOr (scope.callee name) (fun _ => scope.fault? rest) =
      scope.fault? (.calls name :: rest) := by
  rw [callee, resolve, fault?, fault?, Check.firstFault, Check.fault?]
  by_cases known : name ∈ scope.callees <;> simp [known, faultOr, Check.bound]

theorem faultOr_operation (op : BinOp) :
    faultOr (operation op) (fun _ => scope.fault? rest) =
      scope.fault? (.combines op :: rest) := by
  rw [fault?, fault?, Check.firstFault, Check.fault?]
  cases op <;> simp [operation, faultOr, Check.bound]

theorem faultOr_bindName (name : String) (operand : Operand) :
    faultOr (scope.bind name operand) (fun bound => bound.fault? rest) =
      scope.fault? (.binds name :: rest) := by
  rw [bind, fault?, Check.firstFault, Check.fault?]
  cases found : scope.find? name with
  | none =>
      rw [if_neg (not_mem_names_iff.mpr found)]
      rfl
  | some taken => simp [mem_names_of_find? found, faultOr]

theorem faultOr_declare (name : String) :
    faultOr (scope.declare name) (fun declared => declared.fault? rest) =
      scope.fault? (.binds name :: rest) := by
  rw [← faultOr_bindName scope rest name scope.nextSlot, declare, faultOr_bind]
  rfl

end Scope

/-! ## Expressions -/

/-- With fewer registers left, more of the arguments are visited backwards. -/
theorem Expr.faultOr_lowerArgs {args : List Expr} (scope : Scope)
    (each : ∀ arg ∈ args, ∀ rest, faultOr (arg.lower scope) (fun _ => scope.fault? rest) =
      scope.fault? (arg.checks ++ rest))
    (registers : List Register) (rest : List Check) :
    faultOr (Expr.lowerArgs scope registers args) (fun _ => scope.fault? rest) =
      scope.fault? (((Expr.checksEach args).take registers.length ++
        ((Expr.checksEach args).drop registers.length).reverse).flatten ++ rest) := by
  induction args generalizing registers rest with
  | nil => simp [Expr.lowerArgs_nil, Expr.checksEach, faultOr]
  | cons arg args ih =>
      have here := each arg (List.mem_cons_self ..)
      have there := ih fun other among => each other (List.mem_cons_of_mem _ among)
      rw [Expr.checksEach]
      cases registers with
      | nil =>
          rw [Expr.lowerArgs]
          simp only [faultOr_bind, faultOr_ok, here, there]
          simp
      | cons r rs =>
          rw [Expr.lowerArgs]
          simp only [faultOr_bind, faultOr_ok, here, there]
          simp

/-- Lowering an expression makes the checks of the expression and then goes on in the same scope. -/
theorem Expr.faultOr_lower (e : Expr) (scope : Scope) (rest : List Check) :
    faultOr (e.lower scope) (fun _ => scope.fault? rest) = scope.fault? (e.checks ++ rest) := by
  induction e generalizing rest with
  | var name =>
      rw [Expr.lower, faultOr_bind, Expr.checks]
      exact scope.faultOr_lookup rest name
  | const value => rw [Expr.lower, Expr.checks, faultOr_ok, List.nil_append]
  | binary op lhs rhs left right =>
      rw [Expr.lower, Expr.checks]
      simp only [faultOr_bind, faultOr_ok, right, left, Scope.faultOr_operation]
      rw [List.cons_append, List.append_assoc]
  | call callee args each =>
      have passes := Expr.faultOr_lowerArgs scope each argRegisters
      rw [Expr.lower, Expr.checks]
      simp only [faultOr_bind, faultOr_ok, passes, Scope.faultOr_callee]
      rfl

/-! ## Statements and functions -/

theorem Stmt.faultOr_lowerAll {body : List Stmt}
    (each : ∀ s ∈ body, ∀ scope rest, faultOr (s.lower scope) (fun out => out.2.fault? rest) =
      scope.fault? (s.checks ++ rest))
    (scope : Scope) (rest : List Check) :
    faultOr (Stmt.lowerAll scope body) (fun out => out.2.fault? rest) =
      scope.fault? (Stmt.checksAll body ++ rest) := by
  induction body generalizing scope with
  | nil => rw [Stmt.lowerAll, Stmt.checksAll, faultOr_ok, List.nil_append]
  | cons s ss ih =>
      have here := each s (List.mem_cons_self ..)
      have there := ih fun other among => each other (List.mem_cons_of_mem _ among)
      rw [Stmt.lowerAll, Stmt.checksAll]
      simp only [faultOr_bind, faultOr_ok, there, here]
      rw [List.append_assoc]

/-- Lowering a statement makes its checks, and the scope that it leaves knows what they have bound.
-/
theorem Stmt.faultOr_lower (s : Stmt) (scope : Scope) (rest : List Check) :
    faultOr (s.lower scope) (fun out => out.2.fault? rest) = scope.fault? (s.checks ++ rest) := by
  induction s generalizing scope rest with
  | declare binding =>
      rw [Stmt.lower, faultOr_bind, Stmt.checks]
      exact scope.faultOr_declare rest binding.name
  | assign target value =>
      rw [Stmt.lower, Stmt.checks]
      simp only [faultOr_bind, faultOr_ok, Expr.faultOr_lower, Scope.faultOr_lookup]
      rfl
  | eval value =>
      rw [Stmt.lower, Stmt.checks, faultOr_bind]
      exact value.faultOr_lower scope rest
  | ret value =>
      cases value with
      | none => rw [Stmt.lower, Stmt.checks, faultOr_ok, List.nil_append]
      | some value =>
          rw [Stmt.lower, Stmt.checks, faultOr_bind]
          exact value.faultOr_lower scope rest
  | block body each =>
      rw [Stmt.lower, Stmt.checks]
      exact Stmt.faultOr_lowerAll each scope rest

/-- Parameters are checked one by one like declarations. -/
theorem faultOr_lowerParams (registers : List Register) (onStack : Nat) (params : List Binding)
    (scope : Scope) (rest : List Check) :
    faultOr (lowerParams scope registers onStack params) (fun out => out.2.fault? rest) =
      scope.fault? (params.map (fun param => .binds param.name) ++ rest) := by
  induction params generalizing registers onStack scope with
  | nil => cases registers <;> rw [lowerParams] <;> rfl
  | cons param params ih =>
      rw [List.map_cons, List.cons_append]
      cases registers with
      | nil =>
          rw [lowerParams, faultOr_bind]
          simp only [ih]
          exact scope.faultOr_bindName _ param.name _
      | cons r rs =>
          rw [lowerParams]
          simp only [faultOr_bind, faultOr_ok, ih]
          exact scope.faultOr_declare _ param.name

/-- A function lowers or fails as its checks say. -/
theorem Func.faultOr_lower (f : Func) (callees : List String) :
    faultOr (f.lower callees) (fun _ => none) = f.fault? callees := by
  have body : faultOr (f.lowerBody callees) (fun out => out.2.fault? []) = f.fault? callees := by
    rw [Func.lowerBody]
    simp only [faultOr_bind, faultOr_ok]
    simp only [Stmt.faultOr_lowerAll fun s _ => s.faultOr_lower, faultOr_lowerParams]
    rw [List.append_nil]
    rfl
  rw [← body, Func.lower_eq_map]
  cases f.lowerBody callees <;> rfl

theorem Program.faultOr_lowerFunctions (callees : List String) (fs : List Func) :
    faultOr (Program.lowerFunctions callees fs) (fun _ => none) =
      fs.findSome? fun f => f.fault? callees := by
  induction fs with
  | nil => rfl
  | cons f fs ih =>
      have here := f.faultOr_lower callees
      rw [Program.lowerFunctions, List.findSome?_cons, ← here, ← ih]
      cases f.lower callees with
      | error fault => rfl
      | ok head => cases Program.lowerFunctions callees fs <;> rfl

/-- A program lowers or fails as its checks say, on every target. -/
theorem Program.faultOr_lower (p : Program) (target : Target) :
    faultOr (p.lower target) (fun _ => none) = p.fault? := by
  rw [Program.lower, Program.fault?, ← Program.faultOr_lowerFunctions, resolve]
  by_cases known : Program.entry ∈ p.names
  · simp only [known, if_pos, faultOr_bind, faultOr_ok]
  · simp only [known, if_neg, not_false_eq_true]
    rfl

/-- Lowering fails exactly if a check does, with the fault of the first one. -/
theorem Program.lower_error_iff (p : Program) (target : Target) (fault : LoweringFault) :
    p.lower target = .error fault ↔ p.fault? = some fault := by
  rw [← faultOr_eq_some_iff, p.faultOr_lower]

end IntBackend
