/-
# IntBackend.Proofs.Source.Meaning — what programs compute

Expressions have values, statements change the variables of their function or
return from it, and functions turn arguments into results. Arithmetic wraps at 32
bits. A variable has no value before it is assigned, and a function may return
without one; using what has no value gives no meaning to a run. Neither has a
call with the wrong number of arguments.

Only calls can make a run go on forever, so a run is bounded by the depth to which
they nest: `Program.invoke` with a bound that is too low has no result, and the
result is the same with every bound that is high enough.
-/
import IntBackend.Lowering.Code
import IntBackend.Proofs.Source.Nodes

namespace IntBackend

set_option autoImplicit false

/-- The values of a function's variables, as far as they have been assigned. -/
abbrev Env := String → Option Int32

def Env.set (env : Env) (name : String) (value : Option Int32) : Env :=
  fun other => if other = name then value else env other

/-- What calling a function with arguments comes to: nothing if the call does not
end, otherwise its result, which may be missing. -/
abbrev Calls := String → List Int32 → Option (Option Int32)

/-- Division is not part of the language's meaning here. -/
def BinOp.apply? : BinOp → Int32 → Int32 → Option Int32
  | .add, a, b => some (a + b)
  | .sub, a, b => some (a - b)
  | .mul, a, b => some (a * b)
  | .div, _, _ => none
  | .rem, _, _ => none

mutual

def Expr.eval (calls : Calls) (env : Env) : Expr → Option Int32
  | .var name => env name
  | .const value => some value
  | .binary op lhs rhs => do
      let a ← lhs.eval calls env
      let b ← rhs.eval calls env
      op.apply? a b
  | .call callee args => do
      let values ← Expr.evalAll calls env args
      let result ← calls callee values
      result

def Expr.evalAll (calls : Calls) (env : Env) : List Expr → Option (List Int32)
  | [] => some []
  | e :: es => do
      let value ← e.eval calls env
      let values ← Expr.evalAll calls env es
      some (value :: values)

end

/-- How a statement ends: control goes on, or the function returns. -/
inductive Flow where
  | goesOn (env : Env)
  | returns (result : Option Int32)

mutual

def Stmt.exec (calls : Calls) (env : Env) : Stmt → Option Flow
  | .declare binding => some (.goesOn (env.set binding.name none))
  | .assign target value => do
      let result ← value.eval calls env
      some (.goesOn (env.set target (some result)))
  | .eval (.call callee args) => do
      let values ← Expr.evalAll calls env args
      -- the result is not used, so there need not be one
      let _ ← calls callee values
      some (.goesOn env)
  | .eval value => do
      let _ ← value.eval calls env
      some (.goesOn env)
  | .ret none => some (.returns none)
  | .ret (some value) => do
      let result ← value.eval calls env
      some (.returns (some result))
  | .block body => Stmt.execAll calls env body

def Stmt.execAll (calls : Calls) (env : Env) : List Stmt → Option Flow
  | [] => some (.goesOn env)
  | s :: ss => do
      match ← s.exec calls env with
      | .goesOn env => Stmt.execAll calls env ss
      | .returns result => some (.returns result)

end

/-- The variables at the start of a function: its parameters with their arguments. -/
def Env.bind (env : Env) : List Binding → List Int32 → Option Env
  | [], [] => some env
  | param :: params, value :: values => (env.set param.name (some value)).bind params values
  | _, _ => none

def Func.invoke (f : Func) (calls : Calls) (args : List Int32) : Option (Option Int32) := do
  let env ← Env.bind (fun _ => none) f.params args
  match ← Stmt.execAll calls env f.body with
  | .goesOn _ => some none
  | .returns result => some result

namespace Program

def find? (p : Program) (name : String) : Option Func :=
  p.functions.find? fun f => f.name = name

/-- A call of a function in a run of which calls nest at most to a depth. -/
def invoke (p : Program) : (depth : Nat) → Calls
  | 0, _, _ => none
  | depth + 1, name, args => do
      let f ← p.find? name
      f.invoke (p.invoke depth) args

end Program

/-! ## What a run of a construct consists of -/

namespace Expr

variable {calls : Calls} {env : Env}

theorem eval_binary_iff {op : BinOp} {lhs rhs : Expr} {v : Int32} :
    (binary op lhs rhs).eval calls env = some v ↔
      ∃ a b, lhs.eval calls env = some a ∧ rhs.eval calls env = some b ∧
        op.apply? a b = some v := by
  rw [eval]
  simp only [Option.bind_eq_bind, Option.bind_eq_some_iff]
  constructor
  · rintro ⟨a, evalsLeft, b, evalsRight, applies⟩
    exact ⟨a, b, evalsLeft, evalsRight, applies⟩
  · rintro ⟨a, b, evalsLeft, evalsRight, applies⟩
    exact ⟨a, evalsLeft, b, evalsRight, applies⟩

/-- All arguments have values, and the callee returns a value for them. -/
theorem eval_call_iff {callee : String} {args : List Expr} {v : Int32} :
    (call callee args).eval calls env = some v ↔
      ∃ values, evalAll calls env args = some values ∧
        calls callee values = some (some v) := by
  rw [eval]
  simp only [Option.bind_eq_bind, Option.bind_eq_some_iff]
  constructor
  · rintro ⟨values, evals, result, called, rfl⟩
    exact ⟨values, evals, called⟩
  · rintro ⟨values, evals, called⟩
    exact ⟨values, evals, some v, called, rfl⟩

theorem evalAll_cons_iff {e : Expr} {es : List Expr} {values : List Int32} :
    evalAll calls env (e :: es) = some values ↔
      ∃ v vs, e.eval calls env = some v ∧ evalAll calls env es = some vs ∧
        values = v :: vs := by
  rw [evalAll]
  simp only [Option.bind_eq_bind, Option.bind_eq_some_iff, Option.some.injEq]
  constructor
  · rintro ⟨v, evals, vs, others, rfl⟩
    exact ⟨v, vs, evals, others, rfl⟩
  · rintro ⟨v, vs, evals, others, rfl⟩
    exact ⟨v, evals, vs, others, rfl⟩

theorem length_of_evalAll {args : List Expr} {values : List Int32}
    (evals : evalAll calls env args = some values) : values.length = args.length := by
  induction args generalizing values with
  | nil =>
      cases evals
      rfl
  | cons arg args ih =>
      obtain ⟨v, vs, -, others, rfl⟩ := evalAll_cons_iff.mp evals
      rw [List.length_cons, List.length_cons, ih others]

end Expr

namespace Stmt

variable {calls : Calls} {env : Env} {flow : Flow}

theorem exec_assign_iff {target : String} {value : Expr} :
    (assign target value).exec calls env = some flow ↔
      ∃ v, value.eval calls env = some v ∧ flow = .goesOn (env.set target (some v)) := by
  rw [exec]
  simp only [Option.bind_eq_bind, Option.bind_eq_some_iff, Option.some.injEq, eq_comm (a := flow)]

/-- A statement that is an expression needs a value only if it is not a call. -/
theorem exec_eval_iff {value : Expr} :
    (eval value).exec calls env = some flow ↔
      flow = .goesOn env ∧ ((∃ v, value.eval calls env = some v) ∨
        ∃ callee args values result, value = .call callee args ∧
          Expr.evalAll calls env args = some values ∧ calls callee values = some result) := by
  cases value with
  | call callee args =>
      rw [exec]
      simp only [Option.bind_eq_bind, Option.bind_eq_some_iff, Option.some.injEq]
      constructor
      · rintro ⟨values, evals, result, called, rfl⟩
        exact ⟨rfl, .inr ⟨callee, args, values, result, rfl, evals, called⟩⟩
      · rintro ⟨rfl, ⟨v, evals⟩ | ⟨_, _, values, result, same, evals, called⟩⟩
        · obtain ⟨values, evals, called⟩ := Expr.eval_call_iff.mp evals
          exact ⟨values, evals, some v, called, rfl⟩
        · cases same
          exact ⟨values, evals, result, called, rfl⟩
  | var name => simp [exec, Option.bind_eq_some_iff, eq_comm (a := flow), and_comm]
  | const n => simp [exec, Option.bind_eq_some_iff, eq_comm (a := flow), and_comm]
  | binary op lhs rhs => simp [exec, Option.bind_eq_some_iff, eq_comm (a := flow), and_comm]

theorem exec_ret_some_iff {value : Expr} :
    (ret (some value)).exec calls env = some flow ↔
      ∃ v, value.eval calls env = some v ∧ flow = .returns (some v) := by
  rw [exec]
  simp only [Option.bind_eq_bind, Option.bind_eq_some_iff, Option.some.injEq, eq_comm (a := flow)]

/-- A statement goes on to the next one or returns for all of them. -/
theorem execAll_cons_iff {s : Stmt} {ss : List Stmt} :
    execAll calls env (s :: ss) = some flow ↔
      (∃ between, s.exec calls env = some (.goesOn between) ∧
        execAll calls between ss = some flow) ∨
      ∃ result, s.exec calls env = some (.returns result) ∧ flow = .returns result := by
  rw [execAll]
  cases s.exec calls env with
  | none => simp
  | some first => cases first <;> simp [eq_comm]

end Stmt

/-- A function runs with its parameters bound and all other variables free. A body that goes on to
its end returns nothing. -/
theorem Func.invoke_iff {f : Func} {calls : Calls} {args : List Int32} {result : Option Int32} :
    f.invoke calls args = some result ↔
      ∃ env flow, Env.bind (fun _ => none) f.params args = some env ∧
        Stmt.execAll calls env f.body = some flow ∧
        (flow = .returns result ∨ (result = none ∧ ∃ last, flow = .goesOn last)) := by
  rw [Func.invoke]
  simp only [Option.bind_eq_bind, Option.bind_eq_some_iff]
  constructor
  · rintro ⟨env, binds, flow, runs, ends⟩
    refine ⟨env, flow, binds, runs, ?_⟩
    cases flow with
    | goesOn last => exact .inr ⟨(Option.some.inj ends).symm, last, rfl⟩
    | returns value => exact .inl (congrArg Flow.returns (Option.some.inj ends))
  · rintro ⟨env, flow, binds, runs, rfl | ⟨rfl, last, rfl⟩⟩
    · exact ⟨env, binds, _, runs, rfl⟩
    · exact ⟨env, binds, _, runs, rfl⟩

theorem Program.invoke_succ_iff {p : Program} {depth : Nat} {name : String} {args : List Int32}
    {result : Option Int32} :
    p.invoke (depth + 1) name args = some result ↔
      ∃ f, p.find? name = some f ∧ f.invoke (p.invoke depth) args = some result := by
  rw [Program.invoke]
  simp only [Option.bind_eq_bind, Option.bind_eq_some_iff]

/-! ## Bounds on the depth of calls -/

/-- What one table of calls knows, the other knows too. -/
def Calls.Within (calls more : Calls) : Prop :=
  ∀ ⦃name args result⦄, calls name args = some result → more name args = some result

section Bounds

variable {calls more : Calls}

theorem Expr.evalAll_of_within {env : Env} {args : List Expr}
    (each : ∀ arg ∈ args, ∀ {v}, arg.eval calls env = some v → arg.eval more env = some v)
    {values : List Int32} (evals : Expr.evalAll calls env args = some values) :
    Expr.evalAll more env args = some values := by
  induction args generalizing values with
  | nil => exact evals
  | cons arg args ih =>
      obtain ⟨v, vs, first, rest, rfl⟩ := Expr.evalAll_cons_iff.mp evals
      have others := ih (fun e among => each e (List.mem_cons_of_mem _ among)) rest
      exact Expr.evalAll_cons_iff.mpr ⟨v, vs, each arg (List.mem_cons_self ..) first, others, rfl⟩

/-- More calls that return do not change the value of an expression. -/
theorem Expr.eval_of_within (within : calls.Within more) (e : Expr) {env : Env} {v : Int32}
    (evals : e.eval calls env = some v) : e.eval more env = some v := by
  induction e generalizing v with
  | var name => exact evals
  | const value => exact evals
  | binary op lhs rhs left right =>
      obtain ⟨a, b, evalsLeft, evalsRight, applies⟩ := Expr.eval_binary_iff.mp evals
      exact Expr.eval_binary_iff.mpr ⟨a, b, left evalsLeft, right evalsRight, applies⟩
  | call callee args each =>
      obtain ⟨values, evalsArgs, called⟩ := Expr.eval_call_iff.mp evals
      have args := Expr.evalAll_of_within (fun arg among => each arg among) evalsArgs
      exact Expr.eval_call_iff.mpr ⟨values, args, within called⟩

theorem Stmt.execAll_of_within {body : List Stmt}
    (each : ∀ s ∈ body, ∀ {env flow}, s.exec calls env = some flow → s.exec more env = some flow)
    {env : Env} {flow : Flow} (runs : Stmt.execAll calls env body = some flow) :
    Stmt.execAll more env body = some flow := by
  induction body generalizing env with
  | nil => exact runs
  | cons s ss ih =>
      have first := @each s (List.mem_cons_self ..)
      have others := @ih fun t among => each t (List.mem_cons_of_mem _ among)
      refine Stmt.execAll_cons_iff.mpr ?_
      rcases Stmt.execAll_cons_iff.mp runs with ⟨between, goes, rest⟩ | ⟨result, returns, ends⟩
      · exact .inl ⟨between, first goes, others rest⟩
      · exact .inr ⟨result, first returns, ends⟩

/-- More calls that return do not change what a statement does. -/
theorem Stmt.exec_of_within (within : calls.Within more) (s : Stmt) {env : Env} {flow : Flow}
    (runs : s.exec calls env = some flow) : s.exec more env = some flow := by
  induction s generalizing env flow with
  | declare binding => exact runs
  | assign target value =>
      obtain ⟨v, evals, ends⟩ := Stmt.exec_assign_iff.mp runs
      exact Stmt.exec_assign_iff.mpr ⟨v, value.eval_of_within within evals, ends⟩
  | eval value =>
      obtain ⟨ends, ⟨v, evals⟩ | ⟨callee, args, values, result, same, evals, called⟩⟩ :=
        Stmt.exec_eval_iff.mp runs
      · exact Stmt.exec_eval_iff.mpr ⟨ends, .inl ⟨v, value.eval_of_within within evals⟩⟩
      · have argsToo := Expr.evalAll_of_within (fun e _ => e.eval_of_within within) evals
        exact Stmt.exec_eval_iff.mpr
          ⟨ends, .inr ⟨callee, args, values, result, same, argsToo, within called⟩⟩
  | ret value =>
      cases value with
      | none => exact runs
      | some value =>
          obtain ⟨v, evals, ends⟩ := Stmt.exec_ret_some_iff.mp runs
          exact Stmt.exec_ret_some_iff.mpr ⟨v, value.eval_of_within within evals, ends⟩
  | block body each =>
      rw [Stmt.exec] at runs ⊢
      exact Stmt.execAll_of_within (fun inner among => each inner among) runs

theorem Func.invoke_of_within (within : calls.Within more) {f : Func} {args : List Int32}
    {result : Option Int32} (runs : f.invoke calls args = some result) :
    f.invoke more args = some result := by
  obtain ⟨env, flow, binds, body, ends⟩ := Func.invoke_iff.mp runs
  have bodyToo := Stmt.execAll_of_within (fun s _ => s.exec_of_within within) body
  exact Func.invoke_iff.mpr ⟨env, flow, binds, bodyToo, ends⟩

end Bounds

/-- A call that returns within some depth returns the same within a larger one. -/
theorem Program.invoke_within_succ (p : Program) (depth : Nat) :
    (p.invoke depth).Within (p.invoke (depth + 1)) := by
  induction depth with
  | zero => exact nofun
  | succ depth ih =>
      intro name args result runs
      obtain ⟨f, found, body⟩ := Program.invoke_succ_iff.mp runs
      exact Program.invoke_succ_iff.mpr ⟨f, found, Func.invoke_of_within ih body⟩

/-- A result does not depend on the bound. -/
theorem Program.invoke_of_le (p : Program) {depth more : Nat} (le : depth ≤ more) :
    (p.invoke depth).Within (p.invoke more) := by
  induction le with
  | refl => exact fun _ _ _ => id
  | step _ ih => exact fun _ _ _ runs => p.invoke_within_succ _ (ih runs)

end IntBackend
