/-
# IntBackend.Proofs.Lowering.Inversion — what a successful lowering consists of

Lowering chains steps that may fail. Each statement here says of one construct
that it lowers exactly if its parts do, and what its code then is. Later modules
use these and do not open the definitions.
-/
import IntBackend.Lowering.Code
import IntBackend.Proofs.Results
import IntBackend.Proofs.Source.Nodes

namespace IntBackend

set_option autoImplicit false

open Convention

theorem resolve_eq_ok_iff {callees : List String} {name : String} {l : Label} :
    resolve callees name = .ok l ↔ name ∈ callees ∧ l = .function name := by
  unfold resolve
  split <;> simp_all [eq_comm]

/-! ## Scopes -/

namespace Scope

theorem lookup_eq_ok_iff {scope : Scope} {name : String} {operand : Operand} :
    scope.lookup name = .ok operand ↔ scope.find? name = some operand := by
  unfold lookup
  split <;> simp_all

/-- Binding fails for a name that is taken, also by an outer block. -/
theorem bind_eq_ok_iff {scope bound : Scope} {name : String} {operand : Operand} :
    scope.bind name operand = .ok bound ↔
      scope.find? name = none ∧
        bound = { scope with bindings := (name, operand) :: scope.bindings } := by
  unfold bind
  split
  · rename_i taken
    simp [taken]
  · rename_i free
    simp only [free, true_and, Except.ok.injEq, eq_comm]

/-- Declaring binds a free name to the next slot and moves the cursor past it. -/
theorem declare_eq_ok_iff {scope declared : Scope} {name : String} :
    scope.declare name = .ok declared ↔
      scope.find? name = none ∧
        declared = { scope with
          bindings := (name, scope.nextSlot) :: scope.bindings
          cursor := scope.cursor - slotSize } := by
  unfold declare
  rw [IntBackend.bind_eq_ok_iff]
  constructor
  · rintro ⟨bound, binds, done⟩
    obtain ⟨free, rfl⟩ := bind_eq_ok_iff.mp binds
    cases done
    exact ⟨free, rfl⟩
  · rintro ⟨free, rfl⟩
    exact ⟨_, bind_eq_ok_iff.mpr ⟨free, rfl⟩, rfl⟩

/-- The binding made last is found first. -/
theorem find?_cons (scope : Scope) (name other : String) (operand : Operand) :
    ({ scope with bindings := (name, operand) :: scope.bindings } : Scope).find? other =
      if other = name then some operand else scope.find? other := by
  unfold find?
  by_cases same : other = name
  · simp [same]
  · simp [List.lookup_cons, same, beq_eq_false_iff_ne.mpr same]

/-- A name that was declared is found in the slot that was next. -/
theorem find?_of_declare {scope declared : Scope} {name : String}
    (declares : scope.declare name = .ok declared) :
    declared.find? name = some scope.nextSlot := by
  obtain ⟨-, rfl⟩ := declare_eq_ok_iff.mp declares
  exact (find?_cons ..).trans (if_pos rfl)

end Scope

/-! ## Expressions -/

namespace Expr

variable {scope : Scope} {out : Valued}

theorem lower_const (value : Int32) :
    (const value).lower scope = .ok ⟨[], .const (constText value)⟩ := by
  rw [lower]

theorem lower_var_iff {name : String} :
    (var name).lower scope = .ok out ↔
      ∃ operand, scope.find? name = some operand ∧ out = ⟨[], operand⟩ := by
  rw [lower, bind_eq_ok_iff]
  simp only [Scope.lookup_eq_ok_iff, Except.ok.injEq]
  constructor <;> rintro ⟨operand, found, rfl⟩ <;> exact ⟨operand, found, rfl⟩

/-- Left operand, parking, right operand, and the operation on the accumulator. -/
theorem lower_binary_iff {op : BinOp} {lhs rhs : Expr} :
    (binary op lhs rhs).lower scope = .ok out ↔
      ∃ combine left right, operation op = .ok combine ∧
        lhs.lower scope = .ok left ∧ rhs.lower scope = .ok right ∧
        out = ⟨(park left).code ++ right.code ++ intoAccumulator right.value ++
          combine (park left).value, accumulator⟩ := by
  rw [lower]
  simp only [bind_eq_ok_iff, Except.ok.injEq]
  constructor
  · rintro ⟨combine, known, left, lowersLeft, right, lowersRight, rfl⟩
    exact ⟨combine, left, right, known, lowersLeft, lowersRight, rfl⟩
  · rintro ⟨combine, left, right, known, lowersLeft, lowersRight, rfl⟩
    exact ⟨combine, known, left, lowersLeft, right, lowersRight, rfl⟩

/-- The callee has to be known, and arguments on the stack are taken off after the call. -/
theorem lower_call_iff {name : String} {args : List Expr} :
    (call name args).lower scope = .ok out ↔
      name ∈ scope.callees ∧ ∃ passed, lowerArgs scope argRegisters args = .ok passed ∧
        out = ⟨passed ++ [.call (.function name)] ++
          dropArgs (args.length - argRegisters.length), accumulator⟩ := by
  rw [lower]
  simp only [bind_eq_ok_iff, Except.ok.injEq, Scope.callee, resolve_eq_ok_iff]
  constructor
  · rintro ⟨l, ⟨known, rfl⟩, passed, passes, rfl⟩
    exact ⟨known, passed, passes, rfl⟩
  · rintro ⟨known, passed, passes, rfl⟩
    exact ⟨_, ⟨known, rfl⟩, passed, passes, rfl⟩

theorem lowerArgs_nil (registers : List Register) : lowerArgs scope registers [] = .ok [] := by
  cases registers <;> rw [lowerArgs]

/-- Arguments in registers are computed and moved from left to right. -/
theorem lowerArgs_register_iff {r : Register} {rs : List Register} {arg : Expr}
    {args : List Expr} {code : Code} :
    lowerArgs scope (r :: rs) (arg :: args) = .ok code ↔
      ∃ first rest, arg.lower scope = .ok first ∧ lowerArgs scope rs args = .ok rest ∧
        code = first.code ++ [.mov (.reg r valueWidth) first.value] ++ rest := by
  rw [lowerArgs]
  simp only [bind_eq_ok_iff, Except.ok.injEq]
  constructor
  · rintro ⟨first, lowers, rest, passes, rfl⟩
    exact ⟨first, rest, lowers, passes, rfl⟩
  · rintro ⟨first, rest, lowers, passes, rfl⟩
    exact ⟨first, lowers, rest, passes, rfl⟩

/-- Arguments on the stack are computed and pushed from right to left. -/
theorem lowerArgs_stack_iff {arg : Expr} {args : List Expr} {code : Code} :
    lowerArgs scope [] (arg :: args) = .ok code ↔
      ∃ first rest, arg.lower scope = .ok first ∧ lowerArgs scope [] args = .ok rest ∧
        code = rest ++ first.code ++ [.push (first.value.withWidth .quad)] := by
  rw [lowerArgs]
  simp only [bind_eq_ok_iff, Except.ok.injEq]
  constructor
  · rintro ⟨rest, passes, first, lowers, rfl⟩
    exact ⟨first, rest, lowers, passes, rfl⟩
  · rintro ⟨first, rest, lowers, passes, rfl⟩
    exact ⟨rest, passes, first, lowers, rfl⟩

end Expr

/-! ## Statements -/

namespace Stmt

variable {scope after : Scope} {code : Code}

theorem lower_declare_iff {binding : Binding} :
    (declare binding).lower scope = .ok (code, after) ↔
      scope.declare binding.name = .ok after ∧ code = [] := by
  rw [lower, bind_eq_ok_iff]
  simp only [Except.ok.injEq, Prod.mk.injEq]
  constructor
  · rintro ⟨declared, declares, rfl, rfl⟩
    exact ⟨declares, rfl⟩
  · rintro ⟨declares, rfl⟩
    exact ⟨after, declares, rfl, rfl⟩

theorem lower_assign_iff {target : String} {value : Expr} :
    (assign target value).lower scope = .ok (code, after) ↔
      ∃ dst src, scope.find? target = some dst ∧ value.lower scope = .ok src ∧
        code = src.code ++ store dst src.value ∧ after = scope := by
  rw [lower]
  simp only [bind_eq_ok_iff, Except.ok.injEq, Prod.mk.injEq, Scope.lookup_eq_ok_iff]
  constructor
  · rintro ⟨dst, found, src, lowers, rfl, rfl⟩
    exact ⟨dst, src, found, lowers, rfl, rfl⟩
  · rintro ⟨dst, src, found, lowers, rfl, rfl⟩
    exact ⟨dst, found, src, lowers, rfl, rfl⟩

theorem lower_eval_iff {value : Expr} :
    (eval value).lower scope = .ok (code, after) ↔
      ∃ src, value.lower scope = .ok src ∧ code = src.code ∧ after = scope := by
  rw [lower]
  simp only [bind_eq_ok_iff, Except.ok.injEq, Prod.mk.injEq]
  constructor
  · rintro ⟨src, lowers, rfl, rfl⟩
    exact ⟨src, lowers, rfl, rfl⟩
  · rintro ⟨src, lowers, rfl, rfl⟩
    exact ⟨src, lowers, rfl, rfl⟩

theorem lower_ret_none_iff :
    (ret none).lower scope = .ok (code, after) ↔ code = [.jmp scope.exit] ∧ after = scope := by
  rw [lower]
  simp only [Except.ok.injEq, Prod.mk.injEq, eq_comm]

/-- Returning a value brings it into the accumulator before the jump. -/
theorem lower_ret_some_iff {value : Expr} :
    (ret (some value)).lower scope = .ok (code, after) ↔
      ∃ src, value.lower scope = .ok src ∧
        code = src.code ++ intoAccumulator src.value ++ [.jmp scope.exit] ∧ after = scope := by
  rw [lower]
  simp only [bind_eq_ok_iff, Except.ok.injEq, Prod.mk.injEq]
  constructor
  · rintro ⟨src, lowers, rfl, rfl⟩
    exact ⟨src, lowers, rfl, rfl⟩
  · rintro ⟨src, lowers, rfl, rfl⟩
    exact ⟨src, lowers, rfl, rfl⟩

/-- A block opens no scope of its own. -/
theorem lower_block (body : List Stmt) : (block body).lower scope = lowerAll scope body := by
  rw [lower]

theorem lowerAll_nil_iff :
    lowerAll scope [] = .ok (code, after) ↔ code = [] ∧ after = scope := by
  rw [lowerAll]
  simp only [Except.ok.injEq, Prod.mk.injEq, eq_comm]

theorem lowerAll_cons_iff {s : Stmt} {ss : List Stmt} :
    lowerAll scope (s :: ss) = .ok (code, after) ↔
      ∃ head between tail, s.lower scope = .ok (head, between) ∧
        lowerAll between ss = .ok (tail, after) ∧ code = head ++ tail := by
  rw [lowerAll]
  simp only [bind_eq_ok_iff, Except.ok.injEq, Prod.mk.injEq, Prod.exists]
  constructor
  · rintro ⟨head, between, lowersHead, tail, _, lowersTail, rfl, rfl⟩
    exact ⟨head, between, tail, lowersHead, lowersTail, rfl⟩
  · rintro ⟨head, between, tail, lowersHead, lowersTail, rfl⟩
    exact ⟨head, between, lowersHead, tail, after, lowersTail, rfl, rfl⟩

end Stmt

/-! ## Functions and programs -/

section Functions

variable {scope after : Scope} {code : Code}

theorem lowerParams_nil_iff {registers : List Register} {onStack : Nat} :
    lowerParams scope registers onStack [] = .ok (code, after) ↔ code = [] ∧ after = scope := by
  cases registers <;> rw [lowerParams] <;> simp only [Except.ok.injEq, Prod.mk.injEq, eq_comm]

/-- A parameter in a register is stored to a slot on arrival. -/
theorem lowerParams_register_iff {r : Register} {rs : List Register} {onStack : Nat}
    {param : Binding} {params : List Binding} :
    lowerParams scope (r :: rs) onStack (param :: params) = .ok (code, after) ↔
      ∃ declared rest, scope.declare param.name = .ok declared ∧
        lowerParams declared rs onStack params = .ok (rest, after) ∧
        code = .mov scope.nextSlot (.reg r valueWidth) :: rest := by
  rw [lowerParams]
  simp only [bind_eq_ok_iff, Except.ok.injEq, Prod.mk.injEq, Prod.exists]
  constructor
  · rintro ⟨declared, declares, rest, _, lowers, rfl, rfl⟩
    exact ⟨declared, rest, declares, lowers, rfl⟩
  · rintro ⟨declared, rest, declares, lowers, rfl⟩
    exact ⟨declared, declares, rest, after, lowers, rfl, rfl⟩

/-- A parameter on the stack stays there and takes no slot. -/
theorem lowerParams_stack_iff {onStack : Nat} {param : Binding} {params : List Binding} :
    lowerParams scope [] onStack (param :: params) = .ok (code, after) ↔
      ∃ bound, scope.bind param.name (stackArg onStack) = .ok bound ∧
        lowerParams bound [] (onStack + 1) params = .ok (code, after) := by
  rw [lowerParams, bind_eq_ok_iff]

/-- Parameters first, then the statements in the scope that the parameters leave. -/
theorem Func.lowerBody_iff {f : Func} {callees : List String} :
    f.lowerBody callees = .ok (code, after) ↔
      ∃ stores between body,
        lowerParams (.fresh f.name callees) argRegisters 0 f.params = .ok (stores, between) ∧
        Stmt.lowerAll between f.body = .ok (body, after) ∧ code = stores ++ body := by
  rw [Func.lowerBody]
  simp only [bind_eq_ok_iff, Except.ok.injEq, Prod.mk.injEq, Prod.exists]
  constructor
  · rintro ⟨stores, between, binds, body, _, lowers, rfl, rfl⟩
    exact ⟨stores, between, body, binds, lowers, rfl⟩
  · rintro ⟨stores, between, body, binds, lowers, rfl⟩
    exact ⟨stores, between, binds, body, after, lowers, rfl, rfl⟩

theorem Program.lowerFunctions_cons_iff {callees : List String} {f : Func} {fs : List Func} :
    Program.lowerFunctions callees (f :: fs) = .ok code ↔
      ∃ head tail, f.lower callees = .ok head ∧
        Program.lowerFunctions callees fs = .ok tail ∧ code = head ++ tail := by
  rw [Program.lowerFunctions]
  simp only [bind_eq_ok_iff, Except.ok.injEq]
  constructor
  · rintro ⟨head, lowersHead, tail, lowersTail, rfl⟩
    exact ⟨head, tail, lowersHead, lowersTail, rfl⟩
  · rintro ⟨head, tail, lowersHead, lowersTail, rfl⟩
    exact ⟨head, lowersHead, tail, lowersTail, rfl⟩

/-- A program needs its entry function; its code is the start routine and then all functions. -/
theorem Program.lower_iff {p : Program} {target : Target} :
    p.lower target = .ok code ↔
      Program.entry ∈ p.names ∧ ∃ functions,
        Program.lowerFunctions p.names p.functions = .ok functions ∧
        code = .enter .text :: Program.startRoutine target (.function Program.entry) ++
          functions ++ [.enter .gnuStack] := by
  rw [Program.lower]
  simp only [bind_eq_ok_iff, Except.ok.injEq, resolve_eq_ok_iff]
  constructor
  · rintro ⟨main, ⟨known, rfl⟩, functions, lowers, rfl⟩
    exact ⟨known, functions, lowers, rfl⟩
  · rintro ⟨known, functions, lowers, rfl⟩
    exact ⟨_, ⟨known, rfl⟩, functions, lowers, rfl⟩

end Functions

end IntBackend
