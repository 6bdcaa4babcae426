/-
# IntBackend.Proofs.Lowering.Shape — what a lowered program looks like

A lowered program is the start routine followed by one segment for each function,
in the order of the source, between two section marks. A segment wraps a body in
a fixed entry and a fixed exit (`Func.wrapped`). Bodies hold no label and leave in
one way only, by a jump to the exit of their own function: there are as many jumps
as return statements and as many calls as call expressions (`Func.BodyShape`).
-/
import IntBackend.Proofs.Lowering.Labels
import IntBackend.Proofs.Lowering.Layout

namespace IntBackend

set_option autoImplicit false

open Convention

/-! ## Counting instructions -/

/-- How many instructions of code have an opcode. -/
def tally (op : Opcode) (code : Code) : Nat := code.countP fun i => i.op = op

@[simp] theorem tally_nil (op : Opcode) : tally op [] = 0 := rfl

@[simp] theorem tally_append (op : Opcode) (a b : Code) :
    tally op (a ++ b) = tally op a + tally op b := List.countP_append

theorem tally_eq_zero {op : Opcode} {code : Code} (none : ∀ i ∈ code, i.op ≠ op) :
    tally op code = 0 := by
  rw [tally, List.countP_eq_zero]
  intro i among
  simp [none i among]

/-- Parking a value, bringing it into the accumulator, combining it and taking
arguments off the stack are moves and arithmetic. -/
def Opcode.isMove (op : Opcode) : Bool := op = .mov || op = .add || op = .imul

section Moves

variable {op : Opcode} (other : op.isMove = false)
include other

theorem ne_of_not_isMove : op ≠ .mov ∧ op ≠ .add ∧ op ≠ .imul := by
  cases op <;> simp_all [Opcode.isMove]

theorem tally_mov (dst src : Operand) : tally op [.mov dst src] = 0 :=
  tally_eq_zero fun _ among => by
    rw [List.mem_singleton.mp among]
    exact (ne_of_not_isMove other).1.symm

theorem tally_intoAccumulator (operand : Operand) : tally op (intoAccumulator operand) = 0 := by
  unfold intoAccumulator
  split
  · rfl
  · exact tally_mov other ..

theorem tally_park (left : Valued) : tally op (park left).code = tally op left.code := by
  unfold park
  split
  · rw [tally_append, tally_mov other, Nat.add_zero]
  · rfl

theorem tally_operation {binary : BinOp} {combine : Operand → Code}
    (known : operation binary = .ok combine) (left : Operand) : tally op (combine left) = 0 := by
  obtain ⟨-, add, imul⟩ := ne_of_not_isMove other
  apply tally_eq_zero
  intro i among
  cases binary with
  | add =>
      cases known
      rw [List.mem_singleton.mp among]
      exact add.symm
  | mul =>
      cases known
      rw [List.mem_singleton.mp among]
      exact imul.symm
  | sub =>
      cases known
      rcases List.mem_pair.mp among with rfl | rfl
      · exact imul.symm
      · exact add.symm
  | div => cases known
  | rem => cases known

theorem tally_dropArgs (count : Nat) : tally op (dropArgs count) = 0 := by
  unfold dropArgs
  split
  · rfl
  · apply tally_eq_zero
    intro i among
    rw [List.mem_singleton.mp among]
    exact (ne_of_not_isMove other).2.1.symm

theorem tally_store (dst src : Operand) : tally op (store dst src) = 0 := by
  unfold store
  split
  · rw [tally_append, tally_intoAccumulator other, tally_mov other]
  · exact tally_mov other ..

theorem tally_arrivals (f : Func) : tally op f.arrivals = 0 :=
  tally_eq_zero fun i among => by
    obtain ⟨k, r, rfl⟩ := mov_of_mem_arriving among
    exact (ne_of_not_isMove other).1.symm

end Moves

/-! ## Calls of expressions -/

namespace Expr

/-- The number of calls in an expression, at any depth. -/
def calls (e : Expr) : Nat := e.nodes.countP isCall

def callsAll (es : List Expr) : Nat := (nodesAll es).countP isCall

theorem callsAll_cons (e : Expr) (es : List Expr) :
    callsAll (e :: es) = e.calls + callsAll es := by
  rw [callsAll, nodesAll, List.countP_append, calls, callsAll]

theorem calls_binary (op : BinOp) (lhs rhs : Expr) :
    (binary op lhs rhs).calls = lhs.calls + rhs.calls := by
  simp [calls, nodes, isCall]

theorem calls_call (callee : String) (args : List Expr) :
    (call callee args).calls = callsAll args + 1 := by
  rw [calls, nodes, List.countP_cons_of_pos rfl, callsAll]

/-- Passing arguments adds no call to those in the arguments. -/
theorem tally_lowerArgs {scope : Scope} {args : List Expr}
    (each : ∀ arg ∈ args, ∀ {out}, arg.lower scope = .ok out → tally .call out.code = arg.calls)
    {registers : List Register} {code : Code}
    (lowers : lowerArgs scope registers args = .ok code) : tally .call code = callsAll args :=
  countP_code_lowerArgs each (fun _ _ _ _ => rfl) (fun _ _ => rfl) lowers

/-- Code of an expression calls once for each call in it. -/
theorem tally_call_of_lower (e : Expr) {scope : Scope} {out : Valued}
    (lowers : e.lower scope = .ok out) : tally .call out.code = e.calls := by
  induction e generalizing out with
  | var name =>
      obtain ⟨operand, -, rfl⟩ := lower_var_iff.mp lowers
      rfl
  | const value =>
      rw [lower_const] at lowers
      cases lowers
      rfl
  | binary op lhs rhs left right =>
      obtain ⟨combine, l, r, known, lowersLeft, lowersRight, rfl⟩ := lower_binary_iff.mp lowers
      have other : Opcode.call.isMove = false := rfl
      rw [tally_append, tally_append, tally_append, tally_park other, tally_intoAccumulator other,
        tally_operation other known, left lowersLeft, right lowersRight, calls_binary,
        Nat.add_zero]
  | call name args each =>
      obtain ⟨-, passed, passes, rfl⟩ := lower_call_iff.mp lowers
      have passing := tally_lowerArgs (fun arg among => each arg among) passes
      have call : tally .call [.call (.function name)] = 1 := rfl
      rw [tally_append, tally_append, passing, call, tally_dropArgs rfl, calls_call]

/-- No expression leaves the function. -/
theorem tally_jmp_of_lower (e : Expr) {scope : Scope} (cells : scope.Cells) {out : Valued}
    (lowers : e.lower scope = .ok out) : tally .jmp out.code = 0 :=
  tally_eq_zero fun i among => (e.emits_of_lower cells lowers i among).op_ne_jmp

end Expr

/-! ## Returns and calls of statements -/

namespace Stmt

def isReturn : Stmt → Bool
  | .ret _ => true
  | _ => false

/-- The number of return statements of a body, at any depth. -/
def returnsAll (body : List Stmt) : Nat := (leavesAll body).countP isReturn

/-- The number of calls in the expressions of a body, at any depth. -/
def callsAll (body : List Stmt) : Nat := ((exprsAll body).flatMap Expr.nodes).countP Expr.isCall

/-- Code has a jump for each of `returns` and a call for each of `calls`. -/
structure Tallied (code : Code) (returns calls : Nat) : Prop where
  jumps : tally .jmp code = returns
  calls : tally .call code = calls

/-- Counts add up along code. -/
theorem Tallied.append {a b : Code} {returns more calls others : Nat}
    (first : Tallied a returns calls) (second : Tallied b more others) :
    Tallied (a ++ b) (returns + more) (calls + others) := by
  constructor
  · rw [tally_append, first.jumps, second.jumps]
  · rw [tally_append, first.calls, second.calls]

/-- An expression counts its calls and no return. -/
theorem tallied_value (e : Expr) {scope : Scope} (cells : scope.Cells) {out : Valued}
    (lowers : e.lower scope = .ok out) : Tallied out.code 0 e.calls :=
  ⟨e.tally_jmp_of_lower cells lowers, e.tally_call_of_lower lowers⟩

/-- A return statement counts one jump, every other statement that is no block none. -/
theorem tallied_of_leaf {s : Stmt} {scope after : Scope} {code : Code}
    (alone : s.isBlock = false) (lowers : s.lower scope = .ok (code, after))
    (cells : after.Cells) :
    Tallied code (if s.isReturn then 1 else 0)
      ((s.values.flatMap Expr.nodes).countP Expr.isCall) := by
  cases s with
  | declare binding =>
      obtain ⟨-, rfl⟩ := lower_declare_iff.mp lowers
      exact ⟨rfl, rfl⟩
  | assign target value =>
      obtain ⟨dst, src, -, lowersValue, rfl, rfl⟩ := lower_assign_iff.mp lowers
      have stored : Tallied (store dst src.value) 0 0 := ⟨tally_store rfl .., tally_store rfl ..⟩
      have whole := (tallied_value value cells lowersValue).append stored
      simpa [values, isReturn, Expr.calls] using whole
  | eval value =>
      obtain ⟨src, lowersValue, rfl, rfl⟩ := lower_eval_iff.mp lowers
      have whole := tallied_value value cells lowersValue
      simpa [values, isReturn, Expr.calls] using whole
  | ret value =>
      cases value with
      | none =>
          obtain ⟨rfl, rfl⟩ := lower_ret_none_iff.mp lowers
          exact ⟨rfl, rfl⟩
      | some value =>
          obtain ⟨src, lowersValue, rfl, rfl⟩ := lower_ret_some_iff.mp lowers
          have brought : Tallied (intoAccumulator src.value) 0 0 :=
            ⟨tally_intoAccumulator rfl _, tally_intoAccumulator rfl _⟩
          have leave : Tallied [.jmp after.exit] 1 0 := ⟨rfl, rfl⟩
          have whole := ((tallied_value value cells lowersValue).append brought).append leave
          simpa [values, isReturn, Expr.calls] using whole
  | block body => cases alone

/-- A body jumps once for each return statement and calls once for each call in it. -/
theorem tallied_of_lowerAll {scope after : Scope} {body : List Stmt} {code : Code}
    (lowers : lowerAll scope body = .ok (code, after)) (cells : after.Cells) :
    Tallied code (returnsAll body) (callsAll body) := by
  refine lowerAll_induction_cells
    (motive := fun leaves code _ => Tallied code (leaves.countP isReturn)
      (((leaves.flatMap values).flatMap Expr.nodes).countP Expr.isCall))
    (fun _ => ⟨rfl, rfl⟩) ?_ lowers cells
  intro scope between after s ss head tail alone lowersHead cells _ late
  rw [List.countP_cons, Nat.add_comm, List.flatMap_cons, List.flatMap_append, List.countP_append]
  exact (tallied_of_leaf alone lowersHead cells).append late

end Stmt

/-! ## Functions -/

namespace Func

/-- A body in the frame of its function. -/
def wrapped (f : Func) (body : Code) : Code := f.framed f.frameSize body

/-- What the body of a function consists of, in a program that declares `names`. -/
structure BodyShape (names : List String) (f : Func) (body : Code) : Prop where
  unlabelled : ∀ i ∈ body, i.label = none
  opcodes : ∀ i ∈ body, i.op ∈ [Opcode.mov, .add, .imul, .push, .call, .jmp]
  jumps : ∀ i ∈ body, i.op = .jmp → i.operands = [.label (.epilogue f.name)]
  targets : ∀ i ∈ body, i.op = .call → ∃ g ∈ names, i.operands = [.label (.function g)]
  returns : tally .jmp body = (Stmt.leavesAll f.body).countP Stmt.isReturn
  calls : tally .call body = f.nodes.countP Expr.isCall

end Func

/-- The only jump of a body goes to the exit of its own function. -/
theorem Scope.EmitsBody.operands_of_jmp {scope : Scope} {i : Instruction}
    (emits : scope.EmitsBody i) (jumps : i.op = .jmp) :
    i.operands = [.label (.epilogue scope.function)] := by
  cases emits with
  | value emits => exact absurd jumps emits.op_ne_jmp
  | store found value => cases jumps
  | arrive found carries => cases jumps
  | leave => rfl

/-- A body calls functions, never the start routine or an epilogue. -/
theorem Scope.EmitsBody.operands_of_call {scope : Scope} {i : Instruction}
    (emits : scope.EmitsBody i) (calls : i.op = .call) :
    ∃ g ∈ scope.callees, i.operands = [.label (.function g)] := by
  cases emits with
  | value emits =>
      cases emits with
      | call known => exact ⟨_, known, rfl⟩
      | _ => cases calls
  | store found value => cases calls
  | arrive found carries => cases calls
  | leave => cases calls

/-- Every lowered body has the shape. -/
theorem Func.bodyShape_of_lowerBody {f : Func} {callees : List String} {body : Code}
    {final : Scope} (lowers : f.lowerBody callees = .ok (body, final)) :
    f.BodyShape callees body := by
  have cells := (Func.laid_of_lowerBody lowers).cells
  have emits := Func.emitsBody_of_lowerBody lowers
  have extension := (Func.grown_of_lowerBody lowers).extension
  have tallied : Stmt.Tallied body (Stmt.returnsAll f.body) (Stmt.callsAll f.body) := by
    obtain ⟨between, statements, -, lowersBody, rfl⟩ := Func.begins_with_arrivals lowers
    have early : Stmt.Tallied f.arrivals 0 0 := ⟨tally_arrivals rfl f, tally_arrivals rfl f⟩
    have late := Stmt.tallied_of_lowerAll lowersBody cells
    simpa using early.append late
  refine ⟨fun i among => (emits i among).unlabelled, fun i among => (emits i among).op_mem,
    ?_, ?_, tallied.jumps, tallied.calls⟩
  · intro i among jumps
    have operands := (emits i among).operands_of_jmp jumps
    rw [extension.function] at operands
    exact operands
  · intro i among calls
    have operands := (emits i among).operands_of_call calls
    rw [extension.callees] at operands
    exact operands

/-! ## Programs -/

theorem Func.BodyShape.tally_ret {names : List String} {f : Func} {body : Code}
    (shape : f.BodyShape names body) : tally .ret (f.wrapped body) = 1 := by
  have inside : tally .ret body = 0 := by
    apply tally_eq_zero
    intro i among returns
    have opcodes := shape.opcodes i among
    simp [returns] at opcodes
  rw [Func.wrapped, Func.framed, tally_append, tally_append, inside]
  rfl

/-- The functions are lowered one by one, each to its own wrapped body. -/
theorem Program.bodies_of_lowerFunctions {callees : List String} {fs : List Func} {code : Code}
    (lowers : Program.lowerFunctions callees fs = .ok code) :
    ∃ bodies, List.Forall₂ (Func.BodyShape callees) fs bodies ∧
      code = (List.zipWith Func.wrapped fs bodies).flatten := by
  induction fs generalizing code with
  | nil =>
      cases lowers
      exact ⟨[], .nil, rfl⟩
  | cons f fs ih =>
      obtain ⟨head, tail, lowersHead, lowersTail, rfl⟩ :=
        Program.lowerFunctions_cons_iff.mp lowers
      obtain ⟨body, final, lowersBody, rfl⟩ := Func.lower_iff.mp lowersHead
      obtain ⟨bodies, shapes, rfl⟩ := ih lowersTail
      exact ⟨body :: bodies, .cons (Func.bodyShape_of_lowerBody lowersBody) shapes, rfl⟩

theorem tally_ret_flatten {names : List String} {fs : List Func} {bodies : List Code}
    (shapes : List.Forall₂ (Func.BodyShape names) fs bodies) :
    tally .ret (List.zipWith Func.wrapped fs bodies).flatten = fs.length := by
  induction shapes with
  | nil => rfl
  | cons shape _ ih =>
      rw [List.zipWith_cons_cons, List.flatten_cons, tally_append, shape.tally_ret, ih,
        List.length_cons, Nat.add_comm]

/-- A lowered program is its start routine and one wrapped body for each function, so
it has one return and one exit label for each function. -/
theorem Program.shape_of_lower (p : Program) (target : Target) (code : Code)
    (lowers : p.lower target = .ok code) :
    (∃ bodies, List.Forall₂ (Func.BodyShape p.names) p.functions bodies ∧
      code =
        [⟨none, .enter .text, []⟩,
          ⟨none, .global, [.label .start]⟩,
          ⟨some .start, .call, [.label (.function "main")]⟩,
          ⟨none, .mov, [.reg .di .long, .reg .ax .long]⟩,
          ⟨none, .mov, [.reg .ax .quad, .const (toString target.exitNumber)]⟩,
          ⟨none, .syscall, []⟩] ++
        (List.zipWith Func.wrapped p.functions bodies).flatten ++
        [⟨none, .enter .gnuStack, []⟩]) ∧
    tally .ret code = p.functions.length ∧
    labels code =
      .start :: p.functions.flatMap fun f => [.function f.name, .epilogue f.name] := by
  have named := Program.labels_of_lower lowers
  obtain ⟨-, functions, lowersFunctions, rfl⟩ := Program.lower_iff.mp lowers
  obtain ⟨bodies, shapes, rfl⟩ := Program.bodies_of_lowerFunctions lowersFunctions
  refine ⟨⟨bodies, shapes, rfl⟩, ?_, named⟩
  have start : tally .ret (.enter .text ::
      Program.startRoutine target (.function Program.entry)) = 0 := rfl
  have stop : tally .ret [.enter .gnuStack] = 0 := rfl
  rw [tally_append, tally_append, start, stop, tally_ret_flatten shapes, Nat.zero_add,
    Nat.add_zero]

/-- Returns in blocks and behind another return, and calls inside calls. -/
def manyExits : Program :=
  ⟨[⟨"f", [⟨"a", .int⟩], some .int,
      [.block [.ret (some (.call "f" [.call "g" [.call "f" [.var "a"]]])), .ret none],
        .ret (some (.var "a"))]⟩,
    ⟨"g", [⟨"a", .int⟩], none, []⟩,
    ⟨"main", [], none, [.eval (.call "g" [.const 1]), .block [.block [.ret none]]]⟩]⟩

theorem Program.shape_of_lower_manyExits :
    ∃ (code : Code) (bodies : List Code), manyExits.lower .linux = .ok code ∧
      List.Forall₂ (Func.BodyShape manyExits.names) manyExits.functions bodies ∧
      bodies.map (tally .jmp) = [3, 0, 1] ∧ bodies.map (tally .call) = [3, 0, 1] ∧
      tally .ret code = 3 := by
  have lowersOk : (manyExits.lower .linux).isOk = true := by decide +kernel
  obtain ⟨code, lowers⟩ := exists_ok_of_isOk lowersOk
  obtain ⟨⟨bodies, shapes, -⟩, returns, -⟩ := Program.shape_of_lower manyExits .linux code lowers
  cases shapes with
  | cons f rest =>
    cases rest with
    | cons g rest =>
      cases rest with
      | cons main rest =>
        cases rest
        refine ⟨code, _, lowers, .cons f (.cons g (.cons main .nil)), ?_, ?_, returns⟩
        · simp only [List.map_cons, List.map_nil, f.returns, g.returns, main.returns]
          decide +kernel
        · simp only [List.map_cons, List.map_nil, f.calls, g.calls, main.calls]
          decide +kernel

end IntBackend
