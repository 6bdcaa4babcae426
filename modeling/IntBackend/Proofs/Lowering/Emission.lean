/-
# IntBackend.Proofs.Lowering.Emission — code appended instruction by instruction

Lowering an expression can be read as a process that appends instructions, one by one, to those
that are there already, and looks names up in a scope on the way. `Expr.emit` is this process. It
passes the arguments of a call in two loops, one forward over those that go into registers and one
backward over the others. `Expr.follows` says that the process and `Expr.lower` agree: it appends
the code of the expression to whatever was there, returns the operand of the value, leaves the scope
as it was, and fails where lowering fails, with the same fault.
-/
import IntBackend.Proofs.Lowering.Inversion

namespace IntBackend

set_option autoImplicit false

open Convention

/-- The instructions so far, and the names that the function knows. -/
structure Emission where
  emitted : Code
  scope : Scope
  deriving DecidableEq, Repr

namespace Emission

def append (s : Emission) (code : Code) : Emission := { s with emitted := s.emitted ++ code }

theorem append_nil (s : Emission) : s.append [] = s := by
  rw [append, List.append_nil]

theorem append_append (s : Emission) (first second : Code) :
    (s.append first).append second = s.append (first ++ second) := by
  rw [append, append, append, List.append_assoc]

theorem scope_append (s : Emission) (code : Code) : (s.append code).scope = s.scope := rfl

end Emission

/-! ## The process -/

/-- A computation that appends instructions and may fail. -/
abbrev Emitter := StateT Emission (Except LoweringFault)

namespace Emitter

def push (i : Instruction) : Emitter Unit := modify (·.append [i])

def pushAll (code : Code) : Emitter Unit := forM code push

/-- Moves a value out of the accumulator, if it is there, and says where it is now. -/
def park (value : Operand) : Emitter Operand := do
  if value.isRegister .ax then
    push (.mov scratch value)
    return scratch
  else return value

def intoAccumulator (value : Operand) : Emitter Operand := do
  if !value.isRegister .ax then push (.mov accumulator value)
  return accumulator

/-- Computes a value and appends the instruction that uses it. -/
def use (instruction : Operand → Instruction) (value : Emitter Operand) : Emitter Unit := do
  push (instruction (← value))

def passInRegister (r : Register) : Emitter Operand → Emitter Unit :=
  use (.mov (.reg r valueWidth))

def passOnStack : Emitter Operand → Emitter Unit :=
  use fun value => .push (value.withWidth .quad)

/-- The first values go into registers, in order, the others on the stack, the last one first. -/
def pass (registers : List Register) (values : List (Emitter Operand)) : Emitter Unit := do
  forM (registers.zip values) fun (r, value) => passInRegister r value
  forM (values.drop registers.length).reverse passOnStack

/-- Takes arguments off the stack again. -/
def dropArgs (count : Nat) : Emitter Unit := do
  if 0 < count then push (.add stackPointer (.nat (stackArgSize * count)))

end Emitter

mutual

/-- Appends the code of an expression and returns the operand that holds the value. An operator
without code is refused before anything is appended. -/
def Expr.emit : Expr → Emitter Operand
  | .const n => return .const (constText n)
  | .var name => do (← get).scope.lookup name
  | .binary op lhs rhs => do
      let combine ← operation op
      let left ← Emitter.park (← lhs.emit)
      let result ← Emitter.intoAccumulator (← rhs.emit)
      Emitter.pushAll (combine left)
      return result
  | .call name args => do
      let callee ← (← get).scope.callee name
      Emitter.pass argRegisters (Expr.emitAll args)
      Emitter.push (.call callee)
      Emitter.dropArgs (args.length - argRegisters.length)
      return accumulator

/-- The computations of the values, none of which has run. -/
def Expr.emitAll : List Expr → List (Emitter Operand)
  | [] => []
  | e :: es => e.emit :: Expr.emitAll es

end

/-! ## Single steps -/

namespace Emitter

section

variable {α β : Type} {x : Emitter α} {f : α → Emitter β} {s t : Emission}

/-- A step that succeeds hands its result and its state on. -/
theorem run_bind_ok {a : α} (ran : x.run s = .ok (a, t)) : (x >>= f).run s = (f a).run t := by
  rw [StateT.run_bind, ran]
  rfl

theorem ok_bind (a : α) (k : α → Except LoweringFault β) : (Except.ok a >>= k) = k a := rfl

/-- A run that is known from another computation goes on where that one succeeds. -/
theorem run_bind_map {γ : Type} {result : Except LoweringFault γ} {g : γ → α × Emission}
    (ran : x.run s = result.map g) :
    (x >>= f).run s = result >>= fun c => (f (g c).1).run (g c).2 := by
  rw [StateT.run_bind, ran]
  cases result with
  | error fault => rfl
  | ok c => rfl

theorem run_bind_lift (a : α) :
    ((liftM (Except.ok a : Except LoweringFault α) : Emitter α) >>= f).run s = (f a).run s := rfl

end

theorem push_run (i : Instruction) (s : Emission) : (push i).run s = .ok ((), s.append [i]) := rfl

theorem pushAll_run (code : Code) (s : Emission) :
    (pushAll code).run s = .ok ((), s.append code) := by
  induction code generalizing s with
  | nil =>
      rw [s.append_nil]
      rfl
  | cons i code ih =>
      have rest := ih (s.append [i])
      rw [s.append_append] at rest
      exact rest

/-- Parking in place appends what `park` adds to the code. -/
theorem park_run (left : Valued) (s : Emission) :
    (park left.value).run (s.append left.code) =
      .ok ((IntBackend.park left).value, s.append (IntBackend.park left).code) := by
  unfold park IntBackend.park
  by_cases computed : left.value.isRegister .ax
  · rw [if_pos computed, if_pos computed, ← s.append_append]
    rfl
  · rw [if_neg computed, if_neg computed]
    rfl

theorem intoAccumulator_run (value : Operand) (s : Emission) :
    (intoAccumulator value).run s =
      .ok (accumulator, s.append (IntBackend.intoAccumulator value)) := by
  unfold intoAccumulator IntBackend.intoAccumulator
  cases value.isRegister .ax with
  | true =>
      rw [if_pos rfl, s.append_nil]
      rfl
  | false => rfl

theorem dropArgs_run (count : Nat) (s : Emission) :
    (dropArgs count).run s = .ok ((), s.append (IntBackend.dropArgs count)) := by
  unfold dropArgs IntBackend.dropArgs
  cases count with
  | zero =>
      rw [if_pos rfl, s.append_nil]
      rfl
  | succ count => rfl

end Emitter

/-! ## Emission and lowering -/

namespace Expr

/-- The computations of arguments are those of the single expressions. -/
theorem emitAll_eq_map (es : List Expr) : emitAll es = es.map emit := by
  induction es with
  | nil => rfl
  | cons e es ih => rw [emitAll, ih, List.map_cons]

/-- Emission appends the code that lowering gives, or fails as lowering does. -/
def Follows (e : Expr) : Prop :=
  ∀ s, e.emit.run s = (e.lower s.scope).map fun out => (out.value, s.append out.code)

/-- Using a value appends its code and then the instruction. -/
theorem Follows.use_run {e : Expr} (follows : e.Follows) (instruction : Operand → Instruction)
    (s : Emission) :
    (Emitter.use instruction e.emit).run s =
      (e.lower s.scope).map fun out => ((), s.append (out.code ++ [instruction out.value])) := by
  rw [Emitter.use, Emitter.run_bind_map (follows s)]
  cases e.lower s.scope with
  | error fault => rfl
  | ok out => exact congrArg (fun t => Except.ok ((), t)) (s.append_append ..)

/-- The loop over the arguments on the stack runs backward, so that the last step of the loop is
the first argument. -/
theorem passOnStack_run {args : List Expr} (each : ∀ arg ∈ args, arg.Follows) (s : Emission) :
    (forM (args.map emit).reverse Emitter.passOnStack).run s =
      (lowerArgs s.scope [] args).map fun code => ((), s.append code) := by
  induction args with
  | nil =>
      rw [lowerArgs_nil]
      exact congrArg (fun t => Except.ok ((), t)) s.append_nil.symm
  | cons arg args ih =>
      have others := ih fun other among => each other (List.mem_cons_of_mem _ among)
      rw [List.map_cons, List.reverse_cons, List.forM_append, lowerArgs,
        Emitter.run_bind_map others]
      cases lowerArgs s.scope [] args with
      | error fault => rfl
      | ok rest =>
          have here := (each arg (List.mem_cons_self ..)).use_run
            (fun value => .push (value.withWidth .quad)) (s.append rest)
          rw [s.scope_append] at here
          refine (Emitter.run_bind_map here).trans ?_
          cases arg.lower s.scope with
          | error fault => rfl
          | ok out =>
              simp only [s.append_append, ← List.append_assoc]
              rfl

/-- Passing in place appends the code that passing gives, if each value follows lowering. -/
theorem pass_run {args : List Expr} (each : ∀ arg ∈ args, arg.Follows) (registers : List Register)
    (s : Emission) :
    (Emitter.pass registers (args.map emit)).run s =
      (lowerArgs s.scope registers args).map fun code => ((), s.append code) := by
  induction registers generalizing args s with
  | nil => exact passOnStack_run each s
  | cons r rs ih =>
      cases args with
      | nil =>
          rw [lowerArgs_nil]
          exact congrArg (fun t => Except.ok ((), t)) s.append_nil.symm
      | cons arg args =>
          have here := (each arg (List.mem_cons_self ..)).use_run (.mov (.reg r valueWidth)) s
          -- One step of the forward loop; what is left is again a pass, with a register less.
          have steps : Emitter.pass (r :: rs) ((arg :: args).map emit) =
              Emitter.passInRegister r arg.emit >>= fun _ => Emitter.pass rs (args.map emit) := by
            simp only [Emitter.pass, List.map_cons, List.zip_cons_cons, List.forM_cons, bind_assoc,
              List.length_cons, List.drop_succ_cons]
          rw [steps, lowerArgs, Emitter.passInRegister, Emitter.run_bind_map here]
          cases arg.lower s.scope with
          | error fault => rfl
          | ok first =>
              have others := ih (fun other among => each other (List.mem_cons_of_mem _ among))
                (s.append (first.code ++ [.mov (.reg r valueWidth) first.value]))
              rw [s.scope_append] at others
              refine others.trans ?_
              cases lowerArgs s.scope rs args with
              | error fault => rfl
              | ok rest => exact congrArg (fun t => Except.ok ((), t)) (s.append_append ..)

/-- The process and the function agree on every expression, whatever was emitted before. -/
theorem follows (e : Expr) : e.Follows := by
  induction e with
  | const n =>
      intro s
      rw [emit, lower_const]
      exact congrArg (fun t => Except.ok (_, t)) s.append_nil.symm
  | var name =>
      intro s
      rw [emit, lower, Emitter.run_bind_ok (StateT.run_get s)]
      cases s.scope.lookup name with
      | error fault => rfl
      | ok operand => exact congrArg (fun t => Except.ok (_, t)) s.append_nil.symm
  | binary op lhs rhs runLeft runRight =>
      intro s
      rw [emit, lower]
      cases operation op with
      | error fault => rfl
      | ok combine =>
          rw [Emitter.run_bind_lift, Emitter.run_bind_map (runLeft s)]
          cases lhs.lower s.scope with
          | error fault => rfl
          | ok left =>
              have late := runRight (s.append (park left).code)
              rw [s.scope_append] at late
              simp only [Emitter.ok_bind]
              rw [Emitter.run_bind_ok (Emitter.park_run left s), Emitter.run_bind_map late]
              cases rhs.lower s.scope with
              | error fault => rfl
              | ok right =>
                  simp only [Emitter.ok_bind]
                  rw [Emitter.run_bind_ok (Emitter.intoAccumulator_run ..),
                    Emitter.run_bind_ok (Emitter.pushAll_run ..)]
                  simp only [Emission.append_append]
                  rfl
  | call name args each =>
      intro s
      rw [emit, lower, Emitter.run_bind_ok (StateT.run_get s), emitAll_eq_map]
      cases s.scope.callee name with
      | error fault => rfl
      | ok callee =>
          rw [Emitter.run_bind_lift, Emitter.run_bind_map (pass_run each argRegisters s)]
          cases lowerArgs s.scope argRegisters args with
          | error fault => rfl
          | ok code =>
              simp only [Emitter.ok_bind]
              rw [Emitter.run_bind_ok (Emitter.push_run ..), s.append_append,
                Emitter.run_bind_ok (Emitter.dropArgs_run ..), s.append_append]
              rfl

end Expr

end IntBackend
