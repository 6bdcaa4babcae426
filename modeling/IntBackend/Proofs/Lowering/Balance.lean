/-
# IntBackend.Proofs.Lowering.Balance — the stack pointer within a function

A function moves the stack pointer by pushing and popping and by adding and
subtracting literals; a call gives it back as it was. Code of an expression never
leaves the stack pointer higher than it found it and ends where it began
(`Sinks`), however calls with arguments on the stack nest. So within a function
it stays at or below the bottom of the frame, stands exactly there at every
jump, and is back where it was when the function returns.
-/
import Mathlib.Algebra.BigOperators.Group.List.Basic
import IntBackend.Proofs.Lowering.Layout
import IntBackend.Proofs.Lowering.Segments
import IntBackend.Proofs.Machine.Literals

namespace IntBackend

set_option autoImplicit false

open Convention

/-! ## Displacement -/

/-- How far an instruction moves the stack pointer. -/
def Instruction.displacement (i : Instruction) : Int :=
  match i.op, i.operands with
  | .push, _ => -8
  | .pop, _ => 8
  | .sub, [.reg .sp _, .const text] => -text.toInt?.getD 0
  | .add, [.reg .sp _, .const text] => text.toInt?.getD 0
  | _, _ => 0

theorem Instruction.displacement_add_stackPointer (n : Nat) :
    (Instruction.add stackPointer (.nat n)).displacement = n := by
  simp [displacement, Instruction.add, plain, stackPointer, Operand.nat]

/-- The stack pointer is the destination of nothing but additions and subtractions
of a literal. -/
def Instruction.MovesCounted (i : Instruction) : Prop :=
  ∀ w rest, i.operands = .reg .sp w :: rest →
    (i.op = .add ∨ i.op = .sub) ∧ ∃ n : Nat, rest = [.const (toString n)]

/-- How far code moves the stack pointer if it runs from end to end. -/
def displacement (code : Code) : Int := (code.map Instruction.displacement).sum

@[simp] theorem displacement_nil : displacement [] = 0 := rfl

@[simp] theorem displacement_cons (i : Instruction) (code : Code) :
    displacement (i :: code) = i.displacement + displacement code := by
  simp [displacement]

@[simp] theorem displacement_append (a b : Code) :
    displacement (a ++ b) = displacement a + displacement b := by
  simp [displacement]

/-- The displacement inside a sequence of two is that of the part already run. -/
theorem displacement_take_append (a b : Code) (k : Nat) :
    displacement ((a ++ b).take k) =
      displacement (a.take k) + displacement (b.take (k - a.length)) := by
  rw [List.take_append, displacement_append]

/-! ## Code that sinks -/

/-- The code takes `depth` bytes of stack and never gives back more than it took. -/
structure Sinks (depth : Nat) (code : Code) : Prop where
  net : displacement code = -(depth : Int)
  below : ∀ k, displacement (code.take k) ≤ 0

theorem sinks_nil : Sinks 0 [] := ⟨rfl, fun k => by simp⟩

/-- Bytes taken add up, and the second part starts no higher than the first ended. -/
theorem Sinks.append {m n : Nat} {a b : Code} (first : Sinks m a) (second : Sinks n b) :
    Sinks (m + n) (a ++ b) := by
  refine ⟨?_, fun k => ?_⟩
  · rw [displacement_append, first.net, second.net]
    omega
  · rw [displacement_take_append]
    have early := first.below k
    have late := second.below (k - a.length)
    omega

theorem sinks_singleton {i : Instruction} {depth : Nat}
    (moves : i.displacement = -(depth : Int)) : Sinks depth [i] := by
  refine ⟨by simp [moves], fun k => ?_⟩
  cases k with
  | zero => simp
  | succ k =>
      simp only [List.take_succ_cons, List.take_nil, displacement_cons, displacement_nil, moves]
      omega

theorem sinks_intoAccumulator (operand : Operand) : Sinks 0 (intoAccumulator operand) := by
  unfold intoAccumulator
  split
  · exact sinks_nil
  · exact sinks_singleton rfl

theorem sinks_operation {op : BinOp} {combine : Operand → Code}
    (known : operation op = .ok combine) (left : Operand) : Sinks 0 (combine left) := by
  cases op with
  | add => cases known; exact sinks_singleton rfl
  | mul => cases known; exact sinks_singleton rfl
  | sub =>
      cases known
      have negate : Sinks 0 [.imul accumulator (.const "-1")] := sinks_singleton rfl
      have add : Sinks 0 [.add accumulator left] := sinks_singleton rfl
      exact negate.append add
  | div => cases known
  | rem => cases known

/-- Parking a value is a move and does not touch the stack. -/
theorem Sinks.park {left : Valued} (sinks : Sinks 0 left.code) : Sinks 0 (park left).code := by
  unfold IntBackend.park
  split
  · have move : Sinks 0 [.mov scratch left.value] := sinks_singleton rfl
    exact sinks.append move
  · exact sinks

/-- Taking arguments off the stack again evens out what pushing them took. -/
theorem Sinks.drop {count : Nat} {code : Code} (sinks : Sinks (stackArgSize * count) code) :
    Sinks 0 (code ++ dropArgs count) := by
  unfold dropArgs
  split
  · rename_i none
    subst none
    simpa using sinks
  · have moves : (Instruction.add stackPointer (.nat (stackArgSize * count))).displacement =
        ((stackArgSize * count : Nat) : Int) := Instruction.displacement_add_stackPointer _
    refine ⟨?_, fun k => ?_⟩
    · simp [sinks.net, moves]
    · rw [displacement_take_append]
      have early := sinks.below k
      cases after : k - code.length with
      | zero => simpa using early
      | succ n =>
          rw [List.take_of_length_le (show code.length ≤ k by omega), sinks.net]
          simp [moves]

/-- Passing arguments takes eight bytes for each that finds no register. -/
theorem Expr.sinks_of_lowerArgs {scope : Scope} {args : List Expr}
    (each : ∀ arg ∈ args, ∀ {out}, arg.lower scope = .ok out → Sinks 0 out.code)
    {registers : List Register} {code : Code}
    (lowers : Expr.lowerArgs scope registers args = .ok code) :
    Sinks (stackArgSize * (args.length - registers.length)) code := by
  refine Expr.lowerArgs_induction (motive := fun registers args code =>
    Sinks (stackArgSize * (args.length - registers.length)) code) each ?_ ?_ ?_ lowers
  · intro registers
    simpa using sinks_nil
  · intro r rs arg args first rest _ here there
    have move : Sinks 0 [.mov (.reg r valueWidth) first.value] := sinks_singleton rfl
    simpa using (here.append move).append there
  · intro arg args first rest _ here there
    have push : Sinks 8 [.push (first.value.withWidth .quad)] := sinks_singleton rfl
    have whole := (there.append here).append push
    convert whole using 1
    simp [stackArgSize]
    omega

/-- Code of an expression leaves the stack pointer where it was. -/
theorem Expr.sinks_of_lower (e : Expr) {scope : Scope} {out : Valued}
    (lowers : e.lower scope = .ok out) : Sinks 0 out.code := by
  induction e generalizing out with
  | var name =>
      obtain ⟨operand, -, rfl⟩ := Expr.lower_var_iff.mp lowers
      exact sinks_nil
  | const value =>
      rw [Expr.lower_const] at lowers
      cases lowers
      exact sinks_nil
  | binary op lhs rhs left right =>
      obtain ⟨combine, l, r, known, lowersLeft, lowersRight, rfl⟩ :=
        Expr.lower_binary_iff.mp lowers
      have operands := (left lowersLeft).park.append (right lowersRight)
      exact (operands.append (sinks_intoAccumulator _)).append (sinks_operation known _)
  | call name args each =>
      obtain ⟨-, passed, passes, rfl⟩ := Expr.lower_call_iff.mp lowers
      have pushed := Expr.sinks_of_lowerArgs (fun arg among => each arg among) passes
      have call : Sinks 0 [.call (.function name)] := sinks_singleton rfl
      exact (pushed.append call).drop

/-! ## Code that stays level -/

/-- The code ends where it began, and every jump out of it leaves from there. -/
structure Level (code : Code) : Prop extends Sinks 0 code where
  jumps : ∀ k i, code[k]? = some i → i.op = .jmp → displacement (code.take k) = 0

/-- Level pieces make level code. -/
theorem Level.append {a b : Code} (first : Level a) (second : Level b) : Level (a ++ b) := by
  refine ⟨first.toSinks.append second.toSinks, fun k i at_ jumps => ?_⟩
  rw [displacement_take_append]
  rcases Nat.lt_or_ge k a.length with inside | beyond
  · rw [List.getElem?_append_left inside] at at_
    have none : k - a.length = 0 := by omega
    simp [none, first.jumps k i at_ jumps]
  · rw [List.getElem?_append_right beyond] at at_
    rw [List.take_of_length_le beyond, first.net, second.jumps _ i at_ jumps]
    rfl

theorem level_of_sinks {code : Code} (sinks : Sinks 0 code) (stays : ∀ i ∈ code, i.op ≠ .jmp) :
    Level code :=
  ⟨sinks, fun _ i at_ jumps => absurd jumps (stays i (List.mem_of_getElem? at_))⟩

theorem level_singleton {i : Instruction} (still : i.displacement = 0) : Level [i] := by
  refine ⟨sinks_singleton still, fun k j at_ _ => ?_⟩
  cases k with
  | zero => rfl
  | succ k => simp at at_

theorem level_nil : Level [] := ⟨sinks_nil, nofun⟩

/-- Code that never moves the stack pointer is level. -/
theorem level_of_still {code : Code} (still : ∀ i ∈ code, i.displacement = 0) : Level code := by
  have prefixes : ∀ k, displacement (code.take k) = 0 := by
    intro k
    refine List.sum_eq_zero fun moved among => ?_
    obtain ⟨i, inside, rfl⟩ := List.mem_map.mp among
    exact still i (List.mem_of_mem_take inside)
  have whole := prefixes code.length
  rw [List.take_length] at whole
  exact ⟨⟨whole, fun k => (prefixes k).le⟩, fun k _ _ _ => prefixes k⟩

theorem Scope.Source.withWidth_ne_stackPointer {scope : Scope} (cells : scope.Cells)
    {operand : Operand} (value : scope.Source operand ∨ operand = accumulator) (v w : Width) :
    operand.withWidth v ≠ .reg .sp w := by
  rcases value with source | rfl
  · cases source with
    | const n => nofun
    | place found =>
        obtain ⟨offset, rfl⟩ := cells found
        nofun
  · nofun

theorem Scope.EmitsBody.movesCounted {scope : Scope} (cells : scope.Cells) {i : Instruction}
    (emits : scope.EmitsBody i) : i.MovesCounted := by
  intro w rest operands
  cases emits with
  | value emits =>
      cases emits with
      | pass carries value =>
          cases operands
          simp [argRegisters] at carries
      | push value =>
          exact absurd (List.cons.inj operands).1
            (Source.withWidth_ne_stackPointer cells value .quad w)
      | drop count =>
          cases operands
          exact ⟨.inl rfl, stackArgSize * count, rfl⟩
      | _ => cases operands
  | store found value =>
      obtain ⟨offset, rfl⟩ := cells found
      cases operands
  | arrive found carries =>
      obtain ⟨offset, rfl⟩ := cells found
      cases operands
  | leave => cases operands

/-- Code of an expression is level: no jump leaves it at all. -/
theorem Expr.level_of_lower (e : Expr) {scope : Scope} (cells : scope.Cells) {out : Valued}
    (lowers : e.lower scope = .ok out) : Level out.code :=
  level_of_sinks (e.sinks_of_lower lowers)
    fun i among => (e.emits_of_lower cells lowers i among).op_ne_jmp

theorem level_intoAccumulator (operand : Operand) : Level (intoAccumulator operand) := by
  unfold intoAccumulator
  split
  · exact level_nil
  · exact level_singleton rfl

theorem level_store (dst src : Operand) : Level (store dst src) := by
  unfold store
  split
  · exact (level_intoAccumulator src).append (level_singleton rfl)
  · exact level_singleton rfl

theorem Stmt.level_of_leaf {s : Stmt} {scope after : Scope} {code : Code}
    (alone : s.isBlock = false) (lowers : s.lower scope = .ok (code, after))
    (cells : after.Cells) : Level code := by
  cases s with
  | declare binding =>
      obtain ⟨-, rfl⟩ := Stmt.lower_declare_iff.mp lowers
      exact level_nil
  | assign target value =>
      obtain ⟨dst, src, -, lowersValue, rfl, rfl⟩ := Stmt.lower_assign_iff.mp lowers
      exact (value.level_of_lower cells lowersValue).append (level_store dst src.value)
  | eval value =>
      obtain ⟨src, lowersValue, rfl, rfl⟩ := Stmt.lower_eval_iff.mp lowers
      exact value.level_of_lower cells lowersValue
  | ret value =>
      cases value with
      | none =>
          obtain ⟨rfl, rfl⟩ := Stmt.lower_ret_none_iff.mp lowers
          exact level_singleton rfl
      | some value =>
          obtain ⟨src, lowersValue, rfl, rfl⟩ := Stmt.lower_ret_some_iff.mp lowers
          have result := (value.level_of_lower cells lowersValue).append
            (level_intoAccumulator src.value)
          exact result.append (level_singleton rfl)
  | block body => cases alone

theorem Stmt.level_of_lowerAll {scope after : Scope} {body : List Stmt} {code : Code}
    (lowers : Stmt.lowerAll scope body = .ok (code, after)) (cells : after.Cells) :
    Level code := by
  refine Stmt.lowerAll_induction_cells (motive := fun _ code _ => Level code)
    (fun _ => level_nil) ?_ lowers cells
  intro scope between after s ss head tail alone lowersHead cells _ late
  exact (Stmt.level_of_leaf alone lowersHead cells).append late

/-- From the parameters to the last statement, the body ends where it began. -/
theorem Func.level_of_lowerBody {f : Func} {callees : List String} {code : Code} {after : Scope}
    (lowers : f.lowerBody callees = .ok (code, after)) : Level code := by
  have cells := (Func.laid_of_lowerBody lowers).cells
  obtain ⟨between, statements, -, lowersBody, rfl⟩ := Func.begins_with_arrivals lowers
  have stores : Level f.arrivals := level_of_still fun i among => by
    obtain ⟨k, r, rfl⟩ := mov_of_mem_arriving among
    rfl
  exact stores.append (Stmt.level_of_lowerAll lowersBody cells)

/-! ## Functions -/

/-- How a function's segment treats the stack pointer. Its displacement before the
instruction at position `k` is that of the `k` instructions in front. -/
structure StackDisciplined (f : Func) (segment : Code) : Prop where
  /-- The segment starts at the function's label and ends at its only return. -/
  entry : (segment.map (·.label)).head? = some (some (.function f.name))
  exit : ∃ front, segment = front ++ [.ret] ∧ ∀ i ∈ front, i.op ≠ .ret
  /-- The prologue is the first three instructions. -/
  prologue : (segment.take 3).map (·.op) = [.push, .mov, .sub]
  epilogue : ∃ (k : Nat) (i : Instruction), segment[k]? = some i ∧ i.label = some (.epilogue f.name)
  /-- The stack pointer moves in no other way than is counted. -/
  counted : ∀ i ∈ segment, i.MovesCounted
  atJump : ∀ (k : Nat) (i : Instruction), segment[k]? = some i → i.op = .jmp →
    displacement (segment.take k) = -8 - f.frameSize
  atEpilogue : ∀ (k : Nat) (i : Instruction), segment[k]? = some i →
    i.label = some (.epilogue f.name) → displacement (segment.take k) = -8 - f.frameSize
  atReturn : ∀ (k : Nat) (i : Instruction), segment[k]? = some i → i.op = .ret →
    displacement (segment.take k) = 0
  between : ∀ (k e : Nat) (i : Instruction), 3 ≤ k → k ≤ e → segment[e]? = some i →
    i.label = some (.epilogue f.name) → displacement (segment.take k) ≤ -8 - f.frameSize

namespace Func

/-- The prologue saves the frame pointer and makes room for the frame. -/
theorem displacement_entry (f : Func) :
    displacement f.prologue.tail = -8 - (f.frameSize : Int) := by
  simp [prologue, Instruction.displacement, Instruction.labelled, Instruction.push,
    Instruction.mov, Instruction.sub, Instruction.plain, basePointer, stackPointer, Operand.nat]
  omega

/-- Past the prologue and up to the epilogue only the body counts. -/
theorem displacement_take_segment (f : Func) (body : Code) {k : Nat} (start : 3 ≤ k)
    (stop : k ≤ 3 + body.length) :
    displacement ((f.segment body).take k) =
      -8 - (f.frameSize : Int) + displacement (body.take (k - 3)) := by
  have entry : f.prologue.tail.length = 3 := rfl
  have none : k - (f.prologue.tail ++ body).length = 0 := by
    rw [List.length_append, entry]
    omega
  rw [segment, displacement_take_append, displacement_take_append, none, entry,
    List.take_of_length_le (entry.trans_le start), displacement_entry]
  simp

theorem movesCounted_entry {f : Func} {i : Instruction} (among : i ∈ f.prologue.tail) :
    i.MovesCounted := by
  simp only [prologue, List.tail_cons, List.mem_cons, List.not_mem_nil, or_false] at among
  intro w rest operands
  rcases among with rfl | rfl | rfl <;> cases operands
  exact ⟨.inr rfl, f.frameSize, rfl⟩

theorem movesCounted_epilogue {f : Func} {i : Instruction} (among : i ∈ f.epilogue) :
    i.MovesCounted := by
  simp only [epilogue, List.mem_cons, List.not_mem_nil, or_false] at among
  intro w rest operands
  rcases among with rfl | rfl | rfl <;> cases operands
  exact ⟨.inl rfl, f.frameSize, rfl⟩

end Func

section Segment

variable {f : Func} {callees : List String} {body : Code} {after : Scope}

theorem Func.displacement_take_exit (level : Level body) :
    displacement ((f.segment body).take (3 + body.length)) = -8 - (f.frameSize : Int) := by
  rw [f.displacement_take_segment body (by omega) (by omega), Nat.add_sub_cancel_left,
    List.take_length, level.net]
  simp

theorem Func.displacement_take_return (level : Level body) :
    displacement ((f.segment body).take (3 + body.length + 2)) = 0 := by
  have exit : displacement (f.epilogue.take 2) = f.frameSize + 8 := by
    simp [Func.epilogue, Instruction.displacement, Instruction.labelled, Instruction.add,
      Instruction.pop, Instruction.plain, stackPointer, Operand.nat]
  rw [Func.segment, displacement_take_append, f.length_front, Nat.add_sub_cancel_left, exit,
    List.take_of_length_le (by rw [f.length_front]; omega), displacement_append,
    f.displacement_entry, level.net]
  omega

theorem Func.displacement_at_jump (lowers : f.lowerBody callees = .ok (body, after)) {k : Nat}
    {i : Instruction} (found : (f.segment body)[k]? = some i) (jumps : i.op = .jmp) :
    displacement ((f.segment body).take k) = -8 - (f.frameSize : Int) := by
  rcases Func.getElem?_segment found with ⟨-, among⟩ | ⟨start, stop, inBody⟩ | ⟨-, inExit⟩
  · have forms := (Func.entry_forms among).1
    simp [jumps] at forms
  · rw [f.displacement_take_segment body start stop.le,
      (Func.level_of_lowerBody lowers).jumps _ i inBody jumps, add_zero]
  · rcases Func.getElem?_epilogue inExit with ⟨-, -, op⟩ | ⟨-, -, op⟩ | ⟨-, -, op⟩ <;>
      simp [jumps] at op

theorem Func.movesCounted_segment (lowers : f.lowerBody callees = .ok (body, after)) :
    ∀ i ∈ f.segment body, i.MovesCounted := by
  intro i among
  simp only [Func.segment, List.mem_append] at among
  rcases among with (among | among) | among
  · exact Func.movesCounted_entry among
  · exact (Func.emitsBody_of_lowerBody lowers i among).movesCounted
      (Func.laid_of_lowerBody lowers).cells
  · exact Func.movesCounted_epilogue among

/-- A body that stays level makes a disciplined function. -/
theorem stackDisciplined_segment (lowers : f.lowerBody callees = .ok (body, after)) :
    StackDisciplined f (f.segment body) := by
  have level := Func.level_of_lowerBody lowers
  refine ⟨rfl, ⟨_, f.segment_eq body, Func.beforeReturn_ne_ret lowers⟩, rfl,
    ⟨_, _, f.getElem?_segment_exit body, rfl⟩, Func.movesCounted_segment lowers, ?_, ?_, ?_, ?_⟩
  · intro k i found jumps
    exact Func.displacement_at_jump lowers found jumps
  · intro k i found labelled
    rw [Func.position_of_epilogue lowers found labelled]
    exact Func.displacement_take_exit level
  · intro k i found returns
    rw [Func.position_of_ret lowers found returns]
    exact Func.displacement_take_return level
  · intro k e i start before found labelled
    rw [Func.position_of_epilogue lowers found labelled] at before
    rw [f.displacement_take_segment body start before]
    have sunk := level.below (k - 3)
    omega

end Segment

/-- Every function of a lowered program treats the stack pointer as it should, and
the code of every expression leaves it where it was. -/
theorem stack_discipline (p : Program) (target : Target) (code : Code)
    (lowers : p.lower target = .ok code) :
    List.Forall₂ StackDisciplined p.functions (segments code) ∧
      ∀ (scope : Scope) (e : Expr) (out : Valued), e.lower scope = .ok out →
        displacement out.code = 0 := by
  constructor
  · refine (Program.segments_of_lower lowers).imp ?_
    rintro f segment ⟨body, after, lowersBody, rfl⟩
    exact stackDisciplined_segment lowersBody
  · intro scope e out lowersValue
    exact (e.sinks_of_lower lowersValue).net

/-- A call whose argument on the stack is itself a call with an argument on the stack. -/
def nestedStackArgs : Program :=
  let seven := List.replicate 7 (Expr.const 1)
  let params := ["a", "b", "c", "d", "e", "g", "h"].map fun name => Binding.mk name .int
  ⟨[⟨"f", params, none, [.ret (some (.call "f" (seven.dropLast ++ [.call "f" seven])))]⟩,
    ⟨"main", [], none, [.eval (.call "f" seven), .ret none]⟩]⟩

theorem stack_discipline_nestedStackArgs :
    ∃ code, nestedStackArgs.lower .linux = .ok code ∧
      List.Forall₂ StackDisciplined nestedStackArgs.functions (segments code) := by
  have lowersOk : (nestedStackArgs.lower .linux).isOk = true := by decide +kernel
  obtain ⟨code, lowers⟩ := exists_ok_of_isOk lowersOk
  exact ⟨code, lowers, (stack_discipline nestedStackArgs .linux code lowers).1⟩

end IntBackend
