/-
# IntBackend.Proofs.Preservation.Calls — code of expressions with calls

What a callee needs and what it leaves alone is said once, in `Image.Implements`:
it finds its arguments by the calling convention and a return address on top of
the stack, and gives back the stack and frame pointers and all memory above its
arguments. Given that, the code of every expression computes its value. Where a
value has to wait it is safe: a left operand waits in the scratch register only
beside code without calls, and arguments are in place only after the one that may
hold calls.
-/
import IntBackend.Proofs.Lowering.Balance
import IntBackend.Proofs.Preservation.Arguments

namespace IntBackend

set_option autoImplicit false

open Convention

/-! ## Runs past calls -/

/-- The bytes that code starts by giving back: the arguments of the call before it. -/
def dropped (code : Code) : Nat := (displacement (code.take 1)).toNat

/-- Code runs from one end to the other, and every call in it returns. -/
inductive RunsThrough : Code → Machine → Machine → Prop
  | done (m : Machine) : RunsThrough [] m m
  | step {i : Instruction} {code : Code} {m next after : Machine}
      (effect : i.effect? m = some next) (rest : RunsThrough code next after) :
      RunsThrough (i :: code) m after
  | call {i : Instruction} {code : Code} {m next after : Machine} (calls : i.op = .call)
      (pointer : next.regs .sp = m.regs .sp)
      (kept : Memory.AgreeFrom ((m.regs .sp).toNat + dropped code) m.mem next.mem)
      (rest : RunsThrough code next after) : RunsThrough (i :: code) m after

namespace RunsThrough

theorem append {a b : Code} {first second third : Machine} (early : RunsThrough a first second)
    (late : RunsThrough b second third) : RunsThrough (a ++ b) first third := by
  induction early with
  | done m => exact late
  | step effect _ ih => exact .step effect (ih late)
  | @call i code m next after calls pointer kept _ ih =>
      have more : dropped code ≤ dropped (code ++ b) := by
        cases code with
        | nil => exact Nat.zero_le _
        | cons j code => exact le_rfl
      exact .call calls pointer
        (fun a above => kept a ((Nat.add_le_add_left more _).trans above)) (ih late)

/-- Code without calls runs through if it runs. -/
theorem of_runLine {code : Code} {m after : Machine} (runs : runLine code m = some after) :
    RunsThrough code m after := by
  induction code generalizing m with
  | nil =>
      cases runs
      exact .done _
  | cons i code ih =>
      obtain ⟨next, effect, rest⟩ := Option.bind_eq_some_iff.mp runs
      exact .step effect (ih rest)

end RunsThrough

theorem dropped_dropArgs (count : Nat) : dropped (dropArgs count) = stackArgSize * count := by
  unfold dropArgs
  split
  · rename_i none
    rw [none]
    rfl
  · rw [dropped, List.take_succ_cons, displacement_cons, Instruction.displacement_add_stackPointer,
      List.take_nil, displacement_nil, add_zero, Int.toNat_natCast]

/-! ## Code in an image -/

namespace Image

variable {image : Image}

/-- Code stands at a position, it holds no directives, and it does not end there. -/
structure Carries (image : Image) (k : Nat) (code : Code) : Prop where
  holds : image.Holds k code
  executes : ∀ j ≤ code.length, ∃ i, image.code[k + j]? = some i ∧ i.isDirective = false

theorem Carries.left {k : Nat} {a b : Code} (carries : image.Carries k (a ++ b)) :
    image.Carries k a := by
  refine ⟨carries.holds.left, fun j le => carries.executes j ?_⟩
  rw [List.length_append]
  omega

theorem Carries.right {k : Nat} {a b : Code} (carries : image.Carries k (a ++ b)) :
    image.Carries (k + a.length) b := by
  refine ⟨carries.holds.right, fun j le => ?_⟩
  rw [Nat.add_assoc]
  refine carries.executes (a.length + j) ?_
  rw [List.length_append]
  omega

/-- A process gets from the start of some code to its end, and calls on the way return. -/
structure Crosses (image : Image) (k : Nat) (code : Code) (before after : Machine) : Prop where
  reaches : image.Reaches ⟨k, before⟩ ⟨k + code.length, after⟩
  through : RunsThrough code before after

theorem Crosses.append {k : Nat} {a b : Code} {first second third : Machine}
    (early : image.Crosses k a first second)
    (late : image.Crosses (k + a.length) b second third) :
    image.Crosses k (a ++ b) first third := by
  refine ⟨?_, early.through.append late.through⟩
  rw [List.length_append, ← Nat.add_assoc]
  exact early.reaches.trans late.reaches

/-- Straight code that runs is crossed in any image that carries it. -/
theorem Carries.crosses {k : Nat} {code : Code} {before after : Machine}
    (carries : image.Carries k code) (runs : runLine code before = some after) :
    image.Crosses k code before after :=
  ⟨reaches_of_runLine carries.holds runs, .of_runLine runs⟩

end Image

/-! ## What calls leave alone -/

/-- The stack and frame pointers are back, and so is all memory from the stack
pointer on. -/
structure Machine.Restores (before after : Machine) : Prop where
  base : after.regs .bp = before.regs .bp
  pointer : after.regs .sp = before.regs .sp
  mem : Memory.AgreeFrom (before.regs .sp).toNat before.mem after.mem

namespace Machine

theorem Restores.refl (m : Machine) : m.Restores m := ⟨rfl, rfl, .refl _ _⟩

theorem Restores.trans {first second third : Machine} (early : first.Restores second)
    (late : second.Restores third) : first.Restores third := by
  refine ⟨late.base.trans early.base, late.pointer.trans early.pointer, ?_⟩
  have agree := late.mem
  rw [early.pointer] at agree
  exact early.mem.trans agree le_rfl

/-- Code that only uses the two working registers restores the others. -/
theorem Spares.restores {before after : Machine} (spares : before.Spares after) :
    before.Restores after := by
  refine ⟨spares.regs .bp (by decide) (by decide), spares.regs .sp (by decide) (by decide), ?_⟩
  rw [spares.mem]
  exact .refl _ _

end Machine

/-- The machine is ready for code of a scope: the variables have their values and lie
above the stack, and enough of the stack is left. -/
structure Scope.Ready (scope : Scope) (env : Env) (need : Nat) (m : Machine) : Prop where
  above : scope.Above (m.regs .bp) (m.regs .sp).toNat
  represents : scope.Represents env m
  enough : need ≤ (m.regs .sp).toNat

theorem Scope.Ready.restored {scope : Scope} {env : Env} {need : Nat} {before after : Machine}
    (ready : scope.Ready env need before) (restores : before.Restores after) :
    scope.Ready env need after := by
  refine ⟨?_, ready.above.represents restores.base restores.mem ready.represents, ?_⟩
  · rw [restores.base, restores.pointer]
    exact ready.above
  · rw [restores.pointer]
    exact ready.enough

/-- What a function has done when it returns, `count` of its arguments being on the
stack above the return address. -/
structure Machine.Returned (count : Nat) (result : Option Int32) (before after : Machine) :
    Prop where
  result : ∀ {v}, result = some v → after.value accumulator = some v
  base : after.regs .bp = before.regs .bp
  pointer : after.regs .sp = before.regs .sp + 8
  mem : Memory.AgreeFrom ((before.regs .sp).toNat + 8 + stackArgSize * count) before.mem after.mem

/-- The functions of an image compute what `calls` says, with `room` bytes of stack
below the return address. -/
def Image.Implements (image : Image) (calls : Calls) (room : Nat) : Prop :=
  ∀ ⦃name args result⦄, calls name args = some result →
    ∃ entry, image.position? (.function name) = some entry ∧
      ∀ ⦃m back⦄, image.locate? m.top = some back →
        m.Passes argRegisters (m.regs .sp + 8) args → room ≤ (m.regs .sp).toNat →
        (m.regs .sp).toNat + 8 + stackArgSize * (args.length - argRegisters.length) < 2 ^ 64 →
        ∃ after, image.Reaches ⟨entry, m⟩ ⟨back, after⟩ ∧
          Machine.Returned (args.length - argRegisters.length) result m after

/-! ## Calls -/

/-- Pushing a return address keeps the arguments in place. -/
theorem Machine.Passes.push {m : Machine} {registers : List Register} {values : List Int32}
    (passes : m.Passes registers (m.regs .sp) values) (carry : registers ⊆ argRegisters)
    (enough : 8 ≤ (m.regs .sp).toNat)
    (fits : (m.regs .sp).toNat + stackArgSize * (values.length - registers.length) < 2 ^ 64)
    (word : BitVec 64) :
    (m.push word).Passes registers ((m.push word).regs .sp + 8) values := by
  have same : (m.push word).regs .sp + 8 = m.regs .sp := by
    rw [m.regs_push_sp, BitVec.sub_add_cancel]
  rw [same]
  refine ⟨fun j r v isRegister isValue => ?_, fun j v isValue => ?_⟩
  · have carries := carry (List.mem_of_getElem? isRegister)
    rw [m.regs_push_of_ne word (ne_of_mem_argRegisters carries).2.2.1]
    exact passes.inRegisters isRegister isValue
  · have inside := (List.getElem?_eq_some_iff.mp isValue).1
    have place : (m.regs .sp + BitVec.ofNat 64 (stackArgSize * j)).toNat =
        (m.regs .sp).toNat + stackArgSize * j :=
      Memory.toNat_add_ofNat (by simp only [stackArgSize] at fits ⊢; omega)
    have agree := m.agreeFrom_push enough word
    simp only [stackArgSize] at fits place
    rw [Memory.cell_of_agreeFrom agree (by simp only [stackArgSize]; omega)
      (by simp only [stackArgSize]; omega)]
    exact passes.onStack isValue

/-- A function that does what it should comes back to what follows the call. -/
theorem Image.Implements.returns {image : Image} {calls : Calls} {room : Nat}
    (implements : image.Implements calls room) {name : String} {values : List Int32}
    {result : Option Int32} (called : calls name values = some result) {k : Nat} {i : Instruction}
    (here : image.code[k]? = some i) (op : i.op = .call)
    (operands : i.operands = [.label (.function name)])
    (follows : ∃ next, image.code[k + 1]? = some next ∧ next.isDirective = false) {m : Machine}
    (passes : m.Passes argRegisters (m.regs .sp) values) (enough : room + 8 ≤ (m.regs .sp).toNat)
    (fits : (m.regs .sp).toNat + stackArgSize * (values.length - argRegisters.length) < 2 ^ 64) :
    ∃ after, image.Reaches ⟨k, m⟩ ⟨k + 1, after⟩ ∧
      Machine.Returned (values.length - argRegisters.length) result
        (m.push (image.address (k + 1))) after := by
  obtain ⟨entry, lands, returns⟩ := implements called
  obtain ⟨next, there, executes⟩ := follows
  have enters := Image.reaches_of_step (Image.step_call (m := m) here op operands lands)
  have back := Image.locate?_address there executes
  rw [← m.top_push (image.address (k + 1))] at back
  have moved := m.toNat_push (by omega) (image.address (k + 1))
  have inPlace := passes.push (fun _ => id) (by omega) fits (image.address (k + 1))
  obtain ⟨after, comes, returned⟩ := returns back inPlace (by omega) (by omega)
  exact ⟨after, enters.trans comes, returned⟩

/-- What such a function leaves alone is what `RunsThrough` takes a call to leave alone, if the
code behind the call gives back at least the arguments of the function. -/
theorem Machine.Returned.runsThrough {count : Nat} {result : Option Int32} {word : BitVec 64}
    {i : Instruction} {code : Code} {m next after : Machine}
    (returned : Machine.Returned count result (m.push word) next)
    (enough : 8 ≤ (m.regs .sp).toNat) (op : i.op = .call)
    (drops : stackArgSize * count ≤ dropped code) (rest : RunsThrough code next after) :
    RunsThrough (i :: code) m after := by
  have moved := m.toNat_push enough word
  refine .call op ?_ (fun a above => ?_) rest
  · rw [returned.pointer, m.regs_push_sp, BitVec.sub_add_cancel]
  · rw [returned.mem a (by omega), m.agreeFrom_push enough word a (by omega)]

/-- A call of a function that the image implements is a step of such a run: where the code
behind the call is crossed, the call and that code are. -/
theorem Image.Implements.crosses_call {image : Image} {calls : Calls} {room : Nat}
    (implements : image.Implements calls room) {name : String} {values : List Int32}
    {result : Option Int32} (called : calls name values = some result) {k : Nat} {code : Code}
    (carries : image.Carries k (.call (.function name) :: code)) {m : Machine}
    (passes : m.Passes argRegisters (m.regs .sp) values) (enough : room + 8 ≤ (m.regs .sp).toNat)
    (fits : (m.regs .sp).toNat + stackArgSize * (values.length - argRegisters.length) < 2 ^ 64)
    (drops : stackArgSize * (values.length - argRegisters.length) ≤ dropped code) :
    ∃ next, Machine.Returned (values.length - argRegisters.length) result
        (m.push (image.address (k + 1))) next ∧
      ∀ {after}, image.Crosses (k + 1) code next after →
        image.Crosses k (.call (.function name) :: code) m after := by
  obtain ⟨next, comes, returned⟩ := implements.returns called carries.holds.head rfl rfl
    (carries.executes 1 (by simp)) passes enough fits
  refine ⟨next, returned, fun behind => ⟨?_, ?_⟩⟩
  · rw [List.length_cons, ← Nat.add_assoc, Nat.add_right_comm]
    exact comes.trans behind.reaches
  · exact returned.runsThrough (by omega) rfl drops behind.through

/-- Taking the arguments off the stack again. -/
theorem runLine_dropArgs (m : Machine) (count : Nat) :
    runLine (dropArgs count) m =
      some (m.set .sp (m.regs .sp + BitVec.ofNat 64 (stackArgSize * count))) := by
  unfold dropArgs
  split
  · rename_i none
    rw [none, Nat.mul_zero, BitVec.add_zero, m.set_regs]
    rfl
  · rw [runLine_singleton, m.add_stackPointer]

/-- After a function has returned and its arguments are off the stack, the machine is as
it was before they were passed. -/
theorem Machine.Passed.restores {before put after : Machine} {registers : List Register}
    {count : Nat} {values : List Int32} {result : Option Int32} {word : BitVec 64}
    (passing : Machine.Passed registers count values before put)
    (carry : registers ⊆ argRegisters) (enough : 8 ≤ (put.regs .sp).toNat)
    (returned : Machine.Returned count result (put.push word) after) :
    before.Restores (after.set .sp (after.regs .sp + BitVec.ofNat 64 (stackArgSize * count))) := by
  have passes := passing.pointer
  have bound := (before.regs .sp).isLt
  have moved := put.toNat_push enough word
  have pointer : after.regs .sp = put.regs .sp := by
    rw [returned.pointer, put.regs_push_sp, BitVec.sub_add_cancel]
  have base : put.regs .bp = before.regs .bp := by
    refine passing.regs .bp (fun carries => ?_) (by decide) (by decide) (by decide)
    exact (ne_of_mem_argRegisters (carry carries)).2.2.2 rfl
  refine ⟨?_, ?_, ?_⟩
  · rw [after.regs_set_of_ne _ (by decide), returned.base, put.regs_push_of_ne _ (by decide), base]
  · apply BitVec.eq_of_toNat_eq
    rw [after.regs_set_self, pointer, Memory.toNat_add_ofNat (by omega), passes]
  · have late := returned.mem
    rw [moved, passes] at late
    have early : Memory.AgreeFrom (before.regs .sp).toNat put.mem (put.push word).mem :=
      fun a above => put.agreeFrom_push enough word a (by omega)
    exact (passing.mem.trans early le_rfl).trans late le_rfl

section Calls

variable {image : Image} {calls : Calls} {room space : Nat}

/-- The code of an expression computes its value wherever it stands, and the machine
is then as before for all that the surrounding code needs. -/
def Expr.Simulated (image : Image) (calls : Calls) (need : Nat) (e : Expr) : Prop :=
  ∀ ⦃scope env m out v k⦄, e.lower scope = .ok out → e.eval calls env = some v →
    scope.Ready env need m → image.Carries k out.code →
    ∃ after, image.Crosses k out.code m after ∧ m.Restores after ∧ after.value out.value = some v

variable {scope : Scope} {env : Env} {m : Machine} {args : List Expr} {values : List Int32}
  {passed : Code} {k : Nat} {need : Nat}

/-- All arguments get in place: the first one with its calls while none is there yet, the
others, which have no calls, after it. -/
theorem Expr.crosses_args (simulated : ∀ arg ∈ args, arg.Simulated image calls need)
    (free : ∀ arg ∈ args.tail, arg.CallFree) (disciplined : ∀ arg ∈ args, arg.Disciplined)
    (lowers : Expr.lowerArgs scope argRegisters args = .ok passed)
    (evals : Expr.evalAll calls env args = some values) (ready : scope.Ready env need m)
    (enough : stackArgSize * (args.length - argRegisters.length) ≤ need)
    (carries : image.Carries k passed) :
    ∃ before after, m.Restores before ∧ image.Crosses k passed m after ∧
      Machine.Passed argRegisters (args.length - argRegisters.length) values before after := by
  cases args with
  | nil =>
      obtain ⟨after, runs, put⟩ := Expr.passed_of_callFree free disciplined (fun _ => id)
        (by decide) lowers evals ready.above ready.represents (enough.trans ready.enough)
      exact ⟨m, after, .refl m, carries.crosses runs, put⟩
  | cons arg args =>
      have fewer : (arg :: args).length - argRegisters.length =
          args.length - argRegisters.tail.length :=
        Nat.add_sub_add_right args.length 1 argRegisters.tail.length
      rw [fewer] at enough ⊢
      obtain ⟨first, rest, lowersFirst, lowersRest, rfl⟩ := Expr.lowerArgs_register_iff.mp lowers
      obtain ⟨v, vs, evalsFirst, evalsRest, rfl⟩ := Expr.evalAll_cons_iff.mp evals
      obtain ⟨early, crossesFirst, restores, value⟩ := simulated arg (List.mem_cons_self ..)
        lowersFirst evalsFirst ready carries.left.left
      have fits := Scope.fitsValue_of_value ready.above.cells (Expr.value_of_lower lowersFirst)
      obtain ⟨word, low, moves⟩ := Machine.mov_reg .di fits value
      -- setting the register of the first argument disturbs no variable
      have sets : early.Restores (early.set .di word) :=
        ⟨early.regs_set_of_ne word (by decide), early.regs_set_of_ne word (by decide), .refl _ _⟩
      have readyRest := ready.restored (restores.trans sets)
      obtain ⟨after, runs, put⟩ := Expr.passed_of_callFree free
        (fun e among => disciplined e (List.mem_cons_of_mem _ among))
        (List.subset_of_cons_subset fun _ => id) (by decide) lowersRest evalsRest readyRest.above
        readyRest.represents (enough.trans readyRest.enough)
      refine ⟨early, after, restores, ?_, ?_⟩
      · have moved := carries.left.right.crosses ((runLine_singleton ..).trans moves)
        exact (crossesFirst.append moved).append (carries.right.crosses runs)
      · exact .register (fun _ => id) (by decide) (.refl early) low put

/-- A call in an expression. Its result is in the accumulator, if there is one. -/
theorem Expr.crosses_call (implements : image.Implements calls room) {callee : String}
    {result : Option Int32} (simulated : ∀ arg ∈ args, arg.Simulated image calls need)
    (disciplined : (Expr.call callee args).Disciplined)
    (lowers : Expr.lowerArgs scope argRegisters args = .ok passed)
    (evals : Expr.evalAll calls env args = some values) (called : calls callee values = some result)
    (ready : scope.Ready env need m)
    (enough : room + 8 + stackArgSize * (args.length - argRegisters.length) ≤ need)
    (carries : image.Carries k (passed ++ [.call (.function callee)] ++
      dropArgs (args.length - argRegisters.length))) :
    ∃ after, image.Crosses k (passed ++ [.call (.function callee)] ++
        dropArgs (args.length - argRegisters.length)) m after ∧
      m.Restores after ∧ ∀ {v}, result = some v → after.value accumulator = some v := by
  obtain ⟨free, each⟩ := disciplined.call
  obtain ⟨before, put, restores, crossesArgs, passing⟩ := Expr.crosses_args simulated free each
    lowers evals ready (by omega) carries.left.left
  have count : values.length = args.length := Expr.length_of_evalAll evals
  have pointer := passing.pointer
  have bound := (m.regs .sp).isLt
  have stack := ready.enough
  rw [restores.pointer] at pointer
  rw [List.append_assoc] at carries ⊢
  have drops : stackArgSize * (values.length - argRegisters.length) ≤
      dropped (dropArgs (args.length - argRegisters.length)) := by
    rw [count, dropped_dropArgs]
  -- control goes to the function, which comes back to what follows the call
  obtain ⟨after, returned, crosses⟩ := implements.crosses_call called carries.right
    passing.passes (by omega) (by rw [count]; omega) drops
  rw [count] at returned
  have behind := carries.right.right.crosses
    (runLine_dropArgs after (args.length - argRegisters.length))
  refine ⟨_, crossesArgs.append (crosses behind),
    restores.trans (passing.restores (fun _ => id) (by omega) returned), fun has => ?_⟩
  exact (congrArg (some <| lowInt ·) (after.regs_set_of_ne _ (by decide))).trans
    (returned.result has)

end Calls

/-! ## Expressions -/

/-- The number of arguments that a call puts on the stack. -/
def Expr.stackArgs : Expr → Nat
  | .call _ args => args.length - argRegisters.length
  | _ => 0

/-- Enough of the stack for every call in an expression, each of which takes a return
address and `room` bytes below it. -/
def Expr.Needs (room need : Nat) (e : Expr) : Prop :=
  ∀ node ∈ e.nodes, room + 8 + stackArgSize * node.stackArgs ≤ need

section Expressions

variable {image : Image} {calls : Calls} {room need : Nat}

theorem Expr.Needs.binary {op : BinOp} {lhs rhs : Expr}
    (needs : (Expr.binary op lhs rhs).Needs room need) :
    lhs.Needs room need ∧ rhs.Needs room need := by
  simp only [Expr.Needs, Expr.nodes, List.mem_cons, List.mem_append] at needs ⊢
  exact ⟨fun node among => needs node (.inr (.inl among)),
    fun node among => needs node (.inr (.inr among))⟩

theorem Expr.Needs.arg {callee : String} {args : List Expr}
    (needs : (Expr.call callee args).Needs room need) {arg : Expr} (among : arg ∈ args) :
    arg.Needs room need :=
  fun node inside => needs node (Expr.nodes_subset_of_mem among inside)

/-- An operation with a left operand that waits in the scratch register. -/
theorem Expr.crosses_kept {op : BinOp} {lhs rhs : Expr} {scope : Scope} {env : Env} {m : Machine}
    {k : Nat} {combine : Operand → Code} {left right : Valued} {a b v : Int32}
    (simulated : lhs.Simulated image calls need) (computes : lhs.computes)
    (free : rhs.CallFree) (upright : rhs.Upright) (disciplined : rhs.Disciplined)
    (known : operation op = .ok combine) (lowersLeft : lhs.lower scope = .ok left)
    (lowersRight : rhs.lower scope = .ok right) (evalsLeft : lhs.eval calls env = some a)
    (evalsRight : rhs.eval calls env = some b) (applies : op.apply? a b = some v)
    (ready : scope.Ready env need m)
    (carries : image.Carries k (left.code ++ ([.mov scratch accumulator] ++ (right.code ++
      (intoAccumulator right.value ++ combine scratch))))) :
    ∃ after, image.Crosses k (left.code ++ ([.mov scratch accumulator] ++ (right.code ++
        (intoAccumulator right.value ++ combine scratch)))) m after ∧
      m.Restores after ∧ after.value accumulator = some v := by
  obtain ⟨first, crosses, restores, value⟩ := simulated lowersLeft evalsLeft ready carries.left
  rw [Expr.value_of_computes computes lowersLeft] at value
  have readyRight := ready.restored restores
  have cells := ready.above.cells
  obtain ⟨after, spares, result, -, runs⟩ := Expr.runLine_beside_scratch cells known
    (rhs.computed_of_callFree cells free disciplined lowersRight evalsRight) lowersRight upright
    applies readyRight.represents value
  exact ⟨after, crosses.append (carries.right.crosses runs), restores.trans spares.restores, result⟩

/-- An operation whose left operand is read where it is. -/
theorem Expr.crosses_read {op : BinOp} {lhs rhs : Expr} {scope : Scope} {env : Env} {m : Machine}
    {k : Nat} {combine : Operand → Code} {left right : Valued} {a b v : Int32}
    (simulated : rhs.Simulated image calls need) (computes : ¬ lhs.computes)
    (known : operation op = .ok combine) (lowersLeft : lhs.lower scope = .ok left)
    (lowersRight : rhs.lower scope = .ok right) (evalsLeft : lhs.eval calls env = some a)
    (evalsRight : rhs.eval calls env = some b) (applies : op.apply? a b = some v)
    (ready : scope.Ready env need m)
    (carries : image.Carries k (right.code ++ (intoAccumulator right.value ++
      combine left.value))) :
    ∃ after, image.Crosses k (right.code ++ (intoAccumulator right.value ++
        combine left.value)) m after ∧
      m.Restores after ∧ after.value accumulator = some v := by
  have source := (Expr.source_of_not_computes computes lowersLeft).2
  have cells := ready.above.cells
  obtain ⟨first, crosses, restores, value⟩ := simulated lowersRight evalsRight ready carries.left
  have holds := Expr.value_of_not_computes ready.represents computes lowersLeft evalsLeft
  have kept : first.value left.value = some a := by
    rw [ready.above.value_eq restores.base restores.mem source, holds]
  obtain ⟨word, low, runs⟩ := runLine_combine cells known (.inl source)
    (Expr.value_of_lower lowersRight) kept value applies
  refine ⟨first.set .ax word, crosses.append (carries.right.crosses runs),
    restores.trans (Machine.Spares.set_ax first word).restores, ?_⟩
  rw [accumulator, Machine.value_reg, Machine.regs_set_self, low]

/-- The code of every expression computes its value, given that the functions it calls do
what they should. -/
theorem Expr.simulated (implements : image.Implements calls room) (e : Expr)
    (disciplined : e.Disciplined) (needs : e.Needs room need) :
    e.Simulated image calls need := by
  induction e with
  | var name =>
      intro scope env m out v k lowers evals ready carries
      have ran := computed_of_not_computes ready.represents lowers evals Bool.false_ne_true
      exact ⟨m, carries.crosses ran.runs, .refl m, ran.value⟩
  | const n =>
      intro scope env m out v k lowers evals ready carries
      have ran := computed_of_not_computes ready.represents lowers evals Bool.false_ne_true
      exact ⟨m, carries.crosses ran.runs, .refl m, ran.value⟩
  | binary op lhs rhs simulatedLeft simulatedRight =>
      intro scope env m out v k lowers evals ready carries
      obtain ⟨combine, left, right, known, lowersLeft, lowersRight, rfl⟩ :=
        lower_binary_iff.mp lowers
      obtain ⟨a, b, evalsLeft, evalsRight, applies⟩ := eval_binary_iff.mp evals
      obtain ⟨orderly, disciplinedLeft, disciplinedRight⟩ := disciplined.binary
      obtain ⟨needsLeft, needsRight⟩ := needs.binary
      by_cases computes : lhs.computes
      · obtain ⟨free, upright⟩ := orderly (Bool.or_eq_true_iff.mp computes)
        rw [park_accumulator (value_of_computes computes lowersLeft)] at carries ⊢
        simp only [List.append_assoc] at carries ⊢
        exact crosses_kept (simulatedLeft disciplinedLeft needsLeft) computes free upright
          disciplinedRight known lowersLeft lowersRight evalsLeft evalsRight applies ready carries
      · obtain ⟨noCode, source⟩ := source_of_not_computes computes lowersLeft
        rw [park_source ready.above.cells.inFrame source, noCode] at carries ⊢
        simp only [List.append_assoc, List.nil_append] at carries ⊢
        exact crosses_read (simulatedRight disciplinedRight needsRight) computes known lowersLeft
          lowersRight evalsLeft evalsRight applies ready carries
  | call callee args each =>
      intro scope env m out v k lowers evals ready carries
      obtain ⟨-, passed, passes, rfl⟩ := lower_call_iff.mp lowers
      obtain ⟨values, evalsArgs, called⟩ := eval_call_iff.mp evals
      have simulated : ∀ arg ∈ args, arg.Simulated image calls need := fun arg among =>
        each arg among (disciplined.call.2 arg among) (needs.arg among)
      obtain ⟨after, crosses, restores, result⟩ := crosses_call implements simulated disciplined
        passes evalsArgs called ready (needs _ (self_mem_nodes _)) carries
      exact ⟨after, crosses, restores, result rfl⟩

end Expressions

end IntBackend
