/-
# IntBackend.Proofs.Preservation.StackArguments — arguments on the stack, from push to parameter

Arguments beyond the sixth are pushed from the last one back. Each of them may hold calls
that push and drop arguments of their own, but such code ends where it began and never
brings the stack pointer above where it found it. So from the push of an argument to the call
its word stays as it is, and at the call the words of the arguments lie on top of the stack in
the order of the arguments. The callee pushes the return address and its caller's frame
pointer on top of them and looks for each at the offset where its word then is.

A call inside an argument is taken to return with the stack pointer as it was, and with
memory unchanged above the arguments that are dropped after it; its own arguments the callee
may overwrite (`RunsThrough`). Functions that do what they should keep to that
(`Image.Implements.crosses_call`), so in the code of a program it is what a process does
(`Program.finds_stack_arguments`).
-/
import IntBackend.Proofs.Lowering.Destinations
import IntBackend.Proofs.Preservation.Programs

namespace IntBackend

set_option autoImplicit false

open Convention

/-! ## Runs past calls -/

theorem RunsThrough.split {a b : Code} {m after : Machine} (runs : RunsThrough (a ++ b) m after)
    (keeps : dropped b = 0) : ∃ between, RunsThrough a m between ∧ RunsThrough b between after := by
  induction a generalizing m with
  | nil => exact ⟨m, .done m, runs⟩
  | cons i a ih =>
      cases runs with
      | step effect rest =>
          obtain ⟨between, early, late⟩ := ih rest
          exact ⟨between, .step effect early, late⟩
      | @call _ _ _ next _ calls pointer kept rest =>
          obtain ⟨between, early, late⟩ := ih rest
          have same : dropped (a ++ b) = dropped a := by
            cases a with
            | nil => exact keeps
            | cons j a => rfl
          exact ⟨between, .call calls pointer (same ▸ kept) early, late⟩

/-! ## Runs exist -/

/-- A constant, a variable and a register have a value. -/
theorem Scope.Source.value_ne_none {scope : Scope} (cells : scope.Cells) {operand : Operand}
    (value : scope.Source operand ∨ operand = accumulator ∨ operand = scratch) (m : Machine) :
    ∃ v, m.value operand = some v := by
  rcases value with source | rfl | rfl
  · cases source with
    | const n => exact ⟨n, m.value_const n⟩
    | place found =>
        obtain ⟨offset, rfl⟩ := cells found
        exact ⟨_, m.value_frameCell offset⟩
  · exact ⟨_, m.value_reg .ax _⟩
  · exact ⟨_, m.value_reg .r10 _⟩

/-- Every instruction of an expression but a call has its effect on every machine. -/
theorem Scope.Emits.call_or_effect {scope : Scope} (cells : scope.Cells) {i : Instruction}
    (emits : scope.Emits i) (m : Machine) : i.op = .call ∨ ∃ next, i.effect? m = some next := by
  have fits : ∀ {operand}, scope.Source operand ∨ operand = accumulator ∨ operand = scratch →
      operand.FitsValue ∧ ∃ v, m.value operand = some v := by
    intro operand value
    refine ⟨?_, Source.value_ne_none cells value m⟩
    rcases value with source | rfl | rfl
    · exact fitsValue_of_value cells (.inl source)
    · exact .inr rfl
    · exact .inr rfl
  cases emits with
  | load source =>
      obtain ⟨narrow, v, holds⟩ := fits (.inl source)
      obtain ⟨word, -, effect⟩ := Machine.mov_reg .ax narrow holds
      exact .inr ⟨_, effect⟩
  | park =>
      obtain ⟨narrow, v, holds⟩ := fits (.inr (.inl rfl))
      obtain ⟨word, -, effect⟩ := Machine.mov_reg .r10 narrow holds
      exact .inr ⟨_, effect⟩
  | negate =>
      obtain ⟨narrow, v, holds⟩ := fits (.inl (.const (-1)))
      obtain ⟨word, -, effect⟩ := Machine.imul_reg .ax narrow holds
      exact .inr ⟨_, effect⟩
  | add left =>
      obtain ⟨narrow, v, holds⟩ := fits (left.imp_right .inr)
      obtain ⟨word, -, effect⟩ := Machine.add_reg .ax narrow holds
      exact .inr ⟨_, effect⟩
  | mul left =>
      obtain ⟨narrow, v, holds⟩ := fits (left.imp_right .inr)
      obtain ⟨word, -, effect⟩ := Machine.imul_reg .ax narrow holds
      exact .inr ⟨_, effect⟩
  | @pass r operand carries value =>
      obtain ⟨narrow, v, holds⟩ := fits (value.imp_right .inl)
      obtain ⟨word, -, effect⟩ := Machine.mov_reg r narrow holds
      exact .inr ⟨_, effect⟩
  | push value =>
      obtain ⟨-, v, holds⟩ := fits (value.imp_right .inl)
      obtain ⟨word, -, effect⟩ := Machine.push_value holds
      exact .inr ⟨_, effect⟩
  | call known => exact .inl rfl
  | drop count => exact .inr ⟨_, m.add_stackPointer _⟩

/-- Code of expressions runs from one end to the other, whatever machine it starts on. -/
theorem exists_runsThrough {scope : Scope} (cells : scope.Cells) {code : Code}
    (emits : ∀ i ∈ code, scope.Emits i) (m : Machine) : ∃ after, RunsThrough code m after := by
  induction code generalizing m with
  | nil => exact ⟨m, .done m⟩
  | cons i code ih =>
      have others := ih fun j among => emits j (List.mem_cons_of_mem _ among)
      rcases (emits i (List.mem_cons_self ..)).call_or_effect cells m with calls | ⟨next, effect⟩
      · obtain ⟨after, rest⟩ := others m
        exact ⟨after, .call calls rfl (.refl _ _) rest⟩
      · obtain ⟨after, rest⟩ := others next
        exact ⟨after, .step effect rest⟩

/-! ## What such runs leave alone -/

namespace Machine

theorem operate_reg_eq_set {m after : Machine} {f : BitVec 64 → BitVec 64 → BitVec 64}
    {r : Register} {w : Width} {src : Operand} (done : m.operate f (.reg r w) src = some after) :
    ∃ word, after = m.set r word := by
  rw [operate, if_neg (by simp [Operand.isMemory])] at done
  obtain ⟨old, -, done⟩ := Option.bind_eq_some_iff.mp done
  obtain ⟨value, -, done⟩ := Option.bind_eq_some_iff.mp done
  exact ⟨_, (Option.some.inj done).symm⟩

/-- The stack pointer has moved by `distance`, and memory from a bound on is as it was. -/
structure Shifts (distance : Int) (bound : Nat) (before after : Machine) : Prop where
  pointer : ((after.regs .sp).toNat : Int) = (before.regs .sp).toNat + distance
  mem : Memory.AgreeFrom bound before.mem after.mem

theorem shifts_set (m : Machine) {r : Register} (other : r ≠ .sp) (word : BitVec 64)
    (bound : Nat) : Shifts 0 bound m (m.set r word) := by
  refine ⟨?_, fun _ _ => rfl⟩
  rw [m.regs_set_of_ne word other.symm, add_zero]

end Machine

namespace Instruction

open Machine (Shifts)

variable {i : Instruction} {m next : Machine}

theorem Computes.displacement_eq (computes : i.Computes) : i.displacement = 0 := by
  obtain @⟨op, dst, src, moves, own⟩ := computes
  rcases own with rfl | rfl <;> cases op <;> cases moves <;> rfl

theorem Computes.shifts (computes : i.Computes) (effect : i.effect? m = some next) (bound : Nat) :
    Shifts i.displacement bound m next := by
  rw [computes.displacement_eq]
  obtain @⟨op, dst, src, moves, own⟩ := computes
  obtain ⟨r, w, rfl, other⟩ : ∃ r w, dst = .reg r w ∧ r ≠ .sp := by
    rcases own with rfl | rfl
    · exact ⟨_, _, rfl, nofun⟩
    · exact ⟨_, _, rfl, nofun⟩
  obtain ⟨word, rfl⟩ : ∃ word, next = m.set r word := by
    cases op <;> cases moves <;> exact Machine.operate_reg_eq_set effect
  exact m.shifts_set other word bound

/-- Handing arguments over moves the stack pointer as counted and writes below the bound only. -/
theorem Hands.shifts (hands : i.Hands) (effect : i.effect? m = some next) {bound : Nat}
    (top : (m.regs .sp).toNat ≤ bound) (low : 0 ≤ (m.regs .sp).toNat + i.displacement)
    (high : (m.regs .sp).toNat + i.displacement < 2 ^ 64) :
    Shifts i.displacement bound m next := by
  cases hands with
  | @register r value carries =>
      have still : (Instruction.mov (.reg r valueWidth) value).displacement = 0 := rfl
      obtain ⟨word, rfl⟩ := Machine.operate_reg_eq_set effect
      rw [still]
      exact m.shifts_set (ne_of_mem_argRegisters carries).2.2.1 word bound
  | push value =>
      have moves : (Instruction.push (value.withWidth .quad)).displacement = -8 := rfl
      obtain ⟨word, -, rfl⟩ := Option.map_eq_some_iff.mp effect
      rw [moves] at low ⊢
      have room : 8 ≤ (m.regs .sp).toNat := by omega
      have pushed := Machine.toNat_push room word
      refine ⟨by omega, fun a above => Machine.agreeFrom_push room word a (top.trans above)⟩
  | call l => cases effect
  | drop count =>
      rw [Machine.add_stackPointer] at effect
      cases effect
      rw [displacement_add_stackPointer] at high ⊢
      refine ⟨?_, fun _ _ => rfl⟩
      rw [Machine.regs_set_self, Memory.toNat_add_ofNat (by omega)]
      omega

end Instruction

theorem Instruction.neg_eight_le_displacement {i : Instruction} (emitted : i.Computes ∨ i.Hands) :
    -8 ≤ i.displacement := by
  rcases emitted with computes | hands
  · rw [computes.displacement_eq]
    decide
  · cases hands with
    | register carries => simp [displacement, Instruction.mov, plain]
    | push value => exact le_rfl
    | call l => simp [displacement, Instruction.call, plain]
    | drop count =>
        rw [displacement_add_stackPointer]
        omega

theorem Instruction.displacement_of_call {i : Instruction} (calls : i.op = .call) :
    i.displacement = 0 := by
  simp [displacement, calls]

/-- Code of expressions moves the stack pointer as it is counted and changes no memory above the
highest place where the stack pointer is on the way. -/
theorem RunsThrough.shifts {code : Code} {m after : Machine} (runs : RunsThrough code m after)
    (emitted : ∀ i ∈ code, i.Computes ∨ i.Hands) {bound : Nat} (small : bound < 2 ^ 64)
    (within : ∀ k, 0 ≤ (m.regs .sp).toNat + displacement (code.take k) ∧
      (m.regs .sp).toNat + displacement (code.take k) ≤ bound) :
    Machine.Shifts (displacement code) bound m after := by
  induction runs with
  | done m => exact ⟨by simp, .refl _ _⟩
  | @step i code m next after effect rest ih =>
      have start := within 0
      have first := within 1
      simp only [List.take_zero, displacement_nil, add_zero, List.take_succ_cons,
        displacement_cons] at start first
      have here : Machine.Shifts i.displacement bound m next := by
        rcases emitted i (List.mem_cons_self ..) with computes | hands
        · exact computes.shifts effect bound
        · exact hands.shifts effect (by omega) first.1 (by omega)
      have there := ih (fun j among => emitted j (List.mem_cons_of_mem _ among)) fun k => by
        have later := within (k + 1)
        rw [List.take_succ_cons, displacement_cons] at later
        rw [here.pointer]
        omega
      refine ⟨?_, here.mem.trans there.mem le_rfl⟩
      rw [there.pointer, here.pointer, displacement_cons]
      omega
  | @call i code m next after calls pointer kept rest ih =>
      have still := Instruction.displacement_of_call calls
      have start := within 0
      have given := within 2
      simp only [List.take_zero, displacement_nil, add_zero, List.take_succ_cons,
        displacement_cons, still, zero_add] at start given
      have there := ih (fun j among => emitted j (List.mem_cons_of_mem _ among)) fun k => by
        have later := within (k + 1)
        rw [List.take_succ_cons, displacement_cons, still, zero_add] at later
        rwa [pointer]
      have fits : (m.regs .sp).toNat + dropped code ≤ bound := by
        rw [dropped]
        omega
      refine ⟨?_, fun a above => (there.mem a above).trans (kept a (fits.trans above))⟩
      rw [there.pointer, pointer, displacement_cons, still, zero_add]

theorem displacement_take_left (a b : Code) (k : Nat) :
    displacement (a.take k) = displacement ((a ++ b).take (min k a.length)) := by
  rw [List.take_append_of_le_length (min_le_right ..), ← List.take_eq_take_min]

/-! ## The push of an argument -/

/-- Code that leaves a word on the stack alone, which is on top of it where the code starts. -/
structure LeavesWord (index : Nat) (code : Code) : Prop where
  /-- In the end the word is `index` words above the top. -/
  pointer : displacement code = -(8 * index : Int)
  /-- The stack pointer is never above the word; what is pushed goes below the stack pointer. -/
  below : ∀ j, displacement (code.take j) ≤ 0
  /-- The stack pointer moves in no other way than is counted. -/
  counted : ∀ i ∈ code, i.writes .sp = true → ∃ n : Nat, i = .add stackPointer (.nat n)
  /-- Nothing but pushes writes to memory. -/
  memory : ∀ i ∈ code, ∀ dst, i.destination? = some dst → dst.isMemory = false

theorem counted_of_emitted {i : Instruction} (emitted : i.Computes ∨ i.Hands)
    (moves : i.writes .sp = true) : ∃ n : Nat, i = .add stackPointer (.nat n) := by
  rcases emitted with computes | hands
  · rw [computes.writes_eq_false (by decide) (by decide)] at moves
    cases moves
  · cases hands with
    | @register r value carries =>
        have other := (ne_of_mem_argRegisters carries).2.2.1
        simp [Instruction.writes, Instruction.destination?, Instruction.mov, Instruction.plain,
          Operand.isRegister, other] at moves
    | push value => cases moves
    | call l => cases moves
    | drop count => exact ⟨_, rfl⟩

theorem not_isMemory_of_emitted {i : Instruction} (emitted : i.Computes ∨ i.Hands) {dst : Operand}
    (written : i.destination? = some dst) : dst.isMemory = false := by
  rcases emitted with computes | hands
  · rcases computes.destination with own | own <;> rw [own] at written <;> cases written <;> rfl
  · cases hands <;> cases written <;> rfl

namespace Expr

variable {scope : Scope}

theorem emitted_of_lowerArgs {registers : List Register} (carry : registers ⊆ argRegisters)
    {args : List Expr} {code : Code} (lowers : lowerArgs scope registers args = .ok code) :
    ∀ i ∈ code, i.Computes ∨ i.Hands :=
  mem_code_lowerArgs (fun arg _ => arg.computes_or_hands_of_lower)
    (fun _ among _ _ => .inr (.register (carry among))) (fun value _ => .inr (.push value)) lowers

/-- Arguments are passed in registers as long as there are any, and then on the stack. -/
theorem lowerArgs_registers_stack {registers : List Register} {args : List Expr} {code : Code}
    (lowers : lowerArgs scope registers args = .ok code) :
    ∃ inRegisters onStack,
      lowerArgs scope registers (args.take registers.length) = .ok inRegisters ∧
        lowerArgs scope [] (args.drop registers.length) = .ok onStack ∧
        code = inRegisters ++ onStack := by
  induction registers generalizing args code with
  | nil => exact ⟨[], code, lowerArgs_nil _, lowers, rfl⟩
  | cons r rs ih =>
      cases args with
      | nil =>
          rw [lowerArgs_nil] at lowers
          cases lowers
          exact ⟨[], [], lowerArgs_nil _, lowerArgs_nil _, rfl⟩
      | cons arg args =>
          obtain ⟨first, rest, lowersFirst, lowersRest, rfl⟩ := lowerArgs_register_iff.mp lowers
          obtain ⟨inRegisters, onStack, early, late, rfl⟩ := ih lowersRest
          refine ⟨_, onStack,
            lowerArgs_register_iff.mpr ⟨first, inRegisters, lowersFirst, early, rfl⟩, late, ?_⟩
          simp only [List.append_assoc]

/-- Before the push of an argument stands the code of those after it, behind it the code of those
before it. -/
theorem lowerArgs_stack_split {args : List Expr} {code : Code}
    (lowers : lowerArgs scope [] args = .ok code) {j : Nat} {arg : Expr}
    (given : args[j]? = some arg) :
    ∃ later value between,
      lowerArgs scope [] (args.drop (j + 1)) = .ok later ∧ arg.lower scope = .ok value ∧
        lowerArgs scope [] (args.take j) = .ok between ∧
        code = later ++ value.code ++ [.push (value.value.withWidth .quad)] ++ between := by
  induction j generalizing args code with
  | zero =>
      obtain ⟨args, rfl⟩ := List.head?_eq_some_iff.mp (List.head?_eq_getElem? .. ▸ given)
      obtain ⟨first, rest, lowersFirst, lowersRest, rfl⟩ := lowerArgs_stack_iff.mp lowers
      exact ⟨rest, first, [], lowersRest, lowersFirst, lowerArgs_nil _, by simp⟩
  | succ j ih =>
      match args with
      | head :: args =>
          obtain ⟨first, rest, lowersFirst, lowersRest, rfl⟩ := lowerArgs_stack_iff.mp lowers
          obtain ⟨later, value, between, lowersLater, lowersArg, lowersBetween, rfl⟩ :=
            ih lowersRest given
          refine ⟨later, value, _, lowersLater, lowersArg,
            lowerArgs_stack_iff.mpr ⟨first, between, lowersFirst, lowersBetween, rfl⟩, ?_⟩
          simp only [List.append_assoc]

/-- Arguments that are pushed behind a word leave it where it is. -/
theorem leavesWord_of_lowerArgs {args : List Expr} {code : Code}
    (lowers : lowerArgs scope [] args = .ok code) : LeavesWord args.length code := by
  have emitted := emitted_of_lowerArgs (List.nil_subset _) lowers
  have sinks := sinks_of_lowerArgs (fun arg _ => arg.sinks_of_lower) lowers
  refine ⟨?_, sinks.below, fun i among => counted_of_emitted (emitted i among),
    fun i among _ => not_isMemory_of_emitted (emitted i among)⟩
  rw [sinks.net]
  simp [stackArgSize]

/-- Where the push of argument `k` stands in the code that passes the arguments of a call. -/
structure PushedArg (scope : Scope) (args : List Expr) (passed : Code) (k : Nat) (value : Valued)
    (before between : Code) : Prop where
  code : passed = before ++ value.code ++ [.push (value.value.withWidth .quad)] ++ between
  /-- Before it come the arguments in registers and those that are pushed earlier. -/
  others : ∃ inRegisters later,
    lowerArgs scope argRegisters (args.take 6) = .ok inRegisters ∧
      lowerArgs scope [] (args.drop (k + 1)) = .ok later ∧ before = inRegisters ++ later
  /-- Behind it come the arguments on the stack that stand before it. -/
  earlier : lowerArgs scope [] ((args.drop 6).take (k - 6)) = .ok between
  leaves : LeavesWord (k - 6) between

/-- Where an argument beyond the sixth is computed and pushed within the code that passes all. -/
theorem exists_pushedArg {args : List Expr} {passed : Code}
    (passes : lowerArgs scope argRegisters args = .ok passed) {k : Nat} {arg : Expr}
    (beyond : 6 ≤ k) (given : args[k]? = some arg) :
    ∃ value before between, arg.lower scope = .ok value ∧
      PushedArg scope args passed k value before between := by
  obtain ⟨inRegisters, onStack, early, late, rfl⟩ := lowerArgs_registers_stack passes
  have six : argRegisters.length = 6 := rfl
  rw [six] at early late
  have shifted : (args.drop 6)[k - 6]? = some arg := by
    rw [List.getElem?_drop, Nat.add_sub_cancel' beyond, given]
  obtain ⟨later, value, between, lowersLater, lowersArg, lowersBetween, rfl⟩ :=
    lowerArgs_stack_split late shifted
  have inside := (List.getElem?_eq_some_iff.mp shifted).1
  have leaves := leavesWord_of_lowerArgs lowersBetween
  rw [List.length_take_of_le inside.le] at leaves
  rw [List.drop_drop, show 6 + (k - 6 + 1) = k + 1 by omega] at lowersLater
  refine ⟨value, inRegisters ++ later, between, lowersArg, ?_, ⟨inRegisters, later, early,
    lowersLater, rfl⟩, lowersBetween, leaves⟩
  simp only [List.append_assoc]

end Expr

/-! ## The word at the call and in the callee -/

theorem Memory.cell_eq_of_load {mem : Memory} {a : Address} {word : BitVec 64}
    (holds : mem.load a 8 = word.toNat) : mem.cell a = lowInt word := by
  rw [cell, ← mem.load_mod a (by decide : 4 ≤ 8), holds, lowInt_ofNat_toNat]

namespace Machine

variable {m : Machine}

theorem load_push (m : Machine) (word : BitVec 64) :
    (m.push word).mem.load ((m.push word).regs .sp) 8 = word.toNat := by
  have small : word.toNat < 256 ^ 8 := word.isLt
  rw [regs_push_sp]
  exact (Memory.load_store_of_le le_rfl (by decide)).trans (Nat.mod_eq_of_lt small)

/-- Seen from the callee's frame pointer, the words on top of the stack at the call are where the
arguments on the stack are looked for. -/
theorem address_entered (m : Machine) (back : BitVec 64) (size j : Nat) :
    ((m.push back).entered size).address .bp (16 + 8 * (j : Int)) =
      m.regs .sp + BitVec.ofNat 64 (8 * j) := by
  have base : ((m.push back).entered size).regs .bp = m.regs .sp - 8 - 8 := by
    rw [entered, regs_set_of_ne _ _ (by decide), regs_set_self, regs_push_sp]
  have offset : BitVec.ofInt 64 (16 + 8 * (j : Int)) = 8 + 8 + BitVec.ofNat 64 (8 * j) := by
    have cast : (16 + 8 * (j : Int)) = ((16 + 8 * j : Nat) : Int) := by push_cast; rfl
    rw [cast, BitVec.ofInt_natCast, BitVec.ofNat_add]
    rfl
  rw [address, base, offset, ← BitVec.add_assoc, ← BitVec.add_assoc, BitVec.sub_add_cancel,
    BitVec.sub_add_cancel]

/-- Entering a function changes no memory from the stack pointer at the call on. -/
theorem agreeFrom_entered (room : 16 ≤ (m.regs .sp).toNat) (back : BitVec 64) (size : Nat) :
    Memory.AgreeFrom (m.regs .sp).toNat m.mem ((m.push back).entered size).mem := by
  have first := toNat_push (m := m) (by omega) back
  have called := agreeFrom_push (m := m) (by omega) back
  have saved := agreeFrom_push (m := m.push back) (by omega) ((m.push back).regs .bp)
  intro a above
  exact (saved a (by omega)).trans (called a above)

/-- While the code runs, the stack always has room for a return address and a frame pointer. -/
def HasRoom (m : Machine) (code : Code) : Prop :=
  ∀ j, 16 ≤ ((m.regs .sp).toNat : Int) + displacement (code.take j)

theorem HasRoom.left {a b : Code} (room : m.HasRoom (a ++ b)) : m.HasRoom a := by
  intro j
  rw [displacement_take_left a b]
  exact room _

/-- There is room for a push, and then for what follows it. -/
theorem HasRoom.push {a b : Code} {operand : Operand} {pushing : Machine}
    (room : m.HasRoom (a ++ .push operand :: b))
    (pointer : ((pushing.regs .sp).toNat : Int) = (m.regs .sp).toNat + displacement a) :
    8 ≤ (pushing.regs .sp).toNat ∧ ∀ word, (pushing.push word).HasRoom b := by
  have moves : (Instruction.push operand).displacement = -8 := rfl
  have later : ∀ j, 16 ≤ ((pushing.regs .sp).toNat : Int) + (-8 + displacement (b.take j)) := by
    intro j
    have point := room (a.length + (j + 1))
    rw [displacement_take_append, List.take_of_length_le (by omega), Nat.add_sub_cancel_left,
      List.take_succ_cons, displacement_cons, moves] at point
    omega
  have enough : 8 ≤ (pushing.regs .sp).toNat := by
    have point := later 0
    rw [List.take_zero, displacement_nil] at point
    omega
  refine ⟨enough, fun word j => ?_⟩
  have moved := toNat_push enough word
  have point := later j
  omega

/-- A word that is pushed is still there when code that leaves it alone has run. -/
theorem load_of_leavesWord {pushing atCall : Machine} {word : BitVec 64} {index : Nat}
    {between : Code} (leaves : LeavesWord index between)
    (emitted : ∀ i ∈ between, i.Computes ∨ i.Hands) (enough : 8 ≤ (pushing.regs .sp).toNat)
    (room : (pushing.push word).HasRoom between)
    (runs : RunsThrough between (pushing.push word) atCall) :
    ((atCall.regs .sp).toNat : Int) + 8 * index + 8 = (pushing.regs .sp).toNat ∧
      atCall.mem.load (atCall.regs .sp + BitVec.ofNat 64 (8 * index)) 8 = word.toNat := by
  have moved := toNat_push enough word
  have top := (pushing.regs .sp).isLt
  have shifts : Machine.Shifts (displacement between) ((pushing.push word).regs .sp).toNat
      (pushing.push word) atCall := by
    refine runs.shifts emitted (by omega) fun k => ?_
    have low := room k
    have high := leaves.below k
    omega
  have pointer := shifts.pointer
  rw [leaves.pointer] at pointer
  refine ⟨by omega, ?_⟩
  have place : atCall.regs .sp + BitVec.ofNat 64 (8 * index) = (pushing.push word).regs .sp := by
    apply BitVec.eq_of_toNat_eq
    rw [Memory.toNat_add_ofNat (by omega)]
    omega
  rw [place, Memory.load_of_agreeFrom shifts.mem le_rfl (by omega), load_push]

/-- What becomes of the word that was pushed for argument `k`: at the call it lies above those of
the arguments before it, and a callee that has a parameter `k` has bound it to this very word. -/
structure FindsWord (atCall : Machine) (k : Nat) (word : BitVec 64) : Prop where
  onTop : atCall.mem.load (atCall.regs .sp + BitVec.ofNat 64 (8 * (k - 6))) 8 = word.toNat
  inCallee : ∀ (f : Func) (callees : List String) (body : Code) (final : Scope) (param : Binding)
    (back : BitVec 64), f.lowerBody callees = .ok (body, final) → f.params[k]? = some param →
    ∃ entered, runLine f.prologue.tail (atCall.push back) = some entered ∧
      final.find? param.name = some (.mem .bp .long (16 + 8 * ((k : Int) - 6))) ∧
      entered.address .bp (16 + 8 * ((k : Int) - 6)) =
        atCall.regs .sp + BitVec.ofNat 64 (8 * (k - 6)) ∧
      entered.value (.mem .bp .long (16 + 8 * ((k : Int) - 6))) = some (lowInt word)

/-- What lies above the stack pointer at the call is found in the frame of the callee. -/
theorem findsWord_of_load {atCall : Machine} {k : Nat} {word : BitVec 64} (beyond : 6 ≤ k)
    (room : 16 ≤ (atCall.regs .sp).toNat)
    (fits : (atCall.regs .sp).toNat + 8 * (k - 6) + 8 ≤ 2 ^ 64)
    (holds : atCall.mem.load (atCall.regs .sp + BitVec.ofNat 64 (8 * (k - 6))) 8 = word.toNat) :
    atCall.FindsWord k word := by
  refine ⟨holds, fun f callees body final param back lowers given => ?_⟩
  have offset : 16 + 8 * ((k : Int) - 6) = 16 + 8 * ((k - 6 : Nat) : Int) := by omega
  have address := atCall.address_entered back f.frameSize (k - 6)
  refine ⟨_, f.runLine_prologue _,
    (Func.laidOut_of_lowerBody lowers).arguments k param beyond given, ?_, ?_⟩
  · rw [offset, address]
  · have value := value_frameCell ((atCall.push back).entered f.frameSize)
      (16 + 8 * ((k - 6 : Nat) : Int))
    have place : (atCall.regs .sp + BitVec.ofNat 64 (8 * (k - 6))).toNat =
        (atCall.regs .sp).toNat + 8 * (k - 6) := Memory.toNat_add_ofNat (by omega)
    rw [address, Memory.cell_of_agreeFrom (agreeFrom_entered room back f.frameSize) (by omega)
      (by omega), Memory.cell_eq_of_load holds] at value
    rw [offset]
    exact value

/-- An instruction takes at most eight bytes of the stack. -/
theorem hasRoom_of_le {code : Code} (emitted : ∀ i ∈ code, i.Computes ∨ i.Hands)
    (enough : 16 + 8 * code.length ≤ (m.regs .sp).toNat) : m.HasRoom code := by
  have each : ∀ i ∈ code, -8 ≤ i.displacement := fun i among =>
    Instruction.neg_eight_le_displacement (emitted i among)
  intro j
  have total : -(8 * code.length : Int) ≤ displacement (code.take j) := by
    clear emitted enough
    induction code generalizing j with
    | nil => simp
    | cons i code ih =>
        have here := each i (List.mem_cons_self ..)
        cases j with
        | zero =>
            rw [List.take_zero, displacement_nil]
            omega
        | succ j =>
            have there := ih (fun k among => each k (List.mem_cons_of_mem _ among)) j
            rw [List.take_succ_cons, displacement_cons, List.length_cons]
            omega
  omega

end Machine

namespace Expr

variable {scope : Scope}

/-- The callee finds the word that the push of the argument has read. -/
theorem PushedArg.findsWord {args : List Expr} {passed : Code} {k : Nat} {value : Valued}
    {before between : Code} (beyond : 6 ≤ k)
    (pushed : PushedArg scope args passed k value before between)
    (emitted : ∀ i ∈ passed, i.Computes ∨ i.Hands) (below : ∀ j, displacement (passed.take j) ≤ 0)
    {m atCall : Machine} (room : m.HasRoom passed) (runs : RunsThrough passed m atCall) :
    ∃ pushing word, RunsThrough (before ++ value.code) m pushing ∧
      pushing.read .quad (value.value.withWidth .quad) = some word ∧ atCall.FindsWord k word := by
  have bound := (m.regs .sp).isLt
  have ends := runs.shifts emitted bound fun j => by
    have low := room j
    have high := below j
    omega
  have last := room passed.length
  rw [List.take_length, ← ends.pointer] at last
  have split : passed =
      (before ++ value.code) ++ (.push (value.value.withWidth .quad) :: between) := by
    rw [pushed.code, List.append_assoc, List.singleton_append]
  rw [split] at emitted below room runs
  obtain ⟨pushing, early, late⟩ := runs.split rfl
  have shifts := early.shifts (fun i among => emitted i (List.mem_append_left _ among)) bound
    fun j => by
      have low := room.left j
      have high := below (min j (before ++ value.code).length)
      rw [← displacement_take_left] at high
      omega
  obtain ⟨enough, roomLeft⟩ := room.push shifts.pointer
  cases late with
  | call calls => cases calls
  | step effect rest =>
      obtain ⟨word, reads, rfl⟩ := Option.map_eq_some_iff.mp effect
      obtain ⟨pointer, holds⟩ := Machine.load_of_leavesWord pushed.leaves
        (fun i among => emitted i (List.mem_append_right _ (List.mem_cons_of_mem _ among)))
        enough (roomLeft word) rest
      have top := (pushing.regs .sp).isLt
      exact ⟨pushing, word, early, reads,
        Machine.findsWord_of_load beyond (by omega) (by omega) holds⟩

end Expr

/-- In the code of a program, a process that starts to pass the arguments of a call gets to the
call, and each argument on the stack is then where the callee looks for it. -/
theorem Program.finds_stack_arguments {p : Program} {target : Target} {image : Image}
    (lowers : p.lower target = .ok image.code) (distinct : p.names.Nodup)
    (disciplined : p.Disciplined) {depth need : Nat} {name : String} {args : List Expr}
    (proper : (Expr.call name args).Disciplined)
    (needs : (Expr.call name args).Needs (depth * p.activation) need) {scope : Scope} {env : Env}
    {values : List Int32} {passed : Code} {start : Nat} {m : Machine}
    (passes : Expr.lowerArgs scope argRegisters args = .ok passed)
    (evals : Expr.evalAll (p.invoke depth) env args = some values)
    (ready : scope.Ready env need m) (room : m.HasRoom passed)
    (carries : image.Carries start passed) :
    ∃ atCall, image.Reaches ⟨start, m⟩ ⟨start + passed.length, atCall⟩ ∧
      ∀ k arg, 6 ≤ k → args[k]? = some arg → ∃ value before between pushing word,
        Expr.PushedArg scope args passed k value before between ∧
        RunsThrough (before ++ value.code) m pushing ∧
        pushing.read .quad (value.value.withWidth .quad) = some word ∧
        atCall.FindsWord k word := by
  have implements := Program.implements_of_lower lowers distinct disciplined depth
  have emitted := Expr.emitted_of_lowerArgs (fun _ => id) passes
  have sinks := Expr.sinks_of_lowerArgs (fun arg _ => arg.sinks_of_lower) passes
  obtain ⟨free, each⟩ := proper.call
  have simulated : ∀ arg ∈ args, arg.Simulated image (p.invoke depth) need := fun arg among =>
    arg.simulated implements (each arg among) (needs.arg among)
  have enough := needs _ (Expr.self_mem_nodes _)
  rw [Expr.stackArgs] at enough
  obtain ⟨-, atCall, -, crosses, -⟩ :=
    Expr.crosses_args simulated free each passes evals ready (by omega) carries
  refine ⟨atCall, crosses.reaches, fun k arg beyond given => ?_⟩
  obtain ⟨value, before, between, -, pushed⟩ := Expr.exists_pushedArg passes beyond given
  obtain ⟨pushing, word, runs, reads, finds⟩ :=
    pushed.findsWord beyond emitted sinks.below room crosses.through
  exact ⟨value, before, between, pushing, word, pushed, runs, reads, finds⟩

namespace Expr

variable {scope : Scope}

/-- A call with more than six arguments and its callee agree on where the others are. For each of
them there is one push; from there to the call its word is left alone, and it ends up where a
callee with that parameter looks for it. The addition behind the call takes exactly these words off
the stack. -/
theorem stack_arguments_agree {name : String} {args : List Expr} {out : Valued}
    (lowers : (call name args).lower scope = .ok out) (many : 6 < args.length) :
    ∃ passed,
      out.code = passed ++
        [.call (.function name), .add stackPointer (.nat (8 * (args.length - 6)))] ∧
      (scope.Cells → ∀ m, ∃ atCall, RunsThrough passed m atCall) ∧
      (∀ k arg, 6 ≤ k → args[k]? = some arg → ∃ value before between,
        arg.lower scope = .ok value ∧ PushedArg scope args passed k value before between ∧
        ∀ m atCall, m.HasRoom passed → RunsThrough passed m atCall →
          ∃ pushing word, RunsThrough (before ++ value.code) m pushing ∧
            pushing.read .quad (value.value.withWidth .quad) = some word ∧
            atCall.FindsWord k word) ∧
      displacement passed = -(8 * (args.length - 6 : Nat) : Int) ∧
      ∀ m atCall returned, m.HasRoom passed → RunsThrough passed m atCall →
        returned.regs .sp = atCall.regs .sp →
        ∃ after, (Instruction.add stackPointer (.nat (8 * (args.length - 6)))).effect? returned =
          some after ∧ after.regs .sp = m.regs .sp := by
  obtain ⟨known, passed, passes, rfl⟩ := lower_call_iff.mp lowers
  have six : argRegisters.length = 6 := rfl
  have drops : dropArgs (args.length - argRegisters.length) =
      [.add stackPointer (.nat (8 * (args.length - 6)))] := if_neg (by omega)
  have emitted := emitted_of_lowerArgs (fun _ => id) passes
  have sinks := sinks_of_lowerArgs (fun arg _ => arg.sinks_of_lower) passes
  have net : displacement passed = -(8 * (args.length - 6 : Nat) : Int) := by
    rw [sinks.net, six, stackArgSize]
    push_cast
    rfl
  refine ⟨passed, ?_, fun cells m => ?_, fun k arg beyond given => ?_, net, ?_⟩
  · rw [drops, List.append_assoc]
    rfl
  · exact exists_runsThrough cells
      (emits_of_lowerArgs (fun arg _ => arg.emits_of_lower cells) passes) m
  · obtain ⟨value, before, between, lowersArg, pushed⟩ := exists_pushedArg passes beyond given
    exact ⟨value, before, between, lowersArg, pushed, fun m atCall room runs =>
      pushed.findsWord beyond emitted sinks.below room runs⟩
  · intro m atCall returned room runs same
    refine ⟨_, Machine.add_stackPointer _ _, ?_⟩
    have bound := (m.regs .sp).isLt
    have shifts := (runs.shifts emitted bound fun j => by
      have low := room j
      have high := sinks.below j
      omega).pointer
    rw [net] at shifts
    rw [Machine.regs_set_self, same]
    apply BitVec.eq_of_toNat_eq
    rw [Memory.toNat_add_ofNat (by omega)]
    omega

/-- A call whose argument on the stack is itself a call with two arguments on the stack. -/
def nestedOnStack : Expr :=
  .call "f" (List.replicate 6 (.const 1) ++ [.call "f" (List.replicate 8 (.const 2)), .const 3])

theorem stack_arguments_agree_nestedOnStack :
    ∃ (out value : Valued) (passed before between : Code) (m pushing atCall : Machine)
      (word : BitVec 64),
      nestedOnStack.lower (.fresh "main" ["main", "f"]) = .ok out ∧
      out.code = passed ++ [.call (.function "f"), .add stackPointer (.nat 16)] ∧
      passed = before ++ value.code ++ [.push (.reg .ax .quad)] ++ between ∧
      m.HasRoom passed ∧ RunsThrough passed m atCall ∧
      RunsThrough (before ++ value.code) m pushing ∧
      pushing.read .quad (.reg .ax .quad) = some word ∧ atCall.FindsWord 6 word := by
  have lowersOk : (nestedOnStack.lower (.fresh "main" ["main", "f"])).isOk = true := by
    decide +kernel
  obtain ⟨out, lowers⟩ := exists_ok_of_isOk lowersOk
  obtain ⟨passed, code, runs, words, -⟩ := stack_arguments_agree lowers (by decide)
  have emitted : ∀ i ∈ passed, i.Computes ∨ i.Hands := fun i among =>
    nestedOnStack.computes_or_hands_of_lower lowers i (code ▸ List.mem_append_left _ among)
  have short : passed.length ≤ 100 := by
    have bounded : ∀ out, nestedOnStack.lower (.fresh "main" ["main", "f"]) = .ok out →
        out.code.length ≤ 100 := by
      have decided : (nestedOnStack.lower (.fresh "main" ["main", "f"])).toOption.all
          (·.code.length ≤ 100) = true := by decide +kernel
      intro out lowers
      simpa [lowers, Except.toOption] using decided
    have whole := bounded out lowers
    rw [code, List.length_append] at whole
    omega
  let m : Machine := ⟨fun _ => 4096, fun _ => 0⟩
  have room : m.HasRoom passed := Machine.hasRoom_of_le emitted (by
    show _ ≤ 4096
    omega)
  obtain ⟨atCall, run⟩ := runs (Scope.laid_fresh "main" ["main", "f"]).cells m
  obtain ⟨value, before, between, lowersArg, pushed, found⟩ := words 6 _ le_rfl rfl
  obtain ⟨pushing, word, runsArg, reads, finds⟩ := found m atCall room run
  have split := pushed.code
  have computed : value.value = accumulator := value_of_computes rfl lowersArg
  rw [computed] at split reads
  exact ⟨out, value, passed, before, between, m, pushing, atCall, word, lowers, code, split, room,
    run, runsArg, reads, finds⟩

end Expr

end IntBackend
