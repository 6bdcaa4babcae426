/-
# IntBackend.Proofs.Preservation.Arguments — passing arguments

Arguments without calls are put where the calling convention wants them: the first
ones in registers, the others on the stack, the first of those on top. Memory from
the old stack pointer on is left alone, so the caller's variables, all of which lie
there, keep their values while this goes on.
-/
import IntBackend.Proofs.Preservation.Values

namespace IntBackend

set_option autoImplicit false

open Convention

/-! ## Variables above the stack pointer -/

/-- Every variable lies in memory at or above a bound, seen from a frame pointer. -/
def Scope.Above (scope : Scope) (base : Address) (bound : Nat) : Prop :=
  ∀ ⦃name operand⦄, scope.find? name = some operand →
    ∃ offset, operand = frameCell offset ∧ bound ≤ (base + BitVec.ofInt 64 offset).toNat ∧
      (base + BitVec.ofInt 64 offset).toNat + slotSize ≤ 2 ^ 64

namespace Scope.Above

variable {scope : Scope} {bound : Nat} {m after : Machine}

theorem cells {base : Address} (above : scope.Above base bound) : scope.Cells := by
  intro name operand found
  obtain ⟨offset, eq, -⟩ := above found
  exact ⟨offset, eq⟩

theorem value_eq (above : scope.Above (m.regs .bp) bound) (base : after.regs .bp = m.regs .bp)
    (agree : Memory.AgreeFrom bound m.mem after.mem) {operand : Operand}
    (source : scope.Source operand) : after.value operand = m.value operand := by
  cases source with
  | const value => rfl
  | place found =>
      obtain ⟨offset, rfl, low, high⟩ := above found
      rw [Machine.value_frameCell, Machine.value_frameCell, Machine.address, Machine.address,
        base, Memory.cell_of_agreeFrom agree low high]

theorem represents (above : scope.Above (m.regs .bp) bound) (base : after.regs .bp = m.regs .bp)
    (agree : Memory.AgreeFrom bound m.mem after.mem) {env : Env}
    (represents : scope.Represents env m) : scope.Represents env after := by
  intro name operand v found has
  rw [above.value_eq base agree (.place found)]
  exact represents found has

end Scope.Above

/-! ## Arguments in place -/

/-- Arguments where a callee looks for them: the first in registers, the others in
memory from an address on. -/
structure Machine.Passes (m : Machine) (registers : List Register) (stack : Address)
    (values : List Int32) : Prop where
  inRegisters : ∀ ⦃j : Nat⦄ ⦃r v⦄, registers[j]? = some r → values[j]? = some v →
    lowInt (m.regs r) = v
  onStack : ∀ ⦃j : Nat⦄ ⦃v⦄, values[registers.length + j]? = some v →
    m.mem.cell (stack + BitVec.ofNat 64 (stackArgSize * j)) = v

/-- What passing arguments does to the machine, of which `count` go on the stack. -/
structure Machine.Passed (registers : List Register) (count : Nat) (values : List Int32)
    (before after : Machine) : Prop where
  passes : after.Passes registers (after.regs .sp) values
  pointer : (after.regs .sp).toNat + stackArgSize * count = (before.regs .sp).toNat
  regs : ∀ r, r ∉ registers → r ≠ .ax → r ≠ .r10 → r ≠ .sp → after.regs r = before.regs r
  mem : Memory.AgreeFrom (before.regs .sp).toNat before.mem after.mem

namespace Machine.Passed

theorem none (m : Machine) (registers : List Register) : Passed registers 0 [] m m :=
  ⟨⟨nofun, nofun⟩, by omega, fun _ _ _ _ _ => rfl, .refl _ _⟩

/-- One more argument in a register, put there before the others. -/
theorem register {m loaded after : Machine} {r : Register} {rs : List Register} {count : Nat}
    {word : BitVec 64} {v : Int32} {values : List Int32} (carry : r :: rs ⊆ argRegisters)
    (distinct : (r :: rs).Nodup) (spares : m.Spares loaded) (low : lowInt word = v)
    (others : Passed rs count values (loaded.set r word) after) :
    Passed (r :: rs) count (v :: values) m after := by
  obtain ⟨notAx, notR10, notSp, notBp⟩ := ne_of_mem_argRegisters (carry (List.mem_cons_self ..))
  have fresh := (List.nodup_cons.mp distinct).1
  have sp : (loaded.set r word).regs .sp = m.regs .sp := by
    rw [Machine.regs_set_of_ne _ _ notSp.symm, spares.regs .sp (by decide) (by decide)]
  have there : lowInt (after.regs r) = v := by
    rw [others.regs r fresh notAx notR10 notSp, Machine.regs_set_self, low]
  refine ⟨⟨?_, ?_⟩, ?_, ?_, ?_⟩
  · intro j q u isRegister isValue
    cases j with
    | zero =>
        cases isRegister
        cases isValue
        exact there
    | succ j => exact others.passes.inRegisters isRegister isValue
  · intro j u isValue
    rw [List.length_cons, Nat.add_right_comm] at isValue
    exact others.passes.onStack isValue
  · rw [others.pointer, sp]
  · intro q unused notAx notR10 notSp
    obtain ⟨other, unused⟩ := List.ne_and_not_mem_of_not_mem_cons unused
    rw [others.regs q unused notAx notR10 notSp, Machine.regs_set_of_ne _ _ other,
      spares.regs q notAx notR10]
  · have agree := others.mem
    rw [sp, Machine.mem_set, spares.mem] at agree
    exact agree

/-- One more argument on the stack, pushed after the others. -/
theorem stack {m pushed loaded : Machine} {count : Nat} {word : BitVec 64} {v : Int32}
    {values : List Int32} (others : Passed [] count values m pushed)
    (within : values.length = count) (spares : pushed.Spares loaded)
    (enough : stackArgSize * (count + 1) ≤ (m.regs .sp).toNat) (low : lowInt word = v) :
    Passed [] (count + 1) (v :: values) m (loaded.push word) := by
  have sp : loaded.regs .sp = pushed.regs .sp := spares.regs .sp (by decide) (by decide)
  have pointer := others.pointer
  have top := (m.regs .sp).isLt
  simp only [stackArgSize] at enough pointer
  have room : 8 ≤ (loaded.regs .sp).toNat := by rw [sp]; omega
  have moved := Machine.toNat_push room word
  have agree := Machine.agreeFrom_push room word
  rw [sp] at moved agree
  refine ⟨⟨by simp, ?_⟩, ?_, ?_, ?_⟩
  · intro j u isValue
    cases j with
    | zero =>
        cases isValue
        rw [Nat.mul_zero, BitVec.add_zero, Machine.cell_push, low]
    | succ j =>
        have isValue : values[j]? = some u := by simpa using isValue
        have inside := (List.getElem?_eq_some_iff.mp isValue).1
        -- seen from the new top, the others are one place further on
        have shift : (loaded.push word).regs .sp + BitVec.ofNat 64 (stackArgSize * (j + 1)) =
            pushed.regs .sp + BitVec.ofNat 64 (stackArgSize * j) := by
          apply BitVec.eq_of_toNat_eq
          simp only [stackArgSize]
          rw [Memory.toNat_add_ofNat (by omega), Memory.toNat_add_ofNat (by omega)]
          omega
        have place : (pushed.regs .sp + BitVec.ofNat 64 (stackArgSize * j)).toNat =
            (pushed.regs .sp).toNat + 8 * j :=
          Memory.toNat_add_ofNat (by simp only [stackArgSize]; omega)
        rw [shift, Memory.cell_of_agreeFrom agree (by omega) (by omega), spares.mem]
        exact others.passes.onStack (by simpa using isValue)
  · simp only [stackArgSize]
    omega
  · intro r unused notAx notR10 notSp
    rw [Machine.regs_push_of_ne _ _ notSp, spares.regs r notAx notR10,
      others.regs r unused notAx notR10 notSp]
  · have late : Memory.AgreeFrom (m.regs .sp).toNat loaded.mem (loaded.push word).mem :=
      fun a above => agree a (by omega)
    rw [spares.mem] at late
    exact others.mem.trans late le_rfl

end Machine.Passed

/-! ## Passing -/

namespace Expr

variable {scope : Scope} {calls : Calls} {env : Env}

/-- A value without calls is computed and moved to a register. -/
theorem runLine_into_register {e : Expr} (cells : scope.Cells) {m : Machine} {out : Valued}
    {v : Int32} (free : e.CallFree) (disciplined : e.Disciplined) (lowers : e.lower scope = .ok out)
    (evals : e.eval calls env = some v) (represents : scope.Represents env m) (r : Register) :
    ∃ loaded word, m.Spares loaded ∧ lowInt word = v ∧
      runLine (out.code ++ [.mov (.reg r valueWidth) out.value]) m = some (loaded.set r word) := by
  obtain ⟨loaded, ran⟩ := e.computed_of_callFree cells free disciplined lowers evals represents
  have fits := Scope.fitsValue_of_value cells (value_of_lower lowers)
  obtain ⟨word, low, moves⟩ := Machine.mov_reg r fits ran.value
  exact ⟨loaded, word, ran.spares, low,
    runLine_append_of_eq ran.runs ((runLine_singleton ..).trans moves)⟩

/-- Arguments without calls get to their registers and onto the stack. -/
theorem passed_of_callFree {args : List Expr} (free : ∀ arg ∈ args, arg.CallFree)
    (disciplined : ∀ arg ∈ args, arg.Disciplined) {registers : List Register}
    (carry : registers ⊆ argRegisters) (distinct : registers.Nodup) {m : Machine} {code : Code}
    {values : List Int32} (lowers : lowerArgs scope registers args = .ok code)
    (evals : evalAll calls env args = some values)
    (above : scope.Above (m.regs .bp) (m.regs .sp).toNat) (represents : scope.Represents env m)
    (enough : stackArgSize * (args.length - registers.length) ≤ (m.regs .sp).toNat) :
    ∃ after, runLine code m = some after ∧
      Machine.Passed registers (args.length - registers.length) values m after := by
  induction args generalizing registers m code values with
  | nil =>
      rw [lowerArgs_nil] at lowers
      cases lowers
      cases evals
      rw [List.length_nil, Nat.zero_sub]
      exact ⟨m, rfl, .none m registers⟩
  | cons arg args ih =>
      obtain ⟨v, vs, evalsFirst, evalsRest, rfl⟩ := evalAll_cons_iff.mp evals
      have freeFirst := free arg (List.mem_cons_self ..)
      have disciplinedFirst := disciplined arg (List.mem_cons_self ..)
      have others := @ih (fun e among => free e (List.mem_cons_of_mem _ among))
        (fun e among => disciplined e (List.mem_cons_of_mem _ among))
      cases registers with
      | nil =>
          -- the later arguments are pushed first
          obtain ⟨first, rest, lowersFirst, lowersRest, rfl⟩ := lowerArgs_stack_iff.mp lowers
          rw [List.length_nil, Nat.sub_zero, List.length_cons] at enough ⊢
          have fewer : stackArgSize * args.length ≤ (m.regs .sp).toNat :=
            (Nat.mul_le_mul_left _ (Nat.le_succ _)).trans enough
          obtain ⟨pushed, runsRest, passed⟩ := others carry distinct lowersRest evalsRest above
            represents fewer
          have base := passed.regs .bp List.not_mem_nil (by decide) (by decide) (by decide)
          have stillRepresents := above.represents base passed.mem represents
          obtain ⟨loaded, ran⟩ := arg.computed_of_callFree above.cells freeFirst disciplinedFirst
            lowersFirst evalsFirst stillRepresents
          obtain ⟨word, low, pushes⟩ := Machine.push_value ran.value
          refine ⟨loaded.push word, ?_,
            passed.stack (length_of_evalAll evalsRest) ran.spares enough low⟩
          exact runLine_append_of_eq (runLine_append_of_eq runsRest ran.runs)
            ((runLine_singleton ..).trans pushes)
      | cons r rs =>
          obtain ⟨first, rest, lowersFirst, lowersRest, rfl⟩ := lowerArgs_register_iff.mp lowers
          rw [List.length_cons, List.length_cons, Nat.add_sub_add_right] at enough ⊢
          obtain ⟨-, -, notSp, notBp⟩ := ne_of_mem_argRegisters (carry (List.mem_cons_self ..))
          obtain ⟨loaded, word, spares, low, runsFirst⟩ := runLine_into_register above.cells
            freeFirst disciplinedFirst lowersFirst evalsFirst represents r
          have base : (loaded.set r word).regs .bp = m.regs .bp := by
            rw [Machine.regs_set_of_ne _ _ notBp.symm, spares.regs .bp (by decide) (by decide)]
          have pointer : (loaded.set r word).regs .sp = m.regs .sp := by
            rw [Machine.regs_set_of_ne _ _ notSp.symm, spares.regs .sp (by decide) (by decide)]
          have same : Memory.AgreeFrom (m.regs .sp).toNat m.mem (loaded.set r word).mem := by
            rw [Machine.mem_set, spares.mem]
            exact .refl _ _
          obtain ⟨after, runsRest, passed⟩ := others (List.subset_of_cons_subset carry)
            (List.nodup_cons.mp distinct).2 lowersRest evalsRest (by rwa [base, pointer])
            (above.represents base same represents) (by rwa [pointer])
          exact ⟨after, runLine_append_of_eq runsFirst runsRest,
            .register carry distinct spares low passed⟩

end Expr

end IntBackend
