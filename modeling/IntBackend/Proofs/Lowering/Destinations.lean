/-
# IntBackend.Proofs.Lowering.Destinations — what the code of a value writes

Code of an expression computes in the accumulator and the scratch register
(`Instruction.Computes`). A call adds what passes its arguments: moves to the argument
registers, pushes, the call itself and the addition that takes the pushed words off again
(`Instruction.Hands`). So no instruction of an expression has memory as its destination, and
code without calls writes two registers only. An instruction leaves every register alone that
is neither its destination nor the stack pointer.
-/
import IntBackend.Proofs.Lowering.Shape
import IntBackend.Proofs.Machine.Steps
import IntBackend.Proofs.Source.Discipline

namespace IntBackend

set_option autoImplicit false

open Convention

/-! ## Destinations -/

namespace Instruction

/-- The operand that an instruction writes. What is pushed is only read. -/
def destination? (i : Instruction) : Option Operand :=
  match i.op with
  | .mov | .add | .sub | .imul | .pop => i.operands.head?
  | _ => none

theorem mem_operands_of_destination {i : Instruction} {operand : Operand}
    (written : i.destination? = some operand) : operand ∈ i.operands := by
  have either : i.destination? = i.operands.head? ∨ i.destination? = none := by
    unfold destination?
    split <;> simp
  rcases either with first | none
  · exact List.mem_of_mem_head? (first ▸ written)
  · cases none.symm.trans written

/-- The register is the destination, seen at some width. -/
def writes (i : Instruction) (r : Register) : Bool := i.destination?.any (·.isRegister r)

/-- Computes a value: the accumulator or the scratch register is the destination. -/
inductive Computes : Instruction → Prop
  | into {op : Opcode} {dst src : Operand} (moves : op.isMove = true)
      (own : dst = accumulator ∨ dst = scratch) : Computes (.plain op [dst, src])

/-- Hands arguments to a callee, or takes them off the stack again. -/
inductive Hands : Instruction → Prop
  | register {r : Register} {value : Operand} (carries : r ∈ argRegisters) :
      Hands (.mov (.reg r valueWidth) value)
  | push (value : Operand) : Hands (.push (value.withWidth .quad))
  | call (l : Label) : Hands (.call l)
  | drop (count : Nat) : Hands (.add stackPointer (.nat (stackArgSize * count)))

theorem Computes.op_ne_call {i : Instruction} (computes : i.Computes) : i.op ≠ .call := by
  obtain ⟨moves, -⟩ := computes
  rintro rfl
  cases moves

theorem Computes.destination {i : Instruction} (computes : i.Computes) :
    i.destination? = some accumulator ∨ i.destination? = some scratch := by
  obtain @⟨op, dst, src, moves, own⟩ := computes
  have written : (plain op [dst, src]).destination? = some dst := by
    cases op <;> cases moves <;> rfl
  rw [written]
  exact own.imp (congrArg some) (congrArg some)

theorem Computes.writes_eq_false {i : Instruction} (computes : i.Computes) {r : Register}
    (notAx : r ≠ .ax) (notR10 : r ≠ .r10) : i.writes r = false := by
  rcases computes.destination with written | written
  · simp [writes, written, accumulator, Operand.isRegister, notAx.symm]
  · simp [writes, written, scratch, Operand.isRegister, notR10.symm]

end Instruction

/-! ## Code of expressions -/

theorem computes_intoAccumulator (operand : Operand) :
    ∀ i ∈ intoAccumulator operand, i.Computes := by
  unfold intoAccumulator
  split
  · simp
  · simpa using .into rfl (.inl rfl)

theorem computes_operation {op : BinOp} {combine : Operand → Code}
    (known : operation op = .ok combine) (left : Operand) :
    ∀ i ∈ combine left, i.Computes := by
  cases op with
  | add => cases known; simpa using .into rfl (.inl rfl)
  | mul => cases known; simpa using .into rfl (.inl rfl)
  | sub => cases known; simpa using ⟨.into rfl (.inl rfl), .into rfl (.inl rfl)⟩
  | div => cases known
  | rem => cases known

theorem computes_park (left : Valued) :
    ∀ i ∈ (park left).code, i ∈ left.code ∨ i.Computes := by
  unfold park
  split
  · intro i among
    refine (List.mem_append.mp among).imp id fun own => ?_
    rw [List.mem_singleton.mp own]
    exact .into rfl (.inr rfl)
  · exact fun i among => .inl among

theorem hands_dropArgs (count : Nat) : ∀ i ∈ dropArgs count, i.Hands := by
  unfold dropArgs
  split
  · simp
  · simpa using .drop count

namespace Expr

variable {scope : Scope}

/-- An instruction of an operation is one of its operands' or computes. -/
theorem mem_code_binary {op : BinOp} {combine : Operand → Code} (known : operation op = .ok combine)
    {left right : Valued} {i : Instruction}
    (among : i ∈ (park left).code ++ right.code ++ intoAccumulator right.value ++
      combine (park left).value) : i ∈ left.code ∨ i ∈ right.code ∨ i.Computes := by
  simp only [List.mem_append] at among
  rcases among with ((among | among) | among) | among
  · exact (computes_park left i among).imp id .inr
  · exact .inr (.inl among)
  · exact .inr (.inr (computes_intoAccumulator _ i among))
  · exact .inr (.inr (computes_operation known _ i among))

theorem computes_of_callFree {e : Expr} (free : e.CallFree) {out : Valued}
    (lowers : e.lower scope = .ok out) : ∀ i ∈ out.code, i.Computes := by
  induction e generalizing out with
  | var name =>
      obtain ⟨operand, -, rfl⟩ := lower_var_iff.mp lowers
      simp
  | const value =>
      rw [lower_const] at lowers
      cases lowers
      simp
  | binary op lhs rhs left right =>
      obtain ⟨combine, l, r, known, lowersLeft, lowersRight, rfl⟩ := lower_binary_iff.mp lowers
      obtain ⟨freeLeft, freeRight⟩ := free.binary
      intro i among
      rcases mem_code_binary known among with among | among | computes
      · exact left freeLeft lowersLeft i among
      · exact right freeRight lowersRight i among
      · exact computes
  | call callee args each => exact free.not_call.elim

/-- Code of an expression computes in its own two registers and hands arguments over. -/
theorem computes_or_hands_of_lower (e : Expr) {out : Valued} (lowers : e.lower scope = .ok out) :
    ∀ i ∈ out.code, i.Computes ∨ i.Hands := by
  induction e generalizing out with
  | var name =>
      obtain ⟨operand, -, rfl⟩ := lower_var_iff.mp lowers
      simp
  | const value =>
      rw [lower_const] at lowers
      cases lowers
      simp
  | binary op lhs rhs left right =>
      obtain ⟨combine, l, r, known, lowersLeft, lowersRight, rfl⟩ := lower_binary_iff.mp lowers
      intro i among
      rcases mem_code_binary known among with among | among | computes
      · exact left lowersLeft i among
      · exact right lowersRight i among
      · exact .inl computes
  | call callee args each =>
      obtain ⟨-, passed, passes, rfl⟩ := lower_call_iff.mp lowers
      have passing := mem_code_lowerArgs (P := fun i => i.Computes ∨ i.Hands)
        (fun arg among => each arg among) (fun r carries _ _ => .inr (.register carries))
        (fun value _ => .inr (.push value)) passes
      intro i among
      simp only [List.mem_append, List.mem_singleton] at among
      rcases among with (among | rfl) | among
      · exact passing i among
      · exact .inr (.call _)
      · exact .inr (hands_dropArgs _ i among)

end Expr

/-! ## Registers that are not written -/

namespace Machine

theorem regs_write_of_ne {m after : Machine} {w : Width} {value : BitVec 64} {dst : Operand}
    (done : m.write w value dst = some after) {r : Register} (other : dst.isRegister r = false) :
    after.regs r = m.regs r := by
  cases dst with
  | reg q v =>
      cases done
      have ne : r ≠ q := by
        rintro rfl
        simp [Operand.isRegister] at other
      exact m.regs_set_of_ne _ ne
  | mem base v offset =>
      cases done
      rfl
  | const text => cases done
  | label l => cases done

theorem regs_operate_of_ne {m after : Machine} {f : BitVec 64 → BitVec 64 → BitVec 64}
    {dst src : Operand} (done : m.operate f dst src = some after) {r : Register}
    (other : dst.isRegister r = false) : after.regs r = m.regs r := by
  unfold operate at done
  split at done
  · cases done
  · obtain ⟨old, -, done⟩ := Option.bind_eq_some_iff.mp done
    obtain ⟨value, -, done⟩ := Option.bind_eq_some_iff.mp done
    exact regs_write_of_ne done other

end Machine

/-- An instruction changes its destination, and a push or pop the stack pointer. -/
theorem Instruction.regs_effect?_of_not_writes {i : Instruction} {m after : Machine}
    (done : i.effect? m = some after) {r : Register} (other : i.writes r = false)
    (notSp : r ≠ .sp) : after.regs r = m.regs r := by
  obtain ⟨l, op, operands⟩ := i
  dsimp only [effect?] at done
  split at done
  · exact Machine.regs_operate_of_ne done (by simpa [writes, destination?] using other)
  · exact Machine.regs_operate_of_ne done (by simpa [writes, destination?] using other)
  · exact Machine.regs_operate_of_ne done (by simpa [writes, destination?] using other)
  · exact Machine.regs_operate_of_ne done (by simpa [writes, destination?] using other)
  · obtain ⟨word, -, rfl⟩ := Option.map_eq_some_iff.mp done
    exact m.regs_push_of_ne word notSp
  · rw [Machine.regs_write_of_ne done (by simpa [writes, destination?] using other)]
    exact m.regs_set_of_ne _ notSp
  · cases done

/-- A register that no instruction writes keeps its content through a run. -/
theorem regs_runLine_of_not_writes {code : Code} {m after : Machine}
    (runs : runLine code m = some after) {r : Register} (notSp : r ≠ .sp)
    (none : ∀ i ∈ code, i.writes r = false) : after.regs r = m.regs r := by
  induction code generalizing m with
  | nil =>
      cases runs
      rfl
  | cons i code ih =>
      obtain ⟨between, effect, rest⟩ := Option.bind_eq_some_iff.mp runs
      rw [ih rest fun j among => none j (List.mem_cons_of_mem _ among),
        Instruction.regs_effect?_of_not_writes effect (none i (List.mem_cons_self ..)) notSp]

end IntBackend
