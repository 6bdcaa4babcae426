/-
# IntBackend.Proofs.Lowering.Parking — how often a left value is parked

The left value of an operation is moved to the scratch register if it had to be computed,
and the operation reads it there. Nothing else in the code of an expression names that
register. So what happens once for each parked value (`MarksParking`) happens as often as
an expression holds operations with an operation or a call on their left
(`Expr.countP_parking`). The operators do not matter, nor does how deep these
operations are nested.
-/
import IntBackend.Proofs.Lowering.Destinations

namespace IntBackend

set_option autoImplicit false

open Convention

/-- An operation whose left value is computed, and is therefore parked. -/
def Expr.parks : Expr → Bool
  | .binary _ lhs _ => lhs.computes
  | _ => false

/-! ## Instructions without the scratch register -/

theorem Operand.isRegister_withWidth (operand : Operand) (w : Width) (r : Register) :
    (operand.withWidth w).isRegister r = operand.isRegister r := by
  cases operand <;> rfl

/-- No operand is the scratch register. -/
def Instruction.SparesScratch (i : Instruction) : Prop :=
  ∀ operand ∈ i.operands, operand.isRegister .r10 = false

theorem sparesScratch_pair (op : Opcode) {dst src : Operand} (first : dst.isRegister .r10 = false)
    (second : src.isRegister .r10 = false) : (Instruction.plain op [dst, src]).SparesScratch := by
  intro operand among
  rcases List.mem_pair.mp among with rfl | rfl
  · exact first
  · exact second

theorem sparesScratch_pass {r : Register} (carries : r ∈ argRegisters) {value : Operand}
    (spares : value.isRegister .r10 = false) :
    (Instruction.mov (.reg r valueWidth) value).SparesScratch := by
  obtain ⟨-, other, -⟩ := ne_of_mem_argRegisters carries
  exact sparesScratch_pair .mov (by simpa [Operand.isRegister] using other) spares

theorem sparesScratch_push {value : Operand} (spares : value.isRegister .r10 = false) :
    (Instruction.push (value.withWidth .quad)).SparesScratch := by
  intro operand among
  rw [List.mem_singleton.mp among, Operand.isRegister_withWidth]
  exact spares

theorem sparesScratch_call (l : Label) : (Instruction.call l).SparesScratch := by
  intro operand among
  rw [List.mem_singleton.mp among]
  rfl

theorem sparesScratch_intoAccumulator {value : Operand} (spares : value.isRegister .r10 = false) :
    ∀ i ∈ intoAccumulator value, i.SparesScratch := by
  unfold intoAccumulator
  split
  · simp
  · exact List.forall_mem_singleton.mpr (sparesScratch_pair .mov rfl spares)

/-- An operation brings no scratch register of its own: only a parked left value would be one. -/
theorem sparesScratch_operation {op : BinOp} {combine : Operand → Code}
    (known : operation op = .ok combine) {left : Operand} (spares : left.isRegister .r10 = false) :
    ∀ i ∈ combine left, i.SparesScratch := by
  cases op with
  | add =>
      cases known
      exact List.forall_mem_singleton.mpr (sparesScratch_pair .add rfl spares)
  | mul =>
      cases known
      exact List.forall_mem_singleton.mpr (sparesScratch_pair .imul rfl spares)
  | sub =>
      cases known
      exact List.forall_mem_cons.mpr ⟨sparesScratch_pair .imul rfl rfl,
        List.forall_mem_singleton.mpr (sparesScratch_pair .add rfl spares)⟩
  | div => cases known
  | rem => cases known

theorem sparesScratch_dropArgs (count : Nat) : ∀ i ∈ dropArgs count, i.SparesScratch := by
  unfold dropArgs
  split
  · simp
  · exact List.forall_mem_singleton.mpr (sparesScratch_pair .add rfl rfl)

/-- No value is left in the scratch register. -/
theorem isRegister_scratch_of_value {scope : Scope} (frame : scope.InFrame) {value : Operand}
    (place : scope.Source value ∨ value = accumulator) : value.isRegister .r10 = false := by
  rcases place with source | rfl
  · exact source.not_register frame .r10
  · rfl

theorem Expr.value_spares {e : Expr} {scope : Scope} (frame : scope.InFrame) {out : Valued}
    (lowers : e.lower scope = .ok out) : out.value.isRegister .r10 = false :=
  isRegister_scratch_of_value frame (Expr.value_of_lower lowers)

/-! ## Counting -/

/-- Marks one instruction for each value that is parked, and no instruction without the
scratch register. -/
structure MarksParking (marked : Instruction → Bool) : Prop where
  spares : ∀ {i : Instruction}, i.SparesScratch → marked i = false
  once : ∀ {op : BinOp} {combine : Operand → Code}, operation op = .ok combine →
    (Instruction.mov scratch accumulator :: combine scratch).countP marked = 1

/-- It is enough to look at a sum and at a product: the negation in a difference has nothing to do
with the scratch register. -/
theorem marksParking_of_pairs {marked : Instruction → Bool}
    (spares : ∀ {i : Instruction}, i.SparesScratch → marked i = false)
    (sum : [Instruction.mov scratch accumulator, .add accumulator scratch].countP marked = 1)
    (product : [Instruction.mov scratch accumulator, .imul accumulator scratch].countP marked = 1) :
    MarksParking marked := by
  refine ⟨spares, ?_⟩
  intro op combine known
  cases op with
  | add => cases known; exact sum
  | mul => cases known; exact product
  | sub =>
      cases known
      have negates : marked (.imul accumulator (.const "-1")) = false :=
        spares (sparesScratch_pair .imul rfl rfl)
      rw [List.countP_cons, List.countP_cons_of_neg (by simp [negates]), ← List.countP_cons]
      exact sum
  | div => cases known
  | rem => cases known

/-- The move that parks a value is all that writes the scratch register. -/
theorem marksParking_writes : MarksParking (·.writes .r10) := by
  refine marksParking_of_pairs ?_ rfl rfl
  intro i spares
  rw [Instruction.writes]
  cases written : i.destination? with
  | none => rfl
  | some operand => exact spares operand (Instruction.mem_operands_of_destination written)

namespace Expr

variable {marked : Instruction → Bool} (marks : MarksParking marked)
include marks

/-- Code that spares the scratch register holds no marked instruction. -/
theorem countP_spares {code : Code} (spares : ∀ i ∈ code, i.SparesScratch) :
    code.countP marked = 0 := by
  rw [List.countP_eq_zero]
  intro i among
  simp [marks.spares (spares i among)]

/-- Code of an expression holds as many marked instructions as operations whose left value is
parked. -/
theorem countP_parking (e : Expr) {scope : Scope} (frame : scope.InFrame) {out : Valued}
    (lowers : e.lower scope = .ok out) : out.code.countP marked = e.nodes.countP parks := by
  induction e generalizing out with
  | var name =>
      obtain ⟨operand, -, rfl⟩ := lower_var_iff.mp lowers
      rfl
  | const value =>
      rw [lower_const] at lowers
      cases lowers
      rfl
  | binary op lhs rhs countLeft countRight =>
      obtain ⟨combine, left, right, known, lowersLeft, lowersRight, rfl⟩ :=
        lower_binary_iff.mp lowers
      have early := countLeft lowersLeft
      have late := countRight lowersRight
      have loads := countP_spares marks
        (sparesScratch_intoAccumulator (value_spares frame lowersRight))
      rw [nodes, List.countP_cons, List.countP_append, List.countP_append, List.countP_append,
        List.countP_append, late, loads]
      by_cases computes : lhs.computes
      · have once := marks.once known
        rw [← List.singleton_append, List.countP_append] at once
        rw [park_accumulator (value_of_computes computes lowersLeft), List.countP_append, early,
          parks, if_pos computes]
        dsimp only
        omega
      · obtain ⟨noCode, source⟩ := source_of_not_computes computes lowersLeft
        have combines := countP_spares marks
          (sparesScratch_operation known (value_spares frame lowersLeft))
        rw [park_source frame source, combines, early, parks, if_neg computes]
  | call name args each =>
      obtain ⟨-, passed, passes, rfl⟩ := lower_call_iff.mp lowers
      have passing := countP_code_lowerArgs (fun arg among => each arg among)
        (fun r carries value place => marks.spares
          (sparesScratch_pass carries (isRegister_scratch_of_value frame place)))
        (fun value place => marks.spares
          (sparesScratch_push (isRegister_scratch_of_value frame place))) passes
      have calls := countP_spares marks
        (List.forall_mem_singleton.mpr (sparesScratch_call (.function name)))
      have drops := countP_spares marks
        (sparesScratch_dropArgs (args.length - argRegisters.length))
      rw [nodes, List.countP_cons_of_neg Bool.false_ne_true, List.countP_append,
        List.countP_append, passing, calls, drops, Nat.add_zero]

end Expr

end IntBackend
