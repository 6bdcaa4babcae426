/-
# IntBackend.Proofs.Lowering.ScratchUse — what an expression does to the two registers

An operation and a call leave their value in the accumulator; a constant and a variable append
nothing, and their operand is the value. The scratch register occurs in two roles only: a left
value is moved there, and the accumulator is combined with it. Each happens once for every
operation whose left operand is an operation or a call (`Expr.emit_uses_scratch`), whatever was
emitted before and wherever in the frame the variables are.
-/
import IntBackend.Proofs.Lowering.Emission
import IntBackend.Proofs.Lowering.Parking

namespace IntBackend

set_option autoImplicit false

open Convention

/-! ## Occurrences -/

/-- The register is the operand, at some width, or the base of its address. -/
def Operand.mentions (r : Register) : Operand → Bool
  | .reg q _ => q == r
  | .mem base _ _ => base == r
  | _ => false

def Instruction.mentions (i : Instruction) (r : Register) : Bool := i.operands.any (·.mentions r)

/-- Combines the accumulator with the value that was parked. -/
def Instruction.usesParked (i : Instruction) : Bool :=
  i == .add accumulator scratch || i == .imul accumulator scratch

theorem Operand.mentions_withWidth (operand : Operand) (w : Width) (r : Register) :
    (operand.withWidth w).mentions r = operand.mentions r := by
  cases operand <;> rfl

theorem Instruction.mentions_pair (op : Opcode) (dst src : Operand) (r : Register) :
    (Instruction.plain op [dst, src]).mentions r = (dst.mentions r || src.mentions r) := by
  simp [mentions, plain]

namespace Scope

variable {scope : Scope} (frame : scope.InFrame)
include frame

/-- A variable lies at an offset from the frame pointer, so no source involves the scratch register.
-/
theorem Source.not_mentions {operand : Operand} (source : scope.Source operand) :
    operand.mentions .r10 = false := by
  cases source with
  | const value => rfl
  | place found =>
      obtain ⟨w, offset, rfl⟩ := frame found
      rfl

theorem not_mentions_of_value {operand : Operand}
    (value : scope.Source operand ∨ operand = accumulator) : operand.mentions .r10 = false := by
  rcases value with source | rfl
  · exact source.not_mentions frame
  · rfl

/-- Three of the instructions of expressions name the scratch register. -/
theorem Emits.mentions_scratch {i : Instruction} (emits : scope.Emits i)
    (mentions : i.mentions .r10 = true) :
    i = .mov scratch accumulator ∨ i = .add accumulator scratch ∨
      i = .imul accumulator scratch := by
  cases emits with
  | load source =>
      rw [Instruction.mov, Instruction.mentions_pair, source.not_mentions frame] at mentions
      cases mentions
  | park => exact .inl rfl
  | negate => cases mentions
  | add left =>
      rcases left with source | rfl
      · rw [Instruction.add, Instruction.mentions_pair, source.not_mentions frame] at mentions
        cases mentions
      · exact .inr (.inl rfl)
  | mul left =>
      rcases left with source | rfl
      · rw [Instruction.imul, Instruction.mentions_pair, source.not_mentions frame] at mentions
        cases mentions
      · exact .inr (.inr rfl)
  | pass carries value =>
      obtain ⟨-, other, -⟩ := ne_of_mem_argRegisters carries
      rw [Instruction.mov, Instruction.mentions_pair, not_mentions_of_value frame value] at mentions
      simp [Operand.mentions, other] at mentions
  | push value =>
      simp [Instruction.push, Instruction.plain, Instruction.mentions, Operand.mentions_withWidth,
        not_mentions_of_value frame value] at mentions
  | call known => cases mentions
  | drop count => cases mentions

end Scope

/-! ## Counting -/

theorem Instruction.SparesScratch.ne {i j : Instruction} (spares : i.SparesScratch)
    (uses : scratch ∈ j.operands) : i ≠ j := by
  rintro rfl
  cases spares scratch uses

/-- Moves into the scratch register mark the values that are parked. -/
theorem marksParking_parks : MarksParking (· == .mov scratch accumulator) := by
  refine marksParking_of_pairs ?_ rfl rfl
  intro i spares
  exact beq_false_of_ne (spares.ne (by decide))

/-- So do the operations that take the parked value back. -/
theorem marksParking_usesParked : MarksParking Instruction.usesParked := by
  refine marksParking_of_pairs ?_ rfl rfl
  intro i spares
  rw [Instruction.usesParked, beq_false_of_ne (spares.ne (by decide)),
    beq_false_of_ne (spares.ne (by decide)), Bool.or_false]

namespace Expr

/-- The operand of a value: the accumulator if the value is computed, otherwise what it is read
from. -/
theorem value_eq_accumulator_iff {e : Expr} {scope : Scope} (frame : scope.InFrame) {out : Valued}
    (lowers : e.lower scope = .ok out) : out.value = accumulator ↔ e.computes = true := by
  constructor
  · intro computed
    by_contra other
    have source := (source_of_not_computes other lowers).2
    have register := source.not_register frame .ax
    rw [computed] at register
    cases register
  · exact fun computes => value_of_computes computes lowers

/-- Emission of an expression, from any code emitted so far and with all variables in the frame.
Instructions are appended, and the scope stays as it is. The value is in the accumulator exactly if
the expression is an operation or a call; a constant and a variable stand for themselves, without
code. The scratch register is named where a left value is parked and where it is used, each as often
as there are operations with an operation or a call on their left. -/
theorem emit_uses_scratch (e : Expr) {scope : Scope} (frame : scope.InFrame) {emitted : Code}
    {value : Operand} {after : Emission}
    (emits : e.emit.run ⟨emitted, scope⟩ = .ok (value, after)) :
    ∃ appended, e.lower scope = .ok ⟨appended, value⟩ ∧ after = ⟨emitted ++ appended, scope⟩ ∧
      (value = accumulator ↔ e.isBinary ∨ e.isCall) ∧
      (∀ n, e = .const n → value = .const (constText n) ∧ appended = []) ∧
      (∀ name, e = .var name → scope.find? name = some value ∧ appended = []) ∧
      (∀ i ∈ appended, i.mentions .r10 → i = .mov scratch accumulator ∨
        i = .add accumulator scratch ∨ i = .imul accumulator scratch) ∧
      appended.count (.mov scratch accumulator) = e.nodes.countP parks ∧
      appended.countP Instruction.usesParked = e.nodes.countP parks := by
  have process := e.follows ⟨emitted, scope⟩
  rw [emits] at process
  cases lowers : e.lower scope with
  | error fault =>
      rw [lowers] at process
      cases process
  | ok out =>
      rw [lowers] at process
      cases process
      refine ⟨out.code, rfl, rfl, ?_, ?_, ?_, ?_, ?_, ?_⟩
      · rw [value_eq_accumulator_iff frame lowers, computes, Bool.or_eq_true]
      · rintro n rfl
        rw [lower_const] at lowers
        cases lowers
        exact ⟨rfl, rfl⟩
      · rintro name rfl
        obtain ⟨operand, found, rfl⟩ := lower_var_iff.mp lowers
        exact ⟨found, rfl⟩
      · intro i among mentions
        exact (e.emits_of_inFrame frame lowers i among).mentions_scratch frame mentions
      · exact e.countP_parking marksParking_parks frame lowers
      · exact e.countP_parking marksParking_usesParked frame lowers

/-- A call whose first and seventh arguments park a value, on the left of a difference. -/
def parkedAround : Expr :=
  let first := binary .mul (.binary .add (.var "x") (.const 1)) (.var "y")
  let seventh := binary .sub (.binary .mul (.var "y") (.const 2)) (.var "x")
  .binary .sub (.call "f" [first, .const 2, .const 3, .var "x", .const 5, .const 6, seventh])
    (.var "x")

/-- A variable in the frame and one above it. -/
def aroundFrame : Scope :=
  ⟨"f", ["f"], [("y", .mem .bp .quad 16), ("x", .mem .bp .long (-4))], -4⟩

theorem emit_uses_scratch_parkedAround :
    ∃ appended, parkedAround.emit.run ⟨[.ret], aroundFrame⟩ =
        .ok (accumulator, ⟨.ret :: appended, aroundFrame⟩) ∧
      (∀ i ∈ appended, i.mentions .r10 → i = .mov scratch accumulator ∨
        i = .add accumulator scratch ∨ i = .imul accumulator scratch) ∧
      appended.count (.mov scratch accumulator) = 3 ∧
      appended.countP Instruction.usesParked = 3 := by
  have frame : aroundFrame.InFrame := by
    intro name operand found
    have among := Scope.mem_of_find? found
    simp only [aroundFrame, List.mem_cons, Prod.mk.injEq, List.not_mem_nil, or_false] at among
    rcases among with ⟨-, rfl⟩ | ⟨-, rfl⟩
    · exact ⟨_, _, rfl⟩
    · exact ⟨_, _, rfl⟩
  have emitsOk : (parkedAround.emit.run ⟨[.ret], aroundFrame⟩).isOk = true := by decide +kernel
  have three : parkedAround.nodes.countP parks = 3 := by decide +kernel
  obtain ⟨⟨value, after⟩, emits⟩ := exists_ok_of_isOk emitsOk
  obtain ⟨appended, -, rfl, computed, -, -, only, parked, used⟩ :=
    emit_uses_scratch parkedAround frame emits
  rw [three] at parked used
  rw [computed.mpr (.inl rfl)] at emits
  exact ⟨appended, emits, only, parked, used⟩

end Expr

end IntBackend
