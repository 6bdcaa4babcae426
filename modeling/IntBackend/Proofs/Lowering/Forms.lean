/-
# IntBackend.Proofs.Lowering.Forms — the forms of emitted instructions

Between prologue and epilogue there are few forms of instructions
(`Instruction.Form`), whatever the scope. `Opcode.accepts` says which operands an
opcode can be encoded with: memory is not combined with memory, only registers
are computed in, and operands agree on their width. Every instruction of a
lowered program is accepted, and so the width suffix that is printed for it is
that of each of its operands.
-/
import IntBackend.Machine.Assembly
import IntBackend.Proofs.Lowering.Segments

namespace IntBackend

set_option autoImplicit false

open Convention

/-! ## Forms -/

/-- An operand that can stand for a value: a constant, a variable or a register. -/
inductive Operand.IsValue : Operand → Prop
  | const (text : String) : IsValue (.const text)
  | cell (offset : Int) : IsValue (frameCell offset)
  | reg (r : Register) : IsValue (.reg r valueWidth)

/-- The instructions of a body, by what they write. -/
inductive Instruction.Form : Instruction → Prop
  | toRegister {op : Opcode} {src : Operand} (r : Register)
      (computes : op ∈ [Opcode.mov, .add, .imul]) (value : src.IsValue) :
      Form (.plain op [.reg r valueWidth, src])
  | toCell {src : Operand} (offset : Int) (value : src.IsValue) (direct : src.isMemory = false) :
      Form (.mov (frameCell offset) src)
  | release (n : Nat) : Form (.add stackPointer (.nat n))
  | push {operand : Operand} (value : operand.IsValue) : Form (.push (operand.withWidth .quad))
  | call (l : Label) : Form (.call l)
  | jmp (l : Label) : Form (.jmp l)

namespace Scope

variable {scope : Scope}

theorem Source.isValue (cells : scope.Cells) {operand : Operand} (source : scope.Source operand) :
    operand.IsValue := by
  cases source with
  | const value => exact .const _
  | place found =>
      obtain ⟨offset, rfl⟩ := cells found
      exact .cell offset

/-- The values of an expression's code: a source or one of its registers. -/
theorem isValue_of_source_or_reg (cells : scope.Cells) {operand : Operand} {r : Register}
    (value : scope.Source operand ∨ operand = .reg r valueWidth) : operand.IsValue := by
  rcases value with source | rfl
  · exact source.isValue cells
  · exact .reg r

theorem Emits.form (cells : scope.Cells) {i : Instruction} (emits : scope.Emits i) : i.Form := by
  cases emits with
  | load source => exact .toRegister .ax (by simp) (source.isValue cells)
  | park => exact .toRegister .r10 (by simp) (.reg .ax)
  | negate => exact .toRegister .ax (by simp) (.const "-1")
  | add left => exact .toRegister .ax (by simp) (isValue_of_source_or_reg cells left)
  | mul left => exact .toRegister .ax (by simp) (isValue_of_source_or_reg cells left)
  | pass carries value => exact .toRegister _ (by simp) (isValue_of_source_or_reg cells value)
  | push value => exact .push (isValue_of_source_or_reg cells value)
  | call known => exact .call _
  | drop count => exact .release _

/-- Every instruction of a body has one of the forms. -/
theorem EmitsBody.form (cells : scope.Cells) {i : Instruction} (emits : scope.EmitsBody i) :
    i.Form := by
  cases emits with
  | value emits => exact emits.form cells
  | store found value =>
      obtain ⟨offset, rfl⟩ := cells found
      rcases value with ⟨n, rfl⟩ | rfl
      · exact .toCell offset (.const _) rfl
      · exact .toCell offset (.reg .ax) rfl
  | arrive found carries =>
      obtain ⟨offset, rfl⟩ := cells found
      exact .toCell offset (.reg _) rfl
  | leave => exact .jmp _

end Scope

/-! ## Operands that an opcode accepts -/

namespace Operand

def isConst : Operand → Bool
  | .const _ => true
  | _ => false

def isLabel : Operand → Bool
  | .label _ => true
  | _ => false

def isAnyRegister : Operand → Bool
  | .reg .. => true
  | _ => false

/-- All operands that have a width have the same one. -/
def sameWidth (operands : List Operand) : Bool :=
  let widths := operands.filterMap width?
  widths.all fun v => widths.all fun w => v = w

theorem foldl_sup {w : Width} {widths : List Width} (same : ∀ v ∈ widths, v = w) :
    widths.foldl Width.sup w = w := by
  induction widths with
  | nil => rfl
  | cons v vs ih =>
      have here : v = w := same v (List.mem_cons_self ..)
      have still : w.sup v = w := by rw [here, Width.sup, if_pos le_rfl]
      rw [List.foldl_cons, still]
      exact ih fun u among => same u (List.mem_cons_of_mem _ among)

/-- Where all widths are the same, the size is that of any operand. -/
theorem size_eq_of_sameWidth {operands : List Operand} (same : sameWidth operands = true)
    {operand : Operand} (among : operand ∈ operands) {w : Width} (has : operand.width? = some w) :
    size operands = w := by
  simp only [sameWidth, List.all_eq_true, decide_eq_true_eq] at same
  have member : w ∈ operands.filterMap width? := List.mem_filterMap.mpr ⟨operand, among, has⟩
  rw [size]
  cases widths : operands.filterMap width? with
  | nil => simp [widths] at member
  | cons v vs =>
      rw [widths] at same member
      have first : v = w := same v (List.mem_cons_self ..) w member
      have others : ∀ u ∈ vs, u = w := fun u among =>
        same u (List.mem_cons_of_mem _ among) w member
      rw [first]
      exact foldl_sup others

end Operand

/-- Whether an opcode can be encoded with these operands. -/
def Opcode.accepts : Opcode → List Operand → Bool
  | .mov, [dst, src] =>
      (dst.isAnyRegister || dst.isMemory) && !src.isLabel && !(dst.isMemory && src.isMemory) &&
        Operand.sameWidth [dst, src]
  | .add, [dst, src] | .sub, [dst, src] | .imul, [dst, src] =>
      dst.isAnyRegister && !src.isLabel && Operand.sameWidth [dst, src]
  | .push, [operand] => operand.isConst || operand.width? = some .quad
  | .pop, [operand] => operand = basePointer
  | .jmp, [operand] | .call, [operand] | .global, [operand] => operand.isLabel
  | .ret, [] | .syscall, [] | .enter _, [] => true
  | _, _ => false

/-- Every form can be encoded. -/
theorem Instruction.Form.accepts {i : Instruction} (form : i.Form) :
    i.op.accepts i.operands = true := by
  cases form with
  | toRegister r computes value =>
      simp only [List.mem_cons, List.not_mem_nil, or_false] at computes
      rcases computes with rfl | rfl | rfl <;> cases value <;> rfl
  | toCell offset value direct => cases value <;> first | rfl | cases direct
  | release n => rfl
  | push value => cases value <;> rfl
  | call l => rfl
  | jmp l => rfl

/-- Only opcodes whose mnemonic takes a suffix accept an operand with a width, and
these accept operands of one width only. -/
theorem Opcode.sized_of_accepts {op : Opcode} {operands : List Operand}
    (accepts : op.accepts operands = true) {operand : Operand} (among : operand ∈ operands)
    {w : Width} (has : operand.width? = some w) :
    op.isSized = true ∧ Operand.size operands = w := by
  have agree : ∀ {rest : Bool}, (rest && Operand.sameWidth operands) = true →
      Operand.size operands = w := by
    intro rest both
    exact Operand.size_eq_of_sameWidth (Bool.and_eq_true .. ▸ both).2 among has
  have single : ∀ {only : Operand}, operand ∈ [only] → Operand.size [only] = w := by
    intro only among
    rw [← List.mem_singleton.mp among, Operand.size, List.filterMap_cons_some has]
    rfl
  have unlabelled : ∀ {only : Operand}, operand ∈ [only] → only.isLabel = false := by
    intro only among
    rw [← List.mem_singleton.mp among]
    cases operand with
    | label l => cases has
    | _ => rfl
  unfold Opcode.accepts at accepts
  split at accepts
  · exact ⟨rfl, agree accepts⟩
  · exact ⟨rfl, agree accepts⟩
  · exact ⟨rfl, agree accepts⟩
  · exact ⟨rfl, agree accepts⟩
  · exact ⟨rfl, single among⟩
  · exact ⟨rfl, single among⟩
  · simp [unlabelled among] at accepts
  · simp [unlabelled among] at accepts
  · simp [unlabelled among] at accepts
  · cases among
  · cases among
  · cases among
  · cases accepts

/-! ## Programs -/

/-- Bodies, the frame's code and the start routine together: each instruction can be encoded. -/
theorem Program.accepts_of_lower {p : Program} {target : Target} {code : Code}
    (lowers : p.lower target = .ok code) : ∀ i ∈ code, i.op.accepts i.operands = true := by
  intro i among
  rcases Program.mem_of_lower lowers among with
    ⟨s, rfl⟩ | among | ⟨f, -, body, final, lowersBody, among | among | among⟩
  · rfl
  · simp only [Program.startRoutine, List.mem_cons, List.not_mem_nil, or_false] at among
    rcases among with rfl | rfl | rfl | rfl | rfl <;> rfl
  · simp only [Func.prologue, List.mem_cons, List.not_mem_nil, or_false] at among
    rcases among with rfl | rfl | rfl | rfl <;> rfl
  · have cells := (Func.laid_of_lowerBody lowersBody).cells
    exact ((Func.emitsBody_of_lowerBody lowersBody i among).form cells).accepts
  · simp only [Func.epilogue, List.mem_cons, List.not_mem_nil, or_false] at among
    rcases among with rfl | rfl | rfl <;> rfl

/-- Every instruction of a lowered program can be encoded, and the suffix that is
printed for it is that of each operand with a width. -/
theorem Program.encodable_of_lower (p : Program) (target : Target) (code : Code)
    (lowers : p.lower target = .ok code) :
    ∀ i ∈ code, i.op.accepts i.operands = true ∧
      ∀ operand ∈ i.operands, ∀ w, operand.width? = some w →
        Operand.size i.operands = w ∧
          Instruction.sizedMnemonic i.op i.operands =
            i.op.mnemonic ++ String.singleton w.suffix := by
  intro i among
  have accepts := Program.accepts_of_lower lowers i among
  refine ⟨accepts, ?_⟩
  intro operand inside w has
  obtain ⟨sized, size⟩ := Opcode.sized_of_accepts accepts inside has
  refine ⟨size, ?_⟩
  rw [Instruction.sizedMnemonic, if_pos sized, size]

/-- Variables, constants and results meet on both sides of operations, in registers
and on the stack, and one variable is assigned to another. -/
def mixedOperands : Program :=
  let params := ["a", "b", "c", "d", "e", "g", "h", "i", "j"].map fun name => Binding.mk name .int
  let sum := Expr.binary .add (.var "a") (.const 2)
  let args := [.var "a", .const 1, sum, .var "h", .var "b", .const 3, .var "j", .const 4, sum]
  ⟨[⟨"f", params, some .int,
      [.declare ⟨"x", .int⟩, .assign "x" (.var "j"), .assign "x" (.const 7),
        .assign "a" (.binary .sub sum (.var "x")),
        .ret (some (.binary .mul (.var "x") (.call "f" args)))]⟩,
    ⟨"main", [], none, [.ret none]⟩]⟩

theorem Program.encodable_of_lower_mixedOperands :
    ∃ code, mixedOperands.lower .macos = .ok code ∧
      ∀ i ∈ code, i.op.accepts i.operands = true ∧
        ∀ operand ∈ i.operands, ∀ w, operand.width? = some w →
          Operand.size i.operands = w ∧
            Instruction.sizedMnemonic i.op i.operands =
              i.op.mnemonic ++ String.singleton w.suffix := by
  have lowersOk : (mixedOperands.lower .macos).isOk = true := by decide +kernel
  obtain ⟨code, lowers⟩ := exists_ok_of_isOk lowersOk
  exact ⟨code, lowers, Program.encodable_of_lower mixedOperands .macos code lowers⟩

end IntBackend
