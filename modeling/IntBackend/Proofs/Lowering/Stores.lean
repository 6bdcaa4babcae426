/-
# IntBackend.Proofs.Lowering.Stores — what writes to the variables of a function

`Accesses` says which memory code touches; this module says which of it is written.
Memory is the destination of two kinds of instructions: the moves that store the
arguments in registers to their slots (`Func.arrivals`), and the last move of each
assignment. Values are computed in registers, so no expression writes a variable,
however deep its operations and calls are nested. The frame pointer is written where
a function is entered and where it is left, and nowhere in between.
-/
import IntBackend.Proofs.Lowering.Accesses
import IntBackend.Proofs.Lowering.Bodies
import IntBackend.Proofs.Lowering.Destinations

namespace IntBackend

set_option autoImplicit false

open Convention

/-! ## Memory as a destination -/

namespace Instruction

/-- The memory that an instruction writes. -/
def stored? (i : Instruction) : Option Operand := i.destination?.filter Operand.isMemory

variable {i : Instruction}

theorem Computes.stored?_eq_none (computes : i.Computes) : i.stored? = none := by
  rcases computes.destination with written | written
  · rw [stored?, written]
    rfl
  · rw [stored?, written]
    rfl

theorem Hands.stored?_eq_none (hands : i.Hands) : i.stored? = none := by
  cases hands with
  | register carries => rfl
  | push value => rfl
  | call l => rfl
  | drop count => rfl

end Instruction

/-- The memory that code writes, in order. -/
def stored (code : Code) : List Operand := code.filterMap Instruction.stored?

@[simp] theorem stored_append (a b : Code) : stored (a ++ b) = stored a ++ stored b :=
  List.filterMap_append

theorem stored_eq_nil {code : Code} (none : ∀ i ∈ code, i.stored? = none) : stored code = [] :=
  List.filterMap_eq_nil_iff.mpr none

theorem stored_intoAccumulator (operand : Operand) : stored (intoAccumulator operand) = [] :=
  stored_eq_nil fun i among => (computes_intoAccumulator operand i among).stored?_eq_none

/-- The value is moved to its place directly or through the accumulator. -/
theorem stored_store (offset : Int) (src : Operand) :
    stored (store (frameCell offset) src) = [frameCell offset] := by
  unfold store
  split
  · rw [stored_append, stored_intoAccumulator]
    rfl
  · rfl

/-- Expressions have no effect on variables. -/
theorem Expr.stored_of_lower (e : Expr) {scope : Scope} {out : Valued}
    (lowers : e.lower scope = .ok out) : stored out.code = [] := by
  refine stored_eq_nil fun i among => ?_
  rcases e.computes_or_hands_of_lower lowers i among with computes | hands
  · exact computes.stored?_eq_none
  · exact hands.stored?_eq_none

/-! ## Statements -/

namespace Stmt

/-- The variable that a statement itself assigns. -/
def assigned? : Stmt → Option String
  | .assign target _ => some target
  | _ => none

/-- The variables that a body assigns at any depth, in order. -/
def assignedAll (body : List Stmt) : List String := (leavesAll body).filterMap assigned?

variable {s : Stmt} {scope after : Scope} {code : Code}

theorem stored_of_not_assigned (alone : s.isBlock = false) (other : s.assigned? = none)
    (lowers : s.lower scope = .ok (code, after)) : stored code = [] := by
  cases s with
  | declare binding =>
      obtain ⟨-, rfl⟩ := lower_declare_iff.mp lowers
      rfl
  | assign target value => cases other
  | eval value =>
      obtain ⟨src, lowersValue, rfl, -⟩ := lower_eval_iff.mp lowers
      exact value.stored_of_lower lowersValue
  | ret value =>
      cases value with
      | none =>
          obtain ⟨rfl, -⟩ := lower_ret_none_iff.mp lowers
          rfl
      | some value =>
          obtain ⟨src, lowersValue, rfl, -⟩ := lower_ret_some_iff.mp lowers
          rw [stored_append, stored_append, value.stored_of_lower lowersValue,
            stored_intoAccumulator]
          rfl
  | block body => cases alone

/-- A statement that is no block stores to the variable that it assigns, if there is one. -/
theorem names_of_stored (alone : s.isBlock = false) (lowers : s.lower scope = .ok (code, after))
    (cells : after.Cells) : after.Names (stored code) s.assigned?.toList := by
  cases other : s.assigned? with
  | none =>
      rw [stored_of_not_assigned alone other lowers]
      exact .nil
  | some name =>
      cases s with
      | assign target value =>
          cases other
          obtain ⟨dst, src, found, lowersValue, rfl, rfl⟩ := lower_assign_iff.mp lowers
          obtain ⟨offset, rfl⟩ := cells found
          rw [stored_append, value.stored_of_lower lowersValue, stored_store]
          exact Scope.Names.singleton cells found
      | _ => cases other

/-- A body stores to the targets of its assignments, in order. -/
theorem names_of_assignedAll {body : List Stmt} (lowers : lowerAll scope body = .ok (code, after))
    (cells : after.Cells) : after.Names (stored code) (assignedAll body) := by
  refine lowerAll_induction_cells
    (motive := fun leaves code after => after.Names (stored code) (leaves.filterMap assigned?))
    (fun _ => .nil) ?_ lowers cells
  intro scope between after s ss head tail alone lowersHead cells extension late
  rw [List.filterMap_eq_flatMap_toList, List.flatMap_cons, ← List.filterMap_eq_flatMap_toList,
    stored_append]
  exact ((names_of_stored alone lowersHead cells).mono extension).append late

end Stmt

/-! ## Functions -/

theorem stored_arriving (registers : List Register) (first : Nat) :
    stored (arriving registers first) = places (arriving registers first) := by
  induction registers generalizing first with
  | nil => rfl
  | cons r rs ih =>
      rw [arriving_cons, places_cons, ← ih]
      rfl

/-- Values are computed in other registers, and variables lie in memory. -/
theorem Scope.EmitsBody.keeps_bp {scope : Scope} (cells : scope.Cells) {i : Instruction}
    (emits : scope.EmitsBody i) : i.writes .bp = false := by
  cases emits with
  | value emits =>
      cases emits with
      | pass carries value =>
          obtain ⟨-, -, -, notBp⟩ := ne_of_mem_argRegisters carries
          simpa [Instruction.writes, Instruction.destination?, Instruction.mov, Instruction.plain,
            Operand.isRegister] using notBp
      | _ => rfl
  | store found value =>
      obtain ⟨offset, rfl⟩ := cells found
      rfl
  | arrive found carries =>
      obtain ⟨offset, rfl⟩ := cells found
      rfl
  | leave => rfl

namespace Func

variable {f : Func} {callees : List String} {body : Code} {final : Scope}

/-- The frame pointer is set in the prologue and restored in the epilogue, and never in between. -/
theorem writes_bp_of_lowerBody (lowers : f.lowerBody callees = .ok (body, final)) :
    (f.prologue ++ body ++ f.epilogue).filter (·.writes .bp) =
      [.mov basePointer stackPointer, .pop basePointer] := by
  have cells := (laid_of_lowerBody lowers).cells
  rw [filter_of_lowerBody lowers _ fun i emits => emits.keeps_bp cells]
  rfl

/-- The code of a function is the stores of its parameters, and then that of its statements. -/
theorem split_lowerBody (lowers : f.lowerBody callees = .ok (body, final)) :
    ∃ statements, body = f.arrivals ++ statements ∧
      final.Names (stored f.arrivals) ((f.params.take 6).map Binding.name) ∧
      final.Names (stored statements) (Stmt.assignedAll f.body) := by
  have cells := (laid_of_lowerBody lowers).cells
  obtain ⟨between, statements, binds, lowersBody, rfl⟩ := begins_with_arrivals lowers
  have extension := (Stmt.grown_of_body 0 lowersBody).extension
  refine ⟨statements, rfl, ?_, Stmt.names_of_assignedAll lowersBody cells⟩
  rw [arrivals, stored_arriving]
  exact (names_of_lowerParams binds).mono extension

end Func

/-- The memory that the code of a function writes is, in order, the slots of the parameters
that arrive in registers, each written from its register, and the places of the variables that
the body assigns. Expressions, and statements other than assignments, write no memory. The
frame pointer is written on entry and on exit only. -/
theorem Func.stores_are_assignments (f : Func) (callees : List String) (code : Code)
    (lowers : f.lower callees = .ok code) :
    ∃ statements final,
      f.lowerBody callees = .ok (f.arrivals ++ statements, final) ∧ f.LaidOut final ∧
      code = f.prologue ++ (f.arrivals ++ statements) ++ f.epilogue ∧
      (stored f.arrivals).map some =
        (f.params.take 6).map (fun param => final.find? param.name) ∧
      (stored statements).map some = (Stmt.assignedAll f.body).map final.find? ∧
      stored code = stored f.arrivals ++ stored statements ∧
      (∀ e ∈ f.nodes, ∀ scope out, e.lower scope = .ok out → stored out.code = []) ∧
      (∀ s ∈ Stmt.leavesAll f.body, s.assigned? = none → ∀ scope emitted after,
        s.lower scope = .ok (emitted, after) → stored emitted = []) ∧
      code.filter (·.writes .bp) = [.mov basePointer stackPointer, .pop basePointer] := by
  obtain ⟨body, final, lowersBody, rfl⟩ := Func.lower_iff.mp lowers
  have framePointer := Func.writes_bp_of_lowerBody lowersBody
  have laidOut := Func.laidOut_of_lowerBody lowersBody
  obtain ⟨statements, rfl, parameters, assignments⟩ := Func.split_lowerBody lowersBody
  have entry : stored f.prologue = [] := rfl
  have exit : stored f.epilogue = [] := rfl
  refine ⟨statements, final, lowersBody, laidOut, rfl, ?_, assignments, ?_, ?_, ?_, framePointer⟩
  · rw [parameters, List.map_map]
    rfl
  · rw [stored_append, stored_append, stored_append, entry, exit, List.nil_append, List.append_nil]
  · exact fun e _ _ _ lowersValue => e.stored_of_lower lowersValue
  · exact fun s among other _ _ _ lowersLeaf =>
      Stmt.stored_of_not_assigned (Stmt.isBlock_of_mem_leavesAll s among) other lowersLeaf

/-- Assigns a parameter on the stack, a variable and a parameter from a register, from values
that are computed, copied and passed on. -/
def assignsEach : Func :=
  ⟨"f", ["a", "b", "c", "d", "e", "g", "h"].map fun name => ⟨name, .int⟩, none,
    [.block [.declare ⟨"x", .int⟩,
        .assign "h" (.binary .sub (.call "f" [.var "a", .const 2]) (.var "h")),
        .block [.assign "x" (.var "h"), .eval (.binary .mul (.var "x") (.var "b"))]],
      .assign "a" (.const 0), .ret (some (.var "x"))]⟩

theorem Func.stores_are_assignments_assignsEach :
    ∃ code, assignsEach.lower ["f"] = .ok code ∧
      stored code = [-4, -8, -12, -16, -20, -24, 16, -28, -4].map frameCell ∧
      code.filter (·.writes .bp) = [.mov basePointer stackPointer, .pop basePointer] := by
  have lowersOk : (assignsEach.lower ["f"]).isOk = true := by decide +kernel
  obtain ⟨code, lowers⟩ := exists_ok_of_isOk lowersOk
  obtain ⟨statements, final, -, laidOut, -, -, assignments, whole, -, -, framePointer⟩ :=
    Func.stores_are_assignments assignsEach ["f"] code lowers
  have targets : Stmt.assignedAll assignsEach.body = ["h", "x", "a"] := by decide +kernel
  have onStack : final.find? "h" = some (frameCell 16) :=
    laidOut.arguments 6 ⟨"h", .int⟩ (by decide) (by decide +kernel)
  have declared : final.find? "x" = some (frameCell (-28)) :=
    laidOut.slots 6 "x" (by decide +kernel)
  have inSlot : final.find? "a" = some (frameCell (-4)) :=
    laidOut.slots 0 "a" (by decide +kernel)
  have written : stored statements = [16, -28, -4].map frameCell := by
    rw [targets, List.map_cons, List.map_cons, List.map_cons, List.map_nil, onStack, declared,
      inSlot] at assignments
    exact List.map_injective_iff.mpr (Option.some_injective _) assignments
  refine ⟨code, lowers, ?_, framePointer⟩
  rw [whole, written]
  rfl

end IntBackend
