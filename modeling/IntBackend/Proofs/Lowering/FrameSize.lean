/-
# IntBackend.Proofs.Lowering.FrameSize — the frame holds exactly the slots handed out

The size of a frame is counted before a function is lowered; its slots are handed
out while it is. Both count the same, so the final check never fails, the cursor
ends at the bottom of the frame, and the prologue takes what the epilogue gives
back.
-/
import IntBackend.Proofs.Lowering.Checker
import IntBackend.Proofs.Lowering.Instructions

namespace IntBackend

set_option autoImplicit false

open Convention

/-! ## Counting slots -/

/-- Four bytes for each parameter in a register and each declaration at any depth. -/
theorem Func.frameSize_eq (f : Func) :
    f.frameSize =
      4 * (min f.params.length 6 + (Stmt.leavesAll f.body).countP Stmt.isDeclare) := by
  rw [← Stmt.declarationsAll_eq_countP]
  rfl

/-! ## The literals of prologue and epilogue -/

/-- A body adds nothing to what is kept of prologue and epilogue. -/
theorem filter_of_lowerBody {f : Func} {callees : List String} {body : Code} {after : Scope}
    (lowers : f.lowerBody callees = .ok (body, after)) (keep : Instruction → Bool)
    (drops : ∀ i, after.EmitsBody i → keep i = false) :
    (f.prologue ++ body ++ f.epilogue).filter keep =
      f.prologue.filter keep ++ f.epilogue.filter keep := by
  have nothing : body.filter keep = [] := by
    rw [List.filter_eq_nil_iff]
    intro i among
    simp [drops i (Func.emitsBody_of_lowerBody lowers i among)]
  rw [List.filter_append, List.filter_append, nothing, List.append_nil]

/-- A function subtracts once, in its prologue, and it is the frame that it takes. -/
theorem Func.subs_of_lower {f : Func} {callees : List String} {code : Code}
    (lowers : f.lower callees = .ok code) :
    code.filter (·.op = .sub) = [.sub stackPointer (.const (toString f.frameSize))] := by
  obtain ⟨body, after, lowersBody, rfl⟩ := Func.lower_iff.mp lowers
  rw [filter_of_lowerBody lowersBody]
  · rfl
  · intro i emits
    have := emits.op_mem
    rw [decide_eq_false_iff_not]
    intro isSub
    rw [isSub] at this
    simp at this

theorem Func.exits_of_lower {f : Func} {callees : List String} {code : Code}
    (lowers : f.lower callees = .ok code) :
    code.filter (·.label = some (.epilogue f.name)) =
      [(Instruction.add stackPointer (.const (toString f.frameSize))).labelled
        (.epilogue f.name)] := by
  obtain ⟨body, after, lowersBody, rfl⟩ := Func.lower_iff.mp lowers
  rw [filter_of_lowerBody lowersBody]
  · simp [Func.prologue, Func.epilogue, Instruction.labelled, Instruction.plain,
      Instruction.global, Instruction.push, Instruction.mov, Instruction.sub, Instruction.add,
      Instruction.pop, Instruction.ret, Operand.nat]
  · intro i emits
    simp [emits.unlabelled]

/-! ## No mismatch -/

theorem Check.firstFault_ne_frameMismatch (owner : String) (callees : List String)
    (checks : List Check) (bound : List String) (function : String) (size : Nat) (cursor : Int) :
    Check.firstFault owner callees bound checks ≠ some (.frameMismatch function size cursor) := by
  induction checks generalizing bound with
  | nil => nofun
  | cons check checks ih =>
      rw [Check.firstFault]
      split
      · rename_i fault found
        rintro ⟨rfl⟩
        cases check <;> simp [Check.fault?] at found
      · exact ih _

/-- No check of a program is about the frame, so the frame never is its fault. -/
theorem Program.fault?_ne_frameMismatch (p : Program) (function : String) (size : Nat)
    (cursor : Int) : p.fault? ≠ some (.frameMismatch function size cursor) := by
  rw [Program.fault?]
  split
  · intro found
    obtain ⟨f, -, faulty⟩ := List.exists_of_findSome?_eq_some found
    exact Check.firstFault_ne_frameMismatch _ _ _ _ function size cursor faulty
  · intro found
    cases found

/-- No program has a frame that its slots do not fill. A function that lowers has
its cursor at the bottom of the frame in the end, its only subtraction takes the
frame, and its exit gives the frame back. -/
theorem frame_and_cursor_agree :
    (∀ (p : Program) (target : Target) (function : String) (size : Nat) (cursor : Int),
      p.lower target ≠ .error (.frameMismatch function size cursor)) ∧
    ∀ (f : Func) (callees : List String) (code : Code), f.lower callees = .ok code →
      f.frameSize =
        4 * (min f.params.length 6 + (Stmt.leavesAll f.body).countP Stmt.isDeclare) ∧
      (∃ body after, f.lowerBody callees = .ok (body, after) ∧
        after.cursor = -(f.frameSize : Int)) ∧
      code.filter (·.op = .sub) = [.sub stackPointer (.const (toString f.frameSize))] ∧
      code.filter (·.label = some (.epilogue f.name)) =
        [(Instruction.add stackPointer (.const (toString f.frameSize))).labelled
          (.epilogue f.name)] := by
  constructor
  · intro p target function size cursor mismatch
    rw [← faultOr_eq_some_iff, p.faultOr_lower] at mismatch
    exact p.fault?_ne_frameMismatch function size cursor mismatch
  · intro f callees code lowers
    obtain ⟨body, after, lowersBody, -⟩ := Func.lower_iff.mp lowers
    exact ⟨f.frameSize_eq, ⟨body, after, lowersBody, Func.cursor_of_lowerBody lowersBody⟩,
      Func.subs_of_lower lowers, Func.exits_of_lower lowers⟩

/-- Seven parameters, and a declaration two blocks deep. -/
def deepDeclaration : Func :=
  ⟨"f", ["a", "b", "c", "d", "e", "g", "h"].map fun name => ⟨name, .int⟩, none,
    [.block [.block [.declare ⟨"x", .int⟩]]]⟩

theorem frame_and_cursor_agree_deepDeclaration :
    ∃ code, deepDeclaration.lower [] = .ok code ∧
      code.filter (·.op = .sub) = [.sub stackPointer (.const "28")] := by
  have lowersOk : (deepDeclaration.lower []).isOk = true := by decide +kernel
  obtain ⟨code, lowers⟩ := exists_ok_of_isOk lowersOk
  have size : toString deepDeclaration.frameSize = "28" := by decide +kernel
  have literal := (frame_and_cursor_agree.2 deepDeclaration [] code lowers).2.2.1
  rw [size] at literal
  exact ⟨code, lowers, literal⟩

end IntBackend
