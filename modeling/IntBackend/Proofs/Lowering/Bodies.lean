/-
# IntBackend.Proofs.Lowering.Bodies — a body is a sequence of statements

Statements are lowered one after the other, each in the scope that those before it
leave (`Stmt.lowerAll_append`), and the first fault ends it. So what follows in a body
has no effect on what comes before, whether that has code or a fault:

* a statement at the end of a body adds its own code or its own fault
  (`Func.lower_appended`). Only the size of the frame, which is counted over the whole
  body in advance, differs in what was there before;
* a block is the sequence of its statements: without the blocks, a body has the same
  frame, the same code and the same fault (`Program.lower_unblocked`).
-/
import IntBackend.Proofs.Lowering.Layout
import IntBackend.Proofs.Lowering.Segments

namespace IntBackend

set_option autoImplicit false

open Convention

/-! ## One more statement -/

/-- The order of the bound names does not matter to what fails first. -/
theorem Check.firstFault_congr (function : String) (callees : List String) (checks : List Check)
    {bound others : List String} (same : ∀ name, name ∈ bound ↔ name ∈ others) :
    firstFault function callees bound checks = firstFault function callees others checks := by
  induction checks generalizing bound others with
  | nil => rfl
  | cons check checks ih =>
      have here : check.fault? function callees bound = check.fault? function callees others := by
        cases check <;> simp only [fault?, same]
      have more : ∀ name, name ∈ check.bound ++ bound ↔ name ∈ check.bound ++ others := by
        intro name
        rw [List.mem_append, List.mem_append, same]
      rw [firstFault, firstFault, here, ih more]

namespace Func

/-- The function with one more statement at the end of its body. -/
def appended (f : Func) (s : Stmt) : Func := { f with body := f.body ++ [s] }

/-- A function's code is its body inside a frame whose size is counted beforehand. -/
theorem lower_eq_framed (f : Func) (callees : List String) :
    f.lower callees = (f.lowerBody callees).map fun out => f.framed f.frameSize out.1 :=
  f.lower_eq_map callees

/-- One more statement is lowered in the scope that the others leave. -/
theorem lowerBody_appended (f : Func) (s : Stmt) (callees : List String) :
    (f.appended s).lowerBody callees = (do
      let (body, scope) ← f.lowerBody callees
      let (added, after) ← s.lower scope
      .ok (body ++ added, after)) := by
  rw [lowerBody, lowerBody, appended]
  cases lowerParams (.fresh f.name callees) argRegisters 0 f.params with
  | error fault => rfl
  | ok stores =>
      simp only [bind, Except.bind, Stmt.lowerAll_append, Stmt.lowerAll_singleton]
      cases Stmt.lowerAll stores.2 f.body with
      | error fault => rfl
      | ok statements =>
          simp only
          cases s.lower statements.2 with
          | error fault => rfl
          | ok added => simp only [List.append_assoc]

variable {f : Func} {callees : List String} {body : Code} {final : Scope}

/-- A further statement is refused for the first of its own checks that fails, where the
variables of the function are bound. -/
theorem lower_final_error_iff (lowers : f.lowerBody callees = .ok (body, final)) {s : Stmt}
    {fault : LoweringFault} :
    s.lower final = .error fault ↔
      Check.firstFault f.name callees f.variableNames s.checks = some fault := by
  have extension := (grown_of_lowerBody lowers).extension
  have bound : ∀ name, name ∈ f.variableNames ↔ name ∈ final.names := by
    intro name
    rw [← names_of_lowerBody lowers, List.mem_reverse]
  have found := s.faultOr_lower final []
  rw [List.append_nil, Scope.fault?, extension.function, extension.callees,
    ← Check.firstFault_congr _ _ _ bound] at found
  rw [← faultOr_eq_some_iff]
  exact Eq.congr_left found

end Func

/-- A further statement at the end of a function's body. What was refused before is refused for
the same fault. Otherwise the new function has the fault of the statement, or the old code with
that of the statement behind it and the size of the new frame around it. -/
theorem Func.lower_appended (f : Func) (s : Stmt) (callees : List String) :
    (∀ fault, f.lower callees = .error fault → (f.appended s).lower callees = .error fault) ∧
    ∀ code, f.lower callees = .ok code → ∃ body final,
      f.lowerBody callees = .ok (body, final) ∧ code = f.framed f.frameSize body ∧
      ((∃ fault, Check.firstFault f.name callees f.variableNames s.checks = some fault ∧
          (f.appended s).lower callees = .error fault) ∨
        ∃ added after, s.lower final = .ok (added, after) ∧
          (f.appended s).lower callees =
            .ok (f.framed (f.appended s).frameSize (body ++ added))) := by
  rw [f.lower_eq_framed, (f.appended s).lower_eq_framed, f.lowerBody_appended]
  cases lowers : f.lowerBody callees with
  | error refused =>
      constructor
      · intro fault same
        exact same
      · intro code done
        cases done
  | ok out =>
      obtain ⟨body, final⟩ := out
      constructor
      · intro fault same
        cases same
      · intro code done
        cases done
        refine ⟨body, final, rfl, rfl, ?_⟩
        simp only [bind, Except.bind]
        cases added : s.lower final with
        | error fault => exact .inl ⟨fault, (lower_final_error_iff lowers).mp added, rfl⟩
        | ok more => exact .inr ⟨more.1, more.2, rfl, rfl⟩

/-- One parameter and one variable. -/
def copiesParameter : Func :=
  ⟨"f", [⟨"a", .int⟩], some .int, [.declare ⟨"x", .int⟩, .assign "x" (.var "a")]⟩

def copyingCode : Code :=
  [.mov (frameSlot 0) (.reg .di valueWidth),
    .mov accumulator (frameSlot 0), .mov (frameSlot 1) accumulator]

/-- Blocks in which two more variables are declared. -/
def declaresInBlocks : Stmt :=
  .block [.declare ⟨"y", .int⟩, .block [.declare ⟨"z", .int⟩, .assign "z" (.var "x")]]

theorem Func.lower_appended_declaresInBlocks :
    copiesParameter.lower [] = .ok (copiesParameter.framed 8 copyingCode) ∧
      (copiesParameter.appended declaresInBlocks).lower [] =
        .ok (copiesParameter.framed 16 (copyingCode ++
          [.mov accumulator (frameSlot 1), .mov (frameSlot 3) accumulator])) ∧
      (copiesParameter.appended (.declare ⟨"a", .int⟩)).lower [] =
        .error (.alreadyDeclared "a" "f") ∧
      ((copiesParameter.appended (.declare ⟨"a", .int⟩)).appended declaresInBlocks).lower [] =
        .error (.alreadyDeclared "a" "f") := by
  have lowers : copiesParameter.lower [] = .ok (copiesParameter.framed 8 copyingCode) := rfl
  obtain ⟨_, final, lowersBody, -, appends⟩ :=
    (Func.lower_appended copiesParameter declaresInBlocks []).2 _ lowers
  have refuses : (copiesParameter.appended (.declare ⟨"a", .int⟩)).lower [] =
      .error (.alreadyDeclared "a" "f") := rfl
  refine ⟨lowers, ?_, refuses, (Func.lower_appended _ declaresInBlocks []).1 _ refuses⟩
  cases lowersBody
  rcases appends with ⟨fault, found, -⟩ | ⟨added, after, lowersAdded, whole⟩
  · cases found
  · cases lowersAdded
    exact whole

/-! ## Blocks -/

namespace Func

/-- The function with the statements of all blocks in the place of the blocks, and with another
result type. -/
def unblocked (f : Func) (result : Option Ty) : Func :=
  { f with result := result, body := Stmt.leavesAll f.body }

variable (f : Func) (result : Option Ty)

theorem frameSize_unblocked : (f.unblocked result).frameSize = f.frameSize := by
  rw [frameSize_eq, frameSize_eq, unblocked,
    Stmt.leavesAll_of_not_isBlock Stmt.isBlock_of_mem_leavesAll]

/-- Neither blocks nor the result type show in the code of a function. -/
theorem lower_unblocked_eq (callees : List String) :
    (f.unblocked result).lower callees = f.lower callees := by
  have body : (f.unblocked result).lowerBody callees = f.lowerBody callees := by
    simp only [lowerBody, unblocked, Stmt.lowerAll_leavesAll]
  rw [lower_eq_framed, lower_eq_framed, body, frameSize_unblocked]
  rfl

end Func

section Programs

/-- The functions of a program without their blocks, whatever their result types. -/
def Func.Unblocks (f g : Func) : Prop := ∃ result, g = f.unblocked result

variable {fs gs : List Func} (unblocks : List.Forall₂ Func.Unblocks fs gs)
include unblocks

theorem map_eq_of_unblocks {α : Type} {aspect : Func → α}
    (each : ∀ f result, aspect (f.unblocked result) = aspect f) :
    gs.map aspect = fs.map aspect := by
  induction unblocks with
  | nil => rfl
  | cons first _ ih =>
      obtain ⟨result, rfl⟩ := first
      rw [List.map_cons, List.map_cons, each, ih]

theorem not_isBlock_of_unblocks : ∀ g ∈ gs, ∀ s ∈ g.body, s.isBlock = false := by
  induction unblocks with
  | nil => simp
  | cons first _ ih =>
      obtain ⟨result, rfl⟩ := first
      exact List.forall_mem_cons.mpr ⟨Stmt.isBlock_of_mem_leavesAll, ih⟩

theorem lowerFunctions_of_unblocks (callees : List String) :
    Program.lowerFunctions callees gs = Program.lowerFunctions callees fs := by
  induction unblocks with
  | nil => rfl
  | cons first _ ih =>
      obtain ⟨result, rfl⟩ := first
      rw [Program.lowerFunctions, Program.lowerFunctions, Func.lower_unblocked_eq, ih]

end Programs

/-- Blocks leave no trace: without them, and with any result types, the functions of a program
have the same frames, and the program has the same code or the same fault on each target. -/
theorem Program.lower_unblocked (p q : Program)
    (unblocks : List.Forall₂ Func.Unblocks p.functions q.functions) :
    (∀ g ∈ q.functions, ∀ s ∈ g.body, s.isBlock = false) ∧
    q.functions.map Func.frameSize = p.functions.map Func.frameSize ∧
    ∀ target, q.lower target = p.lower target := by
  have names : q.names = p.names := map_eq_of_unblocks unblocks fun _ _ => rfl
  refine ⟨not_isBlock_of_unblocks unblocks,
    map_eq_of_unblocks unblocks Func.frameSize_unblocked, fun target => ?_⟩
  rw [Program.lower, Program.lower, names, lowerFunctions_of_unblocks unblocks]

/-- The entry function alone, with blocks around a variable that is used behind them. -/
def usedBehindBlocks : Program :=
  ⟨[⟨"main", [], some .int,
    [.block [.declare ⟨"x", .int⟩, .block [.assign "x" (.const 1)]], .block [],
      .ret (some (.var "x"))]⟩]⟩

def usedWithoutBlocks : Program :=
  ⟨[⟨"main", [], none,
    [.declare ⟨"x", .int⟩, .assign "x" (.const 1), .ret (some (.var "x"))]⟩]⟩

/-- A variable that another block has declared, in front of one that is not declared. -/
def clashesInBlocks : Program :=
  ⟨[⟨"main", [], none,
    [.block [.declare ⟨"x", .int⟩], .block [.block [.declare ⟨"x", .int⟩], .eval (.var "y")]]⟩]⟩

def clashesWithoutBlocks : Program :=
  ⟨[⟨"main", [], some .int, [.declare ⟨"x", .int⟩, .declare ⟨"x", .int⟩, .eval (.var "y")]⟩]⟩

theorem Program.lower_unblocked_usedBehindBlocks :
    (usedBehindBlocks.lower .linux).isOk = true ∧
      usedWithoutBlocks.lower .linux = usedBehindBlocks.lower .linux ∧
      usedBehindBlocks.functions.map Func.frameSize = [4] ∧
      usedWithoutBlocks.functions.map Func.frameSize = [4] ∧
      clashesInBlocks.lower .macos = .error (.alreadyDeclared "x" "main") ∧
      clashesWithoutBlocks.lower .macos = .error (.alreadyDeclared "x" "main") := by
  obtain ⟨-, sizes, same⟩ :=
    Program.lower_unblocked usedBehindBlocks usedWithoutBlocks (.cons ⟨none, rfl⟩ .nil)
  obtain ⟨-, -, sameClash⟩ :=
    Program.lower_unblocked clashesInBlocks clashesWithoutBlocks (.cons ⟨some .int, rfl⟩ .nil)
  have refuses : clashesInBlocks.lower .macos = .error (.alreadyDeclared "x" "main") := rfl
  exact ⟨rfl, same .linux, rfl, sizes.trans rfl, refuses, (sameClash .macos).trans refuses⟩

end IntBackend
