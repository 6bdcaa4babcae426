/-
# IntBackend.Proofs.Lowering.Accesses — which memory a function's code touches

The memory operands of code, in order (`places`), are the places of the variables
that the source names, in the order in which their values are used (`touched`):

* a value is used where it goes: into a register, onto the stack, into a variable;
* the left value of an operation is used after the right one, unless it has to be
  computed and is therefore brought out of the way first;
* arguments are used in the order in which they are passed;
* an assignment uses its target last, and a variable that stands alone as a
  statement is not used at all.

Order apart, these are the variables that the expressions name
(`Expr.perm_touched`). So code touches no memory but the variables of its own function, each at the
place that the layout gives it.
-/
import Mathlib.Data.List.Perm.Basic
import IntBackend.Proofs.Lowering.Forms
import IntBackend.Proofs.Lowering.Layout

namespace IntBackend

set_option autoImplicit false

open Convention

/-! ## Memory operands -/

/-- The memory of an operand, seen as wide as a variable. -/
def Operand.places : Operand → List Operand
  | .mem base _ offset => [.mem base valueWidth offset]
  | _ => []

def Instruction.places (i : Instruction) : List Operand := i.operands.flatMap Operand.places

/-- The memory operands of code, in order. -/
def places (code : Code) : List Operand := code.flatMap Instruction.places

@[simp] theorem places_nil : places [] = [] := rfl

@[simp] theorem places_cons (i : Instruction) (code : Code) :
    places (i :: code) = i.places ++ places code := List.flatMap_cons

@[simp] theorem places_append (a b : Code) : places (a ++ b) = places a ++ places b :=
  List.flatMap_append

@[simp] theorem places_mov (dst src : Operand) :
    (Instruction.mov dst src).places = dst.places ++ src.places := by
  simp [Instruction.places, Instruction.mov, Instruction.plain]

@[simp] theorem places_add (dst src : Operand) :
    (Instruction.add dst src).places = dst.places ++ src.places := by
  simp [Instruction.places, Instruction.add, Instruction.plain]

@[simp] theorem places_imul (dst src : Operand) :
    (Instruction.imul dst src).places = dst.places ++ src.places := by
  simp [Instruction.places, Instruction.imul, Instruction.plain]

/-- What is pushed is seen as wide as the stack wants it, and is the same memory. -/
@[simp] theorem places_push (operand : Operand) :
    (Instruction.push (operand.withWidth .quad)).places = operand.places := by
  cases operand <;> rfl

@[simp] theorem places_accumulator : accumulator.places = [] := rfl

@[simp] theorem places_scratch : scratch.places = [] := rfl

@[simp] theorem places_reg (r : Register) (w : Width) : (Operand.reg r w).places = [] := rfl

@[simp] theorem places_const (text : String) : (Operand.const text).places = [] := rfl

@[simp] theorem places_frameCell (offset : Int) :
    (frameCell offset).places = [frameCell offset] := rfl

/-- A memory operand of an instruction counts among the places of the code, at whatever width it is
used. -/
theorem mem_places {code : Code} {i : Instruction} (inside : i ∈ code) {base : Register}
    {w : Width} {offset : Int} (among : .mem base w offset ∈ i.operands) :
    .mem base valueWidth offset ∈ places code := by
  have here : .mem base valueWidth offset ∈ i.places :=
    List.mem_flatMap.mpr ⟨_, among, List.mem_singleton_self _⟩
  exact List.mem_flatMap.mpr ⟨i, inside, here⟩

theorem places_of_isRegister {operand : Operand} {r : Register}
    (is : operand.isRegister r = true) : operand.places = [] := by
  cases operand with
  | reg register width => rfl
  | _ => cases is

/-- Constants, registers and labels are no places. -/
theorem places_of_not_isMemory {operand : Operand} (not : operand.isMemory = false) :
    operand.places = [] := by
  cases operand with
  | mem base width offset => cases not
  | _ => rfl

/-! ## Code that uses a value -/

/-- A value is read once on its way into the accumulator. -/
theorem places_intoAccumulator (operand : Operand) :
    places (intoAccumulator operand) = operand.places := by
  unfold intoAccumulator
  split
  · rename_i there
    rw [places_of_isRegister there]
    rfl
  · simp

/-- Storing reads the source and writes the destination, through the accumulator or not. -/
theorem places_store (dst src : Operand) :
    places (store dst src) = src.places ++ dst.places := by
  unfold store
  split
  · simp [places_intoAccumulator]
  · -- One of the two is no memory, so their order does not show.
    rename_i direct
    rw [Bool.and_eq_true, not_and_or, Bool.not_eq_true, Bool.not_eq_true] at direct
    rcases direct with direct | direct <;> simp [places_of_not_isMemory direct]

theorem places_operation {op : BinOp} {combine : Operand → Code}
    (known : operation op = .ok combine) (left : Operand) :
    places (combine left) = left.places := by
  cases op with
  | add => cases known; simp
  | mul => cases known; simp
  | sub => cases known; simp
  | div => cases known
  | rem => cases known

theorem places_dropArgs (count : Nat) : places (dropArgs count) = [] := by
  unfold dropArgs
  split <;> rfl

/-! ## Expressions -/

mutual

/-- The variables that an expression names, in the order in which the code that
computes and uses its value touches them. -/
def Expr.touched : Expr → List String
  | .var name => [name]
  | .const _ => []
  | .binary _ lhs rhs =>
      if lhs.computes then lhs.touched ++ rhs.touched else rhs.touched ++ lhs.touched
  | .call _ args => (inPassingOrder (Expr.touchedEach args)).flatten

def Expr.touchedEach : List Expr → List (List String)
  | [] => []
  | e :: es => e.touched :: Expr.touchedEach es

end

namespace Expr

def varName? : Expr → Option String
  | .var name => some name
  | _ => none

/-- The variables that an expression names, from left to right. -/
def named (e : Expr) : List String := e.nodes.filterMap varName?

theorem named_binary (op : BinOp) (lhs rhs : Expr) :
    (binary op lhs rhs).named = lhs.named ++ rhs.named := by
  rw [named, nodes, List.filterMap_cons_none rfl, List.filterMap_append, named, named]

theorem named_call (callee : String) (args : List Expr) :
    (call callee args).named = args.flatMap named := by
  rw [named, nodes, List.filterMap_cons_none rfl, nodesAll_eq_flatMap, List.filterMap_flatMap]
  rfl

theorem flatten_touchedEach (args : List Expr) :
    (touchedEach args).flatten = args.flatMap touched := by
  induction args with
  | nil => rfl
  | cons arg args ih => rw [touchedEach, List.flatten_cons, ih, List.flatMap_cons]

end Expr

/-- The order of passing leaves out no argument and repeats none. -/
theorem inPassingOrder_perm {α : Type} (args : List α) : (inPassingOrder args).Perm args := by
  have back : (args.take 6 ++ (args.drop 6).reverse).Perm (args.take 6 ++ args.drop 6) :=
    (List.reverse_perm _).append_left _
  rwa [List.take_append_drop] at back

/-- Each variable is touched as often as it is named. -/
theorem Expr.perm_touched (e : Expr) : e.touched.Perm e.named := by
  induction e with
  | var name => rw [Expr.touched]; rfl
  | const value => rw [Expr.touched]; rfl
  | binary op lhs rhs left right =>
      rw [Expr.touched, Expr.named_binary]
      split
      · exact left.append right
      · exact List.perm_append_comm.trans (left.append right)
  | call callee args each =>
      rw [Expr.touched, Expr.named_call]
      have inOrder := (inPassingOrder_perm (Expr.touchedEach args)).flatten
      rw [Expr.flatten_touchedEach] at inOrder
      exact inOrder.trans (List.Perm.flatMap_left args each)

/-- The memory of code and of the value it leaves. -/
def Valued.places (out : Valued) : List Operand := IntBackend.places out.code ++ out.value.places

/-- Memory operands that are the places of names, in order. -/
def Scope.Names (scope : Scope) (operands : List Operand) (names : List String) : Prop :=
  operands.map some = names.map scope.find?

namespace Scope.Names

variable {scope : Scope} {operands more : List Operand} {names others : List String}

theorem nil : scope.Names [] [] := rfl

theorem append (first : scope.Names operands names) (second : scope.Names more others) :
    scope.Names (operands ++ more) (names ++ others) := by
  unfold Scope.Names at *
  rw [List.map_append, List.map_append, first, second]

theorem singleton (cells : scope.Cells) {name : String} {operand : Operand}
    (found : scope.find? name = some operand) : scope.Names operand.places [name] := by
  obtain ⟨offset, rfl⟩ := cells found
  unfold Scope.Names
  rw [places_frameCell, List.map_singleton, List.map_singleton, found]

/-- Each operand is the place of one of the names. -/
theorem exists_of_mem (names_ : scope.Names operands names) {operand : Operand}
    (among : operand ∈ operands) : ∃ name ∈ names, scope.find? name = some operand := by
  have mapped : some operand ∈ operands.map some := List.mem_map_of_mem among
  rw [names_, List.mem_map] at mapped
  exact mapped

/-- A place that is found stays the same while the scope grows. -/
theorem mono {after : Scope} (extension : scope.Extends after)
    (names_ : scope.Names operands names) : after.Names operands names := by
  induction names generalizing operands with
  | nil =>
      rw [Scope.Names, List.map_nil, List.map_eq_nil_iff] at names_
      rw [names_]
      exact nil
  | cons name names ih =>
      cases operands with
      | nil => cases names_
      | cons operand operands =>
          obtain ⟨here, there⟩ := List.cons.inj names_
          have later : after.find? name = some operand := extension.finds here.symm
          exact congrArg₂ List.cons later.symm (ih there)

end Scope.Names

/-- Parking a value does not change what the code and the value touch. -/
theorem places_park {e : Expr} {scope : Scope} {left : Valued} (cells : scope.Cells)
    (lowers : e.lower scope = .ok left) :
    (places (park left).code, (park left).value.places) =
      if e.computes then (left.places, []) else ([], left.places) := by
  by_cases computes : e.computes
  · have value := Expr.value_of_computes computes lowers
    rw [if_pos computes, park_accumulator value, Valued.places, value]
    simp
  · obtain ⟨code, source⟩ := Expr.source_of_not_computes computes lowers
    rw [if_neg computes, park_source cells.inFrame source, Valued.places, code]
    simp

/-- Passing arguments touches what the arguments touch, in the order of passing. -/
theorem Expr.names_of_lowerArgs {scope : Scope} {args : List Expr}
    (each : ∀ arg ∈ args, ∀ {out}, arg.lower scope = .ok out →
      scope.Names out.places arg.touched)
    {registers : List Register} {code : Code}
    (lowers : Expr.lowerArgs scope registers args = .ok code) :
    scope.Names (places code) (((Expr.touchedEach args).take registers.length ++
      ((Expr.touchedEach args).drop registers.length).reverse).flatten) := by
  refine Expr.lowerArgs_induction (motive := fun registers args code =>
    scope.Names (places code) (((Expr.touchedEach args).take registers.length ++
      ((Expr.touchedEach args).drop registers.length).reverse).flatten)) each ?_ ?_ ?_ lowers
  · intro registers
    simpa [Expr.touchedEach] using Scope.Names.nil
  · intro r rs arg args first rest _ here there
    simpa [Expr.touchedEach, Valued.places] using here.append there
  · intro arg args first rest _ here there
    simpa [Expr.touchedEach, Valued.places] using there.append here

/-- Code of an expression, with the value it leaves, touches the variables that the
expression names. -/
theorem Expr.names_of_lower (e : Expr) {scope : Scope} (cells : scope.Cells) {out : Valued}
    (lowers : e.lower scope = .ok out) : scope.Names out.places e.touched := by
  induction e generalizing out with
  | var name =>
      obtain ⟨operand, found, rfl⟩ := Expr.lower_var_iff.mp lowers
      rw [Expr.touched]
      exact .singleton cells found
  | const value =>
      rw [Expr.lower_const] at lowers
      cases lowers
      rw [Expr.touched]
      exact .nil
  | binary op lhs rhs left right =>
      obtain ⟨combine, l, r, known, lowersLeft, lowersRight, rfl⟩ :=
        Expr.lower_binary_iff.mp lowers
      have parked := places_park cells lowersLeft
      have leftNames := left lowersLeft
      have rightNames := right lowersRight
      simp only [Valued.places, places_append, places_intoAccumulator, places_operation known,
        places_accumulator, List.append_nil] at rightNames ⊢
      rw [Expr.touched]
      -- A parked value was used before the right one, any other is used after it.
      split at parked
      · rename_i computes
        obtain ⟨code, value⟩ := Prod.mk.inj parked
        rw [if_pos computes, code, value, List.append_nil, List.append_assoc]
        exact leftNames.append rightNames
      · rename_i computes
        obtain ⟨code, value⟩ := Prod.mk.inj parked
        rw [if_neg computes, code, value, List.nil_append]
        exact rightNames.append leftNames
  | call name args each =>
      obtain ⟨-, passed, passes, rfl⟩ := Expr.lower_call_iff.mp lowers
      have passing : scope.Names (places passed)
          (inPassingOrder (Expr.touchedEach args)).flatten :=
        Expr.names_of_lowerArgs (fun arg among => each arg among) passes
      have call : (Instruction.call (.function name)).places = [] := rfl
      rw [Expr.touched]
      simpa [Valued.places, places_dropArgs, call] using passing

/-- A value that is not used adds nothing to what its code touches. -/
theorem Expr.names_of_unused {e : Expr} {scope : Scope} (cells : scope.Cells) {out : Valued}
    (lowers : e.lower scope = .ok out) :
    scope.Names (places out.code) (if e.computes then e.touched else []) := by
  by_cases computes : e.computes
  · have whole := e.names_of_lower cells lowers
    rw [Valued.places, Expr.value_of_computes computes lowers] at whole
    simpa [computes] using whole
  · rw [if_neg computes, (Expr.source_of_not_computes computes lowers).1]
    exact .nil

/-! ## Statements and functions -/

namespace Stmt

/-- The variables that a statement itself touches. -/
def touches : Stmt → List String
  | .assign target value => value.touched ++ [target]
  | .eval value => if value.computes then value.touched else []
  | .ret (some value) => value.touched
  | _ => []

/-- The variables that a body touches at any depth, in order. -/
def touchedAll (body : List Stmt) : List String := (leavesAll body).flatMap touches

end Stmt

/-- The variables that a function touches: first the parameters that arrive in
registers are stored, then the statements run. -/
def Func.touched (f : Func) : List String :=
  (f.params.take 6).map Binding.name ++ Stmt.touchedAll f.body

/-- A statement that is no block touches the variables of its values and then its target. -/
theorem Stmt.names_of_leaf {s : Stmt} {scope after : Scope} {code : Code}
    (alone : s.isBlock = false) (lowers : s.lower scope = .ok (code, after))
    (cells : after.Cells) : after.Names (places code) s.touches := by
  cases s with
  | declare binding =>
      obtain ⟨-, rfl⟩ := Stmt.lower_declare_iff.mp lowers
      exact .nil
  | assign target value =>
      obtain ⟨dst, src, found, lowersValue, rfl, rfl⟩ := Stmt.lower_assign_iff.mp lowers
      have used := (value.names_of_lower cells lowersValue).append (.singleton cells found)
      rw [Stmt.touches, places_append, places_store]
      simpa [Valued.places] using used
  | eval value =>
      obtain ⟨src, lowersValue, rfl, rfl⟩ := Stmt.lower_eval_iff.mp lowers
      exact Expr.names_of_unused cells lowersValue
  | ret value =>
      cases value with
      | none =>
          obtain ⟨rfl, rfl⟩ := Stmt.lower_ret_none_iff.mp lowers
          exact .nil
      | some value =>
          obtain ⟨src, lowersValue, rfl, rfl⟩ := Stmt.lower_ret_some_iff.mp lowers
          have leave : (Instruction.jmp after.exit).places = [] := rfl
          rw [Stmt.touches]
          simpa [places_intoAccumulator, leave, Valued.places] using
            value.names_of_lower cells lowersValue
  | block body => cases alone

/-- The code of a body touches the variables that its statements name, in order. -/
theorem Stmt.names_of_lowerAll {scope after : Scope} {body : List Stmt} {code : Code}
    (lowers : Stmt.lowerAll scope body = .ok (code, after)) (cells : after.Cells) :
    after.Names (places code) (Stmt.touchedAll body) := by
  refine Stmt.lowerAll_induction_cells
    (motive := fun leaves code after => after.Names (places code) (leaves.flatMap Stmt.touches))
    (fun _ => .nil) ?_ lowers cells
  intro scope between after s ss head tail alone lowersHead cells extension late
  rw [List.flatMap_cons, places_append]
  exact ((Stmt.names_of_leaf alone lowersHead cells).mono extension).append late

/-- Only the parameters that arrive in registers are touched on arrival. -/
theorem names_of_lowerParams {registers : List Register} {onStack : Nat} {params : List Binding}
    {scope after : Scope} {code : Code}
    (lowers : lowerParams scope registers onStack params = .ok (code, after)) :
    after.Names (places code) ((params.take registers.length).map Binding.name) := by
  refine lowerParams_induction (motive := fun _ registers _ params code after =>
    after.Names (places code) ((params.take registers.length).map Binding.name)) ?_ ?_ ?_ lowers
  · intro scope registers onStack
    simpa using Scope.Names.nil
  · intro scope declared after r rs onStack param params rest declares lowersRest later
    have extension := (grown_of_lowerParams lowersRest).extension
    have found := extension.finds (Scope.find?_of_declare declares)
    have here : after.Names scope.nextSlot.places [param.name] := by
      rw [Scope.Names, List.map_singleton, found]
      rfl
    simpa using here.append later
  · intro scope bound after onStack param params code _ later
    simpa using later

section Function

variable {f : Func} {callees : List String} {body : Code} {final : Scope}

/-- The memory operands of a function's code are the places of the variables it touches. -/
theorem Func.names_of_touched (lowers : f.lowerBody callees = .ok (body, final)) :
    final.Names (places (f.prologue ++ body ++ f.epilogue)) f.touched := by
  have cells := (Func.laid_of_lowerBody lowers).cells
  obtain ⟨stores, between, statements, binds, lowersBody, rfl⟩ := Func.lowerBody_iff.mp lowers
  have extension := (Stmt.grown_of_body 0 lowersBody).extension
  have early : final.Names (places stores) ((f.params.take 6).map Binding.name) :=
    (names_of_lowerParams binds).mono extension
  have late := Stmt.names_of_lowerAll lowersBody cells
  have entry : places f.prologue = [] := rfl
  have exit : places f.epilogue = [] := rfl
  rw [places_append, places_append, places_append, entry, exit, List.nil_append, List.append_nil]
  exact early.append late

/-- Memory is seen as wide as a variable everywhere but on its way onto the stack. -/
theorem Instruction.Form.width_of_mem {i : Instruction} (form : i.Form) {base : Register}
    {w : Width} {offset : Int} (among : .mem base w offset ∈ i.operands) :
    w = if i.op = .push then .quad else .long := by
  cases form with
  | @toRegister op src r computes value =>
      have stays : op ≠ .push := by
        rintro rfl
        simp at computes
      rw [Instruction.plain, if_neg stays]
      rcases List.mem_pair.mp among with same | same
      · cases same
      · cases value <;> cases same
        rfl
  | toCell o value direct =>
      rcases List.mem_pair.mp among with same | same
      · cases same
        rfl
      · rw [← same] at direct
        cases direct
  | release n => rcases List.mem_pair.mp among with same | same <;> cases same
  | push value =>
      have same := List.mem_singleton.mp among
      cases value <;> cases same
      rfl
  | call l => cases List.mem_singleton.mp among
  | jmp l => cases List.mem_singleton.mp among

/-- Variables are read and written as longs and pushed as quads. -/
theorem Func.width_of_mem (lowers : f.lowerBody callees = .ok (body, final)) {i : Instruction}
    (inside : i ∈ f.prologue ++ body ++ f.epilogue) {base : Register} {w : Width} {offset : Int}
    (among : .mem base w offset ∈ i.operands) : w = if i.op = .push then .quad else .long := by
  simp only [List.mem_append] at inside
  rcases inside with (inside | inside) | inside
  · cases mem_places inside among
  · have cells := (Func.laid_of_lowerBody lowers).cells
    exact ((Func.emitsBody_of_lowerBody lowers i inside).form cells).width_of_mem among
  · cases mem_places inside among

end Function

/-- The variables of a function lie in its frame in the order of declaration, or
where the caller put them, and do not overlap. The memory operands of its code are,
in order, the places of the variables that the source names, each as often as it
does; so every operand is one of these places, seen at 64 bits where it is pushed
and at 32 bits elsewhere. -/
theorem Func.memory_is_variables (f : Func) (callees : List String) (code : Code)
    (lowers : f.lower callees = .ok code) :
    ∃ body final, f.lowerBody callees = .ok (body, final) ∧ f.LaidOut final ∧
      (places code).map some = f.touched.map final.find? ∧
      (∀ e ∈ f.exprs, e.touched.Perm e.named) ∧
      ∀ i ∈ code, ∀ base w offset, .mem base w offset ∈ i.operands →
        base = .bp ∧ f.Offset offset ∧ w = if i.op = .push then .quad else .long := by
  obtain ⟨body, final, lowersBody, rfl⟩ := Func.lower_iff.mp lowers
  have laidOut := Func.laidOut_of_lowerBody lowersBody
  have touched := Func.names_of_touched lowersBody
  refine ⟨body, final, lowersBody, laidOut, touched, fun e _ => e.perm_touched, ?_⟩
  intro i inside base w offset among
  obtain ⟨name, -, found⟩ := touched.exists_of_mem (mem_places inside among)
  obtain ⟨_, within, same⟩ := laidOut.within name _ found
  cases same
  exact ⟨rfl, within, Func.width_of_mem lowersBody inside among⟩

/-- Eight parameters, a declaration between uses and one in a block, and variables
that are loaded, stored, passed in registers and pushed. -/
def scatteredUses : Func :=
  ⟨"f", ["a", "b", "c", "d", "e", "g", "h", "i"].map fun name => ⟨name, .int⟩, none,
    [.declare ⟨"x", .int⟩, .assign "x" (.binary .sub (.var "i") (.var "a")),
      .block [.declare ⟨"y", .int⟩, .assign "y" (.var "x"), .eval (.var "b")],
      .ret (some (.call "f" ((["y", "x", "a", "b", "c", "d", "h", "i"]).map .var)))]⟩

theorem Func.memory_is_variables_scatteredUses :
    ∃ code body final, scatteredUses.lower ["f"] = .ok code ∧
      scatteredUses.lowerBody ["f"] = .ok (body, final) ∧
      final.find? "y" = some (.mem .bp .long (-32)) ∧
      final.find? "i" = some (.mem .bp .long 24) ∧
      (places code).map some = ["a", "b", "c", "d", "e", "g", "a", "i", "x", "x", "y",
        "y", "x", "a", "b", "c", "d", "i", "h"].map final.find? := by
  have lowersOk : (scatteredUses.lower ["f"]).isOk = true := by decide +kernel
  obtain ⟨code, lowers⟩ := exists_ok_of_isOk lowersOk
  obtain ⟨body, final, lowersBody, laidOut, touched, -⟩ :=
    Func.memory_is_variables scatteredUses ["f"] code lowers
  have names : scatteredUses.touched = ["a", "b", "c", "d", "e", "g", "a", "i", "x", "x", "y",
      "y", "x", "a", "b", "c", "d", "i", "h"] := by decide +kernel
  have lastSlot := laidOut.slots 7 "y" (by decide +kernel)
  have lastArgument := laidOut.arguments 7 ⟨"i", .int⟩ (by decide) (by decide +kernel)
  rw [names] at touched
  exact ⟨code, body, final, lowers, lowersBody, lastSlot, lastArgument, touched⟩

end IntBackend
