/-
# IntBackend.Proofs.Lowering.Layout — where the variables of a function lie

`Scopes` says that names have places of their own; this module says which. Slots go
to the parameters that arrive in registers and then to the declarations of the
body, blocks or not, in the order in which they are read; the other parameters
keep the places in which the caller put them. So the bindings at the end of a
function can be written down without lowering it (`Func.bindings_of_lowerBody`),
and `Func.LaidOut` collects what follows: slot number `k` lies at `-4 * (k + 1)`,
the slots fill the frame, and no two cells overlap, nor does a cell overlap the
saved frame pointer and the return address.
-/
import Mathlib.Data.List.Nodup
import IntBackend.Proofs.Lowering.Checker
import IntBackend.Proofs.Lowering.FrameSize

namespace IntBackend

set_option autoImplicit false

open Convention

/-! ## Names in the order of declaration -/

namespace Stmt

/-- The name that a statement itself declares. -/
def declaredName? : Stmt → Option String
  | .declare binding => some binding.name
  | _ => none

/-- The names that a body declares at any depth, in order. -/
def declaredNamesAll (body : List Stmt) : List String := (leavesAll body).filterMap declaredName?

theorem declaredName?_eq_none {s : Stmt} (other : s.isDeclare = false) :
    s.declaredName? = none := by
  cases s with
  | declare binding => cases other
  | _ => rfl

theorem length_filterMap_declaredName? (leaves : List Stmt) :
    (leaves.filterMap declaredName?).length = leaves.countP isDeclare := by
  induction leaves with
  | nil => rfl
  | cons s ss ih =>
      rw [List.filterMap_cons, List.countP_cons, ← ih]
      cases s <;> rfl

end Stmt

namespace Func

/-- All variables of a function in the order of declaration, parameters first. -/
def variableNames (f : Func) : List String :=
  f.params.map Binding.name ++ Stmt.declaredNamesAll f.body

/-- The variables that have a slot in the frame, in the order of declaration. -/
def slotNames (f : Func) : List String :=
  (f.params.take 6).map Binding.name ++ Stmt.declaredNamesAll f.body

/-- The parameters that arrive on the stack. -/
def stackNames (f : Func) : List String := (f.params.drop 6).map Binding.name

theorem frameSize_eq_slotNames (f : Func) : f.frameSize = 4 * f.slotNames.length := by
  rw [f.frameSize_eq, slotNames, List.length_append, List.length_map, List.length_take,
    Stmt.declaredNamesAll, Stmt.length_filterMap_declaredName?, Nat.min_comm]

end Func

/-! ## The places that are handed out -/

/-- The slot that is handed out as number `k`, counted from zero. -/
def frameSlot (k : Nat) : Operand := frameCell (-(slotSize * (k + 1) : Int))

/-- Names with the places that are numbered from `first` on. -/
def placed (place : Nat → Operand) (first : Nat) (names : List String) :
    List (String × Operand) :=
  (names.zipIdx first).map fun entry => (entry.1, place entry.2)

section Placed

variable (place : Nat → Operand)

theorem placed_append (first : Nat) (names more : List String) :
    placed place first (names ++ more) =
      placed place first names ++ placed place (first + names.length) more := by
  rw [placed, List.zipIdx_append, List.map_append, placed, placed]

/-- The name at a position has the place with that number. -/
theorem mem_placed {names : List String} {k : Nat} {name : String}
    (found : names[k]? = some name) : (name, place k) ∈ placed place 0 names :=
  List.mem_map.mpr ⟨(name, k), List.mem_zipIdx_iff_getElem?.mpr found, rfl⟩

theorem map_fst_placed (first : Nat) (names : List String) :
    (placed place first names).map Prod.fst = names := by
  rw [placed, List.map_map]
  exact List.zipIdx_map_fst first names

end Placed

namespace Scope

/-- `used` slots are taken. -/
def Uses (scope : Scope) (used : Nat) : Prop := scope.cursor = -(slotSize * used : Int)

/-- The scope `after` has a slot more for each of `names`, in order. -/
structure Slotted (before after : Scope) (names : List String) : Prop where
  bindings : ∀ {used}, before.Uses used →
    after.bindings = (placed frameSlot used names).reverse ++ before.bindings
  uses : ∀ {used}, before.Uses used → after.Uses (used + names.length)

theorem Slotted.refl (scope : Scope) : scope.Slotted scope [] := ⟨fun _ => rfl, id⟩

/-- Slots are handed out in the order of the code. -/
theorem Slotted.trans {before between after : Scope} {names more : List String}
    (early : before.Slotted between names) (late : between.Slotted after more) :
    before.Slotted after (names ++ more) := by
  constructor
  · intro used uses
    rw [late.bindings (early.uses uses), early.bindings uses, placed_append,
      List.reverse_append, List.append_assoc]
  · intro used uses
    rw [List.length_append, ← Nat.add_assoc]
    exact late.uses (early.uses uses)

/-- The next slot is numbered by how many are taken. -/
theorem Uses.nextSlot_eq {scope : Scope} {used : Nat} (uses : scope.Uses used) :
    scope.nextSlot = frameSlot used := by
  rw [nextSlot, frameSlot, uses]
  congr 1
  ring

/-- Binding a name to an argument on the stack takes no slot. -/
theorem Uses.bind {scope bound : Scope} {used : Nat} {name : String} {operand : Operand}
    (uses : scope.Uses used) (binds : scope.bind name operand = .ok bound) : bound.Uses used := by
  obtain ⟨-, rfl⟩ := bind_eq_ok_iff.mp binds
  exact uses

/-- A declaration gives the next slot to its name. -/
theorem slotted_of_declare {scope declared : Scope} {name : String}
    (declares : scope.declare name = .ok declared) : scope.Slotted declared [name] := by
  obtain ⟨-, rfl⟩ := declare_eq_ok_iff.mp declares
  constructor
  · intro used uses
    rw [uses.nextSlot_eq]
    rfl
  · intro used uses
    unfold Uses at uses ⊢
    simp only [uses, List.length_singleton]
    push_cast
    ring

end Scope

/-! ## Statements, parameters and functions -/

theorem Stmt.slotted_of_leaf {s : Stmt} {scope after : Scope} {code : Code}
    (alone : s.isBlock = false) (lowers : s.lower scope = .ok (code, after)) :
    scope.Slotted after s.declaredName?.toList := by
  obtain ⟨binding, rfl, declares⟩ | ⟨other, rfl⟩ := Stmt.scope_of_leaf alone lowers
  · exact Scope.slotted_of_declare declares
  · rw [Stmt.declaredName?_eq_none other]
    exact .refl after

/-- The declarations of a body get slots in the order in which they are read. -/
theorem Stmt.slotted_of_lowerAll {scope after : Scope} {body : List Stmt} {code : Code}
    (lowers : Stmt.lowerAll scope body = .ok (code, after)) :
    scope.Slotted after (Stmt.declaredNamesAll body) := by
  refine Stmt.lowerAll_induction
    (motive := fun scope leaves _ after =>
      scope.Slotted after (leaves.filterMap Stmt.declaredName?))
    (fun scope => .refl scope) ?_ lowers
  intro scope between after s ss head tail alone lowersHead _ late
  rw [List.filterMap_eq_flatMap_toList, List.flatMap_cons, ← List.filterMap_eq_flatMap_toList]
  exact (Stmt.slotted_of_leaf alone lowersHead).trans late

/-- Parameters get slots while registers last, and then the arguments on the stack. -/
theorem bindings_of_lowerParams {registers : List Register} {onStack used : Nat}
    {params : List Binding} {scope after : Scope} {code : Code} (uses : scope.Uses used)
    (lowers : lowerParams scope registers onStack params = .ok (code, after)) :
    after.bindings =
        (placed stackArg onStack ((params.drop registers.length).map Binding.name)).reverse ++
          ((placed frameSlot used ((params.take registers.length).map Binding.name)).reverse ++
            scope.bindings) ∧
      after.Uses (used + (params.take registers.length).length) := by
  refine lowerParams_induction (motive := fun scope registers onStack params _ after =>
    ∀ used, scope.Uses used →
      after.bindings =
          (placed stackArg onStack ((params.drop registers.length).map Binding.name)).reverse ++
            ((placed frameSlot used ((params.take registers.length).map Binding.name)).reverse ++
              scope.bindings) ∧
        after.Uses (used + (params.take registers.length).length)) ?_ ?_ ?_ lowers used uses
  · intro scope registers onStack used uses
    simpa [placed] using uses
  · intro scope declared after r rs onStack param params rest declares _ later used uses
    have taken := Scope.slotted_of_declare declares
    have others := later (used + 1) (taken.uses uses)
    rw [taken.bindings uses] at others
    simpa [placed, Nat.add_assoc, Nat.add_comm 1] using others
  · intro scope bound after onStack param params code binds later used uses
    have others := later used (uses.bind binds)
    obtain ⟨-, same⟩ := Scope.bind_eq_ok_iff.mp binds
    rw [same] at others
    simpa [placed] using others

/-- Moves from registers to the slots that are numbered from `first` on. -/
def arriving (registers : List Register) (first : Nat) : Code :=
  registers.mapIdx fun k r => .mov (frameSlot (first + k)) (.reg r valueWidth)

theorem arriving_cons (r : Register) (rs : List Register) (first : Nat) :
    arriving (r :: rs) first =
      .mov (frameSlot first) (.reg r valueWidth) :: arriving rs (first + 1) := by
  simp [arriving, Nat.add_assoc, Nat.add_comm 1]

/-- Only moves, each of them into a slot. -/
theorem mov_of_mem_arriving {registers : List Register} {first : Nat} {i : Instruction}
    (among : i ∈ arriving registers first) :
    ∃ k r, i = .mov (frameSlot k) (.reg r valueWidth) := by
  obtain ⟨k, inside, rfl⟩ := List.mem_mapIdx.mp among
  exact ⟨first + k, registers[k], rfl⟩

/-- The code of parameters stores each register that carries one to the next slot. -/
theorem code_of_lowerParams {registers : List Register} {onStack used : Nat}
    {params : List Binding} {scope after : Scope} {code : Code} (uses : scope.Uses used)
    (lowers : lowerParams scope registers onStack params = .ok (code, after)) :
    code = arriving (registers.take params.length) used := by
  refine lowerParams_induction (motive := fun scope registers _ params code _ =>
    ∀ used, scope.Uses used → code = arriving (registers.take params.length) used)
    ?_ ?_ ?_ lowers used uses
  · intro scope registers onStack used uses
    rw [List.length_nil, List.take_zero]
    rfl
  · intro scope declared after r rs onStack param params rest declares _ later used uses
    have taken := (Scope.slotted_of_declare declares).uses uses
    rw [List.length_cons, List.take_succ_cons, arriving_cons, uses.nextSlot_eq,
      later (used + 1) taken]
  · intro scope bound after onStack param params code binds later used uses
    have others := later used (uses.bind binds)
    rwa [List.take_nil] at others ⊢

/-- The moves that store the arguments in registers to the first slots. -/
def Func.arrivals (f : Func) : Code := arriving (argRegisters.take f.params.length) 0

section Function

variable {f : Func} {callees : List String} {body : Code} {final : Scope}

/-- The code of a function is that of its parameters, which depends on their number only, and
then that of its statements. -/
theorem Func.begins_with_arrivals (lowers : f.lowerBody callees = .ok (body, final)) :
    ∃ between statements,
      lowerParams (.fresh f.name callees) argRegisters 0 f.params = .ok (f.arrivals, between) ∧
      Stmt.lowerAll between f.body = .ok (statements, final) ∧
      body = f.arrivals ++ statements := by
  obtain ⟨stores, between, statements, binds, lowersBody, rfl⟩ := Func.lowerBody_iff.mp lowers
  have none : (Scope.fresh f.name callees).Uses 0 := rfl
  obtain rfl : stores = f.arrivals := code_of_lowerParams none binds
  exact ⟨between, statements, binds, lowersBody, rfl⟩

/-- The bindings at the end of a function: slots for the parameters in registers and
for the declarations of the body, and the arguments on the stack in between. -/
theorem Func.bindings_of_lowerBody (lowers : f.lowerBody callees = .ok (body, final)) :
    final.bindings.reverse =
      placed frameSlot 0 ((f.params.take 6).map Binding.name) ++ placed stackArg 0 f.stackNames ++
        placed frameSlot (f.params.take 6).length (Stmt.declaredNamesAll f.body) := by
  obtain ⟨stores, between, statements, binds, lowersBody, -⟩ := Func.lowerBody_iff.mp lowers
  have none : (Scope.fresh f.name callees).Uses 0 := rfl
  obtain ⟨bindings, uses⟩ := bindings_of_lowerParams none binds
  have late := Stmt.slotted_of_lowerAll lowersBody
  have six : argRegisters.length = 6 := rfl
  rw [late.bindings uses, bindings, six]
  simp [Scope.fresh, Func.stackNames]

/-- A scope lists its names in reverse: the last declared is found first. -/
theorem Func.names_of_lowerBody (lowers : f.lowerBody callees = .ok (body, final)) :
    final.names.reverse = f.variableNames := by
  rw [Scope.names, ← List.map_reverse, Func.bindings_of_lowerBody lowers]
  simp only [List.map_append, map_fst_placed, Func.stackNames]
  rw [← List.map_append, List.take_append_drop, Func.variableNames]

theorem Func.mem_bindings_of_slot (lowers : f.lowerBody callees = .ok (body, final)) {k : Nat}
    {name : String} (found : f.slotNames[k]? = some name) :
    (name, frameSlot k) ∈ final.bindings := by
  have cell := mem_placed frameSlot found
  rw [← List.mem_reverse, Func.bindings_of_lowerBody lowers]
  rw [Func.slotNames, placed_append, List.length_map, Nat.zero_add] at cell
  simp only [List.mem_append] at cell ⊢
  tauto

theorem Func.mem_bindings_of_stack (lowers : f.lowerBody callees = .ok (body, final)) {j : Nat}
    {name : String} (found : f.stackNames[j]? = some name) :
    (name, stackArg j) ∈ final.bindings := by
  rw [← List.mem_reverse, Func.bindings_of_lowerBody lowers]
  exact List.mem_append_left _ (List.mem_append_right _ (mem_placed stackArg found))

end Function

namespace Scope

variable {scope : Scope} {onStack : Nat}

theorem Laid.nodup_names (laid : scope.Laid onStack) : scope.names.Nodup :=
  List.pairwise_map.mpr (laid.apart.imp fun differ => differ.1)

/-- Names are bound once, so a binding is what its name is found to be. -/
theorem Laid.find?_of_mem (laid : scope.Laid onStack) {name : String} {operand : Operand}
    (among : (name, operand) ∈ scope.bindings) : scope.find? name = some operand := by
  have bound : name ∈ scope.names := List.mem_map.mpr ⟨_, among, rfl⟩
  cases found : scope.find? name with
  | none => exact absurd bound (not_mem_names_iff.mpr found)
  | some other =>
      by_contra differ
      have pairs : (name, other) ≠ (name, operand) := by
        rintro ⟨rfl⟩
        exact differ rfl
      exact (laid.differ (mem_of_find? found) among pairs).1 rfl

end Scope

/-! ## Cells -/

/-- The variable at an offset takes this byte, both counted from the frame pointer. -/
def Covers (offset byte : Int) : Prop := offset ≤ byte ∧ byte < offset + 4

/-- The byte belongs to the saved frame pointer or to the return address. -/
def IsLink (byte : Int) : Prop := 0 ≤ byte ∧ byte ≤ 15

/-- An offset that a variable of a function may have. -/
def Func.Offset (f : Func) (offset : Int) : Prop :=
  (∃ k : Nat, 1 ≤ k ∧ k ≤ f.frameSize / 4 ∧ offset = -(4 * k : Int)) ∨
    ∃ j : Nat, j < f.params.length - 6 ∧ offset = 16 + 8 * (j : Int)

theorem Func.Offset.not_isLink {f : Func} {offset byte : Int} (of : f.Offset offset)
    (covers : Covers offset byte) : ¬ IsLink byte := by
  unfold Covers at covers
  unfold IsLink
  rcases of with ⟨k, pos, -, rfl⟩ | ⟨j, -, rfl⟩ <;> omega

theorem Func.Offset.not_covers {f : Func} {offset other byte : Int} (of : f.Offset offset)
    (ofOther : f.Offset other) (ne : offset ≠ other) (covers : Covers offset byte) :
    ¬ Covers other byte := by
  unfold Covers at covers ⊢
  rcases of with ⟨k, pos, -, rfl⟩ | ⟨j, -, rfl⟩ <;>
    rcases ofOther with ⟨l, posOther, -, rfl⟩ | ⟨m, -, rfl⟩ <;> omega

theorem Func.offset_of_place {f : Func} {final : Scope} {operand : Operand}
    (cursor : final.cursor = -(f.frameSize : Int))
    (place : final.Place (f.params.length - 6) operand) :
    ∃ offset, f.Offset offset ∧ operand = .mem .bp .long offset := by
  rcases place with ⟨k, pos, within, rfl⟩ | ⟨j, lt, rfl⟩
  · have fits : k ≤ f.frameSize / 4 := by
      simp only [cursor, slotSize] at within
      omega
    exact ⟨_, .inl ⟨k, pos, fits, rfl⟩, rfl⟩
  · exact ⟨_, .inr ⟨j, lt, rfl⟩, rfl⟩

/-- How the scope at the end of a function lays out its variables. -/
structure Func.LaidOut (f : Func) (final : Scope) : Prop where
  /-- The slots fill the frame. -/
  filled : 4 * f.slotNames.length = f.frameSize
  distinct : f.variableNames.Nodup
  bound : ∀ name, (final.find? name).isSome ↔ name ∈ f.variableNames
  slots : ∀ (k : Nat) (name : String), f.slotNames[k]? = some name →
    final.find? name = some (.mem .bp .long (-(4 * (k + 1) : Int)))
  arguments : ∀ (i : Nat) (param : Binding), 6 ≤ i → f.params[i]? = some param →
    final.find? param.name = some (.mem .bp .long (16 + 8 * ((i : Int) - 6)))
  within : ∀ (name : String) (operand : Operand), final.find? name = some operand →
    ∃ offset, f.Offset offset ∧ operand = .mem .bp .long offset
  apart : ∀ (name other : String) (a b : Int), name ≠ other →
    final.find? name = some (.mem .bp .long a) → final.find? other = some (.mem .bp .long b) →
    ∀ byte, Covers a byte → ¬ Covers b byte
  clear : ∀ (name : String) (offset : Int), final.find? name = some (.mem .bp .long offset) →
    ∀ byte, Covers offset byte → ¬ IsLink byte

/-- Every lowered function lays out its variables in this way. -/
theorem Func.laidOut_of_lowerBody {f : Func} {callees : List String} {body : Code}
    {final : Scope} (lowers : f.lowerBody callees = .ok (body, final)) : f.LaidOut final := by
  have laid := Func.laid_of_lowerBody lowers
  have names := Func.names_of_lowerBody lowers
  have within : ∀ (name : String) (operand : Operand), final.find? name = some operand →
      ∃ offset, f.Offset offset ∧ operand = .mem .bp .long offset := fun name operand found =>
    Func.offset_of_place (Func.cursor_of_lowerBody lowers) (laid.place found)
  have offset_of : ∀ (name : String) (offset : Int),
      final.find? name = some (.mem .bp .long offset) → f.Offset offset := by
    intro name offset found
    obtain ⟨_, of, same⟩ := within name _ found
    cases same
    exact of
  refine ⟨f.frameSize_eq_slotNames.symm, ?_, ?_, ?_, ?_, within, ?_, ?_⟩
  · rw [← names, List.nodup_reverse]
    exact laid.nodup_names
  · intro name
    rw [← names, List.mem_reverse, ← not_iff_not, Scope.not_mem_names_iff]
    simp
  · intro k name found
    exact laid.find?_of_mem (Func.mem_bindings_of_slot lowers found)
  · intro i param beyond found
    have stacked : f.stackNames[i - 6]? = some param.name := by
      rw [Func.stackNames, List.getElem?_map, List.getElem?_drop, Nat.add_sub_cancel' beyond, found]
      rfl
    rw [laid.find?_of_mem (Func.mem_bindings_of_stack lowers stacked), stackArg, frameCell]
    simp only [stackArgsOffset, stackArgSize, Nat.cast_sub beyond]
    rfl
  · intro name other a b ne found foundOther byte
    refine (offset_of name a found).not_covers (offset_of other b foundOther) ?_
    rintro rfl
    exact laid.place_ne ne found foundOther rfl
  · intro name offset found byte
    exact (offset_of name offset found).not_isLink

end IntBackend
