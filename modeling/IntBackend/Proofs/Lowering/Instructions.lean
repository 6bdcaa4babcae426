/-
# IntBackend.Proofs.Lowering.Instructions — the instructions that lowering emits

A value that needs no code is a constant or the place of a variable
(`Scope.Source`); every other value is in the accumulator. `Scope.Emits` lists the
instructions that code of expressions is made of, `Scope.EmitsBody` those of
statements, and the theorems say that lowering emits no others. That bodies hold
no label, no return and no change of the frame is read off these lists.
-/
import IntBackend.Proofs.Lowering.Scopes

namespace IntBackend

set_option autoImplicit false

open Convention

/-! ## Operands -/

namespace Scope

/-- Every name is bound to a place in the frame, as declaring and binding do it. -/
def Cells (scope : Scope) : Prop :=
  ∀ ⦃name operand⦄, scope.find? name = some operand → ∃ offset, operand = frameCell offset

/-- Every name is bound to memory at an offset from the frame pointer, of whatever width. -/
def InFrame (scope : Scope) : Prop :=
  ∀ ⦃name operand⦄, scope.find? name = some operand → ∃ w offset, operand = .mem .bp w offset

theorem Cells.inFrame {scope : Scope} (cells : scope.Cells) : scope.InFrame := by
  intro name operand found
  obtain ⟨offset, rfl⟩ := cells found
  exact ⟨valueWidth, offset, rfl⟩

theorem Laid.cells {scope : Scope} {onStack : Nat} (laid : scope.Laid onStack) : scope.Cells := by
  intro name operand found
  rcases laid.place found with ⟨k, -, -, eq⟩ | ⟨j, -, eq⟩
  · exact ⟨_, eq⟩
  · exact ⟨_, eq⟩

/-- If all names of a later scope have their usual cells, so have the fewer names before. -/
theorem Extends.cells {before after : Scope} (extension : before.Extends after)
    (cells : after.Cells) : before.Cells :=
  fun _ _ found => cells (extension.finds found)

/-- A value that is there without code: a constant or a variable. -/
inductive Source (scope : Scope) : Operand → Prop
  | const (value : Int32) : scope.Source (.const (constText value))
  | place {name : String} {operand : Operand} (found : scope.find? name = some operand) :
      scope.Source operand

theorem Source.mono {before after : Scope} (extension : before.Extends after)
    {operand : Operand} (source : before.Source operand) : after.Source operand := by
  cases source with
  | const value => exact .const value
  | place found => exact .place (extension.finds found)

/-- No source is a register, so no write to a register can spoil it. -/
theorem Source.not_register {scope : Scope} (frame : scope.InFrame) {operand : Operand}
    (source : scope.Source operand) (r : Register) : operand.isRegister r = false := by
  cases source with
  | const value => rfl
  | place found =>
      obtain ⟨w, offset, rfl⟩ := frame found
      rfl

end Scope

theorem intoAccumulator_source {scope : Scope} (frame : scope.InFrame) {operand : Operand}
    (source : scope.Source operand) : intoAccumulator operand = [.mov accumulator operand] := by
  rw [intoAccumulator, source.not_register frame]
  rfl

theorem intoAccumulator_accumulator : intoAccumulator accumulator = [] := rfl

/-- A source needs no parking: nothing the right operand computes can overwrite it. -/
theorem park_source {scope : Scope} (frame : scope.InFrame) {left : Valued}
    (source : scope.Source left.value) : park left = left := by
  rw [park, source.not_register frame]
  rfl

/-- A computed left operand makes room for the right one. -/
theorem park_accumulator {left : Valued} (computed : left.value = accumulator) :
    park left = ⟨left.code ++ [.mov scratch accumulator], scratch⟩ := by
  rw [park, computed]
  rfl

namespace Expr

/-- Operations and calls leave their value in the accumulator. -/
def computes (e : Expr) : Bool := e.isBinary || e.isCall

variable {scope : Scope} {out : Valued}

/-- An operation or a call leaves its value in the accumulator, which the next one overwrites. -/
theorem value_of_computes {e : Expr} (computes : e.computes) (lowers : e.lower scope = .ok out) :
    out.value = accumulator := by
  cases e with
  | var name => cases computes
  | const value => cases computes
  | binary op lhs rhs =>
      obtain ⟨combine, left, right, -, -, -, rfl⟩ := lower_binary_iff.mp lowers
      rfl
  | call name args =>
      obtain ⟨-, passed, -, rfl⟩ := lower_call_iff.mp lowers
      rfl

/-- Constants and variables emit nothing at all. -/
theorem source_of_not_computes {e : Expr} (computes : ¬ e.computes)
    (lowers : e.lower scope = .ok out) : out.code = [] ∧ scope.Source out.value := by
  cases e with
  | var name =>
      obtain ⟨operand, found, rfl⟩ := lower_var_iff.mp lowers
      exact ⟨rfl, .place found⟩
  | const value =>
      rw [lower_const] at lowers
      cases lowers
      exact ⟨rfl, .const value⟩
  | binary op lhs rhs => exact absurd rfl computes
  | call name args => exact absurd rfl computes

/-- A value is never left in the scratch register: it is a source or the accumulator. -/
theorem value_of_lower {e : Expr} (lowers : e.lower scope = .ok out) :
    scope.Source out.value ∨ out.value = accumulator := by
  by_cases computes : e.computes
  · exact .inr (value_of_computes computes lowers)
  · exact .inl (source_of_not_computes computes lowers).2

end Expr

/-! ## Code of expressions -/

/-- Arguments do not travel in the registers that have a use of their own. -/
theorem ne_of_mem_argRegisters {r : Register} (carries : r ∈ argRegisters) :
    r ≠ .ax ∧ r ≠ .r10 ∧ r ≠ .sp ∧ r ≠ .bp := by
  revert r
  decide

/-- The instructions of expressions. Values come from constants, variables and the
accumulator; only the right operand of an operation waits in the scratch register. -/
inductive Scope.Emits (scope : Scope) : Instruction → Prop
  | load {operand : Operand} (source : scope.Source operand) :
      scope.Emits (.mov accumulator operand)
  | park : scope.Emits (.mov scratch accumulator)
  | negate : scope.Emits (.imul accumulator (.const "-1"))
  | add {operand : Operand} (left : scope.Source operand ∨ operand = scratch) :
      scope.Emits (.add accumulator operand)
  | mul {operand : Operand} (left : scope.Source operand ∨ operand = scratch) :
      scope.Emits (.imul accumulator operand)
  | pass {register : Register} {operand : Operand} (carries : register ∈ argRegisters)
      (value : scope.Source operand ∨ operand = accumulator) :
      scope.Emits (.mov (.reg register valueWidth) operand)
  | push {operand : Operand} (value : scope.Source operand ∨ operand = accumulator) :
      scope.Emits (.push (operand.withWidth .quad))
  | call {name : String} (known : name ∈ scope.callees) :
      scope.Emits (.call (.function name))
  | drop (count : Nat) : scope.Emits (.add stackPointer (.nat (stackArgSize * count)))

namespace Scope.Emits

theorem mono {before after : Scope} (extension : before.Extends after) {i : Instruction}
    (emits : before.Emits i) : after.Emits i := by
  cases emits with
  | load source => exact .load (source.mono extension)
  | park => exact .park
  | negate => exact .negate
  | add left => exact .add (left.imp_left (·.mono extension))
  | mul left => exact .mul (left.imp_left (·.mono extension))
  | pass carries value => exact .pass carries (value.imp_left (·.mono extension))
  | push value => exact .push (value.imp_left (·.mono extension))
  | call known => exact .call (extension.callees ▸ known)
  | drop count => exact .drop count

end Scope.Emits

theorem emits_of_intoAccumulator {scope : Scope} (frame : scope.InFrame) {operand : Operand}
    (value : scope.Source operand ∨ operand = accumulator) :
    ∀ i ∈ intoAccumulator operand, scope.Emits i := by
  rcases value with source | rfl
  · rw [intoAccumulator_source frame source]
    simpa using .load source
  · rw [intoAccumulator_accumulator]
    simp

theorem emits_of_operation {scope : Scope} {op : BinOp} {combine : Operand → Code}
    (known : operation op = .ok combine) {left : Operand}
    (value : scope.Source left ∨ left = scratch) : ∀ i ∈ combine left, scope.Emits i := by
  cases op with
  | add => cases known; simpa using .add value
  | mul => cases known; simpa using .mul value
  | sub => cases known; simpa using ⟨.negate, .add value⟩
  | div => cases known
  | rem => cases known

theorem emits_of_dropArgs (scope : Scope) (count : Nat) :
    ∀ i ∈ dropArgs count, scope.Emits i := by
  unfold dropArgs
  split
  · simp
  · simpa using .drop count

/-- Parking keeps the code and leaves the value in a source or in the scratch register. -/
theorem emits_of_park {scope : Scope} (frame : scope.InFrame) {left : Valued}
    (value : scope.Source left.value ∨ left.value = accumulator)
    (emits : ∀ i ∈ left.code, scope.Emits i) :
    (∀ i ∈ (park left).code, scope.Emits i) ∧
      (scope.Source (park left).value ∨ (park left).value = scratch) := by
  rcases value with source | computed
  · rw [park_source frame source]
    exact ⟨emits, .inl source⟩
  · rw [park_accumulator computed]
    refine ⟨?_, .inr rfl⟩
    intro i among
    rcases List.mem_append.mp among with among | among
    · exact emits i among
    · rw [List.mem_singleton.mp among]
      exact .park

/-- The code that passes arguments is that of the arguments, a move into a register for each
of the first and a push for each of the others. -/
theorem Expr.mem_code_lowerArgs {scope : Scope} {P : Instruction → Prop} {args : List Expr}
    (each : ∀ arg ∈ args, ∀ {out}, arg.lower scope = .ok out → ∀ i ∈ out.code, P i)
    {registers : List Register}
    (pass : ∀ r ∈ registers, ∀ value, scope.Source value ∨ value = accumulator →
      P (.mov (.reg r valueWidth) value))
    (push : ∀ value : Operand, scope.Source value ∨ value = accumulator →
      P (.push (value.withWidth .quad))) {code : Code}
    (lowers : Expr.lowerArgs scope registers args = .ok code) : ∀ i ∈ code, P i := by
  refine Expr.lowerArgs_induction (motive := fun registers _ code =>
    (∀ r ∈ registers, ∀ value, scope.Source value ∨ value = accumulator →
      P (.mov (.reg r valueWidth) value)) → ∀ i ∈ code, P i) each ?_ ?_ ?_ lowers pass
  · intro registers _
    exact nofun
  · intro r rs arg args first rest lowersFirst here there pass i among
    obtain ⟨passHere, passThere⟩ := List.forall_mem_cons.mp pass
    simp only [List.mem_append, List.mem_singleton] at among
    rcases among with (among | rfl) | among
    · exact here i among
    · exact passHere first.value (Expr.value_of_lower lowersFirst)
    · exact there passThere i among
  · intro arg args first rest lowersFirst here there pass i among
    simp only [List.mem_append, List.mem_singleton] at among
    rcases among with (among | among) | rfl
    · exact there pass i among
    · exact here i among
    · exact push first.value (Expr.value_of_lower lowersFirst)

/-- The code that passes arguments holds as many marked instructions as the arguments have
counted nodes, if that is so of each argument and passing itself is not marked. -/
theorem Expr.countP_code_lowerArgs {scope : Scope} {marked : Instruction → Bool}
    {counted : Expr → Bool} {args : List Expr}
    (each : ∀ arg ∈ args, ∀ {out}, arg.lower scope = .ok out →
      out.code.countP marked = arg.nodes.countP counted)
    {registers : List Register}
    (pass : ∀ r ∈ registers, ∀ value, scope.Source value ∨ value = accumulator →
      marked (.mov (.reg r valueWidth) value) = false)
    (push : ∀ value : Operand, scope.Source value ∨ value = accumulator →
      marked (.push (value.withWidth .quad)) = false) {code : Code}
    (lowers : Expr.lowerArgs scope registers args = .ok code) :
    code.countP marked = (Expr.nodesAll args).countP counted := by
  refine Expr.lowerArgs_induction (motive := fun registers args code =>
    (∀ r ∈ registers, ∀ value, scope.Source value ∨ value = accumulator →
      marked (.mov (.reg r valueWidth) value) = false) →
      code.countP marked = (Expr.nodesAll args).countP counted) each ?_ ?_ ?_ lowers pass
  · intro registers _
    rfl
  · intro r rs arg args first rest lowersFirst here there pass
    obtain ⟨passHere, passThere⟩ := List.forall_mem_cons.mp pass
    have unmarked := passHere first.value (Expr.value_of_lower lowersFirst)
    rw [Expr.nodesAll, List.countP_append, List.countP_append, List.countP_append, here,
      there passThere, List.countP_singleton, unmarked, if_neg Bool.false_ne_true]
    omega
  · intro arg args first rest lowersFirst here there pass
    have unmarked := push first.value (Expr.value_of_lower lowersFirst)
    rw [Expr.nodesAll, List.countP_append, List.countP_append, List.countP_append, here,
      there pass, List.countP_singleton, unmarked, if_neg Bool.false_ne_true]
    omega

theorem Expr.emits_of_lowerArgs {scope : Scope} {args : List Expr}
    (each : ∀ arg ∈ args, ∀ {out}, arg.lower scope = .ok out → ∀ i ∈ out.code, scope.Emits i)
    {code : Code} (lowers : Expr.lowerArgs scope argRegisters args = .ok code) :
    ∀ i ∈ code, scope.Emits i :=
  Expr.mem_code_lowerArgs each (fun _ carries _ => .pass carries) (fun _ => .push) lowers

/-- Code of expressions holds the listed instructions and no others. -/
theorem Expr.emits_of_inFrame (e : Expr) {scope : Scope} (frame : scope.InFrame) {out : Valued}
    (lowers : e.lower scope = .ok out) : ∀ i ∈ out.code, scope.Emits i := by
  induction e generalizing out with
  | var name =>
      obtain ⟨operand, -, rfl⟩ := Expr.lower_var_iff.mp lowers
      simp
  | const value =>
      rw [Expr.lower_const] at lowers
      cases lowers
      simp
  | binary op lhs rhs leftEmits rightEmits =>
      obtain ⟨combine, left, right, known, lowersLeft, lowersRight, rfl⟩ :=
        Expr.lower_binary_iff.mp lowers
      have parked := emits_of_park frame (Expr.value_of_lower lowersLeft) (leftEmits lowersLeft)
      intro i among
      simp only [List.mem_append] at among
      rcases among with ((among | among) | among) | among
      · exact parked.1 i among
      · exact rightEmits lowersRight i among
      · exact emits_of_intoAccumulator frame (Expr.value_of_lower lowersRight) i among
      · exact emits_of_operation known parked.2 i among
  | call name args each =>
      obtain ⟨known, passed, passes, rfl⟩ := Expr.lower_call_iff.mp lowers
      intro i among
      simp only [List.mem_append, List.mem_singleton] at among
      rcases among with (among | rfl) | among
      · exact Expr.emits_of_lowerArgs (fun arg among => each arg among) passes i among
      · exact .call known
      · exact emits_of_dropArgs scope _ i among

/-- The list of instructions of an expression, where all names have their usual cells. -/
theorem Expr.emits_of_lower (e : Expr) {scope : Scope} (cells : scope.Cells) {out : Valued}
    (lowers : e.lower scope = .ok out) : ∀ i ∈ out.code, scope.Emits i :=
  e.emits_of_inFrame cells.inFrame lowers

/-! ## Code of statements and parameters -/

/-- The instructions of a function between its prologue and its epilogue. -/
inductive Scope.EmitsBody (scope : Scope) : Instruction → Prop
  | value {i : Instruction} (emits : scope.Emits i) : scope.EmitsBody i
  | store {name : String} {dst src : Operand} (found : scope.find? name = some dst)
      (value : (∃ n, src = .const (constText n)) ∨ src = accumulator) :
      scope.EmitsBody (.mov dst src)
  | arrive {name : String} {dst : Operand} {register : Register}
      (found : scope.find? name = some dst) (carries : register ∈ argRegisters) :
      scope.EmitsBody (.mov dst (.reg register valueWidth))
  | leave : scope.EmitsBody (.jmp scope.exit)

theorem Scope.EmitsBody.mono {before after : Scope} (extension : before.Extends after)
    {i : Instruction} (emits : before.EmitsBody i) : after.EmitsBody i := by
  cases emits with
  | value emits => exact .value (emits.mono extension)
  | store found value => exact .store (extension.finds found) value
  | arrive found carries => exact .arrive (extension.finds found) carries
  | leave =>
      rw [Scope.exit, ← extension.function]
      exact .leave

theorem emitsBody_of_store {scope : Scope} (cells : scope.Cells) {name : String}
    {dst src : Operand} (found : scope.find? name = some dst)
    (value : scope.Source src ∨ src = accumulator) :
    ∀ i ∈ store dst src, scope.EmitsBody i := by
  obtain ⟨offset, rfl⟩ := cells found
  rcases value with source | rfl
  · cases source with
    | const n => simpa [store, frameCell, Operand.isMemory] using .store found (.inl ⟨n, rfl⟩)
    | place foundSrc =>
        obtain ⟨srcOffset, rfl⟩ := cells foundSrc
        have through : store (frameCell offset) (frameCell srcOffset) =
            [.mov accumulator (frameCell srcOffset), .mov (frameCell offset) accumulator] := rfl
        rw [through]
        simpa using ⟨.value (.load (.place foundSrc)), .store found (.inr rfl)⟩
  · have plain : store (frameCell offset) accumulator = [.mov (frameCell offset) accumulator] := rfl
    rw [plain]
    simpa using .store found (.inr rfl)

/-- `Stmt.lowerAll_induction` for what holds in the scope at the end, where all names of the
body are bound: a leaf is lowered in a scope that the final one extends. -/
theorem Stmt.lowerAll_induction_cells {motive : List Stmt → Code → Scope → Prop}
    (nil : ∀ scope, motive [] [] scope)
    (cons : ∀ {scope between after : Scope} {s : Stmt} {ss : List Stmt} {head tail : Code},
      s.isBlock = false → s.lower scope = .ok (head, between) → between.Cells →
      between.Extends after → motive ss tail after → motive (s :: ss) (head ++ tail) after)
    {scope after : Scope} {body : List Stmt} {code : Code}
    (lowers : Stmt.lowerAll scope body = .ok (code, after)) (cells : after.Cells) :
    motive (Stmt.leavesAll body) code after := by
  refine Stmt.lowerAll_induction
    (motive := fun _ leaves code after => after.Cells → motive leaves code after)
    (fun scope _ => nil scope) ?_ lowers cells
  intro scope between after s ss head tail alone lowersHead lowersTail later cells
  have extension := (Stmt.grown_of_body 0 lowersTail).extension
  exact cons alone lowersHead (extension.cells cells) extension (later cells)

/-- A statement that is no block emits its values' code and at most a store or a jump. -/
theorem Stmt.emitsBody_of_leaf {s : Stmt} {scope after : Scope} {code : Code}
    (alone : s.isBlock = false) (lowers : s.lower scope = .ok (code, after))
    (cells : after.Cells) : ∀ i ∈ code, after.EmitsBody i := by
  cases s with
  | declare binding =>
      obtain ⟨-, rfl⟩ := Stmt.lower_declare_iff.mp lowers
      simp
  | assign target value =>
      obtain ⟨dst, src, found, lowersValue, rfl, rfl⟩ := Stmt.lower_assign_iff.mp lowers
      intro i among
      rcases List.mem_append.mp among with among | among
      · exact .value (value.emits_of_lower cells lowersValue i among)
      · exact emitsBody_of_store cells found (Expr.value_of_lower lowersValue) i among
  | eval value =>
      obtain ⟨src, lowersValue, rfl, rfl⟩ := Stmt.lower_eval_iff.mp lowers
      exact fun i among => .value (value.emits_of_lower cells lowersValue i among)
  | ret value =>
      cases value with
      | none =>
          obtain ⟨rfl, rfl⟩ := Stmt.lower_ret_none_iff.mp lowers
          simpa using .leave
      | some value =>
          obtain ⟨src, lowersValue, rfl, rfl⟩ := Stmt.lower_ret_some_iff.mp lowers
          intro i among
          simp only [List.mem_append, List.mem_singleton] at among
          rcases among with (among | among) | rfl
          · exact .value (value.emits_of_lower cells lowersValue i among)
          · exact .value (emits_of_intoAccumulator cells.inFrame (Expr.value_of_lower lowersValue)
              i among)
          · exact .leave
  | block body => cases alone

theorem Stmt.emitsBody_of_lowerAll {scope after : Scope} {body : List Stmt} {code : Code}
    (lowers : Stmt.lowerAll scope body = .ok (code, after)) (cells : after.Cells) :
    ∀ i ∈ code, after.EmitsBody i := by
  refine Stmt.lowerAll_induction_cells
    (motive := fun _ code after => ∀ i ∈ code, after.EmitsBody i) nofun ?_ lowers cells
  intro scope between after s ss head tail alone lowersHead cells extension later i among
  rcases List.mem_append.mp among with among | among
  · exact (Stmt.emitsBody_of_leaf alone lowersHead cells i among).mono extension
  · exact later i among

theorem emitsBody_of_lowerParams {registers : List Register} (carry : registers ⊆ argRegisters)
    {onStack : Nat} {params : List Binding} {scope after : Scope} {code : Code}
    (lowers : lowerParams scope registers onStack params = .ok (code, after)) :
    ∀ i ∈ code, after.EmitsBody i := by
  refine lowerParams_induction (motive := fun _ registers _ _ code after =>
    registers ⊆ argRegisters → ∀ i ∈ code, after.EmitsBody i) ?_ ?_ ?_ lowers carry
  · intro scope registers onStack _
    exact nofun
  · intro scope declared after r rs onStack param params rest declares lowersRest later carry
    have extension := (grown_of_lowerParams lowersRest).extension
    have found := extension.finds (Scope.find?_of_declare declares)
    obtain ⟨carries, others⟩ := List.cons_subset.mp carry
    intro i among
    rcases List.mem_cons.mp among with rfl | among
    · exact .arrive found carries
    · exact later others i among
  · intro scope bound after onStack param params code _ later
    exact later

/-- At the end of a function every variable has a place of its own. -/
theorem Func.laid_of_lowerBody {f : Func} {callees : List String} {code : Code} {after : Scope}
    (lowers : f.lowerBody callees = .ok (code, after)) :
    after.Laid (f.params.length - argRegisters.length) :=
  (Func.grown_of_lowerBody lowers).laid (Scope.laid_fresh f.name callees)

/-- All that stands between the prologue and the epilogue of a function, told in its last scope.
Facts about single instructions of a body are read off this list. -/
theorem Func.emitsBody_of_lowerBody {f : Func} {callees : List String} {code : Code}
    {after : Scope} (lowers : f.lowerBody callees = .ok (code, after)) :
    ∀ i ∈ code, after.EmitsBody i := by
  have cells := (Func.laid_of_lowerBody lowers).cells
  obtain ⟨stores, between, body, binds, lowersBody, rfl⟩ := Func.lowerBody_iff.mp lowers
  have extension := (Stmt.grown_of_body 0 lowersBody).extension
  intro i among
  rcases List.mem_append.mp among with among | among
  · exact (emitsBody_of_lowerParams (fun _ => id) binds i among).mono extension
  · exact Stmt.emitsBody_of_lowerAll lowersBody cells i among

/-! ## What bodies do not hold -/

theorem Scope.Emits.op_ne_jmp {scope : Scope} {i : Instruction} (emits : scope.Emits i) :
    i.op ≠ .jmp := by
  cases emits <;> nofun

/-- Labels stand in prologues and epilogues only. -/
theorem Scope.EmitsBody.unlabelled {scope : Scope} {i : Instruction} (emits : scope.EmitsBody i) :
    i.label = none := by
  cases emits with
  | value emits => cases emits <;> rfl
  | store found value => rfl
  | arrive found carries => rfl
  | leave => rfl

/-- The opcodes of a body. Subtracting, popping and returning are left to the frame's code. -/
theorem Scope.EmitsBody.op_mem {scope : Scope} {i : Instruction} (emits : scope.EmitsBody i) :
    i.op ∈ [Opcode.mov, .add, .imul, .push, .call, .jmp] := by
  cases emits with
  | value emits => cases emits <;> simp [Instruction.mov, Instruction.add, Instruction.imul,
      Instruction.push, Instruction.call, Instruction.plain]
  | store found value => simp [Instruction.mov, Instruction.plain]
  | arrive found carries => simp [Instruction.mov, Instruction.plain]
  | leave => simp [Instruction.jmp, Instruction.plain]

end IntBackend
