/-
# IntBackend.Proofs.Preservation.Values — code of expressions without calls

Such code has no jumps: it runs to its end, leaves the value of the expression in
the operand that lowering names, and touches nothing but the accumulator and the
scratch register. An expression in which no operation has an operation on its left
does not touch the scratch register either, which is what lets it stand beside a
left operand that is kept there.
-/
import IntBackend.Proofs.Lowering.Instructions
import IntBackend.Proofs.Machine.Steps
import IntBackend.Proofs.Source.Discipline
import IntBackend.Proofs.Source.Meaning

namespace IntBackend

set_option autoImplicit false

open Convention

/-! ## Where values are -/

/-- The machine holds the value of every variable that has one. -/
def Scope.Represents (scope : Scope) (env : Env) (m : Machine) : Prop :=
  ∀ ⦃name operand v⦄, scope.find? name = some operand → env name = some v →
    m.value operand = some v

namespace Scope

variable {scope : Scope} {operand : Operand}

theorem Source.fitsValue (cells : scope.Cells) (source : scope.Source operand) :
    operand.FitsValue := by
  cases source with
  | const value => exact .inl rfl
  | place found =>
      obtain ⟨offset, rfl⟩ := cells found
      exact .inr rfl

theorem fitsValue_of_value (cells : scope.Cells)
    (value : scope.Source operand ∨ operand = accumulator) : operand.FitsValue := by
  rcases value with source | rfl
  · exact source.fitsValue cells
  · exact .inr rfl

/-- Constants and variables depend on the frame pointer and memory only. -/
theorem Source.value_eq (cells : scope.Cells) (source : scope.Source operand) {m after : Machine}
    (base : after.regs .bp = m.regs .bp) (mem : after.mem = m.mem) :
    after.value operand = m.value operand := by
  cases source with
  | const value => rfl
  | place found =>
      obtain ⟨offset, rfl⟩ := cells found
      rw [Machine.value_frameCell, Machine.value_frameCell, Machine.address, Machine.address,
        base, mem]

end Scope

/-- Nothing but the accumulator and the scratch register has changed. -/
structure Machine.Spares (before after : Machine) : Prop where
  mem : after.mem = before.mem
  regs : ∀ r, r ≠ .ax → r ≠ .r10 → after.regs r = before.regs r

namespace Machine.Spares

theorem refl (m : Machine) : m.Spares m := ⟨rfl, fun _ _ _ => rfl⟩

theorem trans {first second third : Machine} (early : first.Spares second)
    (late : second.Spares third) : first.Spares third :=
  ⟨late.mem.trans early.mem,
    fun r notAx notR10 => (late.regs r notAx notR10).trans (early.regs r notAx notR10)⟩

theorem set_ax (m : Machine) (word : BitVec 64) : m.Spares (m.set .ax word) :=
  ⟨rfl, fun _ notAx _ => m.regs_set_of_ne word notAx⟩

theorem set_r10 (m : Machine) (word : BitVec 64) : m.Spares (m.set .r10 word) :=
  ⟨rfl, fun _ _ notR10 => m.regs_set_of_ne word notR10⟩

/-- Sources keep their values while only the two working registers change. -/
theorem value_eq {scope : Scope} (cells : scope.Cells) {before after : Machine}
    (spares : before.Spares after) {operand : Operand} (source : scope.Source operand) :
    after.value operand = before.value operand :=
  source.value_eq cells (spares.regs .bp (by decide) (by decide)) spares.mem

theorem represents {scope : Scope} (cells : scope.Cells) {before after : Machine}
    (spares : before.Spares after) {env : Env} (represents : scope.Represents env before) :
    scope.Represents env after := by
  intro name operand v found has
  rw [spares.value_eq cells (.place found)]
  exact represents found has

end Machine.Spares

/-! ## Operations -/

/-- Bringing a value into the accumulator, whether it has to be moved or not. -/
theorem runLine_intoAccumulator {scope : Scope} (cells : scope.Cells) {operand : Operand}
    (value : scope.Source operand ∨ operand = accumulator) {m : Machine} {v : Int32}
    (holds : m.value operand = some v) :
    ∃ word, lowInt word = v ∧ runLine (intoAccumulator operand) m = some (m.set .ax word) := by
  rcases value with source | rfl
  · obtain ⟨word, low, moves⟩ := Machine.mov_reg .ax (source.fitsValue cells) holds
    refine ⟨word, low, ?_⟩
    rw [intoAccumulator_source cells.inFrame source, runLine_singleton]
    exact moves
  · refine ⟨m.regs .ax, Option.some.inj holds, ?_⟩
    rw [intoAccumulator_accumulator, runLine, Machine.set_regs]

/-- The code of an operation computes it, given its left operand and the right one in the
accumulator. -/
theorem runLine_operation {op : BinOp} {combine : Operand → Code}
    (known : operation op = .ok combine) {left : Operand} (fits : left.FitsValue) {m : Machine}
    {a b v : Int32} (holds : ∀ word, (m.set .ax word).value left = some a)
    (right : lowInt (m.regs .ax) = b) (applies : op.apply? a b = some v) :
    ∃ word, lowInt word = v ∧ runLine (combine left) m = some (m.set .ax word) := by
  have now : m.value left = some a := m.set_regs .ax ▸ holds (m.regs .ax)
  cases op with
  | add =>
      cases known
      cases applies
      obtain ⟨word, low, adds⟩ := Machine.add_reg .ax fits now
      refine ⟨word, ?_, (runLine_singleton ..).trans adds⟩
      rw [low, right, Int32.add_comm]
  | mul =>
      cases known
      cases applies
      obtain ⟨word, low, multiplies⟩ := Machine.imul_reg .ax fits now
      refine ⟨word, ?_, (runLine_singleton ..).trans multiplies⟩
      rw [low, right, Int32.mul_comm]
  | sub =>
      cases known
      cases applies
      obtain ⟨negative, lowNegative, negates⟩ :=
        Machine.imul_reg .ax (.inl rfl) (m.value_const (-1))
      obtain ⟨word, low, adds⟩ := Machine.add_reg .ax fits (holds negative)
      refine ⟨word, ?_, ?_⟩
      · rw [low, Machine.regs_set_self, lowNegative, right, Int32.mul_neg, Int32.mul_one,
          Int32.add_comm, Int32.sub_eq_add_neg]
      · have both := runLine_append_of_eq ((runLine_singleton ..).trans negates)
          ((runLine_singleton ..).trans adds)
        rw [Machine.set_set] at both
        exact both
  | div => cases known
  | rem => cases known

theorem Machine.value_scratch_set_ax (m : Machine) (word : BitVec 64) :
    (m.set .ax word).value scratch = m.value scratch :=
  congrArg (some <| lowInt ·) (m.regs_set_of_ne word (by decide))

/-- From both operands to the result: the right one goes to the accumulator first. -/
theorem runLine_combine {scope : Scope} (cells : scope.Cells) {op : BinOp}
    {combine : Operand → Code} (known : operation op = .ok combine) {left right : Operand}
    (valueLeft : scope.Source left ∨ left = scratch)
    (valueRight : scope.Source right ∨ right = accumulator) {m : Machine} {a b v : Int32}
    (holdsLeft : m.value left = some a) (holdsRight : m.value right = some b)
    (applies : op.apply? a b = some v) :
    ∃ word, lowInt word = v ∧
      runLine (intoAccumulator right ++ combine left) m = some (m.set .ax word) := by
  have fits : left.FitsValue := by
    rcases valueLeft with source | rfl
    · exact source.fitsValue cells
    · exact .inr rfl
  have steady : ∀ word, (m.set .ax word).value left = some a := by
    intro word
    rw [← holdsLeft]
    rcases valueLeft with source | rfl
    · exact (Machine.Spares.set_ax m word).value_eq cells source
    · exact m.value_scratch_set_ax word
  obtain ⟨loaded, low, loads⟩ := runLine_intoAccumulator cells valueRight holdsRight
  have steadyLoaded : ∀ word, ((m.set .ax loaded).set .ax word).value left = some a := by
    intro word
    rw [Machine.set_set]
    exact steady word
  have there : lowInt ((m.set .ax loaded).regs .ax) = b := by rw [Machine.regs_set_self, low]
  obtain ⟨word, lowWord, combines⟩ := runLine_operation known fits steadyLoaded there applies
  have both := runLine_append_of_eq loads combines
  rw [Machine.set_set] at both
  exact ⟨word, lowWord, both⟩

/-! ## Expressions -/

namespace Expr

/-- A constant or a variable is read off the machine as it is. -/
theorem value_of_not_computes {scope : Scope} {env : Env} {m : Machine} {calls : Calls}
    (represents : scope.Represents env m) {e : Expr} (computes : ¬ e.computes) {out : Valued}
    (lowers : e.lower scope = .ok out) {v : Int32} (evals : e.eval calls env = some v) :
    m.value out.value = some v := by
  cases e with
  | var name =>
      obtain ⟨operand, found, rfl⟩ := lower_var_iff.mp lowers
      rw [eval] at evals
      exact represents found evals
  | const value =>
      rw [lower_const] at lowers
      cases lowers
      rw [eval] at evals
      rw [← evals]
      exact m.value_const value
  | binary op lhs rhs => exact absurd rfl computes
  | call name args => exact absurd rfl computes

/-- What the code of an expression without calls does. -/
structure Computed (e : Expr) (out : Valued) (v : Int32) (before after : Machine) : Prop where
  runs : runLine out.code before = some after
  value : after.value out.value = some v
  spares : before.Spares after
  scratch : e.Upright → after.regs .r10 = before.regs .r10

/-- Constants and variables are computed by no code at all. -/
theorem computed_of_not_computes {scope : Scope} {env : Env} {m : Machine} {calls : Calls}
    (represents : scope.Represents env m) {e : Expr} {out : Valued}
    (lowers : e.lower scope = .ok out) {v : Int32} (evals : e.eval calls env = some v)
    (computes : ¬ e.computes) : e.Computed out v m m := by
  have noCode := (source_of_not_computes computes lowers).1
  exact ⟨by rw [noCode]; rfl, value_of_not_computes represents computes lowers evals, .refl m,
    fun _ => rfl⟩

/-- A right operand that leaves the scratch register alone, beside a left value that is
kept there. -/
theorem runLine_beside_scratch {scope : Scope} (cells : scope.Cells) {env : Env} {m : Machine}
    {op : BinOp} {combine : Operand → Code} (known : operation op = .ok combine) {rhs : Expr}
    {right : Valued} {a b v : Int32}
    (computes : ∀ {m}, scope.Represents env m → ∃ after, rhs.Computed right b m after)
    (lowers : rhs.lower scope = .ok right) (upright : rhs.Upright)
    (applies : op.apply? a b = some v) (represents : scope.Represents env m)
    (holds : m.value accumulator = some a) :
    ∃ after, m.Spares after ∧ after.value accumulator = some v ∧ after.value scratch = some a ∧
      runLine ([.mov scratch accumulator] ++ (right.code ++ (intoAccumulator right.value ++
        combine scratch))) m = some after := by
  obtain ⟨word, low, moves⟩ := Machine.mov_reg .r10 (.inr rfl) holds
  have parks := Machine.Spares.set_r10 m word
  obtain ⟨loaded, ran⟩ := computes (parks.represents cells represents)
  have kept : loaded.value scratch = some a := by
    rw [Convention.scratch, Machine.value_reg, ran.scratch upright, Machine.regs_set_self, low]
  obtain ⟨result, lowResult, combines⟩ :=
    runLine_combine cells known (.inr rfl) (value_of_lower lowers) kept ran.value applies
  refine ⟨loaded.set .ax result, (parks.trans ran.spares).trans (.set_ax _ _), ?_, ?_, ?_⟩
  · rw [accumulator, Machine.value_reg, Machine.regs_set_self, lowResult]
  · rw [Machine.value_scratch_set_ax, kept]
  · exact runLine_append_of_eq ((runLine_singleton ..).trans moves)
      (runLine_append_of_eq ran.runs combines)

/-- The value of an expression without calls is computed where lowering says, in
32-bit arithmetic that wraps. -/
theorem computed_of_callFree (e : Expr) {scope : Scope} (cells : scope.Cells) {calls : Calls}
    {env : Env} {m : Machine} {out : Valued} {v : Int32} (free : e.CallFree)
    (disciplined : e.Disciplined) (lowers : e.lower scope = .ok out)
    (evals : e.eval calls env = some v) (represents : scope.Represents env m) :
    ∃ after, e.Computed out v m after := by
  induction e generalizing m out v with
  | var name => exact ⟨m, computed_of_not_computes represents lowers evals Bool.false_ne_true⟩
  | const n => exact ⟨m, computed_of_not_computes represents lowers evals Bool.false_ne_true⟩
  | call callee args each => exact free.not_call.elim
  | binary op lhs rhs evalLeft evalRight =>
      obtain ⟨combine, left, right, known, lowersLeft, lowersRight, rfl⟩ :=
        lower_binary_iff.mp lowers
      obtain ⟨a, b, evalsLeft, evalsRight, applies⟩ := eval_binary_iff.mp evals
      obtain ⟨freeLeft, freeRight⟩ := free.binary
      obtain ⟨orderly, disciplinedLeft, disciplinedRight⟩ := disciplined.binary
      have valueRight := value_of_lower lowersRight
      by_cases computes : lhs.computes
      · have nested := freeLeft.isBinary_of_computes computes
        have upright := (orderly (.inl nested)).2
        have inAccumulator := value_of_computes computes lowersLeft
        obtain ⟨first, ran⟩ := evalLeft freeLeft disciplinedLeft lowersLeft evalsLeft represents
        obtain ⟨after, spares, value, -, runsRest⟩ := runLine_beside_scratch cells known
          (evalRight freeRight disciplinedRight lowersRight evalsRight) lowersRight upright applies
          (ran.spares.represents cells represents) (inAccumulator ▸ ran.value)
        refine ⟨after, ?_, value, ran.spares.trans spares, ?_⟩
        · rw [park_accumulator inAccumulator]
          simp only [List.append_assoc]
          exact runLine_append_of_eq ran.runs runsRest
        · intro upright
          simp [upright.binary.1] at nested
      · obtain ⟨noCode, sourceLeft⟩ := source_of_not_computes computes lowersLeft
        have holdsLeft := value_of_not_computes represents computes lowersLeft evalsLeft
        obtain ⟨first, ranRight⟩ :=
          evalRight freeRight disciplinedRight lowersRight evalsRight represents
        have kept : first.value left.value = some a := by
          rw [ranRight.spares.value_eq cells sourceLeft, holdsLeft]
        obtain ⟨result, lowResult, combines⟩ :=
          runLine_combine cells known (.inl sourceLeft) valueRight kept ranRight.value applies
        refine ⟨first.set .ax result, ?_, ?_, ranRight.spares.trans (.set_ax _ _), ?_⟩
        · rw [park_source cells.inFrame sourceLeft, noCode]
          simp only [List.append_assoc, List.nil_append]
          exact runLine_append_of_eq ranRight.runs combines
        · rw [accumulator, Machine.value_reg, Machine.regs_set_self, lowResult]
        · intro upright
          rw [Machine.regs_set_of_ne _ _ (by decide), ranRight.scratch upright.binary.2]

end Expr

/-! ## Values of what memory holds -/

/-- What the places of the bound variables hold. -/
def Scope.contents (scope : Scope) (m : Machine) : Env :=
  fun name => (scope.find? name).bind m.value

theorem Scope.represents_contents (scope : Scope) (m : Machine) :
    scope.Represents (scope.contents m) m := by
  intro name operand v found holds
  rw [contents, found] at holds
  exact holds

/-- An operator that has code has a result for all operands. -/
theorem BinOp.exists_apply? {op : BinOp} {combine : Operand → Code}
    (known : operation op = .ok combine) (a b : Int32) : ∃ v, op.apply? a b = some v := by
  cases op with
  | add => exact ⟨a + b, rfl⟩
  | sub => exact ⟨a - b, rfl⟩
  | mul => exact ⟨a * b, rfl⟩
  | div => cases known
  | rem => cases known

namespace Expr

/-- Memory always holds something, so an expression that lowers has a value. -/
theorem exists_eval_contents (e : Expr) {scope : Scope} (cells : scope.Cells) (free : e.CallFree)
    {out : Valued} (lowers : e.lower scope = .ok out) (calls : Calls) (m : Machine) :
    ∃ v, e.eval calls (scope.contents m) = some v := by
  induction e generalizing out with
  | var name =>
      obtain ⟨operand, found, -⟩ := lower_var_iff.mp lowers
      obtain ⟨offset, rfl⟩ := cells found
      refine ⟨m.mem.cell (m.address .bp offset), ?_⟩
      rw [eval, Scope.contents, found]
      exact m.value_frameCell offset
  | const n => exact ⟨n, by rw [eval]⟩
  | call callee args each => exact free.not_call.elim
  | binary op lhs rhs evalLeft evalRight =>
      obtain ⟨combine, left, right, known, lowersLeft, lowersRight, -⟩ := lower_binary_iff.mp lowers
      obtain ⟨a, evalsLeft⟩ := evalLeft free.binary.1 lowersLeft
      obtain ⟨b, evalsRight⟩ := evalRight free.binary.2 lowersRight
      obtain ⟨v, applies⟩ := BinOp.exists_apply? known a b
      exact ⟨v, eval_binary_iff.mpr ⟨a, b, evalsLeft, evalsRight, applies⟩⟩

/-- The code of an expression without calls computes its value from what memory holds at
first, and changes nothing but the accumulator and the scratch register. -/
theorem code_computes_value {e : Expr} {scope : Scope} (cells : scope.Cells) (free : e.CallFree)
    (single : ∀ ⦃op lhs rhs⦄, binary op lhs rhs ∈ e.nodes → lhs.isBinary → rhs.Upright)
    {out : Valued} (lowers : e.lower scope = .ok out) (calls : Calls) (m : Machine) :
    ∃ v after, e.eval calls (scope.contents m) = some v ∧ runLine out.code m = some after ∧
      after.value out.value = some v ∧ m.Spares after := by
  obtain ⟨v, evals⟩ := e.exists_eval_contents cells free lowers calls m
  obtain ⟨after, computed⟩ := e.computed_of_callFree cells free
    (e.disciplined_of_callFree free single) lowers evals (scope.represents_contents m)
  exact ⟨v, after, evals, computed.runs, computed.value, computed.spares⟩

/-- Operations that lean left on the left and right on the right. -/
def leaning : Expr :=
  let sub := binary .sub
  sub (binary .mul (sub (.var "low") (.var "one")) (.const (-3)))
    (sub (.const (-2147483648)) (sub (.var "one") (binary .add (.var "low") (.const 7))))

/-- One variable is at the top of the frame, the other among the arguments on the stack. -/
def twoCells : Scope := ⟨"f", ["f"], [("one", frameCell (-4)), ("low", stackArg 1)], -4⟩

/-- The lowest number stands at address 120 and the number one at address 92. -/
def lowestAndOne : Machine :=
  ⟨fun _ => 96, fun a => if a = 123 then 0x80 else if a = 92 then 1 else 0⟩

theorem code_computes_value_leaning :
    twoCells.Cells ∧ leaning.CallFree ∧ leaning.Disciplined ∧
      leaning.eval (fun _ _ => none) (twoCells.contents lowestAndOne) = some 2147483645 ∧
      ∃ out after, leaning.lower twoCells = .ok out ∧ runLine out.code lowestAndOne = some after ∧
        after.value out.value = some 2147483645 ∧ lowestAndOne.Spares after := by
  have cells : twoCells.Cells := by
    intro name operand found
    have either : operand = frameCell (-4) ∨ operand = stackArg 1 := by
      simp only [Scope.find?, twoCells, List.lookup_cons, List.lookup_nil] at found
      split at found
      · exact .inl (Option.some.inj found).symm
      · split at found
        · exact .inr (Option.some.inj found).symm
        · cases found
    rcases either with rfl | rfl <;> exact ⟨_, rfl⟩
  have free : leaning.CallFree := by decide +kernel
  have disciplined : leaning.Disciplined := by decide +kernel
  have evals : leaning.eval (fun _ _ => none) (twoCells.contents lowestAndOne) =
      some 2147483645 := by decide +kernel
  have succeeds : (leaning.lower twoCells).isOk = true := by decide +kernel
  obtain ⟨out, lowers⟩ := exists_ok_of_isOk succeeds
  obtain ⟨v, after, evalsToo, runs, value, spares⟩ := code_computes_value cells free
    (fun _ _ _ among nested => (disciplined _ among (.inl nested)).2) lowers _ lowestAndOne
  obtain rfl : v = 2147483645 := Option.some.inj (evalsToo.symm.trans evals)
  exact ⟨cells, free, disciplined, evals, out, after, lowers, runs, value, spares⟩

end Expr

end IntBackend
