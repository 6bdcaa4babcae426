/-
# IntBackend.Proofs.Preservation.ParkedValues — how long a left value stays parked

A left value that was computed waits in the scratch register while the right operand is
computed. It is still there when the two are combined if the code of the right operand
leaves that register alone, and that is the case exactly if no left value is parked inside
the right operand (`Expr.parked_value_kept_iff`). Which operators stand there is of no
account: a subtraction does not write the scratch register itself, but its left operand
may be a subtraction too, whose value is parked (`Expr.parked_value_lost`).
-/
import IntBackend.Proofs.Lowering.Parking
import IntBackend.Proofs.Preservation.Values

namespace IntBackend

set_option autoImplicit false

open Convention

/-- What follows a left value in the accumulator: it is parked, the right value is computed, and
the two are combined. -/
def Valued.besideParked (right : Valued) (combine : Operand → Code) : Code :=
  [.mov scratch accumulator] ++ (right.code ++ (intoAccumulator right.value ++ combine scratch))

namespace Expr

/-- No operation inside has a left value that is parked. -/
def ParksNothing (e : Expr) : Prop := ∀ node ∈ e.nodes, node.parks = false

instance (e : Expr) : Decidable e.ParksNothing :=
  inferInstanceAs (Decidable (∀ node ∈ e.nodes, node.parks = false))

theorem ParksNothing.upright {e : Expr} (none : e.ParksNothing) : e.Upright := by
  intro node among
  have free := none node among
  cases node with
  | binary op lhs rhs => exact (Bool.or_eq_false_iff.mp free).1
  | _ => rfl

variable {scope : Scope}

/-- The scratch register is written for each value that is parked, and for nothing else. -/
theorem keeps_scratch_iff {e : Expr} (cells : scope.Cells) {out : Valued}
    (lowers : e.lower scope = .ok out) :
    (∀ i ∈ out.code, i.writes .r10 = false) ↔ e.ParksNothing := by
  have count := countP_parking marksParking_writes e cells.inFrame lowers
  have code := List.countP_eq_zero (p := (·.writes .r10)) (l := out.code)
  have nodes := List.countP_eq_zero (p := parks) (l := e.nodes)
  simp only [Bool.not_eq_true] at code nodes
  rw [ParksNothing, ← code, ← nodes, count]

/-- The code of an operation whose left value is parked. -/
theorem code_of_parks {op : BinOp} {lhs rhs : Expr} (computes : lhs.computes) {out : Valued}
    (lowers : (binary op lhs rhs).lower scope = .ok out) :
    ∃ combine left right, operation op = .ok combine ∧ lhs.lower scope = .ok left ∧
      rhs.lower scope = .ok right ∧ out.code = left.code ++ right.besideParked combine := by
  obtain ⟨combine, left, right, known, lowersLeft, lowersRight, rfl⟩ := lower_binary_iff.mp lowers
  refine ⟨combine, left, right, known, lowersLeft, lowersRight, ?_⟩
  rw [park_accumulator (value_of_computes computes lowersLeft), Valued.besideParked]
  simp only [List.append_assoc]

/-- Beside a right operand that parks nothing, the left value stays: the right value is combined
with it. -/
theorem combines_parked (cells : scope.Cells) {op : BinOp} {combine : Operand → Code}
    (known : operation op = .ok combine) {rhs : Expr} (free : rhs.CallFree)
    (none : rhs.ParksNothing) {right : Valued} (lowers : rhs.lower scope = .ok right)
    (calls : Calls) {m : Machine} {a : Int32} (holds : m.value accumulator = some a) :
    ∃ b v after, rhs.eval calls (scope.contents m) = some b ∧ op.apply? a b = some v ∧
      runLine (right.besideParked combine) m = some after ∧ after.value accumulator = some v := by
  have upright := none.upright
  obtain ⟨b, evals⟩ := rhs.exists_eval_contents cells free lowers calls m
  obtain ⟨v, applies⟩ := BinOp.exists_apply? known a b
  obtain ⟨after, -, value, -, runs⟩ := runLine_beside_scratch cells known
    (rhs.computed_of_callFree cells free (upright.disciplined free) lowers evals) lowers upright
    applies (scope.represents_contents m) holds
  exact ⟨b, v, after, evals, applies, runs, value⟩

/-- Beside a right operand that parks a left value of its own, the value that was parked before
is lost: the right value is combined with the one inside. -/
theorem combines_inner (cells : scope.Cells) {op within : BinOp} {combine : Operand → Code}
    (known : operation op = .ok combine) {inner rest : Expr} (computes : inner.computes)
    (free : (binary within inner rest).CallFree)
    (disciplined : (binary within inner rest).Disciplined) {right : Valued}
    (lowers : (binary within inner rest).lower scope = .ok right) (calls : Calls) {env : Env}
    {c b v : Int32} (evalsInner : inner.eval calls env = some c)
    (evals : (binary within inner rest).eval calls env = some b) (applies : op.apply? c b = some v)
    {m : Machine} (represents : scope.Represents env m) :
    ∃ after, runLine (right.besideParked combine) m = some after ∧
      after.value accumulator = some v := by
  obtain ⟨freeInner, freeRest⟩ := free.binary
  obtain ⟨orderly, disciplinedInner, disciplinedRest⟩ := disciplined.binary
  have upright := (orderly (.inl (freeInner.isBinary_of_computes computes))).2
  obtain ⟨_, _, _, knownWithin, lowersInner, lowersRest, code⟩ := code_of_parks computes lowers
  obtain ⟨_, _, again, evalsRest, appliesWithin⟩ := eval_binary_iff.mp evals
  obtain rfl : c = _ := Option.some.inj (evalsInner.symm.trans again)
  have inAccumulator := value_of_computes computes lowersInner
  -- The first value is parked, but the code of the inner one does not look at it.
  have holds : m.value accumulator = some (lowInt (m.regs .ax)) := m.value_reg .ax valueWidth
  obtain ⟨word, -, moves⟩ := Machine.mov_reg .r10 (.inr rfl) holds
  have parks : runLine [.mov scratch accumulator] m = some (m.set .r10 word) :=
    (runLine_singleton ..).trans moves
  have representsParked := (Machine.Spares.set_r10 m word).represents cells represents
  obtain ⟨first, ran⟩ := inner.computed_of_callFree cells freeInner disciplinedInner lowersInner
    evalsInner representsParked
  obtain ⟨second, -, valueRight, valueScratch, runsRest⟩ := runLine_beside_scratch cells knownWithin
    (rest.computed_of_callFree cells freeRest disciplinedRest lowersRest evalsRest) lowersRest
    upright appliesWithin (ran.spares.represents cells representsParked) (inAccumulator ▸ ran.value)
  obtain ⟨result, low, combines⟩ := runLine_combine cells known (.inr rfl) (.inr rfl) valueScratch
    valueRight applies
  refine ⟨second.set .ax result, ?_, ?_⟩
  · rw [Valued.besideParked, code, value_of_computes rfl lowers]
    exact runLine_append_of_eq parks
      (runLine_append_of_eq (runLine_append_of_eq ran.runs runsRest) combines)
  · rw [accumulator, Machine.value_reg, Machine.regs_set_self, low]

/-- Beside a left operand that is computed, and whose value is parked, stands the code of the
right operand. It leaves the scratch register alone exactly if it parks no value itself. Without
calls in it, the right value is then combined with the left one. -/
theorem parked_value_kept_iff (cells : scope.Cells) {op : BinOp} {lhs rhs : Expr}
    (computes : lhs.computes) (free : rhs.CallFree) {out : Valued}
    (lowers : (binary op lhs rhs).lower scope = .ok out) :
    ∃ combine left right, operation op = .ok combine ∧ lhs.lower scope = .ok left ∧
      rhs.lower scope = .ok right ∧
      out.code = left.code ++ right.besideParked combine ∧
      ((∀ i ∈ right.code, i.writes .r10 = false) ↔ rhs.ParksNothing) ∧
      (rhs.ParksNothing → ∀ (calls : Calls) (m : Machine) (a : Int32),
        m.value accumulator = some a →
        ∃ b v after, rhs.eval calls (scope.contents m) = some b ∧ op.apply? a b = some v ∧
          runLine (right.besideParked combine) m = some after ∧
          after.value accumulator = some v) := by
  obtain ⟨combine, left, right, known, lowersLeft, lowersRight, code⟩ :=
    code_of_parks computes lowers
  refine ⟨combine, left, right, known, lowersLeft, lowersRight, code,
    keeps_scratch_iff cells lowersRight, ?_⟩
  intro none calls m a holds
  exact combines_parked cells known free none lowersRight calls holds

/-- The difference of a variable and another difference. -/
def rightDifference : Expr := .binary .sub (.var "x") (.binary .sub (.const 3) (.var "x"))

/-- A product with the result of a call on its left. -/
def besideCall : Expr := .binary .mul (.call "f" [.var "x"]) rightDifference

/-- The variable is at the top of the frame. -/
def oneCell : Scope := ⟨"f", ["f"], [("x", frameCell (-4))], -4⟩

/-- The accumulator holds seven and the variable, at address 92, five. -/
def sevenAndFive : Machine :=
  ⟨fun r => if r = .ax then 7 else 96, fun a => if a = 92 then 5 else 0⟩

theorem parked_value_kept_iff_besideCall :
    ∃ (out left right : Valued) (after : Machine),
      besideCall.lower oneCell = .ok out ∧ rightDifference.lower oneCell = .ok right ∧
      out.code = left.code ++ right.besideParked (fun left => [.imul accumulator left]) ∧
      (∀ i ∈ right.code, i.writes .r10 = false) ∧
      rightDifference.eval (fun _ _ => none) (oneCell.contents sevenAndFive) = some 7 ∧
      runLine (right.besideParked fun left => [.imul accumulator left]) sevenAndFive =
        some after ∧
      after.value accumulator = some 49 := by
  have declares : (Scope.fresh "f" ["f"]).declare "x" = .ok oneCell := rfl
  have cells : oneCell.Cells := ((Scope.laid_fresh "f" ["f"]).declare declares).cells
  have lowersOk : (besideCall.lower oneCell).isOk = true := by decide +kernel
  obtain ⟨out, lowers⟩ := exists_ok_of_isOk lowersOk
  have none : rightDifference.ParksNothing := by decide +kernel
  obtain ⟨combine, left, right, known, -, lowersRight, code, kept, value⟩ :=
    parked_value_kept_iff cells rfl (by decide +kernel) lowers
  obtain ⟨b, v, after, evals, applies, runs, result⟩ :=
    value none (fun _ _ => Option.none) sevenAndFive 7 (by decide +kernel)
  cases known
  have product : BinOp.mul.apply? 7 7 = some 49 := by decide +kernel
  have seven : rightDifference.eval (fun _ _ => Option.none) (oneCell.contents sevenAndFive) =
      some 7 := by decide +kernel
  obtain rfl : b = 7 := Option.some.inj (evals.symm.trans seven)
  obtain rfl : v = 49 := Option.some.inj (applies.symm.trans product)
  exact ⟨out, left, right, after, lowers, lowersRight, code, kept.mpr none, seven, runs, result⟩

/-- The difference of another difference and a constant. -/
def leftDifference : Expr := .binary .sub (.binary .sub (.const 5) (.const 1)) (.const 2)

/-- A sum with another sum on its left. -/
def besideSum : Expr := .binary .add (.binary .add (.const 1) (.const 2)) leftDifference

/-- The left value of a subtraction on the right takes the place of the value that was parked
before, and `(1 + 2) + ((5 - 1) - 2)` comes out as six. -/
theorem parked_value_lost :
    ∃ out left right : Valued,
      besideSum.lower (.fresh "main" ["main"]) = .ok out ∧
      leftDifference.lower (.fresh "main" ["main"]) = .ok right ∧
      out.code = left.code ++ right.besideParked (fun left => [.add accumulator left]) ∧
      leftDifference.CallFree ∧ (∃ i ∈ right.code, i.writes .r10 = true) ∧
      besideSum.eval (fun _ _ => none) (fun _ => none) = some 5 ∧
      ∀ m, ∃ after, runLine out.code m = some after ∧ after.value accumulator = some 6 := by
  have cells : (Scope.fresh "main" ["main"]).Cells := (Scope.laid_fresh "main" ["main"]).cells
  have represents : ∀ m, (Scope.fresh "main" ["main"]).Represents (fun _ => none) m := by
    intro m name operand v found
    cases found
  have lowersOk : (besideSum.lower (.fresh "main" ["main"])).isOk = true := by decide +kernel
  obtain ⟨out, lowers⟩ := exists_ok_of_isOk lowersOk
  obtain ⟨combine, left, right, known, lowersLeft, lowersRight, code⟩ := code_of_parks rfl lowers
  have free : leftDifference.CallFree := by decide +kernel
  have parks : ¬ leftDifference.ParksNothing := by decide +kernel
  have written : ∃ i ∈ right.code, i.writes .r10 = true := by
    by_contra none
    exact parks ((keeps_scratch_iff cells lowersRight).mp (by simpa using none))
  have adds : BinOp.add.apply? 4 2 = some 6 := by decide +kernel
  have three : (binary .add (.const 1) (.const 2)).eval (fun _ _ => none) (fun _ => none) =
      some 3 := rfl
  cases known
  refine ⟨out, left, right, lowers, lowersRight, code, free, written, by decide +kernel, ?_⟩
  intro m
  obtain ⟨first, ran⟩ := computed_of_callFree _ cells (by decide +kernel) (by decide +kernel)
    lowersLeft three (represents m)
  obtain ⟨after, runs, value⟩ := combines_inner cells rfl rfl free (by decide +kernel)
    lowersRight (fun _ _ => none) rfl rfl adds (represents first)
  rw [code]
  exact ⟨after, runLine_append_of_eq ran.runs runs, value⟩

end Expr

end IntBackend
