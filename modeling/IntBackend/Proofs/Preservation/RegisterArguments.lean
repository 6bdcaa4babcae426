/-
# IntBackend.Proofs.Preservation.RegisterArguments — how long an argument stays in its register

Arguments are put into their registers one after the other, each as soon as it is computed.
An argument is still there at the call if nothing in between writes its register or calls.
What stands in between is the code of the later arguments, so this is the case exactly if
none of them holds a call (`Expr.register_argument_kept_iff`): a later argument without
calls computes in other registers and goes to another register or to the stack, and a later
call leaves the register to its callee.
-/
import IntBackend.Proofs.Lowering.Destinations
import IntBackend.Proofs.Preservation.Arguments

namespace IntBackend

set_option autoImplicit false

open Convention

/-- The instruction neither writes the register nor calls, which would leave the register to the
callee. -/
def Instruction.Keeps (r : Register) (i : Instruction) : Prop :=
  i.op ≠ .call ∧ i.writes r = false

instance (r : Register) (i : Instruction) : Decidable (i.Keeps r) :=
  inferInstanceAs (Decidable (_ ∧ _))

namespace Expr

variable {scope : Scope}

/-- The code that passes arguments is that of the arguments before one in a register, that of the
argument, its move and the code of the arguments after it. -/
theorem lowerArgs_split {registers : List Register} {args : List Expr} {code : Code}
    (lowers : lowerArgs scope registers args = .ok code) {i : Nat} {arg : Expr} {r : Register}
    (given : args[i]? = some arg) (carries : registers[i]? = some r) :
    ∃ before placed between,
      lowerArgs scope (registers.take i) (args.take i) = .ok before ∧
        arg.lower scope = .ok placed ∧
        lowerArgs scope (registers.drop (i + 1)) (args.drop (i + 1)) = .ok between ∧
        code = before ++ placed.code ++ [.mov (.reg r valueWidth) placed.value] ++ between := by
  induction i generalizing registers args code with
  | zero =>
      obtain ⟨args, rfl⟩ := List.head?_eq_some_iff.mp (List.head?_eq_getElem? .. ▸ given)
      obtain ⟨rs, rfl⟩ := List.head?_eq_some_iff.mp (List.head?_eq_getElem? .. ▸ carries)
      obtain ⟨first, rest, lowersFirst, lowersRest, rfl⟩ := lowerArgs_register_iff.mp lowers
      exact ⟨[], first, rest, lowerArgs_nil _, lowersFirst, lowersRest, rfl⟩
  | succ i ih =>
      match args, registers with
      | earlier :: args, q :: rs =>
          obtain ⟨first, rest, lowersFirst, lowersRest, rfl⟩ := lowerArgs_register_iff.mp lowers
          obtain ⟨before, placed, between, lowersBefore, lowersArg, lowersAfter, rfl⟩ :=
            ih lowersRest given carries
          refine ⟨_, placed, between, lowerArgs_register_iff.mpr ⟨first, before, lowersFirst,
            lowersBefore, rfl⟩, lowersArg, lowersAfter, ?_⟩
          simp only [List.append_assoc]

theorem callFree_iff_calls (e : Expr) : e.CallFree ↔ e.calls = 0 := by
  simp [CallFree, calls, List.countP_eq_zero]

theorem callsAll_eq_zero_iff (es : List Expr) : callsAll es = 0 ↔ ∀ e ∈ es, e.CallFree := by
  induction es with
  | nil => simp [callsAll, nodesAll]
  | cons e es ih => simp [callsAll_cons, ih, callFree_iff_calls]

/-- Arguments without calls that go to other registers, or to the stack, leave a register alone. -/
theorem keeps_of_callFree {args : List Expr} (free : ∀ arg ∈ args, arg.CallFree)
    {registers : List Register} {r : Register} (carries : r ∈ argRegisters)
    (other : r ∉ registers) {code : Code} (lowers : lowerArgs scope registers args = .ok code) :
    ∀ i ∈ code, i.Keeps r := by
  obtain ⟨notAx, notR10, -, -⟩ := ne_of_mem_argRegisters carries
  refine mem_code_lowerArgs ?_ ?_ ?_ lowers
  · intro arg among out lowersArg i inside
    have computes := computes_of_callFree (free arg among) lowersArg i inside
    exact ⟨computes.op_ne_call, computes.writes_eq_false notAx notR10⟩
  · intro q among value _
    have ne : q ≠ r := fun same => other (same ▸ among)
    refine ⟨by simp [Instruction.mov, Instruction.plain], ?_⟩
    simpa [Instruction.writes, Instruction.destination?, Instruction.mov, Instruction.plain,
      Operand.isRegister] using ne
  · intro value _
    exact ⟨by simp [Instruction.push, Instruction.plain], rfl⟩

/-- Code that passes arguments and does not call passes arguments without calls. -/
theorem callFree_of_keeps {args : List Expr} {registers : List Register} {r : Register}
    {code : Code} (lowers : lowerArgs scope registers args = .ok code)
    (keeps : ∀ i ∈ code, i.Keeps r) :
    ∀ arg ∈ args, arg.CallFree := by
  have calls := tally_lowerArgs (fun arg _ => arg.tally_call_of_lower) lowers
  rw [tally_eq_zero fun i among => (keeps i among).1] at calls
  exact (callsAll_eq_zero_iff args).mp calls.symm

theorem not_mem_drop_argRegisters {i : Nat} {r : Register} (carries : argRegisters[i]? = some r) :
    r ∉ argRegisters.drop (i + 1) := by
  have distinct : argRegisters.Nodup := by decide
  obtain ⟨inside, rfl⟩ := List.getElem?_eq_some_iff.mp carries
  rw [← List.take_append_drop (i + 1) argRegisters, List.nodup_append] at distinct
  refine fun again => distinct.2.2 _ ?_ _ again rfl
  exact List.mem_take_iff_getElem.mpr ⟨i, by omega, rfl⟩

/-- Between the move that puts an argument into its register and the call stands the code of the
later arguments. It leaves the register alone exactly if no later argument holds a call, and the
register then holds at the call what it held after the move. -/
theorem register_argument_kept_iff {name : String} {args : List Expr} {out : Valued}
    (lowers : (call name args).lower scope = .ok out) {i : Nat} {arg : Expr} {r : Register}
    (given : args[i]? = some arg) (carries : argRegisters[i]? = some r) :
    ∃ before placed between,
      lowerArgs scope (argRegisters.take i) (args.take i) = .ok before ∧
      arg.lower scope = .ok placed ∧
      lowerArgs scope (argRegisters.drop (i + 1)) (args.drop (i + 1)) = .ok between ∧
      out.code = before ++ placed.code ++ [.mov (.reg r valueWidth) placed.value] ++ between ++
        [.call (.function name)] ++ dropArgs (args.length - argRegisters.length) ∧
      ((∀ j ∈ between, j.Keeps r) ↔ ∀ later ∈ args.drop (i + 1), later.CallFree) ∧
      ((∀ later ∈ args.drop (i + 1), later.CallFree) →
        ∀ m after, runLine between m = some after → after.regs r = m.regs r) := by
  obtain ⟨-, passed, passes, rfl⟩ := lower_call_iff.mp lowers
  obtain ⟨before, placed, between, lowersBefore, lowersArg, lowersAfter, rfl⟩ :=
    lowerArgs_split passes given carries
  have carried := List.mem_of_getElem? carries
  have keeps : (∀ later ∈ args.drop (i + 1), later.CallFree) → ∀ j ∈ between, j.Keeps r :=
    fun free => keeps_of_callFree free carried (not_mem_drop_argRegisters carries) lowersAfter
  refine ⟨before, placed, between, lowersBefore, lowersArg, lowersAfter, rfl,
    ⟨callFree_of_keeps lowersAfter, keeps⟩, fun free m after runs => ?_⟩
  exact regs_runLine_of_not_writes runs (ne_of_mem_argRegisters carried).2.2.1
    fun j among => (keeps free j among).2

/-- A first argument that holds a call, and a later one that does not. -/
def nestedFirst : Expr :=
  .call "f" [.call "g" [.const 2], .binary .sub (.const 1) (.const 3)]

theorem register_argument_kept_iff_nestedFirst :
    ∃ (out placed : Valued) (before between : Code),
      nestedFirst.lower (.fresh "main" ["main", "f", "g"]) = .ok out ∧
      out.code = before ++ placed.code ++ [.mov (.reg .di valueWidth) placed.value] ++ between ++
        [.call (.function "f")] ∧ ∀ j ∈ between, j.Keeps .di := by
  have lowersOk : (nestedFirst.lower (.fresh "main" ["main", "f", "g"])).isOk = true := by
    decide +kernel
  obtain ⟨out, lowers⟩ := exists_ok_of_isOk lowersOk
  obtain ⟨before, placed, between, -, -, -, code, kept, -⟩ :=
    register_argument_kept_iff lowers (i := 0) rfl rfl
  exact ⟨out, placed, before, between, lowers, code.trans (List.append_nil _),
    kept.mpr (by decide)⟩

/-- A second argument that is a call takes the register of the first, and calls besides. -/
theorem register_argument_lost :
    ∃ out between,
      (call "f" [.const 1, .call "g" [.const 2]]).lower (.fresh "main" ["main", "f", "g"]) =
        .ok out ∧
      out.code = .mov (.reg .di valueWidth) (.const "1") :: between ++ [.call (.function "f")] ∧
      between = [.mov (.reg .di valueWidth) (.const "2"), .call (.function "g"),
        .mov (.reg .si valueWidth) accumulator] ∧
      ¬ ∀ j ∈ between, j.Keeps .di := by
  refine ⟨_, _, rfl, rfl, rfl, ?_⟩
  decide

end Expr

end IntBackend
