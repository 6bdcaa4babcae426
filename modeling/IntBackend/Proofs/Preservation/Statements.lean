/-
# IntBackend.Proofs.Preservation.Statements — code of statements

Control that goes on after a statement is behind its code, with the variables as
the statement leaves them; a return is at the function's epilogue, with the result
in the accumulator. Either way the caller's part of memory is as it was.
-/
import IntBackend.Proofs.Preservation.Frames

namespace IntBackend

set_option autoImplicit false

open Convention

/-- Where a process gets to that is about to run a statement, by how the statement ends. -/
def Flow.Arrives (image : Image) (frame : Frame) (scope : Scope) (next exit : Nat)
    (start : Process) : Flow → Prop
  | .goesOn env => ∃ after, image.Reaches start ⟨next, after⟩ ∧ frame.Active after ∧
      frame.Keeps start.machine.mem after.mem ∧ scope.Represents env after
  | .returns result => ∃ after, image.Reaches start ⟨exit, after⟩ ∧ frame.Active after ∧
      frame.Keeps start.machine.mem after.mem ∧
      ∀ {v}, result = some v → after.value accumulator = some v

theorem Flow.Arrives.after {image : Image} {frame : Frame} {scope : Scope} {next exit : Nat}
    {start middle : Process} {flow : Flow} (reaches : image.Reaches start middle)
    (keeps : frame.Keeps start.machine.mem middle.machine.mem)
    (arrives : flow.Arrives image frame scope next exit middle) :
    flow.Arrives image frame scope next exit start := by
  cases flow with
  | goesOn env =>
      obtain ⟨after, late, active, keepsToo, represents⟩ := arrives
      exact ⟨after, reaches.trans late, active, keeps.trans keepsToo, represents⟩
  | returns result =>
      obtain ⟨after, late, active, keepsToo, value⟩ := arrives
      exact ⟨after, reaches.trans late, active, keeps.trans keepsToo, value⟩

/-! ## Single statements -/

/-- A move to a place of the frame from anywhere but memory. -/
theorem Frame.runLine_mov {frame : Frame} {m : Machine} (active : frame.Active m) {src : Operand}
    {v : Int32} (outside : src.isMemory = false) (fits : src.FitsValue)
    (holds : m.value src = some v) (offset : Int) :
    ∃ word, lowInt word = v ∧
      runLine [.mov (frameCell offset) src] m = some (frame.stored m offset word) := by
  obtain ⟨word, low, moves⟩ := Machine.mov_frameCell offset outside fits holds
  refine ⟨word, low, ?_⟩
  rw [runLine_singleton, moves, Machine.address, active.base]
  rfl

/-- Storing a value to a variable, through the accumulator if it comes from memory. -/
theorem runLine_store {scope : Scope} (cells : scope.Cells) {src : Operand}
    (source : scope.Source src ∨ src = accumulator) {frame : Frame} {m : Machine}
    (active : frame.Active m) {v : Int32} (holds : m.value src = some v) (offset : Int) :
    ∃ loaded word, m.Spares loaded ∧ lowInt word = v ∧
      runLine (store (frameCell offset) src) m = some (frame.stored loaded offset word) := by
  rcases source with source | rfl
  · cases source with
    | const n =>
        obtain ⟨word, low, runs⟩ := Frame.runLine_mov active rfl (.inl rfl) holds offset
        exact ⟨m, word, .refl m, low, runs⟩
    | place found =>
        obtain ⟨_, rfl⟩ := cells found
        obtain ⟨loaded, lowLoaded, loads⟩ := Machine.mov_reg .ax (.inr rfl) holds
        have spares := Machine.Spares.set_ax m loaded
        have there : (m.set .ax loaded).value accumulator = some v := by
          rw [accumulator, Machine.value_reg, Machine.regs_set_self, lowLoaded]
        have stillActive := (active.restored spares.restores).1
        obtain ⟨word, low, runs⟩ := Frame.runLine_mov stillActive rfl (.inr rfl) there offset
        exact ⟨_, word, spares, low,
          runLine_append_of_eq ((runLine_singleton ..).trans loads) runs⟩
  · obtain ⟨word, low, runs⟩ := Frame.runLine_mov active rfl (.inr rfl) holds offset
    exact ⟨m, word, .refl m, low, runs⟩

section Statements

variable {image : Image} {calls : Calls} {room need : Nat}

/-- An expression of which the value is not used. -/
theorem Expr.crosses_unused (implements : image.Implements calls room) {value : Expr}
    (disciplined : value.Disciplined) (needs : value.Needs room need) {scope : Scope} {env : Env}
    {m : Machine} {out : Valued} {k : Nat} {flow : Flow} (lowers : value.lower scope = .ok out)
    (runs : (Stmt.eval value).exec calls env = some flow) (ready : scope.Ready env need m)
    (carries : image.Carries k out.code) :
    flow = .goesOn env ∧ ∃ after, image.Crosses k out.code m after ∧ m.Restores after := by
  obtain ⟨ends, ⟨v, evals⟩ | ⟨callee, args, values, result, rfl, evals, called⟩⟩ :=
    Stmt.exec_eval_iff.mp runs
  · obtain ⟨after, crosses, restores, -⟩ :=
      Expr.simulated implements value disciplined needs lowers evals ready carries
    exact ⟨ends, after, crosses, restores⟩
  · obtain ⟨-, passed, passes, rfl⟩ := Expr.lower_call_iff.mp lowers
    have simulated : ∀ arg ∈ args, arg.Simulated image calls need := fun arg among =>
      Expr.simulated implements arg (disciplined.call.2 arg among) (needs.arg among)
    obtain ⟨after, crosses, restores, -⟩ := Expr.crosses_call implements simulated disciplined
      passes evals called ready (needs _ (Expr.self_mem_nodes _)) carries
    exact ⟨ends, after, crosses, restores⟩

variable {frame : Frame} {scope : Scope} {env : Env} {flow : Flow} {m : Machine} {code : Code}
  {k exit : Nat}

theorem Stmt.arrives_assign (implements : image.Implements calls room)
    (enough : need ≤ frame.stack.toNat) {target : String} {value : Expr}
    (disciplined : value.Disciplined) (needs : value.Needs room need) {after : Scope}
    (lowers : (Stmt.assign target value).lower scope = .ok (code, after))
    (runs : (Stmt.assign target value).exec calls env = some flow) (houses : frame.Houses scope)
    (carries : image.Carries k code) (active : frame.Active m)
    (represents : scope.Represents env m) :
    flow.Arrives image frame after (k + code.length) exit ⟨k, m⟩ := by
  obtain ⟨dst, src, found, lowersValue, rfl, rfl⟩ := Stmt.lower_assign_iff.mp lowers
  obtain ⟨v, evals, rfl⟩ := Stmt.exec_assign_iff.mp runs
  obtain ⟨offset, place, rfl⟩ := houses.place found
  have ready := active.ready houses represents enough
  obtain ⟨first, crosses, restores, holds⟩ := Expr.simulated implements value disciplined needs
    lowersValue evals ready carries.left
  obtain ⟨activeFirst, keepsFirst⟩ := active.restored restores
  obtain ⟨loaded, word, spares, rfl, stores⟩ := runLine_store ready.above.cells
    (Expr.value_of_lower lowersValue) activeFirst holds offset
  obtain ⟨activeLoaded, keepsLoaded⟩ := activeFirst.restored spares.restores
  have representsLoaded := (ready.restored (restores.trans spares.restores)).represents
  refine ⟨_, (crosses.append (carries.right.crosses stores)).reaches, activeLoaded.stored word,
    (keepsFirst.trans keepsLoaded).trans (Frame.keeps_store place _ _), ?_⟩
  exact houses.represents_stored activeLoaded representsLoaded found place word

theorem Stmt.arrives_ret (implements : image.Implements calls room)
    (enough : need ≤ frame.stack.toNat) {value : Option Expr}
    (proper : ∀ e ∈ value, e.Disciplined ∧ e.Needs room need) {after : Scope}
    (lowers : (Stmt.ret value).lower scope = .ok (code, after))
    (runs : (Stmt.ret value).exec calls env = some flow) (houses : frame.Houses scope)
    (leaves : image.position? scope.exit = some exit) (carries : image.Carries k code)
    (active : frame.Active m) (represents : scope.Represents env m) :
    flow.Arrives image frame after (k + code.length) exit ⟨k, m⟩ := by
  cases value with
  | none =>
      obtain ⟨rfl, rfl⟩ := Stmt.lower_ret_none_iff.mp lowers
      rw [Stmt.exec] at runs
      cases runs
      have jumps := Image.reaches_of_step (Image.step_jmp (m := m) carries.holds.head leaves)
      exact ⟨m, jumps, active, .refl _ _, by simp⟩
  | some value =>
      obtain ⟨src, lowersValue, rfl, rfl⟩ := Stmt.lower_ret_some_iff.mp lowers
      obtain ⟨v, evals, rfl⟩ := Stmt.exec_ret_some_iff.mp runs
      obtain ⟨disciplined, needs⟩ := proper value rfl
      have ready := active.ready houses represents enough
      obtain ⟨first, crosses, restores, holds⟩ := Expr.simulated implements value disciplined
        needs lowersValue evals ready carries.left.left
      obtain ⟨word, low, loads⟩ := runLine_intoAccumulator ready.above.cells
        (Expr.value_of_lower lowersValue) holds
      have spares := Machine.Spares.set_ax first word
      obtain ⟨activeLast, keeps⟩ := active.restored (restores.trans spares.restores)
      have computed := crosses.append (carries.left.right.crosses loads)
      have jumps := Image.reaches_of_step
        (Image.step_jmp (m := first.set .ax word) carries.right.holds.head leaves)
      refine ⟨_, computed.reaches.trans jumps, activeLast, keeps, fun has => ?_⟩
      rw [accumulator, Machine.value_reg, Machine.regs_set_self, low]
      exact has

/-! ## Bodies -/

/-- A variable that was just declared has no value yet. -/
theorem Scope.Represents.declare (represents : scope.Represents env m) {declared : Scope}
    {name : String} (declares : scope.declare name = .ok declared) :
    declared.Represents (env.set name none) m := by
  obtain ⟨-, rfl⟩ := Scope.declare_eq_ok_iff.mp declares
  intro other operand v found has
  by_cases same : other = name
  · rw [Env.set, if_pos same] at has
    cases has
  · rw [Env.set, if_neg same] at has
    refine represents ?_ has
    rw [← found]
    exact ((Scope.find?_cons ..).trans (if_neg same)).symm

/-- A frame that houses what a scope grows to houses the scope. -/
theorem Scope.Grown.houses {before after : Scope} {slots first : Nat}
    (grown : before.Grown after slots first frame.onStack) (laid : before.Laid frame.onStack)
    (within : -after.cursor ≤ frame.size) : frame.Houses before := by
  have cursor := grown.cursor
  simp only [slotSize] at cursor
  exact ⟨laid, by omega⟩

/-- What is shown of each statement of a function whose code is in an image. -/
def Stmt.Simulated (image : Image) (calls : Calls) (room need : Nat) (frame : Frame)
    (s : Stmt) : Prop :=
  ∀ ⦃scope after env flow m code k exit⦄, s.lower scope = .ok (code, after) →
    s.exec calls env = some flow → (∀ e ∈ s.exprs, e.Disciplined ∧ e.Needs room need) →
    scope.Laid frame.onStack → -after.cursor ≤ frame.size →
    image.position? scope.exit = some exit → image.Carries k code → frame.Active m →
    scope.Represents env m → flow.Arrives image frame after (k + code.length) exit ⟨k, m⟩

theorem Stmt.arrives_all {body : List Stmt}
    (each : ∀ s ∈ body, s.Simulated image calls room need frame) {after : Scope}
    (lowers : Stmt.lowerAll scope body = .ok (code, after))
    (runs : Stmt.execAll calls env body = some flow)
    (proper : ∀ e ∈ Stmt.exprsAll body, e.Disciplined ∧ e.Needs room need)
    (laid : scope.Laid frame.onStack) (within : -after.cursor ≤ frame.size)
    (leaves : image.position? scope.exit = some exit) (carries : image.Carries k code)
    (active : frame.Active m) (represents : scope.Represents env m) :
    flow.Arrives image frame after (k + code.length) exit ⟨k, m⟩ := by
  induction body generalizing scope env m k code with
  | nil =>
      obtain ⟨rfl, rfl⟩ := Stmt.lowerAll_nil_iff.mp lowers
      rw [Stmt.execAll] at runs
      cases runs
      exact ⟨m, .refl _, active, .refl _ _, represents⟩
  | cons s ss ih =>
      obtain ⟨head, between, tail, lowersHead, lowersTail, rfl⟩ := Stmt.lowerAll_cons_iff.mp lowers
      rw [Stmt.exprsAll_cons] at proper
      have early := s.grown_of_lower frame.onStack lowersHead
      have late := Stmt.grown_of_body frame.onStack lowersTail
      have housesBetween := late.houses (early.laid laid) within
      have first := @each s (List.mem_cons_self ..) scope between env
      have properFirst := fun e among => proper e (List.mem_append_left _ among)
      rcases Stmt.execAll_cons_iff.mp runs with ⟨middle, goes, rest⟩ | ⟨result, returns, rfl⟩
      · obtain ⟨second, reaches, activeSecond, keeps, representsSecond⟩ := first lowersHead goes
          properFirst laid housesBetween.within leaves carries.left active represents
        have leavesToo : image.position? between.exit = some exit := by
          rw [Scope.exit, early.extension.function]
          exact leaves
        have others := ih (fun t among => each t (List.mem_cons_of_mem _ among)) lowersTail rest
          (fun e among => proper e (List.mem_append_right _ among)) housesBetween.laid leavesToo
          carries.right activeSecond representsSecond
        rw [List.length_append, ← Nat.add_assoc]
        exact .after reaches keeps others
      · exact first lowersHead returns properFirst laid housesBetween.within leaves carries.left
          active represents

theorem Stmt.simulated (implements : image.Implements calls room)
    (enough : need ≤ frame.stack.toNat) (s : Stmt) :
    s.Simulated image calls room need frame := by
  induction s with
  | declare binding =>
      intro scope after env flow m code k exit lowers runs _ _ _ _ _ active represents
      obtain ⟨declares, rfl⟩ := Stmt.lower_declare_iff.mp lowers
      rw [Stmt.exec] at runs
      cases runs
      exact ⟨m, .refl _, active, .refl _ _, represents.declare declares⟩
  | assign target value =>
      intro scope after env flow m code k exit lowers runs proper laid within _ carries active
        represents
      obtain ⟨disciplined, needs⟩ := proper value (List.mem_singleton_self _)
      have houses := ((Stmt.assign target value).grown_of_lower _ lowers).houses laid within
      exact Stmt.arrives_assign implements enough disciplined needs lowers runs houses carries
        active represents
  | eval value =>
      intro scope after env flow m code k exit lowers runs proper laid within _ carries active
        represents
      obtain ⟨disciplined, needs⟩ := proper value (List.mem_singleton_self _)
      obtain ⟨src, lowersValue, rfl, rfl⟩ := Stmt.lower_eval_iff.mp lowers
      have ready := active.ready ⟨laid, within⟩ represents enough
      obtain ⟨rfl, last, crosses, restores⟩ := Expr.crosses_unused implements disciplined needs
        lowersValue runs ready carries
      obtain ⟨activeLast, keeps⟩ := active.restored restores
      exact ⟨last, crosses.reaches, activeLast, keeps, (ready.restored restores).represents⟩
  | ret value =>
      intro scope after env flow m code k exit lowers runs proper laid within leaves carries active
        represents
      have houses := ((Stmt.ret value).grown_of_lower _ lowers).houses laid within
      refine Stmt.arrives_ret implements enough (fun e isValue => proper e ?_) lowers runs houses
        leaves carries active represents
      cases isValue
      exact List.mem_singleton_self _
  | block body each =>
      intro scope after env flow m code k exit lowers runs proper laid within leaves carries active
        represents
      rw [Stmt.lower_block] at lowers
      rw [Stmt.exec] at runs
      rw [Stmt.exprs_block] at proper
      exact Stmt.arrives_all each lowers runs proper laid within leaves carries active represents

end Statements

end IntBackend
