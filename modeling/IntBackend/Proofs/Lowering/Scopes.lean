/-
# IntBackend.Proofs.Lowering.Scopes — what lowering does to a scope

Lowering only ever declares and binds new names, so a scope keeps the function
it belongs to and every binding it has. The cursor moves down by one slot for
each declaration and for each parameter that arrives in a register. The places
that are handed out are slots between the cursor and the frame pointer and
arguments on the stack, and no two names share one.
-/
import Mathlib.Data.List.Pairwise
import Mathlib.Tactic.Ring
import IntBackend.Proofs.Lowering.Sequences

namespace IntBackend

set_option autoImplicit false

open Convention

namespace Scope

/-! ## Bindings that stay -/

/-- The scope `after` belongs to the same function and knows all that `before` knows. -/
structure Extends (before after : Scope) : Prop where
  function : after.function = before.function
  callees : after.callees = before.callees
  finds : ∀ {name operand}, before.find? name = some operand → after.find? name = some operand

theorem Extends.refl (scope : Scope) : scope.Extends scope := ⟨rfl, rfl, id⟩

/-- Extensions compose, so steps of lowering only ever add to a scope. -/
theorem Extends.trans {first second third : Scope} (early : first.Extends second)
    (late : second.Extends third) : first.Extends third :=
  ⟨late.function.trans early.function, late.callees.trans early.callees,
    fun found => late.finds (early.finds found)⟩

theorem find?_cons_of_some {scope : Scope} {name other : String} {new operand : Operand}
    (free : scope.find? name = none) (found : scope.find? other = some operand) :
    ({ scope with bindings := (name, new) :: scope.bindings } : Scope).find? other =
      some operand := by
  have ne : other ≠ name := by
    rintro rfl
    simp [free] at found
  rw [find?_cons, if_neg ne, found]

theorem extends_of_bind {scope bound : Scope} {name : String} {operand : Operand}
    (binds : scope.bind name operand = .ok bound) : scope.Extends bound := by
  obtain ⟨free, rfl⟩ := bind_eq_ok_iff.mp binds
  exact ⟨rfl, rfl, find?_cons_of_some free⟩

theorem extends_of_declare {scope declared : Scope} {name : String}
    (declares : scope.declare name = .ok declared) : scope.Extends declared := by
  obtain ⟨free, rfl⟩ := declare_eq_ok_iff.mp declares
  exact ⟨rfl, rfl, find?_cons_of_some free⟩

/-! ## Places that are handed out -/

/-- A slot of the frame down to the cursor, or one of the first arguments on the stack. -/
def Place (scope : Scope) (onStack : Nat) (operand : Operand) : Prop :=
  (∃ k : Nat, 0 < k ∧ (slotSize * k : Int) ≤ -scope.cursor ∧
    operand = frameCell (-(slotSize * k : Int))) ∨
  ∃ j < onStack, operand = stackArg j

/-- Every name has a place, and different names have different ones. -/
structure Laid (scope : Scope) (onStack : Nat) : Prop where
  below : ∃ k : Nat, scope.cursor = -(slotSize * k : Int)
  places : ∀ binding ∈ scope.bindings, scope.Place onStack binding.2
  apart : scope.bindings.Pairwise fun a b => a.1 ≠ b.1 ∧ a.2 ≠ b.2

theorem Place.mono {scope : Scope} {few many : Nat} (le : few ≤ many) {operand : Operand}
    (place : scope.Place few operand) : scope.Place many operand := by
  rcases place with slot | ⟨j, lt, eq⟩
  · exact .inl slot
  · exact .inr ⟨j, by omega, eq⟩

theorem Laid.mono {scope : Scope} {few many : Nat} (le : few ≤ many)
    (laid : scope.Laid few) : scope.Laid many :=
  ⟨laid.below, fun binding among => (laid.places binding among).mono le, laid.apart⟩

theorem laid_fresh (function : String) (callees : List String) :
    (fresh function callees).Laid 0 :=
  ⟨⟨0, by simp [fresh]⟩, nofun, .nil⟩

theorem mem_of_find? {scope : Scope} {name : String} {operand : Operand}
    (found : scope.find? name = some operand) : (name, operand) ∈ scope.bindings := by
  unfold find? at found
  generalize scope.bindings = bindings at found
  induction bindings with
  | nil => simp at found
  | cons binding rest ih =>
      obtain ⟨other, place⟩ := binding
      by_cases same : name = other
      · subst same
        simp only [List.lookup_cons, beq_self_eq_true, Option.some.injEq] at found
        simp [found]
      · simp only [List.lookup_cons, beq_eq_false_iff_ne.mpr same] at found
        exact List.mem_cons_of_mem _ (ih found)

theorem ne_of_find?_eq_none {scope : Scope} {name : String} (free : scope.find? name = none)
    {binding : String × Operand} (among : binding ∈ scope.bindings) : name ≠ binding.1 := by
  unfold find? at free
  rw [List.lookup_eq_none_iff] at free
  have differs := free binding among
  rintro rfl
  simp at differs

/-- Whatever a name is found to be is a place. -/
theorem Laid.place {scope : Scope} {onStack : Nat} (laid : scope.Laid onStack) {name : String}
    {operand : Operand} (found : scope.find? name = some operand) :
    scope.Place onStack operand :=
  laid.places _ (mem_of_find? found)

/-- Two bindings share neither their name nor their place. -/
theorem Laid.differ {scope : Scope} {onStack : Nat} (laid : scope.Laid onStack)
    {a b : String × Operand} (amongA : a ∈ scope.bindings) (amongB : b ∈ scope.bindings)
    (ne : a ≠ b) : a.1 ≠ b.1 ∧ a.2 ≠ b.2 := by
  have symmetric : Std.Symm fun a b : String × Operand => a.1 ≠ b.1 ∧ a.2 ≠ b.2 :=
    ⟨fun _ _ differ => ⟨differ.1.symm, differ.2.symm⟩⟩
  exact laid.apart.forall amongA amongB ne

/-- Different variables never share a cell. -/
theorem Laid.place_ne {scope : Scope} {onStack : Nat} (laid : scope.Laid onStack)
    {name other : String} {operand place : Operand} (ne : name ≠ other)
    (found : scope.find? name = some operand) (foundOther : scope.find? other = some place) :
    operand ≠ place :=
  (laid.differ (mem_of_find? found) (mem_of_find? foundOther) (by simp [ne])).2

/-- Binding the next argument on the stack keeps the layout. -/
theorem Laid.bind {scope bound : Scope} {name : String} {onStack : Nat}
    (laid : scope.Laid onStack) (binds : scope.bind name (stackArg onStack) = .ok bound) :
    bound.Laid (onStack + 1) := by
  obtain ⟨free, rfl⟩ := bind_eq_ok_iff.mp binds
  refine ⟨laid.below, ?_, List.pairwise_cons.mpr ⟨?_, laid.apart⟩⟩
  · intro binding among
    rcases List.mem_cons.mp among with rfl | among
    · exact .inr ⟨onStack, by omega, rfl⟩
    · exact (laid.places binding among).mono (Nat.le_succ onStack)
  · intro binding among
    refine ⟨ne_of_find?_eq_none free among, ?_⟩
    rcases laid.places binding among with ⟨k, pos, -, eq⟩ | ⟨j, lt, eq⟩
    · rw [eq]
      simp only [stackArg, frameCell, ne_eq, Operand.mem.injEq, true_and, slotSize,
        stackArgsOffset, stackArgSize]
      omega
    · rw [eq]
      simp only [stackArg, frameCell, ne_eq, Operand.mem.injEq, true_and, stackArgsOffset,
        stackArgSize]
      omega

/-- Declaring takes the slot below the cursor, where no variable lies yet. -/
theorem Laid.declare {scope declared : Scope} {name : String} {onStack : Nat}
    (laid : scope.Laid onStack) (declares : scope.declare name = .ok declared) :
    declared.Laid onStack := by
  obtain ⟨free, rfl⟩ := declare_eq_ok_iff.mp declares
  obtain ⟨used, cursor⟩ := laid.below
  refine ⟨⟨used + 1, by simp only [cursor, slotSize]; omega⟩, ?_,
    List.pairwise_cons.mpr ⟨?_, laid.apart⟩⟩
  · intro binding among
    rcases List.mem_cons.mp among with rfl | among
    · refine .inl ⟨used + 1, by omega, ?_, congrArg frameCell ?_⟩
      · simp only [cursor, slotSize]; omega
      · simp only [cursor, slotSize]; omega
    · rcases laid.places binding among with ⟨k, pos, within, eq⟩ | onTheStack
      · exact .inl ⟨k, pos, by simp [slotSize] at within ⊢; omega, eq⟩
      · exact .inr onTheStack
  · intro binding among
    refine ⟨ne_of_find?_eq_none free among, ?_⟩
    rcases laid.places binding among with ⟨k, pos, within, eq⟩ | ⟨j, lt, eq⟩
    · rw [eq]
      simp only [nextSlot, frameCell, ne_eq, Operand.mem.injEq, true_and, slotSize] at within ⊢
      omega
    · rw [eq]
      simp only [nextSlot, stackArg, frameCell, ne_eq, Operand.mem.injEq, true_and, slotSize,
        stackArgsOffset, stackArgSize, cursor]
      omega

/-! ## Growth -/

/-- All that lowering does to a scope: it takes slots and binds names, of which
those from argument `first` up to argument `last` lie on the stack. -/
structure Grown (before after : Scope) (slots first last : Nat) : Prop where
  extension : before.Extends after
  cursor : after.cursor = before.cursor - slotSize * slots
  laid : before.Laid first → after.Laid last

theorem Grown.refl (scope : Scope) (first : Nat) : scope.Grown scope 0 first first :=
  ⟨.refl scope, by simp, id⟩

theorem Grown.trans {before between after : Scope} {slots more first second third : Nat}
    (early : before.Grown between slots first second)
    (late : between.Grown after more second third) :
    before.Grown after (slots + more) first third := by
  refine ⟨early.extension.trans late.extension, ?_, late.laid ∘ early.laid⟩
  rw [late.cursor, early.cursor]
  push_cast
  ring

theorem grown_of_declare {scope declared : Scope} {name : String} (first : Nat)
    (declares : scope.declare name = .ok declared) : scope.Grown declared 1 first first := by
  refine ⟨extends_of_declare declares, ?_, fun laid => laid.declare declares⟩
  obtain ⟨-, rfl⟩ := declare_eq_ok_iff.mp declares
  simp

theorem grown_of_bind {scope bound : Scope} {name : String} {first : Nat}
    (binds : scope.bind name (stackArg first) = .ok bound) :
    scope.Grown bound 0 first (first + 1) := by
  refine ⟨extends_of_bind binds, ?_, fun laid => laid.bind binds⟩
  obtain ⟨-, rfl⟩ := bind_eq_ok_iff.mp binds
  simp

end Scope

namespace Stmt

theorem declarationsAll_of_each {body : List Stmt}
    (each : ∀ s ∈ body, s.declarations = s.leaves.countP isDeclare) :
    declarationsAll body = (leavesAll body).countP isDeclare := by
  induction body with
  | nil => rfl
  | cons s ss ih =>
      have here := each s (List.mem_cons_self ..)
      have there := ih fun t among => each t (List.mem_cons_of_mem _ among)
      rw [declarationsAll, leavesAll, List.countP_append, here, there]

theorem declarations_eq_countP (s : Stmt) : s.declarations = s.leaves.countP isDeclare := by
  induction s with
  | block body each =>
      rw [declarations, leaves]
      exact declarationsAll_of_each each
  | _ => rfl

/-- Declarations at any depth are the declaring leaves. -/
theorem declarationsAll_eq_countP (body : List Stmt) :
    declarationsAll body = (leavesAll body).countP isDeclare :=
  declarationsAll_of_each fun s _ => s.declarations_eq_countP

/-- A statement that is no block takes a slot if it declares and leaves the scope alone if not. -/
theorem grown_of_leaf {s : Stmt} {scope after : Scope} {code : Code} (first : Nat)
    (alone : s.isBlock = false) (lowers : s.lower scope = .ok (code, after)) :
    scope.Grown after (if s.isDeclare then 1 else 0) first first := by
  obtain ⟨binding, rfl, declares⟩ | ⟨other, rfl⟩ := scope_of_leaf alone lowers
  · exact Scope.grown_of_declare first declares
  · rw [other]
    exact .refl after first

/-- A body takes one slot for each variable that it declares, in blocks or not. -/
theorem grown_of_body {scope after : Scope} {body : List Stmt} {code : Code} (first : Nat)
    (lowers : lowerAll scope body = .ok (code, after)) :
    scope.Grown after (declarationsAll body) first first := by
  rw [declarationsAll_eq_countP]
  refine lowerAll_induction
    (motive := fun scope leaves _ after => scope.Grown after (leaves.countP isDeclare) first first)
    (fun scope => .refl scope first) ?_ lowers
  intro scope between after s ss head tail alone lowersHead _ late
  rw [List.countP_cons, Nat.add_comm]
  exact (grown_of_leaf first alone lowersHead).trans late

/-- A statement takes one slot for each variable that it declares, in blocks or not. -/
theorem grown_of_lower (s : Stmt) {scope after : Scope} {code : Code} (first : Nat)
    (lowers : s.lower scope = .ok (code, after)) :
    scope.Grown after s.declarations first first := by
  rw [← lowerAll_singleton] at lowers
  exact grown_of_body first lowers

end Stmt

/-- Parameters take a slot each while registers last, and none afterwards. -/
theorem grown_of_lowerParams {registers : List Register} {onStack : Nat} {params : List Binding}
    {scope after : Scope} {code : Code}
    (lowers : lowerParams scope registers onStack params = .ok (code, after)) :
    scope.Grown after (min params.length registers.length) onStack
      (onStack + (params.length - registers.length)) := by
  refine lowerParams_induction (motive := fun scope registers onStack params _ after =>
    scope.Grown after (min params.length registers.length) onStack
      (onStack + (params.length - registers.length))) ?_ ?_ ?_ lowers
  · intro scope registers onStack
    simpa using Scope.Grown.refl scope onStack
  · intro scope declared after r rs onStack param params rest declares _ later
    have both := (Scope.grown_of_declare onStack declares).trans later
    simpa [Nat.add_comm 1] using both
  · intro scope bound after onStack param params code binds later
    have both := (Scope.grown_of_bind binds).trans later
    simpa [Nat.add_assoc, Nat.add_comm 1] using both

/-- The slots that a function hands out fill its frame. -/
theorem Func.grown_of_lowerBody {f : Func} {callees : List String} {code : Code} {after : Scope}
    (lowers : f.lowerBody callees = .ok (code, after)) :
    (Scope.fresh f.name callees).Grown after
      (f.registerArgs + Stmt.declarationsAll f.body) 0
      (f.params.length - argRegisters.length) := by
  obtain ⟨stores, between, body, binds, lowersBody, -⟩ := Func.lowerBody_iff.mp lowers
  have early := grown_of_lowerParams binds
  rw [Nat.zero_add] at early
  exact early.trans (Stmt.grown_of_body _ lowersBody)

/-- The slots of a function end exactly where its frame does. -/
theorem Func.cursor_of_lowerBody {f : Func} {callees : List String} {code : Code} {after : Scope}
    (lowers : f.lowerBody callees = .ok (code, after)) :
    after.cursor = -(f.frameSize : Int) := by
  rw [(Func.grown_of_lowerBody lowers).cursor, Func.frameSize, Scope.fresh]
  push_cast
  ring

/-- The check at the end of a function always succeeds. -/
theorem Func.lower_eq_map (f : Func) (callees : List String) :
    f.lower callees =
      (f.lowerBody callees).map fun out => f.prologue ++ out.1 ++ f.epilogue := by
  rw [Func.lower]
  cases lowers : f.lowerBody callees with
  | error fault => rfl
  | ok out =>
      obtain ⟨body, after⟩ := out
      have filled : after.cursor.natAbs = f.frameSize := by
        rw [Func.cursor_of_lowerBody lowers, Int.natAbs_neg, Int.natAbs_natCast]
      exact if_pos filled

/-- A function lowers if its body does, and its code is the body inside the frame's code. -/
theorem Func.lower_iff {f : Func} {callees : List String} {code : Code} :
    f.lower callees = .ok code ↔
      ∃ body after, f.lowerBody callees = .ok (body, after) ∧
        code = f.prologue ++ body ++ f.epilogue := by
  rw [Func.lower_eq_map]
  cases f.lowerBody callees with
  | error fault => exact ⟨nofun, nofun⟩
  | ok out =>
      constructor
      · intro done
        exact ⟨out.1, out.2, rfl, (Except.ok.inj done).symm⟩
      · rintro ⟨body, after, same, rfl⟩
        cases same
        rfl

end IntBackend
