/-
# IntBackend.Proofs.Lowering.Sequences — one after the other

Statements are lowered one after the other, each in the scope that those before it
leave. A block opens no scope of its own, so a body is lowered as its leaves are, the
statements without the blocks around them (`Stmt.lowerAll_leavesAll`). What holds of a
body can therefore be shown one leaf at a time (`Stmt.lowerAll_induction`), and a leaf
either declares a name or leaves the scope as it is (`Stmt.scope_of_leaf`).

Parameters and arguments are lowered one after the other, too, in registers as long as
there are any and then on the stack (`lowerParams_induction`, `Expr.lowerArgs_induction`).
-/
import IntBackend.Proofs.Lowering.Inversion

namespace IntBackend

set_option autoImplicit false

open Convention

/-! ## Parameters and arguments -/

/-- What holds of no parameters, and of one more that arrives in a register or on the stack,
holds of all parameters that are lowered. -/
theorem lowerParams_induction
    {motive : Scope → List Register → Nat → List Binding → Code → Scope → Prop}
    (nil : ∀ scope registers onStack, motive scope registers onStack [] [] scope)
    (register : ∀ {scope declared after : Scope} {r : Register} {rs : List Register}
      {onStack : Nat} {param : Binding} {params : List Binding} {rest : Code},
      scope.declare param.name = .ok declared →
      lowerParams declared rs onStack params = .ok (rest, after) →
      motive declared rs onStack params rest after →
      motive scope (r :: rs) onStack (param :: params)
        (.mov scope.nextSlot (.reg r valueWidth) :: rest) after)
    (stack : ∀ {scope bound after : Scope} {onStack : Nat} {param : Binding}
      {params : List Binding} {code : Code},
      scope.bind param.name (stackArg onStack) = .ok bound →
      motive bound [] (onStack + 1) params code after →
      motive scope [] onStack (param :: params) code after)
    {scope after : Scope} {registers : List Register} {onStack : Nat} {params : List Binding}
    {code : Code} (lowers : lowerParams scope registers onStack params = .ok (code, after)) :
    motive scope registers onStack params code after := by
  induction params generalizing scope registers onStack code with
  | nil =>
      obtain ⟨rfl, rfl⟩ := lowerParams_nil_iff.mp lowers
      exact nil after registers onStack
  | cons param params ih =>
      cases registers with
      | nil =>
          obtain ⟨bound, binds, lowersRest⟩ := lowerParams_stack_iff.mp lowers
          exact stack binds (ih lowersRest)
      | cons r rs =>
          obtain ⟨declared, rest, declares, lowersRest, rfl⟩ := lowerParams_register_iff.mp lowers
          exact register declares lowersRest (ih lowersRest)

/-- What holds of no arguments, and of one more that goes to a register or to the stack, holds of
all arguments that are passed. What is known of each argument is at hand where it is passed. -/
theorem Expr.lowerArgs_induction {scope : Scope} {known : Expr → Valued → Prop}
    {motive : List Register → List Expr → Code → Prop} {args : List Expr}
    (each : ∀ arg ∈ args, ∀ {out}, arg.lower scope = .ok out → known arg out)
    (nil : ∀ registers, motive registers [] [])
    (register : ∀ {r : Register} {rs : List Register} {arg : Expr} {args : List Expr}
      {first : Valued} {rest : Code},
      arg.lower scope = .ok first → known arg first → motive rs args rest →
      motive (r :: rs) (arg :: args)
        (first.code ++ [.mov (.reg r valueWidth) first.value] ++ rest))
    (stack : ∀ {arg : Expr} {args : List Expr} {first : Valued} {rest : Code},
      arg.lower scope = .ok first → known arg first → motive [] args rest →
      motive [] (arg :: args) (rest ++ first.code ++ [.push (first.value.withWidth .quad)]))
    {registers : List Register} {code : Code}
    (lowers : Expr.lowerArgs scope registers args = .ok code) : motive registers args code := by
  induction args generalizing registers code with
  | nil =>
      rw [Expr.lowerArgs_nil] at lowers
      cases lowers
      exact nil registers
  | cons arg args ih =>
      have here := @each arg (List.mem_cons_self ..)
      have there := @ih fun other among => each other (List.mem_cons_of_mem _ among)
      cases registers with
      | nil =>
          obtain ⟨first, rest, lowersFirst, lowersRest, rfl⟩ := Expr.lowerArgs_stack_iff.mp lowers
          exact stack lowersFirst (here lowersFirst) (there lowersRest)
      | cons r rs =>
          obtain ⟨first, rest, lowersFirst, lowersRest, rfl⟩ :=
            Expr.lowerArgs_register_iff.mp lowers
          exact register lowersFirst (here lowersFirst) (there lowersRest)

namespace Stmt

/-! ## Bodies -/

/-- Lowering a body may pause anywhere and go on in the scope reached. -/
theorem lowerAll_append (scope : Scope) (early late : List Stmt) :
    lowerAll scope (early ++ late) = (do
      let (first, between) ← lowerAll scope early
      let (second, after) ← lowerAll between late
      .ok (first ++ second, after)) := by
  induction early generalizing scope with
  | nil =>
      rw [List.nil_append, lowerAll]
      cases lowers : lowerAll scope late with
      | error fault => simp [bind, Except.bind, lowers]
      | ok out => simp [bind, Except.bind, lowers]
  | cons s ss ih =>
      rw [List.cons_append, lowerAll, lowerAll]
      cases s.lower scope with
      | error fault => rfl
      | ok head =>
          simp only [bind, Except.bind, ih]
          cases lowerAll head.2 ss with
          | error fault => rfl
          | ok tail =>
              simp only
              cases lowerAll tail.2 late with
              | error fault => rfl
              | ok rest => simp only [List.append_assoc]

theorem lowerAll_singleton (scope : Scope) (s : Stmt) : lowerAll scope [s] = s.lower scope := by
  rw [lowerAll]
  cases s.lower scope with
  | error fault => rfl
  | ok out => simp [bind, Except.bind, lowerAll]

/-! ## Blocks -/

theorem lowerAll_leavesAll_of_each {body : List Stmt}
    (each : ∀ s ∈ body, ∀ scope, lowerAll scope s.leaves = s.lower scope) (scope : Scope) :
    lowerAll scope (leavesAll body) = lowerAll scope body := by
  induction body generalizing scope with
  | nil => rfl
  | cons s ss ih =>
      have here := each s (List.mem_cons_self ..)
      have there := ih fun t among => each t (List.mem_cons_of_mem _ among)
      rw [leavesAll, lowerAll_append, here, lowerAll]
      simp only [there]

/-- A block opens no scope of its own, so it is lowered as its statements in its place are. -/
theorem lowerAll_leaves (s : Stmt) (scope : Scope) : lowerAll scope s.leaves = s.lower scope := by
  induction s generalizing scope with
  | block body each =>
      rw [leaves, lower_block]
      exact lowerAll_leavesAll_of_each each scope
  | _ => exact lowerAll_singleton scope _

/-- Blocks change nothing about what a body lowers to: only its leaves count. -/
theorem lowerAll_leavesAll (scope : Scope) (body : List Stmt) :
    lowerAll scope (leavesAll body) = lowerAll scope body :=
  lowerAll_leavesAll_of_each (fun s _ => s.lowerAll_leaves) scope

/-! ## Leaf by leaf -/

/-- What holds of an empty body, and of a leaf in front of leaves of which it holds, holds of
every body that is lowered. -/
theorem lowerAll_induction {motive : Scope → List Stmt → Code → Scope → Prop}
    (nil : ∀ scope, motive scope [] [] scope)
    (cons : ∀ {scope between after : Scope} {s : Stmt} {ss : List Stmt} {head tail : Code},
      s.isBlock = false → s.lower scope = .ok (head, between) →
      lowerAll between ss = .ok (tail, after) → motive between ss tail after →
      motive scope (s :: ss) (head ++ tail) after)
    {scope after : Scope} {body : List Stmt} {code : Code}
    (lowers : lowerAll scope body = .ok (code, after)) :
    motive scope (leavesAll body) code after := by
  have flat : ∀ s ∈ leavesAll body, s.isBlock = false := isBlock_of_mem_leavesAll
  rw [← lowerAll_leavesAll] at lowers
  generalize leavesAll body = leaves at lowers flat
  induction leaves generalizing scope code with
  | nil =>
      obtain ⟨rfl, rfl⟩ := lowerAll_nil_iff.mp lowers
      exact nil after
  | cons s ss ih =>
      obtain ⟨head, between, tail, lowersHead, lowersTail, rfl⟩ := lowerAll_cons_iff.mp lowers
      obtain ⟨alone, others⟩ := List.forall_mem_cons.mp flat
      exact cons alone lowersHead lowersTail (ih lowersTail others)

/-- A declaration is all that changes the scope. -/
theorem scope_of_leaf {s : Stmt} {scope after : Scope} {code : Code} (alone : s.isBlock = false)
    (lowers : s.lower scope = .ok (code, after)) :
    (∃ binding, s = .declare binding ∧ scope.declare binding.name = .ok after) ∨
      (s.isDeclare = false ∧ after = scope) := by
  cases s with
  | declare binding => exact .inl ⟨binding, rfl, (lower_declare_iff.mp lowers).1⟩
  | assign target value =>
      obtain ⟨dst, src, -, -, -, same⟩ := lower_assign_iff.mp lowers
      exact .inr ⟨rfl, same⟩
  | eval value =>
      obtain ⟨src, -, -, same⟩ := lower_eval_iff.mp lowers
      exact .inr ⟨rfl, same⟩
  | ret value =>
      cases value with
      | none => exact .inr ⟨rfl, (lower_ret_none_iff.mp lowers).2⟩
      | some value =>
          obtain ⟨src, -, -, same⟩ := lower_ret_some_iff.mp lowers
          exact .inr ⟨rfl, same⟩
  | block body => cases alone

/-- The expressions of a statement are lowered in the scope that it is lowered in. -/
theorem exists_lower_of_mem_values {s : Stmt} {scope after : Scope} {code : Code}
    (lowers : s.lower scope = .ok (code, after)) :
    ∀ value ∈ s.values, ∃ out, value.lower scope = .ok out := by
  cases s with
  | declare binding => nofun
  | assign target value =>
      obtain ⟨dst, src, -, lowersValue, -⟩ := lower_assign_iff.mp lowers
      simpa [values] using ⟨src, lowersValue⟩
  | eval value =>
      obtain ⟨src, lowersValue, -⟩ := lower_eval_iff.mp lowers
      simpa [values] using ⟨src, lowersValue⟩
  | ret value =>
      cases value with
      | none => nofun
      | some value =>
          obtain ⟨src, lowersValue, -⟩ := lower_ret_some_iff.mp lowers
          simpa [values] using ⟨src, lowersValue⟩
  | block body => nofun

end Stmt

end IntBackend
