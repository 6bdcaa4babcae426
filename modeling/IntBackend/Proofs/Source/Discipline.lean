/-
# IntBackend.Proofs.Source.Discipline — programs whose values fit the registers

One register keeps the left value of an operation while the right one is computed,
and arguments wait in their registers until the call. A value is lost if another
is put in its place, or if a call comes in between. `Expr.Disciplined` excludes
both: beside a left operand that has to be kept there is no call and no operation
that would need the same register, and only the first argument of a call, which
is computed before any is put in place, may hold a call.
-/
import IntBackend.Proofs.Source.Nodes

namespace IntBackend

set_option autoImplicit false

namespace Expr

/-- An operation whose left operand is an operation. -/
def leansLeft : Expr → Bool
  | .binary _ lhs _ => lhs.isBinary
  | _ => false

def CallFree (e : Expr) : Prop := ∀ node ∈ e.nodes, node.isCall = false

/-- No operation inside has an operation on its left. -/
def Upright (e : Expr) : Prop := ∀ node ∈ e.nodes, node.leansLeft = false

instance (e : Expr) : Decidable e.CallFree :=
  inferInstanceAs (Decidable (∀ node ∈ e.nodes, node.isCall = false))

instance (e : Expr) : Decidable e.Upright :=
  inferInstanceAs (Decidable (∀ node ∈ e.nodes, node.leansLeft = false))

/-- What is asked of a single node. -/
def Orderly : Expr → Prop
  | .binary _ lhs rhs => lhs.isBinary ∨ lhs.isCall → rhs.CallFree ∧ rhs.Upright
  | .call _ args => ∀ arg ∈ args.tail, arg.CallFree
  | .var _ => True
  | .const _ => True

instance : (e : Expr) → Decidable e.Orderly
  | .binary _ lhs rhs =>
      inferInstanceAs (Decidable (lhs.isBinary ∨ lhs.isCall → rhs.CallFree ∧ rhs.Upright))
  | .call _ args => inferInstanceAs (Decidable (∀ arg ∈ args.tail, arg.CallFree))
  | .var _ => isTrue trivial
  | .const _ => isTrue trivial

def Disciplined (e : Expr) : Prop := ∀ node ∈ e.nodes, node.Orderly

instance (e : Expr) : Decidable e.Disciplined :=
  inferInstanceAs (Decidable (∀ node ∈ e.nodes, node.Orderly))

/-! ## Parts of expressions -/

variable {op : BinOp} {lhs rhs : Expr}

theorem CallFree.binary (free : (binary op lhs rhs).CallFree) : lhs.CallFree ∧ rhs.CallFree := by
  simp only [CallFree, nodes, List.mem_cons, List.mem_append] at free ⊢
  exact ⟨fun node among => free node (.inr (.inl among)),
    fun node among => free node (.inr (.inr among))⟩

theorem CallFree.not_call {callee : String} {args : List Expr}
    (free : (call callee args).CallFree) : False := by
  have := free _ (self_mem_nodes _)
  cases this

theorem CallFree.isBinary_of_computes {e : Expr} (free : e.CallFree)
    (computes : e.isBinary || e.isCall) : e.isBinary = true := by
  rwa [free e (self_mem_nodes e), Bool.or_false] at computes

theorem Upright.binary (upright : (binary op lhs rhs).Upright) :
    lhs.isBinary = false ∧ rhs.Upright := by
  refine ⟨upright _ (self_mem_nodes _), fun node among => upright node ?_⟩
  simp only [nodes, List.mem_cons, List.mem_append]
  exact .inr (.inr among)

/-- A computed left operand asks for a right one that neither calls nor parks a value. -/
theorem Disciplined.binary (disciplined : (binary op lhs rhs).Disciplined) :
    (lhs.isBinary ∨ lhs.isCall → rhs.CallFree ∧ rhs.Upright) ∧
      lhs.Disciplined ∧ rhs.Disciplined := by
  refine ⟨disciplined _ (self_mem_nodes _), fun node among => ?_, fun node among => ?_⟩
  · refine disciplined node ?_
    simp only [nodes, List.mem_cons, List.mem_append]
    exact .inr (.inl among)
  · refine disciplined node ?_
    simp only [nodes, List.mem_cons, List.mem_append]
    exact .inr (.inr among)

/-- Arguments after the first must not call, as they would spoil those already passed. -/
theorem Disciplined.call {callee : String} {args : List Expr}
    (disciplined : (call callee args).Disciplined) :
    (∀ arg ∈ args.tail, arg.CallFree) ∧ ∀ arg ∈ args, arg.Disciplined :=
  ⟨disciplined _ (self_mem_nodes _),
    fun _ among node inside => disciplined node (nodes_subset_of_mem among inside)⟩

/-- Without calls, only operations can be in each other's way. -/
theorem disciplined_of_callFree (e : Expr) (free : e.CallFree)
    (single : ∀ ⦃op lhs rhs⦄, binary op lhs rhs ∈ e.nodes → lhs.isBinary → rhs.Upright) :
    e.Disciplined := by
  induction e with
  | var name => simp [Disciplined, nodes, Orderly]
  | const value => simp [Disciplined, nodes, Orderly]
  | call callee args each => exact free.not_call.elim
  | binary op lhs rhs disciplineLeft disciplineRight =>
      obtain ⟨freeLeft, freeRight⟩ := free.binary
      have inLeft : ∀ {node}, node ∈ lhs.nodes → node ∈ (binary op lhs rhs).nodes := by
        simp +contextual [nodes]
      have inRight : ∀ {node}, node ∈ rhs.nodes → node ∈ (binary op lhs rhs).nodes := by
        simp +contextual [nodes]
      have left := disciplineLeft freeLeft fun _ _ _ among => single (inLeft among)
      have right := disciplineRight freeRight fun _ _ _ among => single (inRight among)
      intro node among
      rw [nodes, List.mem_cons, List.mem_append] at among
      rcases among with rfl | among | among
      · intro computes
        have nested := freeLeft.isBinary_of_computes (by simpa using computes)
        exact ⟨freeRight, single (self_mem_nodes _) nested⟩
      · exact left node among
      · exact right node among

/-- An expression that never parks a value and never calls is disciplined. -/
theorem Upright.disciplined {e : Expr} (upright : e.Upright) (free : e.CallFree) :
    e.Disciplined := by
  refine e.disciplined_of_callFree free fun op lhs rhs among nested => ?_
  have leans := upright _ among
  rw [leansLeft, nested] at leans
  cases leans

end Expr

/-- Every expression of the program keeps its values. -/
def Program.Disciplined (p : Program) : Prop :=
  ∀ f ∈ p.functions, ∀ e ∈ f.exprs, e.Disciplined

instance (p : Program) : Decidable p.Disciplined :=
  inferInstanceAs (Decidable (∀ f ∈ p.functions, ∀ e ∈ f.exprs, e.Disciplined))

end IntBackend
