/-
# IntBackend.Proofs.Source.Nodes — the parts of a tree

Induction over expressions and statements, whose arguments and bodies are lists,
and the lists of what occurs in a tree: the nodes of an expression at any depth,
the statements of a body at any depth with the blocks around them left out, and
the expressions that those statements hold.
-/
import IntBackend.Source.Basic

namespace IntBackend

set_option autoImplicit false

/-! ## Induction -/

/-- Every argument of a call comes with its hypothesis. -/
@[elab_as_elim, induction_eliminator]
theorem Expr.inductionOn {motive : Expr → Prop} (e : Expr)
    (var : ∀ name, motive (.var name))
    (const : ∀ value, motive (.const value))
    (binary : ∀ op lhs rhs, motive lhs → motive rhs → motive (.binary op lhs rhs))
    (call : ∀ callee args, (∀ arg ∈ args, motive arg) → motive (.call callee args)) :
    motive e := by
  refine @Expr.rec motive (fun args => ∀ arg ∈ args, motive arg)
    var const binary call ?_ ?_ e
  · intro arg none
    cases none
  · intro head tail here there arg among
    rcases List.mem_cons.mp among with rfl | among
    · exact here
    · exact there arg among

/-- Every statement of a block comes with its hypothesis. -/
@[elab_as_elim, induction_eliminator]
theorem Stmt.inductionOn {motive : Stmt → Prop} (s : Stmt)
    (declare : ∀ binding, motive (.declare binding))
    (assign : ∀ target value, motive (.assign target value))
    (eval : ∀ value, motive (.eval value))
    (ret : ∀ value, motive (.ret value))
    (block : ∀ body, (∀ inner ∈ body, motive inner) → motive (.block body)) :
    motive s := by
  refine @Stmt.rec motive (fun body => ∀ inner ∈ body, motive inner)
    declare assign eval ret block ?_ ?_ s
  · intro inner none
    cases none
  · intro head tail here there inner among
    rcases List.mem_cons.mp among with rfl | among
    · exact here
    · exact there inner among

/-! ## Nodes of an expression -/

mutual

/-- An expression and all expressions inside it. -/
def Expr.nodes : Expr → List Expr
  | .var name => [.var name]
  | .const value => [.const value]
  | .binary op lhs rhs => .binary op lhs rhs :: (lhs.nodes ++ rhs.nodes)
  | .call callee args => .call callee args :: Expr.nodesAll args

def Expr.nodesAll : List Expr → List Expr
  | [] => []
  | e :: es => e.nodes ++ Expr.nodesAll es

end

namespace Expr

theorem nodesAll_eq_flatMap (es : List Expr) : nodesAll es = es.flatMap nodes := by
  induction es with
  | nil => rfl
  | cons e es ih => rw [nodesAll, ih, List.flatMap_cons]

theorem self_mem_nodes (e : Expr) : e ∈ e.nodes := by
  cases e <;> simp [nodes]

theorem nodes_subset_of_mem {arg : Expr} {callee : String} {args : List Expr}
    (among : arg ∈ args) : arg.nodes ⊆ (call callee args).nodes := by
  intro node inside
  rw [nodes, nodesAll_eq_flatMap]
  exact List.mem_cons_of_mem _ (List.mem_flatMap.mpr ⟨arg, among, inside⟩)

def isBinary : Expr → Bool
  | .binary .. => true
  | _ => false

def isCall : Expr → Bool
  | .call .. => true
  | _ => false

end Expr

/-! ## Statements and expressions of a body -/

mutual

/-- The statements that a statement consists of, without the blocks. -/
def Stmt.leaves : Stmt → List Stmt
  | .declare binding => [.declare binding]
  | .assign target value => [.assign target value]
  | .eval value => [.eval value]
  | .ret value => [.ret value]
  | .block body => Stmt.leavesAll body

def Stmt.leavesAll : List Stmt → List Stmt
  | [] => []
  | s :: ss => s.leaves ++ Stmt.leavesAll ss

end

namespace Stmt

def isDeclare : Stmt → Bool
  | .declare _ => true
  | _ => false

def isBlock : Stmt → Bool
  | .block _ => true
  | _ => false

/-- The expressions that stand in a statement itself. -/
def values : Stmt → List Expr
  | .assign _ value => [value]
  | .eval value => [value]
  | .ret (some value) => [value]
  | _ => []

/-- The expressions of a statement at any depth. -/
def exprs (s : Stmt) : List Expr := s.leaves.flatMap values

def exprsAll (body : List Stmt) : List Expr := (leavesAll body).flatMap values

theorem exprsAll_cons (s : Stmt) (ss : List Stmt) :
    exprsAll (s :: ss) = s.exprs ++ exprsAll ss := by
  rw [exprsAll, leavesAll, List.flatMap_append, exprs, exprsAll]

theorem exprs_block (body : List Stmt) : (block body).exprs = exprsAll body := by
  rw [exprs, leaves, exprsAll]

theorem leavesAll_eq_flatMap (body : List Stmt) : leavesAll body = body.flatMap leaves := by
  induction body with
  | nil => rfl
  | cons s ss ih => rw [leavesAll, ih, List.flatMap_cons]

theorem isBlock_of_mem_leaves (s : Stmt) : ∀ leaf ∈ s.leaves, leaf.isBlock = false := by
  induction s with
  | block body each =>
      intro leaf among
      rw [leaves, leavesAll_eq_flatMap] at among
      obtain ⟨inner, inside, among⟩ := List.mem_flatMap.mp among
      exact each inner inside leaf among
  | _ => simp [leaves, isBlock]

/-- The leaves of a body are the statements in it that are no blocks. -/
theorem isBlock_of_mem_leavesAll {body : List Stmt} :
    ∀ leaf ∈ leavesAll body, leaf.isBlock = false := by
  intro leaf among
  rw [leavesAll_eq_flatMap] at among
  obtain ⟨s, -, among⟩ := List.mem_flatMap.mp among
  exact s.isBlock_of_mem_leaves leaf among

/-- A body without blocks stays as it is. -/
theorem leavesAll_of_not_isBlock {body : List Stmt} (flat : ∀ s ∈ body, s.isBlock = false) :
    leavesAll body = body := by
  induction body with
  | nil => rfl
  | cons s ss ih =>
      have alone : s.leaves = [s] := by
        cases s with
        | block inner => cases flat _ (List.mem_cons_self ..)
        | _ => rfl
      rw [leavesAll, alone, ih fun t among => flat t (List.mem_cons_of_mem _ among),
        List.singleton_append]

end Stmt

namespace Func

/-- The expressions that stand in a function's statements. -/
def exprs (f : Func) : List Expr := Stmt.exprsAll f.body

/-- All expressions of a function, those inside others included. -/
def nodes (f : Func) : List Expr := f.exprs.flatMap Expr.nodes

end Func

end IntBackend
