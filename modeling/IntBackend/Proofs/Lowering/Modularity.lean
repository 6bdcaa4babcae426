/-
# IntBackend.Proofs.Lowering.Modularity — each function is lowered on its own

The code of a program is that of its functions laid end to end, and a function's
code depends on the rest of the program through the names that are declared, taken
as a set. So the order of the functions does not matter to any of them
(`Program.lower_permuted_iff`), and a further function leaves the others alone: what
they call is declared already (`Func.called_subset`), and more names do no harm
(`Func.lower_mono`).
-/
import Mathlib.Data.List.FinRange
import Mathlib.Data.List.OfFn
import IntBackend.Proofs.Lowering.Renaming

namespace IntBackend

set_option autoImplicit false

open Convention

/-! ## Functions that are called are declared -/

theorem Expr.called_subset_args {scope : Scope} {args : List Expr}
    (each : ∀ arg ∈ args, ∀ {out}, arg.lower scope = .ok out → arg.called ⊆ scope.callees)
    {registers : List Register} {code : Code}
    (lowers : Expr.lowerArgs scope registers args = .ok code) :
    args.flatMap Expr.called ⊆ scope.callees := by
  refine Expr.lowerArgs_induction (motive := fun _ args _ =>
    args.flatMap Expr.called ⊆ scope.callees) each ?_ ?_ ?_ lowers
  · intro registers
    exact List.nil_subset _
  · intro r rs arg args first rest _ here there
    rw [List.flatMap_cons, List.append_subset]
    exact ⟨here, there⟩
  · intro arg args first rest _ here there
    rw [List.flatMap_cons, List.append_subset]
    exact ⟨here, there⟩

/-- An expression lowers only if all functions that it calls are known. -/
theorem Expr.called_subset (e : Expr) {scope : Scope} {out : Valued}
    (lowers : e.lower scope = .ok out) : e.called ⊆ scope.callees := by
  induction e generalizing out with
  | var name => exact List.nil_subset _
  | const value => exact List.nil_subset _
  | binary op lhs rhs left right =>
      obtain ⟨combine, l, r, -, lowersLeft, lowersRight, -⟩ := Expr.lower_binary_iff.mp lowers
      rw [Expr.called_binary, List.append_subset]
      exact ⟨left lowersLeft, right lowersRight⟩
  | call callee args each =>
      obtain ⟨known, passed, passes, -⟩ := Expr.lower_call_iff.mp lowers
      rw [Expr.called_call, List.cons_subset]
      exact ⟨known, Expr.called_subset_args (fun arg among => each arg among) passes⟩

theorem Stmt.called_subset_leaf {s : Stmt} {scope after : Scope} {code : Code}
    (lowers : s.lower scope = .ok (code, after)) :
    s.values.flatMap Expr.called ⊆ scope.callees := by
  intro name among
  obtain ⟨value, inside, called⟩ := List.mem_flatMap.mp among
  obtain ⟨out, lowersValue⟩ := Stmt.exists_lower_of_mem_values lowers value inside
  exact value.called_subset lowersValue called

theorem Stmt.called_subset_all {scope after : Scope} {body : List Stmt} {code : Code}
    (lowers : Stmt.lowerAll scope body = .ok (code, after)) :
    Stmt.calledAll body ⊆ scope.callees := by
  refine Stmt.lowerAll_induction
    (motive := fun scope leaves _ _ =>
      (leaves.flatMap Stmt.values).flatMap Expr.called ⊆ scope.callees)
    (fun _ => List.nil_subset _) ?_ lowers
  intro scope between after s ss head tail alone lowersHead _ late
  rw [(Stmt.grown_of_leaf 0 alone lowersHead).extension.callees] at late
  rw [List.flatMap_cons, List.flatMap_append, List.append_subset]
  exact ⟨Stmt.called_subset_leaf lowersHead, late⟩

namespace Func

/-- A function lowers only if all functions that it calls are known. -/
theorem called_subset {f : Func} {callees : List String} {code : Code}
    (lowers : f.lower callees = .ok code) : f.called ⊆ callees := by
  obtain ⟨body, after, lowersBody, -⟩ := lower_iff.mp lowers
  obtain ⟨stores, between, statements, binds, lowersAll, -⟩ := lowerBody_iff.mp lowersBody
  have known := Stmt.called_subset_all lowersAll
  rw [(grown_of_lowerParams binds).extension.callees] at known
  exact known

/-- Names that are declared besides do not change the code of a function. -/
theorem lower_mono {f : Func} {callees more : List String} {code : Code}
    (within : callees ⊆ more) (lowers : f.lower callees = .ok code) :
    f.lower more = .ok code := by
  rw [← lowers]
  refine f.lower_congr fun name called => ?_
  have known := called_subset lowers called
  exact ⟨fun _ => known, fun _ => within known⟩

/-- The code of a function, where it has one. -/
def emitted (callees : List String) (f : Func) : Code := (f.lower callees).toOption.getD []

theorem lower_eq_emitted {f : Func} {callees : List String}
    (lowers : (f.lower callees).isOk = true) : f.lower callees = .ok (f.emitted callees) := by
  obtain ⟨code, eq⟩ := exists_ok_of_isOk lowers
  rw [emitted, eq]
  rfl

end Func

/-! ## Programs as lists of segments -/

namespace Program

theorem lowerFunctions_eq_ok_iff {callees : List String} {fs : List Func} {code : Code} :
    lowerFunctions callees fs = .ok code ↔
      (∀ f ∈ fs, (f.lower callees).isOk = true) ∧ code = fs.flatMap (Func.emitted callees) := by
  induction fs generalizing code with
  | nil =>
      constructor
      · rintro ⟨⟩
        exact ⟨nofun, rfl⟩
      · rintro ⟨-, rfl⟩
        rfl
  | cons f fs ih =>
      rw [lowerFunctions_cons_iff, List.forall_mem_cons, List.flatMap_cons]
      constructor
      · rintro ⟨head, tail, lowersHead, lowersTail, rfl⟩
        obtain ⟨all, rfl⟩ := ih.mp lowersTail
        have ok : (f.lower callees).isOk = true := by rw [lowersHead]; rfl
        rw [Func.lower_eq_emitted ok, Except.ok.injEq] at lowersHead
        exact ⟨⟨ok, all⟩, by rw [lowersHead]⟩
      · rintro ⟨⟨ok, all⟩, rfl⟩
        exact ⟨_, _, Func.lower_eq_emitted ok, ih.mpr ⟨all, rfl⟩, rfl⟩

/-- What stands in front of the functions. -/
def front (target : Target) : Code := .enter .text :: startRoutine target (.function entry)

/-- A program lowers if it has an entry and all its functions lower, and its code is theirs in
order. -/
theorem lower_eq_ok_iff {p : Program} {target : Target} {code : Code} :
    p.lower target = .ok code ↔
      (entry ∈ p.names ∧ ∀ f ∈ p.functions, (f.lower p.names).isOk = true) ∧
        code = front target ++ p.functions.flatMap (Func.emitted p.names) ++
          [.enter .gnuStack] := by
  rw [lower_iff]
  simp only [lowerFunctions_eq_ok_iff]
  constructor
  · rintro ⟨known, functions, ⟨all, rfl⟩, rfl⟩
    exact ⟨⟨known, all⟩, rfl⟩
  · rintro ⟨⟨known, all⟩, rfl⟩
    exact ⟨known, _, ⟨all, rfl⟩, rfl⟩

/-! ## Functions in another order -/

/-- The same functions; the one in place `k` comes from place `order k`. -/
def permuted (p : Program) (order : Equiv.Perm (Fin p.functions.length)) : Program :=
  ⟨List.ofFn fun k => p.functions.get (order k)⟩

section Permuted

variable (p : Program) (order : Equiv.Perm (Fin p.functions.length))

theorem functions_permuted : (p.permuted order).functions.Perm p.functions := by
  have perm := order.ofFn_comp_perm p.functions.get
  rwa [List.ofFn_get] at perm

/-- The order of functions does not change which are known. -/
theorem mem_names_permuted (name : String) : name ∈ (p.permuted order).names ↔ name ∈ p.names :=
  ((p.functions_permuted order).map Func.name).mem_iff

/-- A function's code does not depend on where the others stand. -/
theorem lower_function_permuted (f : Func) :
    f.lower (p.permuted order).names = f.lower p.names :=
  f.lower_congr fun name _ => p.mem_names_permuted order name

theorem emitted_permuted : Func.emitted (p.permuted order).names = Func.emitted p.names := by
  funext f
  rw [Func.emitted, p.lower_function_permuted order, Func.emitted]

theorem flatMap_functions (segment : Func → Code) :
    p.functions.flatMap segment =
      (List.ofFn fun k => segment (p.functions.get k)).flatten := by
  have placed : (List.ofFn fun k => segment (p.functions.get k)) =
      (List.ofFn p.functions.get).map segment := List.map_ofFn.symm
  rw [placed, List.ofFn_get, List.flatMap_def]

theorem flatMap_permuted (segment : Func → Code) :
    (p.permuted order).functions.flatMap segment =
      (List.ofFn fun k => segment (p.functions.get (order k))).flatten := by
  rw [List.flatMap_def, permuted, List.map_ofFn]
  rfl

/-- Functions in another order lower if they did before, each to the same segment. -/
theorem lower_permuted_iff {target : Target} {code : Code} :
    (p.permuted order).lower target = .ok code ↔
      (entry ∈ p.names ∧ ∀ f ∈ p.functions, (f.lower p.names).isOk = true) ∧
        code = front target ++
          (List.ofFn fun k => (p.functions.get (order k)).emitted p.names).flatten ++
          [.enter .gnuStack] := by
  have same : ∀ f, f ∈ (p.permuted order).functions ↔ f ∈ p.functions := fun f =>
    (p.functions_permuted order).mem_iff
  rw [lower_eq_ok_iff, p.flatMap_permuted order, p.emitted_permuted order,
    p.mem_names_permuted order]
  simp only [p.lower_function_permuted order, same]

end Permuted

/-! ## A further function -/

/-- The program with one more function at its end. -/
def extended (p : Program) (f : Func) : Program := ⟨p.functions ++ [f]⟩

theorem names_extended (p : Program) (f : Func) : (p.extended f).names = p.names ++ [f.name] :=
  List.map_append

theorem lowerFunctions_append (callees : List String) (fs gs : List Func) :
    lowerFunctions callees (fs ++ gs) = (do
      let early ← lowerFunctions callees fs
      let late ← lowerFunctions callees gs
      .ok (early ++ late)) := by
  induction fs with
  | nil =>
      cases lowers : lowerFunctions callees gs <;> simp [lowerFunctions, lowers] <;> rfl
  | cons f fs ih =>
      rw [List.cons_append, lowerFunctions, lowerFunctions, ih]
      cases f.lower callees with
      | error fault => rfl
      | ok head =>
          cases lowerFunctions callees fs with
          | error fault => rfl
          | ok tail =>
              cases lowerFunctions callees gs with
              | error fault => rfl
              | ok late => exact congrArg Except.ok (List.append_assoc ..).symm

/-- Functions that lower keep their code when more functions are known. -/
theorem lowerFunctions_mono {callees more : List String} {fs : List Func} {code : Code}
    (within : callees ⊆ more) (lowers : lowerFunctions callees fs = .ok code) :
    lowerFunctions more fs = .ok code := by
  induction fs generalizing code with
  | nil => exact lowers
  | cons f fs ih =>
      obtain ⟨head, tail, lowersHead, lowersTail, rfl⟩ := lowerFunctions_cons_iff.mp lowers
      exact lowerFunctions_cons_iff.mpr
        ⟨head, tail, Func.lower_mono within lowersHead, ih lowersTail, rfl⟩

/-- The functions that lowered before keep their code, so all depends on the new one. -/
theorem lower_extended {p : Program} {target : Target} {functions : Code} (f : Func)
    (known : entry ∈ p.names) (lowers : lowerFunctions p.names p.functions = .ok functions) :
    (p.extended f).lower target =
      (f.lower (p.names ++ [f.name])).map fun segment =>
        front target ++ (functions ++ segment) ++ [.enter .gnuStack] := by
  have within : p.names ⊆ p.names ++ [f.name] := List.subset_append_left ..
  have others := lowerFunctions_mono within lowers
  rw [lower, names_extended, resolve, if_pos (within known), extended, lowerFunctions_append,
    others]
  cases lowersNew : f.lower (p.names ++ [f.name]) with
  | error fault => simp [lowerFunctions, lowersNew, bind, Except.bind, Except.map]
  | ok segment => simp [lowerFunctions, lowersNew, bind, Except.bind, Except.map, front]

end Program

/-- Functions are lowered one by one:
* in another order they lower if they did before, and their segments change places as
  they do;
* a segment depends on its function and on which names are declared;
* a further function is refused for a fault of its own, or its segment comes behind
  the others, which stay as they are. -/
theorem Program.lower_modular (p : Program) (target : Target) :
    (∀ order : Equiv.Perm (Fin p.functions.length),
      ((∃ code, (p.permuted order).lower target = .ok code) ↔ ∃ code, p.lower target = .ok code) ∧
      ∀ code, p.lower target = .ok code → ∃ segment : Fin p.functions.length → Code,
        (∀ k, (p.functions.get k).lower p.names = .ok (segment k)) ∧
        code = Program.front target ++ (List.ofFn segment).flatten ++ [.enter .gnuStack] ∧
        (p.permuted order).lower target =
          .ok (Program.front target ++ (List.ofFn (segment ∘ order)).flatten ++
            [.enter .gnuStack])) ∧
    (∀ (f : Func) (callees others : List String),
      (∀ name, name ∈ others ↔ name ∈ callees) → f.lower others = f.lower callees) ∧
    (∀ (f : Func) (code : Code), p.lower target = .ok code →
      (∃ fault, f.fault? (p.names ++ [f.name]) = some fault ∧
        (p.extended f).lower target = .error fault) ∨
      ∃ before segment, f.lower (p.names ++ [f.name]) = .ok segment ∧
        code = before ++ [.enter .gnuStack] ∧
        (p.extended f).lower target = .ok (before ++ segment ++ [.enter .gnuStack])) := by
  refine ⟨?_, fun f _ _ same => f.lower_congr fun name _ => same name, ?_⟩
  · intro order
    constructor
    · simp only [p.lower_permuted_iff order]
      simp only [Program.lower_eq_ok_iff, exists_and_left, exists_eq, and_true]
    · intro code lowers
      obtain ⟨⟨known, all⟩, rfl⟩ := Program.lower_eq_ok_iff.mp lowers
      refine ⟨fun k => (p.functions.get k).emitted p.names, ?_, ?_, ?_⟩
      · exact fun k => Func.lower_eq_emitted (all _ (List.get_mem ..))
      · rw [p.flatMap_functions]
      · exact (p.lower_permuted_iff order).mpr ⟨⟨known, all⟩, rfl⟩
  · intro f code lowers
    obtain ⟨known, functions, lowersFunctions, rfl⟩ := Program.lower_iff.mp lowers
    have whole := @Program.lower_extended p target functions f known lowersFunctions
    cases lowersNew : f.lower (p.names ++ [f.name]) with
    | error fault =>
        rw [lowersNew] at whole
        have found := f.faultOr_lower (p.names ++ [f.name])
        rw [lowersNew] at found
        exact .inl ⟨fault, found.symm, whole⟩
    | ok segment =>
        rw [lowersNew] at whole
        refine .inr ⟨Program.front target ++ functions, segment, rfl, rfl, ?_⟩
        rw [whole, List.append_assoc (Program.front target)]
        rfl

/-- Two functions that call each other from in front of and behind the entry function. -/
def mutualCalls : Program :=
  ⟨[⟨"even", [⟨"n", .int⟩], some .int,
      [.ret (some (.call "odd" [.binary .sub (.var "n") (.const 1)]))]⟩,
    ⟨"main", [], some .int, [.ret (some (.call "even" [.const 4]))]⟩,
    ⟨"odd", [⟨"n", .int⟩], some .int, [.ret (some (.call "even" [.var "n"]))]⟩]⟩

/-- A function without a result that calls another. -/
def caller (name callee : String) : Func := ⟨name, [], none, [.eval (.call callee [])]⟩

theorem Program.lower_modular_mutualCalls :
    ∃ (code : Code) (segment : Fin mutualCalls.functions.length → Code),
      mutualCalls.lower .macos = .ok code ∧
      code = Program.front .macos ++ (List.ofFn segment).flatten ++ [.enter .gnuStack] ∧
      (mutualCalls.permuted Fin.revPerm).lower .macos =
        .ok (Program.front .macos ++ (List.ofFn (segment ∘ Fin.revPerm)).flatten ++
          [.enter .gnuStack]) ∧
      (mutualCalls.extended (caller "late" "absent")).lower .macos =
        .error (.functionNotFound "absent") ∧
      ∃ before added, (caller "even" "even").lower (mutualCalls.names ++ ["even"]) = .ok added ∧
        code = before ++ [.enter .gnuStack] ∧
        (mutualCalls.extended (caller "even" "even")).lower .macos =
          .ok (before ++ added ++ [.enter .gnuStack]) := by
  have modular := Program.lower_modular mutualCalls .macos
  have lowersOk : (mutualCalls.lower .macos).isOk = true := by decide +kernel
  obtain ⟨code, lowers⟩ := exists_ok_of_isOk lowersOk
  obtain ⟨segment, -, whole, permuted⟩ := (modular.1 Fin.revPerm).2 code lowers
  refine ⟨code, segment, lowers, whole, permuted, ?_, ?_⟩
  · have found : (caller "late" "absent").fault? (mutualCalls.names ++ ["late"]) =
        some (.functionNotFound "absent") := by decide +kernel
    rcases modular.2.2 (caller "late" "absent") code lowers with
      ⟨fault, refused, fails⟩ | ⟨before, added, lowersNew, -⟩
    · rw [Option.some.inj (found.symm.trans refused)]
      exact fails
    · have refuses := faultOr_eq_some_iff.mp ((Func.faultOr_lower ..).trans found)
      cases refuses.symm.trans lowersNew
  · have clean : (caller "even" "even").fault? (mutualCalls.names ++ ["even"]) = none := by
      decide +kernel
    rcases modular.2.2 (caller "even" "even") code lowers with ⟨fault, refused, -⟩ | added
    · cases clean.symm.trans refused
    · exact added

end IntBackend
