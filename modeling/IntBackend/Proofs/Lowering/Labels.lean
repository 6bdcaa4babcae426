/-
# IntBackend.Proofs.Lowering.Labels — the labels of lowered programs

Each function has two labels in the code, where it starts and where it ends, and
the start routine has one. They are all different if the functions' names are, and
then a label stands in one place only.
-/
import Mathlib.Data.List.Nodup
import IntBackend.Proofs.Lowering.Segments

namespace IntBackend

set_option autoImplicit false

open Convention

/-- The labels of code, in order. -/
def labels (code : Code) : List Label := code.filterMap Instruction.label

theorem labels_append (a b : Code) : labels (a ++ b) = labels a ++ labels b :=
  List.filterMap_append

theorem labels_eq_nil {code : Code} (unlabelled : ∀ i ∈ code, i.label = none) :
    labels code = [] :=
  List.filterMap_eq_nil_iff.mpr unlabelled

namespace Func

def labels (f : Func) : List Label := [.function f.name, .epilogue f.name]

theorem labels_of_lower {f : Func} {callees : List String} {code : Code}
    (lowers : f.lower callees = .ok code) : IntBackend.labels code = f.labels := by
  obtain ⟨body, after, lowersBody, rfl⟩ := lower_iff.mp lowers
  have inside := labels_eq_nil fun i among =>
    (emitsBody_of_lowerBody lowersBody i among).unlabelled
  rw [labels_append, labels_append, inside]
  rfl

end Func

theorem Program.labels_of_lowerFunctions {callees : List String} {fs : List Func} {code : Code}
    (lowers : Program.lowerFunctions callees fs = .ok code) :
    labels code = fs.flatMap Func.labels := by
  induction fs generalizing code with
  | nil =>
      cases lowers
      rfl
  | cons f fs ih =>
      obtain ⟨head, tail, lowersHead, lowersTail, rfl⟩ :=
        Program.lowerFunctions_cons_iff.mp lowers
      rw [labels_append, Func.labels_of_lower lowersHead, ih lowersTail, List.flatMap_cons]

/-- The labels of a program: the start, and the two of each function in order. -/
theorem Program.labels_of_lower {p : Program} {target : Target} {code : Code}
    (lowers : p.lower target = .ok code) :
    labels code = .start :: p.functions.flatMap Func.labels := by
  obtain ⟨-, functions, lowersFunctions, rfl⟩ := Program.lower_iff.mp lowers
  rw [labels_append, labels_append, Program.labels_of_lowerFunctions lowersFunctions]
  exact List.append_nil _

theorem nodup_flatMap_labels {fs : List Func} (distinct : (fs.map Func.name).Nodup) :
    (fs.flatMap Func.labels).Nodup := by
  rw [List.nodup_flatMap]
  refine ⟨fun f _ => by simp [Func.labels], ?_⟩
  refine (List.pairwise_map.mp distinct).imp fun {f g} ne => ?_
  simp [Function.onFun, Func.labels, List.disjoint_left, ne]

/-- Different names give different labels. -/
theorem Program.nodup_labels {p : Program} {target : Target} {code : Code}
    (lowers : p.lower target = .ok code) (distinct : p.names.Nodup) : (labels code).Nodup := by
  rw [Program.labels_of_lower lowers]
  refine List.nodup_cons.mpr ⟨?_, nodup_flatMap_labels distinct⟩
  simp [Func.labels]

/-- A label that stands in one place only is found there. -/
theorem findIdx?_of_nodup_labels {code : Code} (distinct : (labels code).Nodup) {k : Nat}
    {i : Instruction} {l : Label} (here : code[k]? = some i) (labelled : i.label = some l) :
    code.findIdx? (fun i => i.label = some l) = some k := by
  induction code generalizing k with
  | nil => cases here
  | cons first code ih =>
      rw [List.findIdx?_cons]
      cases k with
      | zero =>
          cases here
          simp [labelled]
      | succ k =>
          have among : l ∈ labels code :=
            List.mem_filterMap.mpr ⟨i, List.mem_of_getElem? here, labelled⟩
          cases other : first.label with
          | none =>
              rw [labels, List.filterMap_cons_none other] at distinct
              simp [ih distinct here]
          | some m =>
              rw [labels, List.filterMap_cons_some other, List.nodup_cons] at distinct
              have ne : m ≠ l := by
                rintro rfl
                exact distinct.1 among
              simp [ne, ih distinct.2 here]

/-! ## Where a function stands -/

/-- The code of every function of a program is part of the program's code. -/
theorem Program.lowerFunctions_split {callees : List String} {fs : List Func} {code : Code}
    (lowers : Program.lowerFunctions callees fs = .ok code) {f : Func} (among : f ∈ fs) :
    ∃ before body after final, f.lowerBody callees = .ok (body, final) ∧
      code = before ++ (f.prologue ++ body ++ f.epilogue) ++ after := by
  induction fs generalizing code with
  | nil => cases among
  | cons g fs ih =>
      obtain ⟨head, tail, lowersHead, lowersTail, rfl⟩ :=
        Program.lowerFunctions_cons_iff.mp lowers
      rcases List.mem_cons.mp among with rfl | among
      · obtain ⟨body, final, lowersBody, rfl⟩ := Func.lower_iff.mp lowersHead
        exact ⟨[], body, tail, final, lowersBody, rfl⟩
      · obtain ⟨before, body, after, final, lowersBody, rfl⟩ := ih lowersTail among
        exact ⟨head ++ before, body, after, final, lowersBody, by simp⟩

/-- The code around one of the functions, whatever the others are. -/
theorem Program.lower_split {p : Program} {target : Target} {code : Code}
    (lowers : p.lower target = .ok code) {f : Func} (among : f ∈ p.functions) :
    ∃ before body after final, f.lowerBody p.names = .ok (body, final) ∧
      code = before ++ f.segment body ++ after := by
  obtain ⟨-, functions, lowersFunctions, rfl⟩ := Program.lower_iff.mp lowers
  obtain ⟨before, body, after, final, lowersBody, rfl⟩ :=
    Program.lowerFunctions_split lowersFunctions among
  have split : f.prologue ++ body ++ f.epilogue =
      [.global (.function f.name)] ++ f.segment body := rfl
  refine ⟨.enter .text :: Program.startRoutine target (.function Program.entry) ++
    (before ++ [.global (.function f.name)]), body, after ++ [.enter .gnuStack], final,
    lowersBody, ?_⟩
  rw [split]
  simp only [List.append_assoc]

end IntBackend
