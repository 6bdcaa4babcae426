/-
# IntBackend.Proofs.Lowering.Symbols — the names that labels are printed under

Every label that an instruction of a lowered program mentions stands in the program.
Labels that differ may still be printed alike: where functions keep their names, a
function may be called what the start routine or an exit is printed as
(`Label.render_start_eq_function_iff`, `Label.render_function_eq_epilogue_iff`);
where they get an underscore in front, none can. So the printed names are pairwise
distinct exactly if the functions' names are and avoid those.
-/
import IntBackend.Proofs.Lowering.Forms
import IntBackend.Proofs.Lowering.Shape

namespace IntBackend

set_option autoImplicit false

open Convention

/-! ## Labels that are mentioned -/

/-- In a body, labels are mentioned by calls and jumps only. -/
theorem Instruction.Form.op_of_label {i : Instruction} (form : i.Form) {l : Label}
    (among : .label l ∈ i.operands) : i.op = .call ∨ i.op = .jmp := by
  cases form with
  | toRegister r computes value =>
      rcases List.mem_pair.mp among with same | same
      · cases same
      · cases value <;> cases same
  | toCell offset value direct =>
      rcases List.mem_pair.mp among with same | same
      · cases same
      · cases value <;> cases same
  | release n => rcases List.mem_pair.mp among with same | same <;> cases same
  | push value =>
      have same := List.mem_singleton.mp among
      cases value <;> cases same
  | call l => exact .inl rfl
  | jmp l => exact .inr rfl

/-- A body mentions the starts of declared functions and the exit of its own. -/
theorem Func.label_of_lowerBody {f : Func} {callees : List String} {body : Code} {final : Scope}
    (lowers : f.lowerBody callees = .ok (body, final)) {i : Instruction} (inside : i ∈ body)
    {l : Label} (among : .label l ∈ i.operands) :
    l = .epilogue f.name ∨ ∃ g ∈ callees, l = .function g := by
  have cells := (Func.laid_of_lowerBody lowers).cells
  have shape := Func.bodyShape_of_lowerBody lowers
  have form := (Func.emitsBody_of_lowerBody lowers i inside).form cells
  rcases form.op_of_label among with calls | jumps
  · obtain ⟨g, known, operands⟩ := shape.targets i inside calls
    rw [operands, List.mem_singleton] at among
    exact .inr ⟨g, known, Operand.label.inj among⟩
  · rw [shape.jumps i inside jumps, List.mem_singleton] at among
    exact .inl (Operand.label.inj among)

theorem Func.label_of_prologue {f : Func} {i : Instruction} (inside : i ∈ f.prologue) {l : Label}
    (among : .label l ∈ i.operands) : l = .function f.name := by
  simp only [Func.prologue, List.mem_cons, List.not_mem_nil, or_false] at inside
  rcases inside with rfl | rfl | rfl | rfl <;>
    simp [Instruction.labelled, Instruction.global, Instruction.push, Instruction.mov,
      Instruction.sub, Instruction.plain, basePointer, stackPointer, Operand.nat] at among
  exact among

theorem Func.no_label_in_epilogue {f : Func} {i : Instruction} (inside : i ∈ f.epilogue)
    {l : Label} : .label l ∉ i.operands := by
  simp only [Func.epilogue, List.mem_cons, List.not_mem_nil, or_false] at inside
  rcases inside with rfl | rfl | rfl <;>
    simp [Instruction.labelled, Instruction.add, Instruction.pop, Instruction.ret,
      Instruction.plain, basePointer, stackPointer, Operand.nat]

theorem Program.label_of_startRoutine {target : Target} {main : Label} {i : Instruction}
    (inside : i ∈ Program.startRoutine target main) {l : Label} (among : .label l ∈ i.operands) :
    l = .start ∨ l = main := by
  simp only [Program.startRoutine, List.mem_cons, List.not_mem_nil, or_false] at inside
  rcases inside with rfl | rfl | rfl | rfl | rfl <;>
    simp [Instruction.labelled, Instruction.global, Instruction.call, Instruction.mov,
      Instruction.syscall, Instruction.plain, accumulator, Operand.nat] at among
  · exact .inl among
  · exact .inr among

section Program

variable {p : Program} {target : Target} {code : Code}

theorem Program.start_mem_labels (lowers : p.lower target = .ok code) : .start ∈ labels code := by
  rw [Program.labels_of_lower lowers]
  exact List.mem_cons_self ..

/-- A function has a label if and only if the program declares it. -/
theorem Program.function_mem_labels (lowers : p.lower target = .ok code) {name : String} :
    .function name ∈ labels code ↔ name ∈ p.names := by
  rw [Program.labels_of_lower lowers]
  simp [Func.labels, Program.names, eq_comm]

/-- A function has an exit if and only if the program declares it. -/
theorem Program.epilogue_mem_labels (lowers : p.lower target = .ok code) {name : String} :
    .epilogue name ∈ labels code ↔ name ∈ p.names := by
  rw [Program.labels_of_lower lowers]
  simp [Func.labels, Program.names, eq_comm]

/-- Whatever an instruction refers to is defined in the same code. -/
theorem Program.mem_labels_of_mentioned (lowers : p.lower target = .ok code) {i : Instruction}
    (inside : i ∈ code) {l : Label} (among : .label l ∈ i.operands) : l ∈ labels code := by
  have entry : Program.entry ∈ p.names := (Program.lower_iff.mp lowers).1
  rcases Program.mem_of_lower lowers inside with
    ⟨s, rfl⟩ | inside | ⟨f, declared, body, final, lowersBody, inside | inside | inside⟩
  · cases among
  · rcases Program.label_of_startRoutine inside among with rfl | rfl
    · exact Program.start_mem_labels lowers
    · exact (Program.function_mem_labels lowers).mpr entry
  · rw [Func.label_of_prologue inside among, Program.function_mem_labels lowers]
    exact List.mem_map_of_mem declared
  · rcases Func.label_of_lowerBody lowersBody inside among with rfl | ⟨g, known, rfl⟩
    · exact (Program.epilogue_mem_labels lowers).mpr (List.mem_map_of_mem declared)
    · exact (Program.function_mem_labels lowers).mpr known
  · exact absurd among (Func.no_label_in_epilogue inside)

end Program

/-! ## Labels that are printed alike -/

namespace Label

variable (target : Target)

/-- The printed name of an exit. -/
def exitName (name : String) : String := ".L" ++ name ++ "_epilogue"

theorem exitName_injective : Function.Injective exitName := by
  intro a b same
  have chars := congrArg String.toList same
  simp only [exitName, String.toList_append, List.append_assoc, List.append_right_inj,
    List.append_left_inj] at chars
  exact String.toList_injective chars

theorem toList_exitName (name : String) :
    (exitName name).toList = '.' :: 'L' :: (name.toList ++ "_epilogue".toList) := by
  simp [exitName, String.toList_append]

theorem render_function_injective :
    Function.Injective fun name => (function name).render target := by
  intro a b same
  cases target with
  | linux => exact same
  | macos =>
      have chars := congrArg String.toList same
      simp only [render, String.toList_append, List.append_right_inj] at chars
      exact String.toList_injective chars

theorem render_start_ne_epilogue (name : String) :
    start.render target ≠ (epilogue name).render target := by
  intro same
  have chars : (start.render target).toList = (exitName name).toList := congrArg String.toList same
  rw [toList_exitName] at chars
  cases target <;> simp [render] at chars

/-- On Linux the entry point of the process can be mistaken for a function of that name. -/
theorem render_start_eq_function_iff (name : String) :
    start.render target = (function name).render target ↔ target = .linux ∧ name = "_start" := by
  cases target with
  | linux => simp [render, eq_comm]
  | macos =>
      simp only [reduceCtorEq, false_and, iff_false]
      intro same
      have chars := congrArg String.toList same
      simp [render, String.toList_append] at chars

/-- On Linux an exit can be mistaken for a function that is named as exits are printed. -/
theorem render_function_eq_epilogue_iff (name other : String) :
    (function name).render target = (epilogue other).render target ↔
      target = .linux ∧ name = exitName other := by
  cases target with
  | linux => simp [render, exitName]
  | macos =>
      simp only [reduceCtorEq, false_and, iff_false]
      intro same
      have chars : ("_" ++ name).toList = (exitName other).toList := congrArg String.toList same
      rw [toList_exitName] at chars
      simp [String.toList_append] at chars

end Label

/-! ## Programs -/

theorem map_function_sublist_labels (fs : List Func) :
    List.Sublist ((fs.map Func.name).map Label.function) (fs.flatMap Func.labels) := by
  induction fs with
  | nil => exact .slnil
  | cons f fs ih => exact .cons_cons _ (.cons _ ih)

section Program

variable {p : Program} {target : Target} {code : Code}

/-- Labels differ exactly if no two functions share a name. -/
theorem Program.nodup_labels_iff (lowers : p.lower target = .ok code) :
    (labels code).Nodup ↔ p.names.Nodup := by
  refine ⟨?_, Program.nodup_labels lowers⟩
  intro distinct
  rw [Program.labels_of_lower lowers, List.nodup_cons] at distinct
  exact (distinct.2.sublist (map_function_sublist_labels p.functions)).of_map _

/-- Different labels of a program are printed differently, if no function is named as
the start routine or an exit is printed. -/
theorem Program.render_injOn_labels (lowers : p.lower target = .ok code)
    (avoids : target = .linux →
      "_start" ∉ p.names ∧ ∀ g ∈ p.names, Label.exitName g ∉ p.names) :
    ∀ a ∈ labels code, ∀ b ∈ labels code, a.render target = b.render target → a = b := by
  have start_ne : ∀ {name}, .function name ∈ labels code →
      Label.start.render target ≠ (Label.function name).render target := by
    intro name among same
    obtain ⟨linux, rfl⟩ := (Label.render_start_eq_function_iff target name).mp same
    exact (avoids linux).1 ((Program.function_mem_labels lowers).mp among)
  have exit_ne : ∀ {name other}, .function name ∈ labels code → .epilogue other ∈ labels code →
      (Label.function name).render target ≠ (Label.epilogue other).render target := by
    intro name other among amongOther same
    obtain ⟨linux, rfl⟩ := (Label.render_function_eq_epilogue_iff target name other).mp same
    exact (avoids linux).2 other ((Program.epilogue_mem_labels lowers).mp amongOther)
      ((Program.function_mem_labels lowers).mp among)
  intro a amongA b amongB same
  cases a with
  | start =>
      cases b with
      | start => rfl
      | function name => exact absurd same (start_ne amongB)
      | epilogue name => exact absurd same (Label.render_start_ne_epilogue target name)
  | function name =>
      cases b with
      | start => exact absurd same.symm (start_ne amongA)
      | function other => exact congrArg _ (Label.render_function_injective target same)
      | epilogue other => exact absurd same (exit_ne amongA amongB)
  | epilogue name =>
      cases b with
      | start => exact absurd same.symm (Label.render_start_ne_epilogue target name)
      | function other => exact absurd same.symm (exit_ne amongB amongA)
      | epilogue other => exact congrArg _ (Label.exitName_injective same)

/-- Conversely, where functions keep their names, one of these names is a clash. -/
theorem Program.avoids_of_render_injOn (lowers : p.lower target = .ok code)
    (distinct : ∀ a ∈ labels code, ∀ b ∈ labels code, a.render target = b.render target → a = b)
    (linux : target = .linux) :
    "_start" ∉ p.names ∧ ∀ g ∈ p.names, Label.exitName g ∉ p.names := by
  constructor
  · intro named
    have same := (Label.render_start_eq_function_iff target "_start").mpr ⟨linux, rfl⟩
    cases distinct _ (Program.start_mem_labels lowers) _
      ((Program.function_mem_labels lowers).mpr named) same
  · intro g declared named
    have same := (Label.render_function_eq_epilogue_iff target _ g).mpr ⟨linux, rfl⟩
    cases distinct _ ((Program.function_mem_labels lowers).mpr named) _
      ((Program.epilogue_mem_labels lowers).mpr declared) same

end Program

/-- Every label that is mentioned is attached to an instruction, and labels are printed
under pairwise distinct names exactly if the functions' names are distinct and, on
Linux, none of them is that of the start routine or of the exit of a function. -/
theorem Program.symbols_of_lower (p : Program) (target : Target) (code : Code)
    (lowers : p.lower target = .ok code) :
    (∀ i ∈ code, ∀ l, .label l ∈ i.operands → ∃ j ∈ code, j.label = some l) ∧
    ((labels code |>.map (Label.render target)).Nodup ↔
      p.names.Nodup ∧ (target = .linux →
        "_start" ∉ p.names ∧ ∀ g ∈ p.names, ".L" ++ g ++ "_epilogue" ∉ p.names)) := by
  constructor
  · intro i inside l among
    exact List.mem_filterMap.mp (Program.mem_labels_of_mentioned lowers inside among)
  · constructor
    · intro printed
      have distinct := printed.of_map
      have injective := (List.nodup_map_iff_inj_on distinct).mp printed
      exact ⟨(Program.nodup_labels_iff lowers).mp distinct,
        Program.avoids_of_render_injOn lowers injective⟩
    · rintro ⟨distinct, avoids⟩
      exact (List.nodup_map_iff_inj_on ((Program.nodup_labels_iff lowers).mpr distinct)).mpr
        (Program.render_injOn_labels lowers avoids)

/-- A function that is named as the exit of another is printed on Linux. -/
def disguisedExit : Program :=
  ⟨[⟨".Lmain_epilogue", [], none, []⟩,
    ⟨"main", [], none, [.eval (.call ".Lmain_epilogue" []), .ret none]⟩]⟩

theorem Program.symbols_of_lower_disguisedExit :
    (∃ code, disguisedExit.lower .linux = .ok code ∧
      ¬ (labels code |>.map (Label.render .linux)).Nodup) ∧
    ∃ code, disguisedExit.lower .macos = .ok code ∧
      (labels code |>.map (Label.render .macos)).Nodup := by
  have names : disguisedExit.names = [".Lmain_epilogue", "main"] := rfl
  constructor
  · have lowersOk : (disguisedExit.lower .linux).isOk = true := by decide +kernel
    obtain ⟨code, lowers⟩ := exists_ok_of_isOk lowersOk
    refine ⟨code, lowers, ?_⟩
    rw [(Program.symbols_of_lower disguisedExit .linux code lowers).2, names]
    decide +kernel
  · have lowersOk : (disguisedExit.lower .macos).isOk = true := by decide +kernel
    obtain ⟨code, lowers⟩ := exists_ok_of_isOk lowersOk
    refine ⟨code, lowers, ?_⟩
    rw [(Program.symbols_of_lower disguisedExit .macos code lowers).2, names]
    decide +kernel

end IntBackend
