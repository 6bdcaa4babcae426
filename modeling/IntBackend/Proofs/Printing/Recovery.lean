/-
# IntBackend.Proofs.Printing.Recovery — code is determined by its text

Printing leaves out the width of memory operands, moves the last operand to the front
and prints labels as plain words, so different code can have the same text. The code
of programs cannot: an instruction that is accepted has the width of its suffix in
all operands (`Operand.eq_of_render_eq`), so its line determines it
(`Instruction.eq_of_renderLine_eq`); and a line of a label holds no blank or tab,
which every other line does, so the lines of code determine the code
(`Code.eq_of_lines_eq`).
-/
import Mathlib.Data.List.Nodup
import IntBackend.Proofs.Machine.Literals
import IntBackend.Proofs.Printing.Lines

namespace IntBackend

set_option autoImplicit false

open Convention

/-! ## Labels -/

/-- Functions' labels are told apart by what is printed. -/
theorem Label.eq_of_render_eq {a b : Label} {target : Target} (legibleA : a.Legible)
    (legibleB : b.Legible) (elsewhereA : a ≠ .start) (elsewhereB : b ≠ .start)
    (same : a.render target = b.render target) : a = b := by
  have dotless : ∀ {name other : String}, isName name = true → name ≠ exitName other := by
    rintro name other proper rfl
    obtain ⟨-, -, -, -, all⟩ := exists_of_isName proper
    have dot : '.' ∈ (exitName other).toList := by simp [toList_exitName]
    exact absurd (all _ dot) (by decide)
  cases a with
  | start => exact absurd rfl elsewhereA
  | function name =>
      cases b with
      | start => exact absurd rfl elsewhereB
      | function other => exact congrArg _ (render_function_injective target same)
      | epilogue other =>
          exact absurd ((render_function_eq_epilogue_iff target name other).mp same).2
            (dotless legibleA)
  | epilogue name =>
      cases b with
      | start => exact absurd rfl elsewhereB
      | function other =>
          exact absurd ((render_function_eq_epilogue_iff target other name).mp same.symm).2
            (dotless legibleB)
      | epilogue other => exact congrArg _ (exitName_injective same)

/-! ## Operands -/

def Register.all : List Register := [.ax, .cx, .dx, .di, .si, .r8, .r9, .r10, .sp, .bp]

theorem Register.mem_all (r : Register) : r ∈ Register.all := by
  cases r <;> decide

theorem Register.name_injective (w : Width) : Function.Injective fun r => Register.name r w := by
  have distinct : (Register.all.map fun r => r.name w).Nodup := by cases w <;> decide
  exact fun r s same => List.inj_on_of_nodup_map distinct r.mem_all s.mem_all same

theorem Register.not_mem_name {c : Char} (r : Register) (w : Width)
    (foreign : isNameChar c = false) : c ∉ (r.name w).toList := fun among =>
  ne_of_isNameChar (r.isNameChar_name w c among) foreign rfl

theorem not_mem_repr {c : Char} (n : Int) (foreign : isNameChar c = false) (other : c ≠ '-') :
    c ∉ n.repr.toList := by
  intro among
  rcases mem_repr among with digit | minus
  · exact ne_of_isNameChar (by simp [isNameChar, digit]) foreign rfl
  · exact other minus

namespace Operand

/-- The signs in which an operand is printed tell its kind. -/
theorem kind_of_render {operand : Operand} (target : Target) (legible : operand.Legible) :
    ('(' ∈ (operand.render target).toList ↔ operand.isMemory = true) ∧
    ('$' ∈ (operand.render target).toList ↔ operand.isConst = true) ∧
    ('%' ∈ (operand.render target).toList ↔
      (operand.isAnyRegister || operand.isMemory) = true) := by
  have paren : isNameChar '(' = false := by decide
  have dollar : isNameChar '$' = false := by decide
  have percent : isNameChar '%' = false := by decide
  cases operand with
  | reg r w =>
      simp [Operand.render, String.toList_append, isMemory, isConst, isAnyRegister,
        r.not_mem_name w paren, r.not_mem_name w dollar]
  | mem r w offset =>
      simp [Operand.render, String.toList_append, isMemory, isConst, isAnyRegister,
        r.not_mem_name .quad dollar, not_mem_repr offset dollar]
  | const text =>
      obtain ⟨n, rfl⟩ := legible
      simp [Operand.render, String.toList_append, isMemory, isConst, isAnyRegister,
        not_mem_repr n paren, not_mem_repr n percent]
  | label l =>
      simp [Operand.render, isMemory, isConst, isAnyRegister,
        Label.not_mem_render target legible paren, Label.not_mem_render target legible dollar,
        Label.not_mem_render target legible percent]

/-- The base and the offset of memory are printed. -/
theorem mem_eq_of_render_eq {r s : Register} {v w : Width} {a b : Int} {target : Target}
    (same : (mem r v a).render target = (mem s w b).render target) : r = s ∧ a = b := by
  have chars : a.repr.toList ++ '(' :: '%' :: ((r.name .quad).toList ++ [')']) =
      b.repr.toList ++ '(' :: '%' :: ((s.name .quad).toList ++ [')']) := by
    have printed := congrArg String.toList same
    simpa [Operand.render, String.toList_append] using printed
  have absent : '(' ∉ '%' :: ((r.name .quad).toList ++ [')']) := by
    simp [r.not_mem_name .quad (by decide : isNameChar '(' = false)]
  obtain ⟨offset, -, base⟩ :=
    (List.append_cons_inj_of_notMem (not_mem_repr a (by decide) (by decide)) absent).mp chars
  rw [List.cons_inj_right, List.append_left_inj] at base
  exact ⟨Register.name_injective .quad (String.toList_injective base),
    Int.repr_inj.mp (String.toList_injective offset)⟩

/-- Operands of the same width are told apart by what is printed. -/
theorem eq_of_render_eq {a b : Operand} {target : Target} (legibleA : a.Legible)
    (legibleB : b.Legible) (elsewhereA : a ≠ .label .start) (elsewhereB : b ≠ .label .start)
    {w : Width} (widthA : ∀ v, a.width? = some v → v = w) (widthB : ∀ v, b.width? = some v → v = w)
    (same : a.render target = b.render target) : a = b := by
  obtain ⟨memoryA, constA, registerA⟩ := kind_of_render target legibleA
  obtain ⟨memoryB, constB, registerB⟩ := kind_of_render target legibleB
  rw [same] at memoryA constA registerA
  have memory := Bool.eq_iff_iff.mpr (memoryA.symm.trans memoryB)
  have const := Bool.eq_iff_iff.mpr (constA.symm.trans constB)
  have register := Bool.eq_iff_iff.mpr (registerA.symm.trans registerB)
  cases a with
  | reg r v =>
      cases b with
      | reg s u =>
          obtain rfl : v = u := (widthA v rfl).trans (widthB u rfl).symm
          rw [Operand.render, Operand.render, String.append_right_inj] at same
          rw [Register.name_injective v same]
      | mem => cases memory
      | const => cases const
      | label => cases register
  | mem r v offset =>
      cases b with
      | mem s u other =>
          obtain rfl : v = u := (widthA v rfl).trans (widthB u rfl).symm
          obtain ⟨rfl, rfl⟩ := mem_eq_of_render_eq same
          rfl
      | reg => cases memory
      | const => cases memory
      | label => cases memory
  | const text =>
      cases b with
      | const other =>
          rw [Operand.render, Operand.render, String.append_right_inj] at same
          rw [same]
      | reg => cases const
      | mem => cases const
      | label => cases const
  | label l =>
      cases b with
      | label m =>
          have apart : ∀ {l : Label}, Operand.label l ≠ .label .start → l ≠ .start :=
            fun other same => other (congrArg _ same)
          rw [Label.eq_of_render_eq legibleA legibleB (apart elsewhereA) (apart elsewhereB) same]
      | reg => cases register
      | mem => cases memory
      | const => cases const

end Operand

/-! ## Lines -/

theorem eq_of_map_eq {α β : Type} {f : α → β} {xs ys : List α}
    (apart : ∀ x ∈ xs, ∀ y ∈ ys, f x = f y → x = y) (same : xs.map f = ys.map f) : xs = ys := by
  induction xs generalizing ys with
  | nil => exact (List.map_eq_nil_iff.mp same.symm).symm
  | cons x xs ih =>
      cases ys with
      | nil => cases same
      | cons y ys =>
          rw [List.map_cons, List.map_cons, List.cons.injEq] at same
          have here := apart x (List.mem_cons_self ..) y (List.mem_cons_self ..) same.1
          have there := ih (fun a amongA b amongB =>
            apart a (List.mem_cons_of_mem _ amongA) b (List.mem_cons_of_mem _ amongB)) same.2
          rw [here, there]

theorem punctuated_injective : Function.Injective punctuated := by
  intro xs ys same
  induction xs generalizing ys with
  | nil =>
      cases ys with
      | nil => rfl
      | cons y ys => exact absurd same.symm (punctuated_ne_nil (List.cons_ne_nil y ys))
  | cons x xs ih =>
      match xs, ys, same with
      | xs, [], same => exact absurd same (punctuated_ne_nil (List.cons_ne_nil x xs))
      | [], [y], same => exact same
      | [], y :: z :: ys, same =>
          exact absurd (List.cons.inj same).2.symm (punctuated_ne_nil (List.cons_ne_nil z ys))
      | w :: xs, [y], same =>
          exact absurd (List.cons.inj same).2 (punctuated_ne_nil (List.cons_ne_nil w xs))
      | w :: xs, y :: z :: ys, same =>
          obtain ⟨here, there⟩ := List.cons.inj same
          rw [String.append_left_inj] at here
          rw [here, ih there]

namespace Instruction

theorem lastFirst_injective {α : Type} : Function.Injective (@lastFirst α) := by
  intro xs ys same
  rcases List.eq_nil_or_concat xs with rfl | ⟨front, last, rfl⟩ <;>
    rcases List.eq_nil_or_concat ys with rfl | ⟨other, final, rfl⟩
  · rfl
  · rw [List.concat_eq_append, lastFirst_concat] at same
    cases same
  · rw [List.concat_eq_append, lastFirst_concat] at same
    cases same
  · rw [List.concat_eq_append, List.concat_eq_append, lastFirst_concat, lastFirst_concat] at same
    obtain ⟨rfl, rfl⟩ := List.cons.inj same
    rfl

/-- What the first word of a line is printed from. -/
def head (i : Instruction) : Opcode × Option Width :=
  (i.op, if i.op.isSized then some (Operand.size i.operands) else none)

def headText : Opcode × Option Width → String
  | (.global, _) => Opcode.global.mnemonic
  | (op, none) => "\t" ++ op.mnemonic
  | (op, some w) => "\t" ++ (op.mnemonic ++ String.singleton w.suffix)

/-- Sections apart, all that first words are printed from. -/
def heads : List (Opcode × Option Width) :=
  [Opcode.global, .jmp, .call, .ret, .syscall].map (·, none) ++
    [Opcode.mov, .add, .sub, .imul, .push, .pop].flatMap fun op =>
      [Width.byte, .word, .long, .quad].map fun w => (op, some w)

theorem headWord_eq_headText (i : Instruction) : i.headWord = headText i.head := by
  unfold headWord sizedMnemonic head
  cases i.op <;> rfl

/-- There are finitely many heads apart from sections, so they can be compared one by one. -/
theorem head_mem_heads {i : Instruction} (within : ∀ s, i.op ≠ .enter s) : i.head ∈ heads := by
  unfold head
  generalize Operand.size i.operands = w
  cases op : i.op with
  | enter s => exact absurd op (within s)
  | _ => cases w <;> decide

/-- The first word of a line tells the opcode and, if it has a suffix, the width. -/
theorem head_eq_of_headWord_eq {i j : Instruction} (withinI : ∀ s, i.op ≠ .enter s)
    (withinJ : ∀ s, j.op ≠ .enter s) (same : i.headWord = j.headWord) : i.head = j.head := by
  have distinct : (heads.map headText).Nodup := by decide +kernel
  rw [headWord_eq_headText, headWord_eq_headText] at same
  exact List.inj_on_of_nodup_map distinct (head_mem_heads withinI) (head_mem_heads withinJ) same

/-- An instruction that can stand in the code of a function. -/
structure InFunction (i : Instruction) : Prop where
  legible : i.Legible
  within : ∀ s, i.op ≠ .enter s
  labelElsewhere : i.label ≠ some .start
  operandElsewhere : .label .start ∉ i.operands

/-- A line tells the opcode and the operands. -/
theorem eq_of_renderLine_eq {i j : Instruction} {target : Target} (ofI : i.InFunction)
    (ofJ : j.InFunction) (same : i.renderLine target = j.renderLine target) :
    i.op = j.op ∧ i.operands = j.operands := by
  have words : i.words target = j.words target := by
    have cut := congrArg (fun line => wordsOf line.toList) same
    simp only [wordsOf_renderLine target ofI.legible ofI.within,
      wordsOf_renderLine target ofJ.legible ofJ.within] at cut
    exact List.map_injective_iff.mpr (fun _ _ => String.toList_injective) cut
  obtain ⟨first, rest⟩ := List.cons.inj words
  have head := head_eq_of_headWord_eq ofI.within ofJ.within first
  have op : i.op = j.op := congrArg Prod.fst head
  have printed := punctuated_injective rest
  have widthI : ∀ a ∈ i.operands, ∀ v, a.width? = some v → v = Operand.size i.operands :=
    fun a among v has => (Opcode.sized_of_accepts ofI.legible.accepted among has).2.symm
  have widthJ : ∀ b ∈ j.operands, ∀ v, b.width? = some v → v = Operand.size i.operands := by
    intro b among v has
    obtain ⟨sized, size⟩ := Opcode.sized_of_accepts ofJ.legible.accepted among has
    have suffix := congrArg Prod.snd head
    rw [Instruction.head, Instruction.head, op, if_pos sized, if_pos sized, Option.some.injEq,
      size] at suffix
    exact suffix.symm
  refine ⟨op, lastFirst_injective (eq_of_map_eq ?_ printed)⟩
  intro a amongA b amongB alike
  rw [mem_lastFirst] at amongA amongB
  exact Operand.eq_of_render_eq (ofI.legible.operands a amongA) (ofJ.legible.operands b amongB)
    (fun start => ofI.operandElsewhere (start ▸ amongA))
    (fun start => ofJ.operandElsewhere (start ▸ amongB)) (widthI a amongA) (widthJ b amongB) alike

theorem renderLine_ne_label {i : Instruction} {l : Label} {target : Target}
    (within : ∀ s, i.op ≠ .enter s) (legible : l.Legible) :
    i.renderLine target ≠ l.render target ++ ":" := by
  intro same
  have blankless : Blankless (l.render target ++ ":").toList := by
    rw [String.toList_append]
    exact (Label.blankless_render target legible).append (by decide)
  rw [← same] at blankless
  revert blankless
  unfold renderLine
  cases op : i.op with
  | enter s => exact absurd op (within s)
  | global =>
      intro blankless
      refine blankless.not_mem (c := ' ') rfl ?_
      simp [String.toList_append]
  | _ =>
      intro blankless
      refine blankless.not_mem (c := '\t') rfl ?_
      dsimp only
      split <;> simp [String.toList_append]

/-- The lines that text begins with tell the first instruction, label included. -/
theorem eq_of_lines_append_eq {i j : Instruction} {target : Target} {rest other : List String}
    (ofI : i.InFunction) (ofJ : j.InFunction)
    (same : i.lines target ++ rest = j.lines target ++ other) : i = j ∧ rest = other := by
  rw [lines_of_within target ofI.within, lines_of_within target ofJ.within] at same
  have finish : i.label = j.label →
      i.renderLine target :: rest = j.renderLine target :: other → i = j ∧ rest = other := by
    intro label own
    obtain ⟨line, behind⟩ := List.cons.inj own
    obtain ⟨op, operands⟩ := eq_of_renderLine_eq ofI ofJ line
    obtain ⟨labelI, opI, operandsI⟩ := i
    obtain ⟨labelJ, opJ, operandsJ⟩ := j
    cases label
    cases op
    cases operands
    exact ⟨rfl, behind⟩
  cases labelI : i.label with
  | none =>
      rw [labelI] at same
      cases labelJ : j.label with
      | none =>
          rw [labelJ] at same
          exact finish (labelI.trans labelJ.symm) same
      | some m =>
          rw [labelJ] at same
          exact absurd (List.cons.inj same).1
            (renderLine_ne_label ofI.within (ofJ.legible.label m labelJ))
  | some l =>
      rw [labelI] at same
      cases labelJ : j.label with
      | none =>
          rw [labelJ] at same
          exact absurd (List.cons.inj same).1.symm
            (renderLine_ne_label ofJ.within (ofI.legible.label l labelI))
      | some m =>
          rw [labelJ] at same
          obtain ⟨printed, own⟩ := List.cons.inj same
          rw [String.append_left_inj] at printed
          have label : l = m := Label.eq_of_render_eq (ofI.legible.label l labelI)
            (ofJ.legible.label m labelJ) (fun start => ofI.labelElsewhere (start ▸ labelI))
            (fun start => ofJ.labelElsewhere (start ▸ labelJ)) printed
          exact finish (by rw [labelI, labelJ, label]) own

end Instruction

/-- The lines of functions tell their instructions. -/
theorem Code.eq_of_lines_eq {a b : Code} {target : Target} (ofA : ∀ i ∈ a, i.InFunction)
    (ofB : ∀ i ∈ b, i.InFunction)
    (same : a.flatMap (Instruction.lines target) = b.flatMap (Instruction.lines target)) :
    a = b := by
  have printed : ∀ {i : Instruction}, i.InFunction → i.lines target ≠ [] := by
    intro i ofI
    rw [Instruction.lines_of_within target ofI.within]
    exact List.append_ne_nil_of_right_ne_nil _ (List.cons_ne_nil _ _)
  induction a generalizing b with
  | nil =>
      cases b with
      | nil => rfl
      | cons j b =>
          rw [List.flatMap_cons, List.flatMap_nil, eq_comm, List.append_eq_nil_iff] at same
          exact absurd same.1 (printed (ofB j (List.mem_cons_self ..)))
  | cons i a ih =>
      have ofI := ofA i (List.mem_cons_self ..)
      cases b with
      | nil =>
          rw [List.flatMap_cons, List.flatMap_nil, List.append_eq_nil_iff] at same
          exact absurd same.1 (printed ofI)
      | cons j b =>
          obtain ⟨here, behind⟩ :=
            Instruction.eq_of_lines_append_eq ofI (ofB j (List.mem_cons_self ..)) same
          have there := ih (fun k among => ofA k (List.mem_cons_of_mem _ among))
            (fun k among => ofB k (List.mem_cons_of_mem _ among)) behind
          rw [here, there]

/-- The text of functions tells their code. -/
theorem Code.eq_of_render_eq {a b : Code} {target : Target} (ofA : ∀ i ∈ a, i.InFunction)
    (ofB : ∀ i ∈ b, i.InFunction) (same : Code.render target a = Code.render target b) : a = b := by
  have cut := congrArg linesOf same
  rw [linesOf_render target fun i among => (ofA i among).legible,
    linesOf_render target fun i among => (ofB i among).legible, List.append_left_inj] at cut
  exact Code.eq_of_lines_eq ofA ofB
    (List.map_injective_iff.mpr (fun _ _ => String.toList_injective) cut)

/-! ## Programs -/

theorem Code.render_append (target : Target) (a b : Code) :
    Code.render target (a ++ b) = Code.render target a ++ Code.render target b := by
  rw [Code.render, List.map_append, String.join_append]
  rfl

/-- Sections and the start routine stand outside of functions. -/
theorem Program.functions_of_lower {p : Program} {target : Target} {code : Code}
    (lowers : p.lower target = .ok code) (proper : ∀ name ∈ p.names, isName name = true) :
    ∃ functions : Code,
      code = (.enter .text :: Program.startRoutine target (.function Program.entry)) ++ functions ++
        [.enter .gnuStack] ∧
      ∀ i ∈ functions, i.InFunction := by
  obtain ⟨-, functions, lowersFunctions, whole⟩ := Program.lower_iff.mp lowers
  refine ⟨functions, whole, ?_⟩
  intro i among
  have legible := Program.legible_of_lower lowers proper i (by simp [whole, among])
  obtain ⟨f, -, body, final, lowersBody, inside⟩ :=
    Program.mem_of_lowerFunctions lowersFunctions among
  rcases inside with inside | inside | inside
  · have operands : .label .start ∉ i.operands := fun mentioned => by
      cases Func.label_of_prologue inside mentioned
    simp only [Func.prologue, List.mem_cons, List.not_mem_nil, or_false] at inside
    rcases inside with rfl | rfl | rfl | rfl <;> refine ⟨legible, ?_, ?_, operands⟩ <;>
      simp [Instruction.labelled, Instruction.global, Instruction.push, Instruction.mov,
        Instruction.sub, Instruction.plain]
  · have emits := Func.emitsBody_of_lowerBody lowersBody i inside
    refine ⟨legible, ?_, ?_, ?_⟩
    · intro s enters
      have op := emits.op_mem
      simp [enters] at op
    · simp [emits.unlabelled]
    · intro mentioned
      rcases Func.label_of_lowerBody lowersBody inside mentioned with same | ⟨g, -, same⟩ <;>
        cases same
  · have operands : .label .start ∉ i.operands := Func.no_label_in_epilogue inside
    simp only [Func.epilogue, List.mem_cons, List.not_mem_nil, or_false] at inside
    rcases inside with rfl | rfl | rfl <;> refine ⟨legible, ?_, ?_, operands⟩ <;>
      simp [Instruction.labelled, Instruction.add, Instruction.pop, Instruction.ret,
        Instruction.plain]

/-- Printing loses nothing of a program's code: programs with the same text have the same
code, if functions have proper names. -/
theorem Program.code_eq_of_render_eq (p q : Program) (target : Target) (a b : Code)
    (properP : ∀ name ∈ p.names, isName name = true)
    (properQ : ∀ name ∈ q.names, isName name = true)
    (lowersP : p.lower target = .ok a) (lowersQ : q.lower target = .ok b)
    (same : Code.render target a = Code.render target b) : a = b := by
  obtain ⟨ofP, rfl, inP⟩ := Program.functions_of_lower lowersP properP
  obtain ⟨ofQ, rfl, inQ⟩ := Program.functions_of_lower lowersQ properQ
  rw [Code.render_append, Code.render_append, Code.render_append, Code.render_append,
    String.append_left_inj, String.append_right_inj] at same
  rw [Code.eq_of_render_eq inP inQ same]

/-- A function that is printed like the start routine, with its variables in one block. -/
def oneBlock : Program :=
  ⟨[⟨"_start", [⟨"n", .int⟩], some .int,
      [.declare ⟨"m", .int⟩, .assign "m" (.binary .sub (.var "n") (.const 7)),
        .ret (some (.var "m"))]⟩,
    ⟨"main", [], some .int, [.ret (some (.call "_start" [.const (-9)]))]⟩]⟩

/-- The same with a block inside, other names of variables and one result without type. -/
def twoBlocks : Program :=
  ⟨[⟨"_start", [⟨"x", .int⟩], none,
      [.declare ⟨"y", .int⟩, .block [.assign "y" (.binary .sub (.var "x") (.const 7)),
        .ret (some (.var "y"))]]⟩,
    ⟨"main", [], some .int, [.ret (some (.call "_start" [.const (-9)]))]⟩]⟩

theorem Program.code_eq_of_render_eq_blocks :
    (∀ name ∈ oneBlock.names, isName name = true) ∧
    (∀ name ∈ twoBlocks.names, isName name = true) ∧
    ∃ a b : Code, oneBlock.lower .linux = .ok a ∧ twoBlocks.lower .linux = .ok b ∧
      Code.render .linux a = Code.render .linux b ∧ a = b := by
  have properOne : ∀ name ∈ oneBlock.names, isName name = true := by decide +kernel
  have properTwo : ∀ name ∈ twoBlocks.names, isName name = true := by decide +kernel
  have lowersOne : (oneBlock.lower .linux).isOk = true := by decide +kernel
  have lowersTwo : (twoBlocks.lower .linux).isOk = true := by decide +kernel
  have texts : (oneBlock.lower .linux).toOption.map (Code.render .linux) =
      (twoBlocks.lower .linux).toOption.map (Code.render .linux) := by decide +kernel
  obtain ⟨a, lowersA⟩ := exists_ok_of_isOk lowersOne
  obtain ⟨b, lowersB⟩ := exists_ok_of_isOk lowersTwo
  rw [lowersA, lowersB] at texts
  have same : Code.render .linux a = Code.render .linux b := Option.some.inj texts
  exact ⟨properOne, properTwo, a, b, lowersA, lowersB, same,
    Program.code_eq_of_render_eq oneBlock twoBlocks .linux a b properOne properTwo lowersA lowersB
      same⟩

end IntBackend
