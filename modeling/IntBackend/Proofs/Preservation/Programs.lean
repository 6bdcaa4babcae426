/-
# IntBackend.Proofs.Preservation.Programs — lowered programs compute what they mean

A program whose functions have different names and whose expressions keep their
values runs as its source says: if the entry function has a result, the process
that is started at the start label comes to the system call that ends it, with
that result as its status. The stack has to be large enough for the depth to which
the calls nest; how much a function needs is read off its source.
-/
import IntBackend.Proofs.Lowering.Labels
import IntBackend.Proofs.Preservation.Functions

namespace IntBackend

set_option autoImplicit false

open Convention

/-! ## Functions in place -/

namespace Image

variable {image : Image}

theorem holds_of_eq {before code after : Code} (split : image.code = before ++ code ++ after) :
    image.Holds before.length code := by
  intro j i found
  have inside := (List.getElem?_eq_some_iff.mp found).1
  rw [split, List.append_assoc, List.getElem?_append_right (by omega), Nat.add_sub_cancel_left,
    List.getElem?_append_left inside, found]

/-- Code that executes stands there for execution, up to its last instruction. -/
theorem Holds.carries {k : Nat} {code : Code} {last : Instruction}
    (holds : image.Holds k (code ++ [last]))
    (executes : ∀ i ∈ code ++ [last], i.isDirective = false) : image.Carries k code := by
  refine ⟨holds.left, fun j le => ?_⟩
  have inside : j < (code ++ [last]).length := by
    rw [List.length_append, List.length_singleton]
    omega
  have found := List.getElem?_eq_getElem inside
  exact ⟨_, holds found, executes _ (List.mem_of_getElem? found)⟩

end Image

theorem Func.isDirective_segment {f : Func} {callees : List String} {body : Code} {final : Scope}
    (lowers : f.lowerBody callees = .ok (body, final)) :
    ∀ i ∈ f.segment body, i.isDirective = false := by
  have executes : ∀ {i : Instruction},
      i.op ∈ [Opcode.push, .mov, .sub, .add, .imul, .call, .jmp, .pop, .ret] →
        i.isDirective = false := by
    rintro ⟨label, op, operands⟩ among
    simp only [List.mem_cons, List.not_mem_nil, or_false] at among
    rcases among with rfl | rfl | rfl | rfl | rfl | rfl | rfl | rfl | rfl <;> rfl
  intro i among
  obtain ⟨k, found⟩ := List.mem_iff_getElem?.mp among
  rcases Func.getElem?_segment found with ⟨-, inEntry⟩ | ⟨-, -, inBody⟩ | ⟨-, inExit⟩
  · have forms := (Func.entry_forms inEntry).1
    exact executes (by simp only [List.mem_cons, List.not_mem_nil] at forms ⊢; tauto)
  · have forms := (Func.emitsBody_of_lowerBody lowers i (List.mem_of_getElem? inBody)).op_mem
    exact executes (by simp only [List.mem_cons, List.not_mem_nil] at forms ⊢; tauto)
  · rcases Func.getElem?_epilogue inExit with ⟨-, -, op⟩ | ⟨-, -, op⟩ | ⟨-, -, op⟩
    all_goals exact executes (by simp [op])

/-- Every function of a lowered program is in place. -/
theorem Program.placed_of_lower {p : Program} {target : Target} {image : Image}
    (lowers : p.lower target = .ok image.code) (distinct : p.names.Nodup) {f : Func}
    (among : f ∈ p.functions) :
    ∃ body final entry, f.lowerBody p.names = .ok (body, final) ∧
      f.Placed image body entry := by
  obtain ⟨before, body, after, final, lowersBody, split⟩ := Program.lower_split lowers among
  have unique := Program.nodup_labels lowers distinct
  have holds := Image.holds_of_eq split
  have entered : image.code[before.length]? =
      some ((Instruction.push basePointer).labelled (.function f.name)) := holds.head
  have left : image.code[before.length + (3 + body.length)]? =
      some ((Instruction.add stackPointer (.nat f.frameSize)).labelled (.epilogue f.name)) :=
    holds ((f.getElem?_segment_exit body).trans rfl)
  have executes := Func.isDirective_segment lowersBody
  rw [f.segment_eq] at holds executes
  have last := holds.right.head
  rw [f.length_beforeReturn] at last
  refine ⟨body, final, before.length, lowersBody, ?_, ?_, holds.carries executes, ?_⟩
  · exact findIdx?_of_nodup_labels unique entered rfl
  · rw [Nat.add_assoc]
    exact findIdx?_of_nodup_labels unique left rfl
  · rw [← last, Nat.add_assoc before.length, Nat.add_assoc before.length]

/-! ## Room on the stack -/

namespace Func

/-- The most arguments that a call in the function puts on the stack. -/
def stackArgs (f : Func) : Nat := (f.nodes.map Expr.stackArgs).foldr max 0

/-- The bytes of stack that a call of the function takes, without those of its own calls:
the saved frame pointer, the frame, arguments and one return address. -/
def activation (f : Func) : Nat := 16 + f.frameSize + stackArgSize * f.stackArgs

theorem needs_of_mem_exprs {f : Func} {e : Expr} (among : e ∈ f.exprs) (room : Nat) :
    e.Needs room (room + 8 + stackArgSize * f.stackArgs) := by
  intro node inside
  have inFunction : node ∈ f.nodes := List.mem_flatMap.mpr ⟨e, among, inside⟩
  have le : node.stackArgs ≤ f.stackArgs :=
    List.le_max_of_le' 0 (List.mem_map_of_mem inFunction) le_rfl
  exact Nat.add_le_add_left (Nat.mul_le_mul_left _ le) _

end Func

/-- The bytes of stack that suffice for each call that is going on. -/
def Program.activation (p : Program) : Nat := (p.functions.map Func.activation).foldr max 0

theorem Program.activation_le {p : Program} {f : Func} (among : f ∈ p.functions) :
    f.activation ≤ p.activation :=
  List.le_max_of_le' 0 (List.mem_map_of_mem among) le_rfl

/-! ## Programs -/

section Programs

variable {p : Program} {target : Target} {image : Image}

/-- The functions of a lowered program compute what they mean, whatever the depth to which
their calls nest. -/
theorem Program.implements_of_lower (lowers : p.lower target = .ok image.code)
    (distinct : p.names.Nodup) (disciplined : p.Disciplined) (depth : Nat) :
    image.Implements (p.invoke depth) (depth * p.activation) := by
  induction depth with
  | zero => exact nofun
  | succ depth ih =>
      intro name args result runs
      obtain ⟨f, found, invoked⟩ := Program.invoke_succ_iff.mp runs
      have among : f ∈ p.functions := List.mem_of_find?_eq_some found
      have named : f.name = name := by simpa using List.find?_some found
      obtain ⟨body, final, entry, lowersBody, placed⟩ :=
        Program.placed_of_lower lowers distinct among
      refine ⟨entry, named ▸ placed.lands, fun m back located passes enough fits => ?_⟩
      have proper := fun e inside =>
        And.intro (disciplined f among e inside)
          (Func.needs_of_mem_exprs inside (depth * p.activation))
      refine placed.returned ih lowersBody proper invoked located passes ?_ fits
      have one := Program.activation_le among
      rw [Func.activation] at one
      rw [Nat.succ_mul] at enough
      omega

/-- The start routine is at the start label, and nothing in it but the call goes elsewhere. -/
theorem Program.start_of_lower (lowers : p.lower target = .ok image.code)
    (distinct : p.names.Nodup) :
    image.position? .start = some 2 ∧
      image.code[2]? = some ((Instruction.call (.function Program.entry)).labelled .start) ∧
      image.Carries 3 [.mov (.reg .di valueWidth) accumulator,
        .mov (.reg .ax .quad) (.nat target.exitNumber)] ∧
      image.code[5]? = some .syscall := by
  have unique := Program.nodup_labels lowers distinct
  obtain ⟨-, functions, -, code⟩ := Program.lower_iff.mp lowers
  have call : image.code[2]? =
      some ((Instruction.call (.function Program.entry)).labelled .start) := by rw [code]; rfl
  have split : image.code = [.enter .text, .global .start,
      (Instruction.call (.function Program.entry)).labelled .start] ++
        ([.mov (.reg .di valueWidth) accumulator,
          .mov (.reg .ax .quad) (.nat target.exitNumber)] ++ [.syscall]) ++
        (functions ++ [.enter .gnuStack]) := by rw [code]; simp [Program.startRoutine]
  have holds := Image.holds_of_eq split
  refine ⟨findIdx?_of_nodup_labels unique call rfl, call, holds.carries ?_, holds.right.head⟩
  simp [Instruction.isDirective, Instruction.mov, Instruction.syscall, Instruction.plain]

/-- The end of the start routine: the result becomes the status of the process. -/
theorem runLine_exit {m : Machine} {v : Int32} (holds : m.value accumulator = some v) (n : Nat) :
    ∃ last, runLine [.mov (.reg .di valueWidth) accumulator, .mov (.reg .ax .quad) (.nat n)] m =
        some last ∧ last.regs .ax = BitVec.ofNat 64 n ∧ lowInt (last.regs .di) = v := by
  obtain ⟨word, low, moves⟩ := Machine.mov_reg .di (.inr rfl) holds
  have numbers : (Instruction.mov (.reg .ax .quad) (.nat n)).effect? (m.set .di word) =
      some ((m.set .di word).set .ax (BitVec.ofNat 64 n)) :=
    Machine.operate_eq_write rfl rfl rfl (Machine.read_nat _ .quad n)
  refine ⟨(m.set .di word).set .ax (BitVec.ofNat 64 n), ?_, Machine.regs_set_self .., ?_⟩
  · rw [runLine, moves, Option.bind_some, runLine_singleton, numbers]
  · rw [Machine.regs_set_of_ne _ _ (by decide), Machine.regs_set_self, low]

end Programs

/-- Lowering preserves meaning. Whatever the machine holds at first, and wherever the
instructions are put in memory, a process that starts at the start label ends with the result
of the entry function as its status, if the stack has room for the calls. -/
theorem Program.exits_with_result {p : Program} {target : Target} {image : Image}
    (lowers : p.lower target = .ok image.code) (distinct : p.names.Nodup)
    (disciplined : p.Disciplined) {depth : Nat} {v : Int32}
    (runs : p.invoke depth Program.entry [] = some (some v)) (m : Machine)
    (room : 8 + depth * p.activation ≤ (m.regs .sp).toNat) :
    ∃ start steps last, image.position? .start = some start ∧
      image.run steps ⟨start, m⟩ = some last ∧ image.exitStatus? target last = some v := by
  obtain ⟨starts, calls, carries, ends⟩ := Program.start_of_lower lowers distinct
  have implements := Program.implements_of_lower lowers distinct disciplined depth
  have bound := (m.regs .sp).isLt
  -- the entry function is called and comes back
  obtain ⟨after, comes, returned⟩ := implements.returns (m := m) runs calls rfl rfl
    (carries.executes 0 (Nat.zero_le _)) ⟨nofun, nofun⟩ (by omega)
    (by simp only [List.length_nil, Nat.zero_sub, Nat.mul_zero]; omega)
  -- and its result is handed to the system
  obtain ⟨last, finishing, number, status⟩ := runLine_exit (returned.result rfl) target.exitNumber
  obtain ⟨steps, reaches⟩ := comes.trans (carries.crosses finishing).reaches
  refine ⟨2, steps, ⟨5, last⟩, starts, reaches, ?_⟩
  rw [Image.exitStatus?]
  simp only [ends]
  rw [if_pos ⟨rfl, number⟩, status]

/-- Code in memory with one address for each instruction, one after the other. -/
def Image.sequential (code : Code) (short : code.length < 2 ^ 64) : Image where
  code := code
  address := BitVec.ofNat 64
  apart := by
    intro i j a b foundA foundB _ _ same
    have inA := (List.getElem?_eq_some_iff.mp foundA).1
    have inB := (List.getElem?_eq_some_iff.mp foundB).1
    have := congrArg BitVec.toNat same
    rw [BitVec.toNat_ofNat, BitVec.toNat_ofNat] at this
    omega

/-- Seven arguments, a call in the first one, operations that lean either way, and a block
that declares a variable. -/
def weighing : Program :=
  let ints := List.map fun name => Binding.mk name .int
  let sub := Expr.binary .sub
  let mul := Expr.binary .mul
  let weigh : Func := ⟨"weigh", ints ["a", "b", "c", "d", "e", "f", "g"], some .int,
    [.declare ⟨"sum", .int⟩,
      .assign "sum" (sub (mul (sub (.var "a") (.var "b")) (.var "c")) (sub (.var "d") (.var "e"))),
      .ret (some (sub (.var "sum") (sub (.var "f") (.var "g"))))]⟩
  let twice : Func := ⟨"twice", ints ["n"], some .int, [.ret (some (mul (.const 2) (.var "n")))]⟩
  let main : Func := ⟨"main", [], some .int,
    [.declare ⟨"x", .int⟩,
      .assign "x" (.call "weigh" (.call "twice" [.const 21] :: [3, 4, 5, 6, 7, 8].map .const)),
      .block [.declare ⟨"y", .int⟩, .assign "y" (sub (.var "x") (.const 1)),
        .ret (some (mul (.var "x") (.var "y")))]]⟩
  ⟨[weigh, twice, main]⟩

theorem Program.exits_with_result_weighing :
    ∃ image : Image, weighing.lower .linux = .ok image.code ∧ weighing.names.Nodup ∧
      weighing.Disciplined ∧ weighing.invoke 2 Program.entry [] = some (some 24806) ∧
      ∃ start steps last, image.position? .start = some start ∧
        image.run steps ⟨start, ⟨fun _ => 96, fun _ => 0⟩⟩ = some last ∧
        image.exitStatus? .linux last = some 24806 := by
  have size : (weighing.lower .linux).toOption.map List.length = some 76 := by decide +kernel
  have distinct : weighing.names.Nodup := by decide +kernel
  have disciplined : weighing.Disciplined := by decide +kernel
  have runs : weighing.invoke 2 Program.entry [] = some (some 24806) := by decide +kernel
  have room : 8 + 2 * weighing.activation ≤ 96 := by decide +kernel
  cases lowers : weighing.lower .linux with
  | error fault =>
      rw [lowers] at size
      cases size
  | ok code =>
      rw [lowers] at size
      have short : code.length < 2 ^ 64 := by
        rw [Option.some.inj size]
        decide
      exact ⟨.sequential code short, rfl, distinct, disciplined, runs,
        Program.exits_with_result lowers distinct disciplined runs _ room⟩

end IntBackend
