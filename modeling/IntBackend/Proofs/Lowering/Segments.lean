/-
# IntBackend.Proofs.Lowering.Segments — the functions in a program's code

Lowered code holds one segment for each function, in the order of the source:
from the label of the function to the first return after it. `segments` reads
them off any code. A lowered program's segments are those of its functions, and
in each of them the label of the epilogue and the return stand in one place.
-/
import IntBackend.Proofs.Lowering.Instructions

namespace IntBackend

set_option autoImplicit false

open Convention

def Instruction.entersFunction (i : Instruction) : Bool :=
  match i.label with
  | some (.function _) => true
  | _ => false

/-- Code up to its first return. -/
def upToRet : Code → Code
  | [] => []
  | i :: code => if i.op = .ret then [i] else i :: upToRet code

/-- The segments of functions: from each label of a function to the next return. -/
def segments : Code → List Code
  | [] => []
  | i :: code => if i.entersFunction then upToRet (i :: code) :: segments code else segments code

theorem upToRet_append {code : Code} (rest : Code) (stays : ∀ i ∈ code, i.op ≠ .ret) :
    upToRet (code ++ rest) = code ++ upToRet rest := by
  induction code with
  | nil => rfl
  | cons i code ih =>
      rw [List.cons_append, upToRet, if_neg (stays i (List.mem_cons_self ..)),
        ih fun j among => stays j (List.mem_cons_of_mem _ among), List.cons_append]

theorem segments_append {code : Code} (rest : Code)
    (inside : ∀ i ∈ code, i.entersFunction = false) :
    segments (code ++ rest) = segments rest := by
  induction code with
  | nil => rfl
  | cons i code ih =>
      rw [List.cons_append, segments, inside i (List.mem_cons_self ..),
        ih fun j among => inside j (List.mem_cons_of_mem _ among)]
      rfl

/-! ## The segment of a function -/

namespace Func

/-- A body between the instructions that take a frame of some size and those that give it
back. -/
def framed (f : Func) (size : Nat) (body : Code) : Code :=
  [⟨none, .global, [.label (.function f.name)]⟩,
    ⟨some (.function f.name), .push, [.reg .bp .quad]⟩,
    ⟨none, .mov, [.reg .bp .quad, .reg .sp .quad]⟩,
    ⟨none, .sub, [.reg .sp .quad, .const (toString size)]⟩] ++
  body ++
  [⟨some (.epilogue f.name), .add, [.reg .sp .quad, .const (toString size)]⟩,
    ⟨none, .pop, [.reg .bp .quad]⟩,
    ⟨none, .ret, []⟩]

/-- A function's code from its label on. -/
def segment (f : Func) (body : Code) : Code := f.prologue.tail ++ body ++ f.epilogue

/-- The instructions of a segment by position. -/
theorem getElem?_segment {f : Func} {body : Code} {k : Nat} {i : Instruction}
    (found : (f.segment body)[k]? = some i) :
    (k < 3 ∧ i ∈ f.prologue.tail) ∨
      (3 ≤ k ∧ k < 3 + body.length ∧ body[k - 3]? = some i) ∨
      (3 + body.length ≤ k ∧ f.epilogue[k - (3 + body.length)]? = some i) := by
  have entry : f.prologue.tail.length = 3 := rfl
  rw [segment, List.append_assoc] at found
  rcases Nat.lt_or_ge k 3 with early | later
  · rw [List.getElem?_append_left (by omega)] at found
    exact .inl ⟨early, List.mem_of_getElem? found⟩
  · rw [List.getElem?_append_right (by omega), entry] at found
    rcases Nat.lt_or_ge (k - 3) body.length with inside | beyond
    · rw [List.getElem?_append_left inside] at found
      exact .inr (.inl ⟨later, by omega, found⟩)
    · rw [List.getElem?_append_right beyond, Nat.sub_sub] at found
      exact .inr (.inr ⟨by omega, found⟩)

/-- The three instructions of an epilogue, by position. -/
theorem getElem?_epilogue {f : Func} {k : Nat} {i : Instruction}
    (found : f.epilogue[k]? = some i) :
    (k = 0 ∧ i.label = some (.epilogue f.name) ∧ i.op = .add) ∨
      (k = 1 ∧ i.label = none ∧ i.op = .pop) ∨ (k = 2 ∧ i.label = none ∧ i.op = .ret) := by
  match k with
  | 0 => cases found; exact .inl ⟨rfl, rfl, rfl⟩
  | 1 => cases found; exact .inr (.inl ⟨rfl, rfl, rfl⟩)
  | 2 => cases found; exact .inr (.inr ⟨rfl, rfl, rfl⟩)
  | k + 3 => simp [epilogue] at found

/-- From its label on, a prologue pushes, moves and subtracts, and carries no exit. -/
theorem entry_forms {f : Func} {i : Instruction} (among : i ∈ f.prologue.tail) :
    i.op ∈ [Opcode.push, .mov, .sub] ∧ i.label ≠ some (.epilogue f.name) := by
  simp only [prologue, List.tail_cons, List.mem_cons, List.not_mem_nil, or_false] at among
  rcases among with rfl | rfl | rfl <;>
    simp [Instruction.labelled, Instruction.push, Instruction.mov, Instruction.sub,
      Instruction.plain]

end Func

section Segment

variable {f : Func} {callees : List String} {body : Code} {after : Scope}

theorem Func.length_front (f : Func) (body : Code) :
    (f.prologue.tail ++ body).length = 3 + body.length := by
  rw [List.length_append]
  rfl

/-- The exit stands right behind the body. -/
theorem Func.getElem?_segment_exit (f : Func) (body : Code) :
    (f.segment body)[3 + body.length]? = f.epilogue[0]? := by
  rw [Func.segment, List.getElem?_append_right (f.length_front body).le, f.length_front,
    Nat.sub_self]

/-- The only label of the epilogue is right behind the body. -/
theorem Func.position_of_epilogue (lowers : f.lowerBody callees = .ok (body, after)) {k : Nat}
    {i : Instruction} (found : (f.segment body)[k]? = some i)
    (labelled : i.label = some (.epilogue f.name)) : k = 3 + body.length := by
  rcases Func.getElem?_segment found with ⟨-, among⟩ | ⟨-, -, inBody⟩ | ⟨beyond, inExit⟩
  · exact absurd labelled (Func.entry_forms among).2
  · have emits := Func.emitsBody_of_lowerBody lowers i (List.mem_of_getElem? inBody)
    simp [emits.unlabelled] at labelled
  · rcases Func.getElem?_epilogue inExit with ⟨here, -⟩ | ⟨-, none, -⟩ | ⟨-, none, -⟩
    · omega
    · simp [none] at labelled
    · simp [none] at labelled

/-- The only return is the last instruction. -/
theorem Func.position_of_ret (lowers : f.lowerBody callees = .ok (body, after)) {k : Nat}
    {i : Instruction} (found : (f.segment body)[k]? = some i) (returns : i.op = .ret) :
    k = 3 + body.length + 2 := by
  rcases Func.getElem?_segment found with ⟨-, among⟩ | ⟨-, -, inBody⟩ | ⟨beyond, inExit⟩
  · have forms := (Func.entry_forms among).1
    simp [returns] at forms
  · have emits := Func.emitsBody_of_lowerBody lowers i (List.mem_of_getElem? inBody)
    have forms := emits.op_mem
    simp [returns] at forms
  · rcases Func.getElem?_epilogue inExit with ⟨-, -, op⟩ | ⟨-, -, op⟩ | ⟨last, -, -⟩
    · simp [returns] at op
    · simp [returns] at op
    · omega

/-- What stands in front of the return of a segment. -/
def Func.beforeReturn (f : Func) (body : Code) : Code :=
  f.prologue.tail ++ body ++ f.epilogue.dropLast

theorem Func.segment_eq (f : Func) (body : Code) :
    f.segment body = f.beforeReturn body ++ [.ret] := by
  simp [Func.segment, Func.beforeReturn, Func.epilogue]

theorem Func.length_beforeReturn (f : Func) (body : Code) :
    (f.beforeReturn body).length = 3 + body.length + 2 := by
  rw [Func.beforeReturn, List.length_append, f.length_front]
  rfl

/-- There is no other return in a segment. -/
theorem Func.beforeReturn_ne_ret (lowers : f.lowerBody callees = .ok (body, after)) :
    ∀ i ∈ f.beforeReturn body, i.op ≠ .ret := by
  intro i among returns
  obtain ⟨k, inFront⟩ := List.mem_iff_getElem?.mp among
  have bound := (List.getElem?_eq_some_iff.mp inFront).1
  have found : (f.segment body)[k]? = some i := by
    rw [f.segment_eq, List.getElem?_append_left bound, inFront]
  have last := Func.position_of_ret lowers found returns
  rw [f.length_beforeReturn] at bound
  omega

/-! ## Programs -/

theorem Func.entersFunction_tail (lowers : f.lowerBody callees = .ok (body, after)) :
    ∀ i ∈ f.prologue.drop 2 ++ body ++ f.epilogue, i.entersFunction = false := by
  intro i among
  simp only [List.mem_append] at among
  rcases among with (among | among) | among
  · simp only [Func.prologue, List.drop_succ_cons, List.drop_zero, List.mem_cons,
      List.not_mem_nil, or_false] at among
    rcases among with rfl | rfl <;> rfl
  · rw [Instruction.entersFunction, (Func.emitsBody_of_lowerBody lowers i among).unlabelled]
  · simp only [Func.epilogue, List.mem_cons, List.not_mem_nil, or_false] at among
    rcases among with rfl | rfl | rfl <;> rfl

/-- A function's code makes exactly one segment, its own. -/
theorem segments_function (lowers : f.lowerBody callees = .ok (body, after)) (rest : Code) :
    segments (f.prologue ++ body ++ f.epilogue ++ rest) = f.segment body :: segments rest := by
  have first : f.prologue ++ body ++ f.epilogue ++ rest =
      .global (.function f.name) :: (f.segment body ++ rest) := rfl
  have second : f.segment body ++ rest =
      (Instruction.push basePointer).labelled (.function f.name) ::
        (f.prologue.drop 2 ++ body ++ f.epilogue ++ rest) := rfl
  have upTo : upToRet (f.segment body ++ rest) = f.segment body := by
    rw [f.segment_eq, List.append_assoc, upToRet_append _ (Func.beforeReturn_ne_ret lowers)]
    rfl
  have inside := segments_append rest (Func.entersFunction_tail lowers)
  calc segments (f.prologue ++ body ++ f.epilogue ++ rest)
      = segments (f.segment body ++ rest) := by rw [first]; rfl
    _ = upToRet (f.segment body ++ rest) ::
          segments (f.prologue.drop 2 ++ body ++ f.epilogue ++ rest) := by rw [second]; rfl
    _ = f.segment body :: segments rest := by rw [upTo, inside]

/-- Every instruction of functions is in the prologue, the body or the epilogue of one. -/
theorem Program.mem_of_lowerFunctions {fs : List Func} {code : Code}
    (lowers : Program.lowerFunctions callees fs = .ok code) {i : Instruction} (among : i ∈ code) :
    ∃ f ∈ fs, ∃ body final, f.lowerBody callees = .ok (body, final) ∧
      (i ∈ f.prologue ∨ i ∈ body ∨ i ∈ f.epilogue) := by
  induction fs generalizing code with
  | nil =>
      cases lowers
      cases among
  | cons f fs ih =>
      obtain ⟨head, tail, lowersHead, lowersTail, rfl⟩ :=
        Program.lowerFunctions_cons_iff.mp lowers
      rcases List.mem_append.mp among with among | among
      · obtain ⟨body, final, lowersBody, rfl⟩ := Func.lower_iff.mp lowersHead
        simp only [List.mem_append, or_assoc] at among
        exact ⟨f, List.mem_cons_self .., body, final, lowersBody, among⟩
      · obtain ⟨g, inside, rest⟩ := ih lowersTail among
        exact ⟨g, List.mem_cons_of_mem _ inside, rest⟩

/-- Every other instruction of a program opens a section or is in the start routine. -/
theorem Program.mem_of_lower {p : Program} {target : Target} {code : Code}
    (lowers : p.lower target = .ok code) {i : Instruction} (among : i ∈ code) :
    (∃ s, i = .enter s) ∨ i ∈ Program.startRoutine target (.function Program.entry) ∨
      ∃ f ∈ p.functions, ∃ body final, f.lowerBody p.names = .ok (body, final) ∧
        (i ∈ f.prologue ∨ i ∈ body ∨ i ∈ f.epilogue) := by
  obtain ⟨-, functions, lowersFunctions, rfl⟩ := Program.lower_iff.mp lowers
  simp only [List.cons_append, List.mem_cons, List.mem_append, List.not_mem_nil,
    or_false] at among
  rcases among with rfl | (among | among) | rfl
  · exact .inl ⟨.text, rfl⟩
  · exact .inr (.inl among)
  · exact .inr (.inr (Program.mem_of_lowerFunctions lowersFunctions among))
  · exact .inl ⟨.gnuStack, rfl⟩

/-- A segment is that of a function's body. -/
def Func.Owns (callees : List String) (f : Func) (segment : Code) : Prop :=
  ∃ body after, f.lowerBody callees = .ok (body, after) ∧ segment = f.segment body

theorem segments_functions {fs : List Func} {code : Code} (rest : Code)
    (none : segments rest = [])
    (lowers : Program.lowerFunctions callees fs = .ok code) :
    List.Forall₂ (Func.Owns callees) fs (segments (code ++ rest)) := by
  induction fs generalizing code with
  | nil =>
      cases lowers
      simp [none]
  | cons f fs ih =>
      obtain ⟨head, tail, lowersHead, lowersTail, rfl⟩ :=
        Program.lowerFunctions_cons_iff.mp lowers
      obtain ⟨body, after, lowersBody, rfl⟩ := Func.lower_iff.mp lowersHead
      rw [List.append_assoc, segments_function lowersBody]
      exact .cons ⟨body, after, lowersBody, rfl⟩ (ih lowersTail)

/-- The segments of a lowered program are those of its functions, in their order. -/
theorem Program.segments_of_lower {p : Program} {target : Target} {code : Code}
    (lowers : p.lower target = .ok code) :
    List.Forall₂ (Func.Owns p.names) p.functions (segments code) := by
  obtain ⟨-, functions, lowersFunctions, rfl⟩ := Program.lower_iff.mp lowers
  rw [List.append_assoc, segments_append]
  · exact segments_functions [.enter .gnuStack] rfl lowersFunctions
  · intro i among
    simp only [Program.startRoutine, List.mem_cons, List.not_mem_nil, or_false] at among
    rcases among with rfl | rfl | rfl | rfl | rfl | rfl <;> rfl

end Segment

end IntBackend
