/-
# IntBackend.Proofs.Machine.Steps — the instructions that are emitted, one by one

What moves, arithmetic and pushes do to the 32-bit values that registers and cells
hold, and how runs of code that is laid end to end compose. Values are what counts
here: of a register the lower half, of a cell its four bytes.
-/
import IntBackend.Proofs.Machine.Literals

namespace IntBackend

set_option autoImplicit false

open Convention

/-! ## Lower halves of words -/

theorem lowInt_add (x y : BitVec 64) : lowInt (x + y) = lowInt x + lowInt y := by
  rw [lowInt, BitVec.setWidth_add x y (by decide), Int32.ofBitVec_add]
  rfl

theorem lowInt_mul (x y : BitVec 64) : lowInt (x * y) = lowInt x * lowInt y := by
  rw [lowInt, BitVec.setWidth_mul x y (by decide), Int32.ofBitVec_mul]
  rfl

/-- Writing the lower half of a register writes its value. -/
theorem lowInt_merge_long (old value : BitVec 64) :
    lowInt (Width.merge old value .long) = lowInt value := by
  simp [lowInt, Width.merge]

/-- A constant is loaded as the integer that it stands for. -/
theorem lowInt_ofInt_toInt (n : Int32) : lowInt (BitVec.ofInt 64 n.toInt) = n := by
  have cut : (BitVec.ofInt 64 n.toInt).setWidth 32 = BitVec.ofInt 32 n.toInt := by
    apply BitVec.eq_of_toNat_eq
    simp only [BitVec.toNat_setWidth, BitVec.toNat_ofInt]
    omega
  rw [lowInt, cut]
  exact Int32.ofInt_toInt n

theorem lowInt_ofNat_mod (x : Nat) :
    lowInt (BitVec.ofNat 64 (x % 256 ^ 4)) = lowInt (BitVec.ofNat 64 x) := by
  have cut : (BitVec.ofNat 64 (x % 256 ^ 4)).setWidth 32 = (BitVec.ofNat 64 x).setWidth 32 := by
    apply BitVec.eq_of_toNat_eq
    simp only [BitVec.toNat_setWidth, BitVec.toNat_ofNat]
    omega
  rw [lowInt, cut]
  rfl

theorem lowInt_ofNat_toNat (word : BitVec 64) :
    lowInt (BitVec.ofNat 64 (word.toNat % 256 ^ 4)) = lowInt word := by
  rw [lowInt_ofNat_mod, BitVec.ofNat_toNat, BitVec.setWidth_eq]

/-- The lower bytes of a number are the number of the lower bytes. -/
theorem Memory.load_mod (mem : Memory) (a : Address) {k n : Nat} (le : k ≤ n) :
    mem.load a n % 256 ^ k = mem.load a k := by
  induction n generalizing a k with
  | zero =>
      obtain rfl : k = 0 := by omega
      simp [load]
  | succ n ih =>
      cases k with
      | zero => simp [load, Nat.mod_one]
      | succ k =>
          have byte := (mem a).isLt
          rw [load, load, pow_succ', Nat.mod_mul, Nat.add_mul_mod_self_left,
            Nat.mod_eq_of_lt byte, Nat.add_mul_div_left _ _ (by decide),
            Nat.div_eq_of_lt byte, Nat.zero_add, ih _ (by omega)]

/-! ## Values of operands -/

/-- The number in four bytes of memory. -/
def Memory.cell (mem : Memory) (a : Address) : Int32 := lowInt (BitVec.ofNat 64 (mem.load a 4))

/-- A variable holds the value stored to it last. -/
theorem Memory.cell_store (mem : Memory) (a : Address) (word : BitVec 64) {bytes : Nat}
    (le : 4 ≤ bytes) (small : bytes < 2 ^ 64) :
    (mem.store a word.toNat bytes).cell a = lowInt word := by
  rw [cell, load_store_of_le le small, lowInt_ofNat_toNat]

/-- Variables above a bound do not see what happens below it. -/
theorem Memory.cell_of_agreeFrom {mem other : Memory} {bound : Nat} {a : Address}
    (agree : AgreeFrom bound mem other) (above : bound ≤ a.toNat) (fits : a.toNat + 4 ≤ 2 ^ 64) :
    other.cell a = mem.cell a := by
  rw [cell, cell, load_of_agreeFrom agree above fits]

/-- The value of an operand, seen as a number of 32 bits. -/
def Machine.value (m : Machine) (operand : Operand) : Option Int32 :=
  (m.read .long operand).map lowInt

/-- An operand that does not ask for another width than that of values. -/
def Operand.FitsValue (operand : Operand) : Prop :=
  operand.width? = none ∨ operand.width? = some valueWidth

/-- An instruction on a register and a value is a long one. -/
theorem Operand.size_fitting {operand : Operand} (fits : operand.FitsValue) (r : Register) :
    Operand.size [.reg r valueWidth, operand] = .long := by
  have own : Operand.width? (.reg r valueWidth) = some .long := rfl
  rw [Operand.size, List.filterMap_cons_some own]
  rcases fits with none | long
  · rw [List.filterMap_cons_none none]
    rfl
  · rw [List.filterMap_cons_some long]
    rfl

namespace Machine

@[simp] theorem regs_set_self (m : Machine) (r : Register) (word : BitVec 64) :
    (m.set r word).regs r = word := Function.update_self ..

theorem regs_set_of_ne (m : Machine) {r q : Register} (word : BitVec 64) (ne : q ≠ r) :
    (m.set r word).regs q = m.regs q := Function.update_of_ne ne ..

@[simp] theorem mem_set (m : Machine) (r : Register) (word : BitVec 64) :
    (m.set r word).mem = m.mem := rfl

@[simp] theorem set_set (m : Machine) (r : Register) (first second : BitVec 64) :
    (m.set r first).set r second = m.set r second := by
  rw [set, set, Function.update_idem, set]

@[simp] theorem set_regs (m : Machine) (r : Register) : m.set r (m.regs r) = m := by
  rw [set, Function.update_eq_self]

theorem value_reg (m : Machine) (r : Register) (w : Width) :
    m.value (.reg r w) = some (lowInt (m.regs r)) := rfl

/-- The printed constant denotes the integer itself. -/
theorem value_const (m : Machine) (n : Int32) : m.value (.const (constText n)) = some n := by
  rw [value, read_constText, Option.map_some, lowInt_ofInt_toInt]

theorem value_frameCell (m : Machine) (offset : Int) :
    m.value (frameCell offset) = some (m.mem.cell (m.address .bp offset)) := rfl

end Machine

/-! ## Effects -/

namespace Machine

variable {m : Machine} {operand : Operand} {v : Int32}

/-- An operation on operands that are not both in memory reads both and writes one. -/
theorem operate_eq_write {f : BitVec 64 → BitVec 64 → BitVec 64} {dst src : Operand} {w : Width}
    {old x : BitVec 64} (apart : (dst.isMemory && src.isMemory) = false)
    (size : Operand.size [dst, src] = w) (readsOld : m.read w dst = some old)
    (reads : m.read w src = some x) : m.operate f dst src = m.write w (f old x) dst := by
  rw [operate, apart]
  simp [size, readsOld, reads]

/-- An operation on a register whose lower half depends on lower halves only. -/
theorem operate_reg {f : BitVec 64 → BitVec 64 → BitVec 64} {g : Int32 → Int32 → Int32}
    (low : ∀ x y, lowInt (f x y) = g (lowInt x) (lowInt y)) (r : Register)
    (fits : operand.FitsValue) (holds : m.value operand = some v) :
    ∃ word, lowInt word = g (lowInt (m.regs r)) v ∧
      m.operate f (.reg r valueWidth) operand = some (m.set r word) := by
  obtain ⟨x, reads, rfl⟩ := Option.map_eq_some_iff.mp holds
  refine ⟨Width.merge (m.regs r) (f (m.regs r) x) .long, ?_, ?_⟩
  · rw [lowInt_merge_long, low]
  · exact operate_eq_write rfl (Operand.size_fitting fits r) rfl reads

theorem mov_reg (r : Register) (fits : operand.FitsValue) (holds : m.value operand = some v) :
    ∃ word, lowInt word = v ∧
      (Instruction.mov (.reg r valueWidth) operand).effect? m = some (m.set r word) :=
  operate_reg (g := fun _ b => b) (fun _ _ => rfl) r fits holds

theorem add_reg (r : Register) (fits : operand.FitsValue) (holds : m.value operand = some v) :
    ∃ word, lowInt word = lowInt (m.regs r) + v ∧
      (Instruction.add (.reg r valueWidth) operand).effect? m = some (m.set r word) :=
  operate_reg lowInt_add r fits holds

/-- Multiplying a register by a value, modulo the width of values. -/
theorem imul_reg (r : Register) (fits : operand.FitsValue) (holds : m.value operand = some v) :
    ∃ word, lowInt word = lowInt (m.regs r) * v ∧
      (Instruction.imul (.reg r valueWidth) operand).effect? m = some (m.set r word) :=
  operate_reg lowInt_mul r fits holds

/-- Storing a value that does not lie in memory itself to a variable. -/
theorem mov_frameCell (offset : Int) (outside : operand.isMemory = false)
    (fits : operand.FitsValue) (holds : m.value operand = some v) :
    ∃ word, lowInt word = v ∧
      (Instruction.mov (frameCell offset) operand).effect? m =
        some { m with mem := m.mem.store (m.address .bp offset) word.toNat 4 } := by
  obtain ⟨x, reads, rfl⟩ := Option.map_eq_some_iff.mp holds
  refine ⟨x, rfl, ?_⟩
  have size : Operand.size [frameCell offset, operand] = .long := Operand.size_fitting fits .ax
  exact operate_eq_write (by simp [outside]) size rfl reads

/-- Pushing takes eight bytes, of which the lower four are the value. -/
theorem push_value (holds : m.value operand = some v) :
    ∃ word, lowInt word = v ∧
      (Instruction.push (operand.withWidth .quad)).effect? m = some (m.push word) := by
  cases operand with
  | reg r w => exact ⟨m.regs r, Option.some.inj holds, rfl⟩
  | mem base w offset =>
      refine ⟨BitVec.ofNat 64 (m.mem.load (m.address base offset) 8), ?_, rfl⟩
      rw [← lowInt_ofNat_mod, Memory.load_mod _ _ (by decide)]
      exact Option.some.inj holds
  | const text =>
      obtain ⟨x, reads, rfl⟩ := Option.map_eq_some_iff.mp holds
      refine ⟨x, rfl, ?_⟩
      have quad : m.read .quad (.const text) = some x := reads
      simp [Instruction.effect?, Instruction.push, Instruction.plain, Operand.withWidth, quad]
  | label l => cases holds

/-- Moving the stack pointer by a literal. -/
theorem operate_stackPointer (m : Machine) (f : BitVec 64 → BitVec 64 → BitVec 64) (n : Nat) :
    m.operate f stackPointer (.nat n) =
      some (m.set .sp (f (m.regs .sp) (BitVec.ofNat 64 n))) :=
  operate_eq_write rfl rfl rfl (m.read_nat .quad n)

theorem add_stackPointer (m : Machine) (n : Nat) :
    (Instruction.add stackPointer (.nat n)).effect? m =
      some (m.set .sp (m.regs .sp + BitVec.ofNat 64 n)) :=
  m.operate_stackPointer _ n

theorem sub_stackPointer (m : Machine) (n : Nat) :
    (Instruction.sub stackPointer (.nat n)).effect? m =
      some (m.set .sp (m.regs .sp - BitVec.ofNat 64 n)) :=
  m.operate_stackPointer _ n

end Machine

/-! ## The stack -/

namespace Machine

variable {m : Machine}

theorem regs_push_of_ne (m : Machine) (word : BitVec 64) {r : Register} (ne : r ≠ .sp) :
    (m.push word).regs r = m.regs r := Function.update_of_ne ne ..

theorem regs_push_sp (m : Machine) (word : BitVec 64) :
    (m.push word).regs .sp = m.regs .sp - 8 :=
  m.regs_set_self .sp (m.regs .sp - 8)

theorem toNat_push (enough : 8 ≤ (m.regs .sp).toNat) (word : BitVec 64) :
    ((m.push word).regs .sp).toNat + 8 = (m.regs .sp).toNat := by
  have bound := (m.regs .sp).isLt
  have eight : (8 : BitVec 64).toNat = 8 := rfl
  rw [regs_push_sp, BitVec.toNat_sub, eight]
  omega

/-- A push leaves everything from the stack pointer on. -/
theorem agreeFrom_push (enough : 8 ≤ (m.regs .sp).toNat) (word : BitVec 64) :
    Memory.AgreeFrom (m.regs .sp).toNat m.mem (m.push word).mem := by
  have below := toNat_push enough word
  rw [regs_push_sp] at below
  exact Memory.agreeFrom_store below.le (m.regs .sp).isLt.le

theorem cell_push (m : Machine) (word : BitVec 64) :
    (m.push word).mem.cell ((m.push word).regs .sp) = lowInt word := by
  rw [regs_push_sp]
  exact Memory.cell_store _ _ _ (by decide) (by decide)

theorem top_push (m : Machine) (word : BitVec 64) : (m.push word).top = word := by
  rw [top, regs_push_sp]
  have stored : (m.push word).mem.load (m.regs .sp - 8) 8 = word.toNat % 256 ^ 8 :=
    Memory.load_store_of_le le_rfl (by decide)
  have small : word.toNat < 256 ^ 8 := word.isLt
  rw [stored, Nat.mod_eq_of_lt small, BitVec.ofNat_toNat, BitVec.setWidth_eq]

end Machine

/-! ## Runs -/

theorem runLine_append (a b : Code) (m : Machine) :
    runLine (a ++ b) m = (runLine a m).bind (runLine b) := by
  induction a generalizing m with
  | nil => rfl
  | cons i a ih =>
      rw [List.cons_append, runLine, runLine, Option.bind_assoc]
      congr 1
      funext next
      exact ih next

/-- Straight code runs piece by piece. -/
theorem runLine_append_of_eq {a b : Code} {first second third : Machine}
    (early : runLine a first = some second) (late : runLine b second = some third) :
    runLine (a ++ b) first = some third := by
  rw [runLine_append, early]
  exact late

theorem runLine_singleton (i : Instruction) (m : Machine) : runLine [i] m = i.effect? m := by
  rw [runLine]
  cases i.effect? m <;> rfl

namespace Image

variable {image : Image}

/-- The code stands in the image at a position. -/
def Holds (image : Image) (k : Nat) (code : Code) : Prop :=
  ∀ ⦃j : Nat⦄ ⦃i : Instruction⦄, code[j]? = some i → image.code[k + j]? = some i

theorem Holds.left {k : Nat} {a b : Code} (holds : image.Holds k (a ++ b)) : image.Holds k a := by
  intro j i found
  have inside := (List.getElem?_eq_some_iff.mp found).1
  exact holds (by rw [List.getElem?_append_left inside, found])

theorem Holds.right {k : Nat} {a b : Code} (holds : image.Holds k (a ++ b)) :
    image.Holds (k + a.length) b := by
  intro j i found
  rw [Nat.add_assoc]
  exact holds (by rw [List.getElem?_append_right (by omega), Nat.add_sub_cancel_left, found])

theorem Holds.head {k : Nat} {i : Instruction} {code : Code} (holds : image.Holds k (i :: code)) :
    image.code[k]? = some i := holds (j := 0) rfl

/-- A process gets from one state to another. -/
def Reaches (image : Image) (p q : Process) : Prop := ∃ n, image.run n p = some q

theorem Reaches.refl (p : Process) : image.Reaches p p := ⟨0, rfl⟩

theorem run_add (image : Image) (n m : Nat) (p : Process) :
    image.run (n + m) p = (image.run n p).bind (image.run m) := by
  induction n generalizing p with
  | zero => rw [Nat.zero_add]; rfl
  | succ n ih =>
      rw [Nat.succ_add, run, run, Option.bind_assoc]
      congr 1
      funext next
      exact ih next

theorem Reaches.trans {p q r : Process} (early : image.Reaches p q) (late : image.Reaches q r) :
    image.Reaches p r := by
  obtain ⟨n, first⟩ := early
  obtain ⟨m, second⟩ := late
  exact ⟨n + m, by rw [run_add, first]; exact second⟩

theorem reaches_of_step {p q : Process} (steps : image.step p = some q) : image.Reaches p q :=
  ⟨1, by rw [run, steps]; rfl⟩

/-- An instruction with an effect on the machine hands control to the next one. -/
theorem step_of_effect {k : Nat} {i : Instruction} {m after : Machine}
    (here : image.code[k]? = some i) (effect : i.effect? m = some after) :
    image.step ⟨k, m⟩ = some ⟨k + 1, after⟩ := by
  obtain ⟨label, op, operands⟩ := i
  rw [step]
  simp only [here]
  cases op with
  | enter target => cases effect
  | global => cases effect
  | jmp => cases effect
  | call => cases effect
  | ret => cases effect
  | syscall => cases effect
  | mov => simp [effect]
  | add => simp [effect]
  | sub => simp [effect]
  | imul => simp [effect]
  | push => simp [effect]
  | pop => simp [effect]

/-- Code without jumps runs from its start to its end. -/
theorem reaches_of_runLine {k : Nat} {code : Code} {m after : Machine}
    (holds : image.Holds k code) (runs : runLine code m = some after) :
    image.Reaches ⟨k, m⟩ ⟨k + code.length, after⟩ := by
  induction code generalizing k m with
  | nil =>
      cases runs
      exact .refl _
  | cons i code ih =>
      obtain ⟨between, effect, rest⟩ := Option.bind_eq_some_iff.mp runs
      have first := reaches_of_step (step_of_effect holds.head effect)
      have tail : image.Holds (k + 1) code := holds.right (a := [i])
      have others := ih tail rest
      rw [List.length_cons, Nat.add_comm code.length, ← Nat.add_assoc]
      exact first.trans others

/-! ## Jumps, calls and returns -/

theorem step_jmp {k target : Nat} {l : Label} {m : Machine}
    (here : image.code[k]? = some (.jmp l)) (lands : image.position? l = some target) :
    image.step ⟨k, m⟩ = some ⟨target, m⟩ := by
  rw [step]
  simp only [here]
  simp [Instruction.jmp, Instruction.plain, lands]

/-- A call pushes the address after it and goes to its label. -/
theorem step_call {k target : Nat} {i : Instruction} {l : Label} {m : Machine}
    (here : image.code[k]? = some i) (op : i.op = .call) (operands : i.operands = [.label l])
    (lands : image.position? l = some target) :
    image.step ⟨k, m⟩ = some ⟨target, m.push (image.address (k + 1))⟩ := by
  rw [step]
  simp only [here, op, operands]
  simp [lands]

/-- The address that a call pushes leads back to the instruction after it. -/
theorem locate?_address {k : Nat} {i : Instruction} (here : image.code[k]? = some i)
    (executes : i.isDirective = false) : image.locate? (image.address k) = some k := by
  have inside := (List.getElem?_eq_some_iff.mp here).1
  rw [locate?, List.find?_range_eq_some]
  refine ⟨by simp [here, executes], List.mem_range.mpr inside, fun j before => ?_⟩
  simp only [Bool.not_eq_true', decide_eq_false_iff_not]
  rintro ⟨same, other, there, executesToo⟩
  have := image.apart there here executesToo executes same
  omega

theorem step_ret {k target : Nat} {m : Machine} (here : image.code[k]? = some .ret)
    (back : image.locate? m.top = some target) :
    image.step ⟨k, m⟩ = some ⟨target, m.drop⟩ := by
  rw [step]
  simp only [here]
  simp [Instruction.ret, Instruction.plain, back]

end Image

end IntBackend
