/-
# IntBackend.Proofs.Preservation.Frames — the frame of a running function

A frame is where a function that runs has its variables: slots below the frame
pointer and arguments on the stack above it. Between the two lie the caller's frame
pointer and the return address. Storing to a variable changes neither those nor
another variable, and nothing above the arguments.
-/
import IntBackend.Proofs.Preservation.Calls

namespace IntBackend

set_option autoImplicit false

open Convention

/-- A frame pointer, the bytes of slots below it, and the number of arguments on the
stack; neither end wraps around. -/
structure Frame where
  base : Address
  size : Nat
  onStack : Nat
  below : size ≤ base.toNat
  above : base.toNat + stackArgsOffset + stackArgSize * onStack < 2 ^ 64

namespace Frame

/-- Where the stack ends while the function computes. -/
def stack (frame : Frame) : Address := frame.base - BitVec.ofNat 64 frame.size

theorem toNat_stack (frame : Frame) : frame.stack.toNat + frame.size = frame.base.toNat := by
  have fits := frame.below
  have bound := frame.base.isLt
  rw [stack, BitVec.toNat_sub, BitVec.toNat_ofNat]
  omega

/-! ## Places in a frame -/

/-- The offsets of slots and of arguments on the stack. -/
def Offset (frame : Frame) (offset : Int) : Prop :=
  (∃ k : Nat, 0 < k ∧ slotSize * k ≤ frame.size ∧ offset = -(slotSize * k : Int)) ∨
    ∃ j < frame.onStack, offset = stackArgsOffset + stackArgSize * j

def address (frame : Frame) (offset : Int) : Address := frame.base + BitVec.ofInt 64 offset

variable {frame : Frame} {offset other : Int}

/-- A place is four bytes below the frame pointer or among the arguments. -/
theorem Offset.bounds (place : frame.Offset offset) :
    (-(frame.size : Int) ≤ offset ∧ offset + slotSize ≤ 0) ∨
      ((stackArgsOffset : Int) ≤ offset ∧
        offset + slotSize ≤ stackArgsOffset + stackArgSize * frame.onStack) := by
  simp only [slotSize, stackArgsOffset, stackArgSize]
  rcases place with ⟨k, pos, within, rfl⟩ | ⟨j, lt, rfl⟩
  · simp only [slotSize] at within ⊢
    omega
  · simp only [stackArgsOffset, stackArgSize]
    omega

/-- Different variables do not overlap. -/
theorem Offset.apart (place : frame.Offset offset) (placeOther : frame.Offset other)
    (ne : other ≠ offset) : other + slotSize ≤ offset ∨ offset + slotSize ≤ other := by
  simp only [Offset, slotSize, stackArgsOffset, stackArgSize] at place placeOther ⊢
  rcases place with ⟨k, pos, -, rfl⟩ | ⟨j, -, rfl⟩
  · rcases placeOther with ⟨k', pos', -, rfl⟩ | ⟨j', -, rfl⟩ <;> omega
  · rcases placeOther with ⟨k', pos', -, rfl⟩ | ⟨j', -, rfl⟩ <;> omega

theorem toNat_address (place : frame.Offset offset) :
    ((frame.address offset).toNat : Int) = frame.base.toNat + offset := by
  have bounds := place.bounds
  have below := frame.below
  have above := frame.above
  simp only [slotSize, stackArgsOffset, stackArgSize] at bounds above
  rw [address, BitVec.toNat_add, BitVec.toNat_ofInt]
  omega

theorem address_add_le (place : frame.Offset offset) :
    (frame.address offset).toNat + slotSize ≤ 2 ^ 64 := by
  have here := toNat_address place
  have bounds := place.bounds
  have bound := frame.base.isLt
  have above := frame.above
  simp only [slotSize, stackArgsOffset, stackArgSize] at bounds above ⊢
  omega

/-- Memory that belongs to the caller: its frame pointer, the return address, and all
that lies above the arguments. -/
def Foreign (frame : Frame) (a : Address) : Prop :=
  (frame.base.toNat ≤ a.toNat ∧ a.toNat < frame.base.toNat + stackArgsOffset) ∨
    frame.base.toNat + stackArgsOffset + stackArgSize * frame.onStack ≤ a.toNat

/-- No byte of the caller's differs. -/
def Keeps (frame : Frame) (before after : Memory) : Prop :=
  ∀ a, frame.Foreign a → after a = before a

theorem Keeps.refl (frame : Frame) (mem : Memory) : frame.Keeps mem mem := fun _ _ => rfl

theorem Keeps.trans {first second third : Memory} (early : frame.Keeps first second)
    (late : frame.Keeps second third) : frame.Keeps first third :=
  fun a foreign => (late a foreign).trans (early a foreign)

/-- What happens below the stack pointer changes no byte of the caller's. -/
theorem keeps_of_agreeFrom {before after : Memory}
    (agree : Memory.AgreeFrom frame.stack.toNat before after) : frame.Keeps before after := by
  have stack := frame.toNat_stack
  intro a foreign
  refine agree a ?_
  rcases foreign with ⟨low, -⟩ | high
  · omega
  · omega

/-- Storing to a variable of the frame changes no byte of the caller's. -/
theorem keeps_store (place : frame.Offset offset) (mem : Memory) (value : Nat) :
    frame.Keeps mem (mem.store (frame.address offset) value slotSize) := by
  intro a foreign
  have here := toNat_address place
  have bounds := place.bounds
  simp only [Foreign, slotSize, stackArgsOffset, stackArgSize] at foreign bounds
  refine Memory.store_apply_of_outside (address_add_le place) ?_
  simp only [slotSize]
  omega

/-- Different places do not overlap. -/
theorem cell_store_of_ne (place : frame.Offset offset) (placeOther : frame.Offset other)
    (ne : other ≠ offset) (mem : Memory) (value : Nat) :
    (mem.store (frame.address offset) value slotSize).cell (frame.address other) =
      mem.cell (frame.address other) := by
  have here := toNat_address place
  have there := toNat_address placeOther
  have apart := place.apart placeOther ne
  have outside : (frame.address other).toNat + 4 ≤ (frame.address offset).toNat ∨
      (frame.address offset).toNat + slotSize ≤ (frame.address other).toNat := by
    simp only [slotSize] at apart ⊢
    omega
  exact congrArg (lowInt <| BitVec.ofNat 64 ·)
    (Memory.load_store_of_outside (address_add_le place) (address_add_le placeOther) outside)

/-! ## Scopes in a frame -/

/-- The places of a scope are places of the frame. -/
structure Houses (frame : Frame) (scope : Scope) : Prop where
  laid : scope.Laid frame.onStack
  within : -scope.cursor ≤ frame.size

variable {scope : Scope}

theorem Houses.place (houses : frame.Houses scope) {name : String} {operand : Operand}
    (found : scope.find? name = some operand) :
    ∃ offset, frame.Offset offset ∧ operand = frameCell offset := by
  have within := houses.within
  rcases houses.laid.place found with ⟨k, pos, fits, rfl⟩ | ⟨j, lt, rfl⟩
  · refine ⟨_, .inl ⟨k, pos, ?_, rfl⟩, rfl⟩
    simp only [slotSize] at fits ⊢
    omega
  · exact ⟨_, .inr ⟨j, lt, rfl⟩, rfl⟩

theorem Houses.above (houses : frame.Houses scope) :
    scope.Above frame.base frame.stack.toNat := by
  intro name operand found
  obtain ⟨offset, place, rfl⟩ := houses.place found
  refine ⟨offset, rfl, ?_, address_add_le place⟩
  have here := toNat_address place
  have bounds := place.bounds
  have stack := frame.toNat_stack
  simp only [address, slotSize, stackArgsOffset, stackArgSize] at here bounds
  omega

/-- The machine runs in a frame. -/
structure Active (frame : Frame) (m : Machine) : Prop where
  base : m.regs .bp = frame.base
  pointer : m.regs .sp = frame.stack

/-- A callee that restores its caller's machine leaves the frame active and kept. -/
theorem Active.restored {before after : Machine} (active : frame.Active before)
    (restores : before.Restores after) :
    frame.Active after ∧ frame.Keeps before.mem after.mem := by
  refine ⟨⟨restores.base.trans active.base, restores.pointer.trans active.pointer⟩, ?_⟩
  have agree := restores.mem
  rw [active.pointer] at agree
  exact keeps_of_agreeFrom agree

/-- In an active frame with room enough, values can be computed. -/
theorem Active.ready {m : Machine} (active : frame.Active m) (houses : frame.Houses scope)
    {env : Env} (represents : scope.Represents env m) {need : Nat}
    (enough : need ≤ frame.stack.toNat) : scope.Ready env need m := by
  refine ⟨?_, represents, ?_⟩
  · rw [active.base, active.pointer]
    exact houses.above
  · rw [active.pointer]
    exact enough

theorem Active.value_frameCell {m : Machine} (active : frame.Active m) (offset : Int) :
    m.value (frameCell offset) = some (m.mem.cell (frame.address offset)) := by
  rw [Machine.value_frameCell, Machine.address, active.base, address]

/-! ## Stores to variables -/

/-- The machine after a value was stored to a place of the frame. -/
def stored (frame : Frame) (m : Machine) (offset : Int) (word : BitVec 64) : Machine :=
  { m with mem := m.mem.store (frame.address offset) word.toNat slotSize }

theorem Active.stored {m : Machine} (active : frame.Active m) (word : BitVec 64) :
    frame.Active (frame.stored m offset word) :=
  ⟨active.base, active.pointer⟩

/-- Storing to a variable gives it its value and leaves the others theirs. -/
theorem Houses.represents_stored (houses : frame.Houses scope) {m : Machine}
    (active : frame.Active m) {env : Env} (represents : scope.Represents env m) {name : String}
    (found : scope.find? name = some (frameCell offset)) (place : frame.Offset offset)
    (word : BitVec 64) :
    scope.Represents (env.set name (some (lowInt word))) (frame.stored m offset word) := by
  intro other operand v foundOther has
  by_cases same : other = name
  · subst same
    rw [found] at foundOther
    cases foundOther
    rw [Env.set, if_pos rfl] at has
    rw [(active.stored word).value_frameCell, ← has]
    exact congrArg some (Memory.cell_store _ _ _ (by decide) (by decide))
  · obtain ⟨otherOffset, otherPlace, rfl⟩ := houses.place foundOther
    have ne : otherOffset ≠ offset := by
      rintro rfl
      exact houses.laid.place_ne same foundOther found rfl
    rw [Env.set, if_neg same] at has
    have before := represents foundOther has
    rw [active.value_frameCell] at before
    rw [(active.stored word).value_frameCell, ← before]
    exact congrArg some (cell_store_of_ne place otherPlace ne _ _)

end Frame

end IntBackend
