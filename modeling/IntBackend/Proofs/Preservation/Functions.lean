/-
# IntBackend.Proofs.Preservation.Functions — code of whole functions

On entry a function saves the caller's frame pointer and takes its frame, then it
stores the arguments that come in registers. When its body is through, both
pointers get their old values back and control goes to the return address, which
nothing has changed in between.
-/
import IntBackend.Proofs.Lowering.Segments
import IntBackend.Proofs.Preservation.Statements

namespace IntBackend

set_option autoImplicit false

open Convention

/-! ## Arguments one by one -/

namespace Machine.Passes

variable {m : Machine} {stack : Address} {v : Int32} {values : List Int32}

theorem of_register {r : Register} {rs : List Register}
    (passes : m.Passes (r :: rs) stack (v :: values)) :
    lowInt (m.regs r) = v ∧ m.Passes rs stack values := by
  refine ⟨passes.inRegisters (j := 0) rfl rfl, ?_, ?_⟩
  · intro j q u isRegister isValue
    exact passes.inRegisters (j := j + 1) isRegister isValue
  · intro j u isValue
    refine passes.onStack ?_
    rw [List.length_cons, Nat.add_right_comm]
    exact isValue

theorem of_stack (passes : m.Passes [] stack (v :: values)) :
    m.mem.cell stack = v ∧ m.Passes [] (stack + BitVec.ofNat 64 stackArgSize) values := by
  refine ⟨?_, nofun, ?_⟩
  · have top := passes.onStack (j := 0) rfl
    rw [Nat.mul_zero, BitVec.add_zero] at top
    exact top
  · intro j u isValue
    rw [BitVec.add_assoc, ← BitVec.ofNat_add, Nat.add_comm stackArgSize, ← Nat.mul_succ]
    refine passes.onStack ?_
    rw [List.length_nil, Nat.zero_add] at isValue ⊢
    exact isValue

/-- Arguments stay in place if their registers and their cells do. -/
theorem congr {other : Machine} {registers : List Register}
    (passes : m.Passes registers stack values)
    (regs : ∀ r ∈ registers, other.regs r = m.regs r)
    (cells : ∀ j, registers.length + j < values.length →
      other.mem.cell (stack + BitVec.ofNat 64 (stackArgSize * j)) =
        m.mem.cell (stack + BitVec.ofNat 64 (stackArgSize * j))) :
    other.Passes registers stack values := by
  refine ⟨fun j r u isRegister isValue => ?_, fun j u isValue => ?_⟩
  · rw [regs r (List.mem_of_getElem? isRegister)]
    exact passes.inRegisters isRegister isValue
  · rw [cells j (List.getElem?_eq_some_iff.mp isValue).1]
    exact passes.onStack isValue

end Machine.Passes

theorem Env.set_set (env : Env) (name : String) (first second : Option Int32) :
    (env.set name first).set name second = env.set name second := by
  funext other
  unfold Env.set
  split <;> rfl

theorem Env.length_of_bind {params : List Binding} {values : List Int32} {env bound : Env}
    (binds : env.bind params values = some bound) : values.length = params.length := by
  induction params generalizing values env with
  | nil =>
      cases values with
      | nil => rfl
      | cons v vs => cases binds
  | cons param params ih =>
      cases values with
      | nil => cases binds
      | cons v vs => rw [List.length_cons, List.length_cons, ih binds]

/-! ## Parameters -/

namespace Frame

variable {frame : Frame}

/-- The first argument on the stack, as the callee and as the caller see it. -/
theorem address_stackArg (frame : Frame) (j : Nat) :
    frame.address (stackArgsOffset + stackArgSize * j) =
      frame.base + BitVec.ofNat 64 (stackArgsOffset + stackArgSize * j) := by
  rw [address, ← BitVec.ofInt_natCast]
  push_cast
  rfl

theorem Active.value_stackArg {m : Machine} (active : frame.Active m) (j : Nat) :
    m.value (stackArg j) = some (m.mem.cell
      (frame.base + BitVec.ofNat 64 (stackArgsOffset + stackArgSize * j))) := by
  rw [stackArg, active.value_frameCell, address_stackArg]

theorem stackArg_shift (frame : Frame) (j : Nat) :
    frame.base + BitVec.ofNat 64 (stackArgsOffset + stackArgSize * j) +
        BitVec.ofNat 64 stackArgSize =
      frame.base + BitVec.ofNat 64 (stackArgsOffset + stackArgSize * (j + 1)) := by
  rw [BitVec.add_assoc, ← BitVec.ofNat_add, Nat.add_assoc, Nat.mul_succ]

end Frame

/-- A parameter that stays where the caller put it. -/
theorem Scope.Represents.bind {scope bound : Scope} {env : Env} {m : Machine} {name : String}
    {operand : Operand} {v : Int32} (represents : scope.Represents env m)
    (binds : scope.bind name operand = .ok bound) (holds : m.value operand = some v) :
    bound.Represents (env.set name (some v)) m := by
  obtain ⟨-, rfl⟩ := Scope.bind_eq_ok_iff.mp binds
  intro other place u found has
  have looks := Scope.find?_cons scope name other operand
  by_cases same : other = name
  · rw [Env.set, if_pos same] at has
    rw [if_pos same, found] at looks
    cases looks
    cases has
    exact holds
  · rw [Env.set, if_neg same] at has
    rw [if_neg same, found] at looks
    exact represents looks.symm has

namespace Frame

variable {frame : Frame} {scope : Scope} {env : Env} {m : Machine}

/-- A parameter that comes in a register is stored to a slot, which is none of the
arguments on the stack. -/
theorem stores_param {declared : Scope} {name : String}
    (declares : scope.declare name = .ok declared) (laid : scope.Laid frame.onStack)
    (within : -declared.cursor ≤ frame.size) (active : frame.Active m)
    (represents : scope.Represents env m) (r : Register) :
    ∃ offset word, frame.Offset offset ∧ offset < 0 ∧
      runLine [.mov scope.nextSlot (.reg r valueWidth)] m = some (frame.stored m offset word) ∧
      declared.Represents (env.set name (some (lowInt (m.regs r))))
        (frame.stored m offset word) := by
  have houses : frame.Houses declared := ⟨laid.declare declares, within⟩
  have found := Scope.find?_of_declare declares
  obtain ⟨offset, place, slot⟩ := houses.place found
  have negative : offset < 0 := by
    obtain ⟨k, cursor⟩ := laid.below
    rw [Scope.nextSlot, frameCell, frameCell, Operand.mem.injEq] at slot
    simp only [slotSize] at slot cursor
    omega
  rw [slot] at found ⊢
  obtain ⟨word, low, moves⟩ := runLine_mov active rfl (.inr rfl) (m.value_reg r valueWidth) offset
  have stored := houses.represents_stored active (represents.declare declares) found place word
  rw [Env.set_set, low] at stored
  exact ⟨offset, word, place, negative, moves, stored⟩

/-- Storing to a slot keeps the arguments that are still to come. -/
theorem passes_stored {registers : List Register} {values : List Int32} {first : Nat}
    (passes : m.Passes registers
      (frame.base + BitVec.ofNat 64 (stackArgsOffset + stackArgSize * first)) values)
    (fits : first + (values.length - registers.length) ≤ frame.onStack) {offset : Int}
    (place : frame.Offset offset) (negative : offset < 0) (word : BitVec 64) :
    (frame.stored m offset word).Passes registers
      (frame.base + BitVec.ofNat 64 (stackArgsOffset + stackArgSize * first)) values := by
  refine passes.congr (fun _ _ => rfl) fun j inside => ?_
  have address : frame.base + BitVec.ofNat 64 (stackArgsOffset + stackArgSize * first) +
      BitVec.ofNat 64 (stackArgSize * j) =
        frame.address (stackArgsOffset + stackArgSize * (first + j : Nat)) := by
    rw [address_stackArg, BitVec.add_assoc, ← BitVec.ofNat_add, Nat.add_assoc, Nat.mul_add]
  have there : frame.Offset (stackArgsOffset + stackArgSize * (first + j : Nat)) :=
    .inr ⟨first + j, by omega, rfl⟩
  rw [address]
  refine cell_store_of_ne place there ?_ _ _
  simp only [stackArgsOffset, stackArgSize]
  omega

/-- When the parameters are bound, each has the value of its argument. -/
theorem binds_params {params : List Binding} {registers : List Register} {first : Nat}
    {after : Scope} {code : Code} {values : List Int32} {bound : Env}
    (lowers : lowerParams scope registers first params = .ok (code, after))
    (binds : env.bind params values = some bound) (laid : scope.Laid first)
    (within : -after.cursor ≤ frame.size)
    (fits : first + (params.length - registers.length) ≤ frame.onStack)
    (active : frame.Active m) (represents : scope.Represents env m)
    (passes : m.Passes registers
      (frame.base + BitVec.ofNat 64 (stackArgsOffset + stackArgSize * first)) values) :
    ∃ last, runLine code m = some last ∧ frame.Active last ∧ frame.Keeps m.mem last.mem ∧
      after.Represents bound last := by
  induction params generalizing scope registers first code values env m with
  | nil =>
      obtain ⟨rfl, rfl⟩ := lowerParams_nil_iff.mp lowers
      cases values with
      | nil =>
          cases binds
          exact ⟨m, rfl, active, .refl _ _, represents⟩
      | cons v vs => cases binds
  | cons param params ih =>
      cases values with
      | nil => cases binds
      | cons v vs =>
          have length : vs.length = params.length := Env.length_of_bind binds
          cases registers with
          | nil =>
              obtain ⟨further, bindsFirst, lowersRest⟩ := lowerParams_stack_iff.mp lowers
              obtain ⟨here, others⟩ := passes.of_stack
              rw [List.length_cons, List.length_nil] at fits
              rw [stackArg_shift] at others
              have fitsRest : first + 1 + (params.length - ([] : List Register).length) ≤
                  frame.onStack := by
                rw [List.length_nil]
                omega
              have holds : m.value (stackArg first) = some v := by
                rw [active.value_stackArg, here]
              exact ih lowersRest binds (laid.bind bindsFirst) fitsRest active
                (represents.bind bindsFirst holds) others
          | cons r rs =>
              obtain ⟨declared, rest, declares, lowersRest, rfl⟩ :=
                lowerParams_register_iff.mp lowers
              obtain ⟨here, others⟩ := passes.of_register
              rw [List.length_cons, List.length_cons, Nat.add_sub_add_right] at fits
              have grown := grown_of_lowerParams lowersRest
              have cursor := grown.cursor
              simp only [slotSize] at cursor
              obtain ⟨offset, word, place, negative, stores, represented⟩ := stores_param declares
                (laid.mono (by omega)) (by omega) active represents r
              rw [here] at represented
              have still := passes_stored others (by omega) place negative word
              obtain ⟨last, runs, activeLast, keeps, done⟩ := ih lowersRest binds
                (laid.declare declares) fits (active.stored word) represented still
              exact ⟨last, runLine_append_of_eq stores runs, activeLast,
                (keeps_store place _ _).trans keeps, done⟩

end Frame

/-! ## Entry -/

/-- The machine after the prologue of a function. -/
def Machine.entered (m : Machine) (size : Nat) : Machine :=
  ((m.push (m.regs .bp)).set .bp (m.regs .sp - 8)).set .sp
    (m.regs .sp - 8 - BitVec.ofNat 64 size)

/-- The prologue saves the frame pointer, sets it and takes the frame. -/
theorem Func.runLine_prologue (f : Func) (m : Machine) :
    runLine f.prologue.tail m = some (m.entered f.frameSize) := by
  have saves : ((Instruction.push basePointer).labelled (.function f.name)).effect? m =
      some (m.push (m.regs .bp)) := rfl
  have sets : (Instruction.mov basePointer stackPointer).effect? (m.push (m.regs .bp)) =
      some ((m.push (m.regs .bp)).set .bp ((m.push (m.regs .bp)).regs .sp)) :=
    Machine.operate_eq_write rfl rfl rfl rfl
  rw [m.regs_push_sp] at sets
  have takes :=
    Machine.sub_stackPointer ((m.push (m.regs .bp)).set .bp (m.regs .sp - 8)) f.frameSize
  rw [Machine.regs_set_of_ne _ _ (by decide), m.regs_push_sp] at takes
  rw [Func.prologue, List.tail_cons, runLine, saves, Option.bind_some, runLine, sets,
    Option.bind_some, runLine_singleton, takes, Machine.entered]

namespace Frame

/-- The frame of a function that finds a machine on entry: the return address is right
above the frame pointer that is saved. -/
def Enters (frame : Frame) (m : Machine) : Prop :=
  frame.base.toNat + 8 = (m.regs .sp).toNat

variable {frame : Frame} {m : Machine}

theorem Enters.base (enters : frame.Enters m) : frame.base = m.regs .sp - 8 := by
  have eight : (8 : BitVec 64).toNat = 8 := rfl
  have bound := (m.regs .sp).isLt
  rw [Enters] at enters
  apply BitVec.eq_of_toNat_eq
  rw [BitVec.toNat_sub, eight]
  omega

theorem Enters.enough (enters : frame.Enters m) : 8 ≤ (m.regs .sp).toNat := by
  rw [← enters]
  omega

theorem exists_enters {size onStack : Nat} (enough : 8 + size ≤ (m.regs .sp).toNat)
    (fits : (m.regs .sp).toNat + 8 + stackArgSize * onStack < 2 ^ 64) :
    ∃ frame : Frame, frame.Enters m ∧ frame.size = size ∧ frame.onStack = onStack := by
  have moved := m.toNat_push (by omega) 0
  rw [m.regs_push_sp] at moved
  refine ⟨⟨m.regs .sp - 8, size, onStack, by omega, ?_⟩, moved, rfl, rfl⟩
  simp only [stackArgsOffset]
  omega

/-- The frame is active once the prologue has run. -/
theorem Enters.active (enters : frame.Enters m) : frame.Active (m.entered frame.size) := by
  refine ⟨?_, ?_⟩
  · rw [Machine.entered, Machine.regs_set_of_ne _ _ (by decide), Machine.regs_set_self, enters.base]
  · rw [Machine.entered, Machine.regs_set_self, stack, enters.base]

/-- The callee finds the arguments where the caller put them. -/
theorem Enters.passes (enters : frame.Enters m) {values : List Int32}
    (passes : m.Passes argRegisters (m.regs .sp + 8) values)
    (count : values.length - argRegisters.length = frame.onStack) :
    (m.entered frame.size).Passes argRegisters
      (frame.base + BitVec.ofNat 64 (stackArgsOffset + stackArgSize * 0)) values := by
  have start : frame.base + BitVec.ofNat 64 (stackArgsOffset + stackArgSize * 0) =
      m.regs .sp + 8 := by
    have sixteen : BitVec.ofNat 64 (stackArgsOffset + stackArgSize * 0) = 8 + 8 := rfl
    rw [sixteen, ← BitVec.add_assoc, enters.base, BitVec.sub_add_cancel]
  rw [start]
  refine passes.congr (fun r carries => ?_) fun j inside => ?_
  · obtain ⟨-, -, notSp, notBp⟩ := ne_of_mem_argRegisters carries
    rw [Machine.entered, Machine.regs_set_of_ne _ _ notSp, Machine.regs_set_of_ne _ _ notBp,
      m.regs_push_of_ne _ notSp]
  · have above := frame.above
    rw [Enters] at enters
    simp only [stackArgsOffset, stackArgSize] at above
    have eight : (8 : BitVec 64) = BitVec.ofNat 64 8 := rfl
    have place : (m.regs .sp + 8 + BitVec.ofNat 64 (stackArgSize * j)).toNat =
        (m.regs .sp).toNat + (8 + 8 * j) := by
      simp only [stackArgSize]
      rw [eight, BitVec.add_assoc, ← BitVec.ofNat_add, Memory.toNat_add_ofNat (by omega)]
    exact Memory.cell_of_agreeFrom (m.agreeFrom_push (by omega) _) (by omega) (by omega)

end Frame

/-! ## Exit -/

/-- The saved frame pointer and the return address are read back as they were. -/
theorem Frame.Keeps.load {frame : Frame} {before after : Memory} (keeps : frame.Keeps before after)
    {a : Address} {bytes : Nat} (low : frame.base.toNat ≤ a.toNat)
    (high : a.toNat + bytes ≤ frame.base.toNat + stackArgsOffset) :
    after.load a bytes = before.load a bytes := by
  have above := frame.above
  refine Memory.load_congr fun i lt => keeps _ (.inl ?_)
  rw [Memory.toNat_add_ofNat (by omega)]
  omega

/-- The epilogue gives the frame back and restores the frame pointer. -/
theorem Func.runLine_epilogue (f : Func) (m : Machine) :
    runLine f.epilogue.dropLast m =
      some (let freed := m.set .sp (m.regs .sp + BitVec.ofNat 64 f.frameSize)
        freed.drop.set .bp freed.top) := by
  have frees := m.add_stackPointer f.frameSize
  have pops : ∀ freed : Machine, (Instruction.pop basePointer).effect? freed =
      some (freed.drop.set .bp freed.top) := fun _ => rfl
  have labelled : ∀ (l : Label) (i : Instruction), (i.labelled l).effect? m = i.effect? m :=
    fun _ _ => rfl
  rw [Func.epilogue, List.dropLast_cons_cons, List.dropLast_cons_cons, List.dropLast_singleton,
    runLine, labelled, frees, Option.bind_some, runLine_singleton, pops]

/-- What the code of a function needs around it: its label is found, its epilogue is where
returns go, and all of it is there. -/
structure Func.Placed (image : Image) (f : Func) (body : Code) (entry : Nat) : Prop where
  lands : image.position? (.function f.name) = some entry
  leaves : image.position? (.epilogue f.name) = some (entry + 3 + body.length)
  carries : image.Carries entry (f.beforeReturn body)
  returns : image.code[entry + 3 + body.length + 2]? = some .ret

/-- The return address and the caller's frame pointer are still there. -/
theorem Frame.Enters.loads {frame : Frame} {m : Machine} (enters : frame.Enters m) {mem : Memory}
    (keeps : frame.Keeps (m.entered frame.size).mem mem) :
    BitVec.ofNat 64 (mem.load frame.base 8) = m.regs .bp ∧
      BitVec.ofNat 64 (mem.load (m.regs .sp) 8) = m.top := by
  have above := frame.above
  have moved : frame.base.toNat + 8 = (m.regs .sp).toNat := enters
  simp only [stackArgsOffset] at above
  refine ⟨?_, ?_⟩
  · have saved := m.top_push (m.regs .bp)
    rw [Machine.top, m.regs_push_sp, ← enters.base] at saved
    rw [keeps.load le_rfl (by simp only [stackArgsOffset]; omega)]
    exact saved
  · rw [keeps.load (by omega) (by simp only [stackArgsOffset]; omega)]
    have agree := m.agreeFrom_push enters.enough (m.regs .bp)
    exact congrArg (BitVec.ofNat 64) (Memory.load_of_agreeFrom agree le_rfl (by omega))

section Exit

variable {image : Image} {f : Func} {body : Code} {entry back : Nat} {m last : Machine}
  {frame : Frame}

/-- From the epilogue back to the caller. -/
theorem Func.Placed.reaches_back (placed : f.Placed image body entry)
    (located : image.locate? m.top = some back) (enters : frame.Enters m)
    (size : frame.size = f.frameSize) (active : frame.Active last)
    (keeps : frame.Keeps (m.entered frame.size).mem last.mem) :
    ∃ after, image.Reaches ⟨entry + 3 + body.length, last⟩ ⟨back, after⟩ ∧
      after.regs .bp = m.regs .bp ∧ after.regs .sp = m.regs .sp + 8 ∧
      after.regs .ax = last.regs .ax ∧ after.mem = last.mem := by
  obtain ⟨savedBase, savedTop⟩ := enters.loads keeps
  have freed : last.regs .sp + BitVec.ofNat 64 f.frameSize = frame.base := by
    rw [active.pointer, ← size, Frame.stack, BitVec.sub_add_cancel]
  have restored : frame.base + 8 = m.regs .sp := by
    rw [enters.base, BitVec.sub_add_cancel]
  -- the epilogue gives both pointers back
  have runs : runLine f.epilogue.dropLast last =
      some ((last.set .sp (m.regs .sp)).set .bp (m.regs .bp)) := by
    rw [f.runLine_epilogue, freed]
    simp only [Machine.drop, Machine.top, Machine.regs_set_self, Machine.mem_set, Machine.set_set,
      savedBase, restored]
  have carries : image.Carries (entry + 3 + body.length) f.epilogue.dropLast := by
    have right := placed.carries.right
    rw [f.length_front, ← Nat.add_assoc] at right
    exact right
  have pointer : ((last.set .sp (m.regs .sp)).set .bp (m.regs .bp)).regs .sp = m.regs .sp := by
    rw [Machine.regs_set_of_ne _ _ (by decide), Machine.regs_set_self]
  have onTop : image.locate? ((last.set .sp (m.regs .sp)).set .bp (m.regs .bp)).top =
      some back := by
    rw [Machine.top, pointer, Machine.mem_set, Machine.mem_set, savedTop, located]
  have returns := Image.reaches_of_step (Image.step_ret placed.returns onTop)
  refine ⟨_, (carries.crosses runs).reaches.trans returns, ?_, ?_, ?_, rfl⟩
  · rw [Machine.drop, Machine.regs_set_of_ne _ _ (by decide), Machine.regs_set_self]
  · rw [Machine.drop, Machine.regs_set_self, pointer]
  · rw [Machine.drop, Machine.regs_set_of_ne _ _ (by decide),
      Machine.regs_set_of_ne _ _ (by decide), Machine.regs_set_of_ne _ _ (by decide)]

end Exit

/-! ## Functions -/

/-- However a body ends, control gets to the epilogue, with the result if there is one. -/
theorem Flow.Arrives.exit {image : Image} {frame : Frame} {scope : Scope} {exit : Nat}
    {start : Process} {flow : Flow} {result : Option Int32}
    (arrives : flow.Arrives image frame scope exit exit start)
    (ends : flow = .returns result ∨ (result = none ∧ ∃ last, flow = .goesOn last)) :
    ∃ after, image.Reaches start ⟨exit, after⟩ ∧ frame.Active after ∧
      frame.Keeps start.machine.mem after.mem ∧
      ∀ {v}, result = some v → after.value accumulator = some v := by
  rcases ends with rfl | ⟨rfl, env, rfl⟩
  · exact arrives
  · obtain ⟨after, reaches, active, keeps, -⟩ := arrives
    exact ⟨after, reaches, active, keeps, nofun⟩

/-- A function whose code is in place computes its result, given that those it calls do. -/
theorem Func.Placed.returned {image : Image} {calls : Calls} {room need : Nat} {f : Func}
    {callees : List String} {body : Code} {final : Scope} {entry back : Nat} {m : Machine}
    {args : List Int32} {result : Option Int32} (implements : image.Implements calls room)
    (placed : f.Placed image body entry) (lowers : f.lowerBody callees = .ok (body, final))
    (proper : ∀ e ∈ f.exprs, e.Disciplined ∧ e.Needs room need)
    (runs : f.invoke calls args = some result) (located : image.locate? m.top = some back)
    (passes : m.Passes argRegisters (m.regs .sp + 8) args)
    (enough : 8 + f.frameSize + need ≤ (m.regs .sp).toNat)
    (fits : (m.regs .sp).toNat + 8 + stackArgSize * (args.length - argRegisters.length) < 2 ^ 64) :
    ∃ after, image.Reaches ⟨entry, m⟩ ⟨back, after⟩ ∧
      Machine.Returned (args.length - argRegisters.length) result m after := by
  obtain ⟨env, flow, binds, executes, ends⟩ := Func.invoke_iff.mp runs
  have count : args.length = f.params.length := Env.length_of_bind binds
  obtain ⟨frame, enters, size, onStack⟩ := Frame.exists_enters
    (m := m) (Nat.le_of_add_right_le enough) fits
  obtain ⟨stores, between, rest, lowersParams, lowersRest, rfl⟩ := Func.lowerBody_iff.mp lowers
  have moved : frame.base.toNat + 8 = (m.regs .sp).toNat := enters
  have stack := frame.toNat_stack
  -- all of the body's slots are in the frame
  have within : -final.cursor ≤ frame.size := by
    rw [Func.cursor_of_lowerBody lowers, size, Int.neg_neg]
  have early := grown_of_lowerParams lowersParams
  rw [Nat.zero_add, ← count, ← onStack] at early
  have laid := early.laid (Scope.laid_fresh f.name callees)
  have late := Stmt.grown_of_body frame.onStack lowersRest
  have housesBetween := late.houses laid within
  have exitLabel : between.exit = .epilogue f.name := by
    rw [Scope.exit, early.extension.function]
    rfl
  -- into the function
  have carries := placed.carries.left
  have entered := (carries.left.crosses (f.runLine_prologue m)).reaches
  rw [← size] at entered
  have nothing : (Scope.fresh f.name callees).Represents (fun _ => none)
      (m.entered frame.size) := by
    intro name operand v _ bound
    cases bound
  obtain ⟨first, storing, activeFirst, keepsFirst, represents⟩ := Frame.binds_params lowersParams
    binds (Scope.laid_fresh f.name callees) housesBetween.within (by omega) enters.active nothing
    (enters.passes passes onStack.symm)
  have stored := (carries.right.left.crosses storing).reaches
  -- through the body to the epilogue
  have each : ∀ s ∈ f.body, s.Simulated image calls room need frame :=
    fun s _ => s.simulated implements (by omega)
  have arrives := Stmt.arrives_all each lowersRest executes proper laid within
    (exitLabel ▸ placed.leaves) carries.right.right activeFirst represents
  have behind : entry + f.prologue.tail.length + stores.length + rest.length =
      entry + 3 + (stores ++ rest).length := by
    rw [List.length_append, ← Nat.add_assoc]
    rfl
  rw [behind] at arrives
  obtain ⟨last, reaches, activeLast, keepsLast, value⟩ := arrives.exit ends
  have keeps := keepsFirst.trans keepsLast
  -- and back to the caller
  obtain ⟨after, returns, base, pointer, result, mem⟩ :=
    placed.reaches_back located enters size activeLast keeps
  refine ⟨after, ((entered.trans stored).trans reaches).trans returns, ⟨?_, base, pointer, ?_⟩⟩
  · intro v has
    rw [← value has, accumulator, Machine.value_reg, Machine.value_reg, result]
  · intro a above
    have foreign : frame.Foreign a := by
      refine .inr ?_
      rw [onStack]
      simp only [stackArgsOffset]
      omega
    rw [mem, keeps a foreign]
    exact m.agreeFrom_push enters.enough (m.regs .bp) a (by omega)

end IntBackend
