/-
# IntBackend.Proofs.Output.Delivery — what a sink holds when writing ends

A write takes as many bytes as were offered, as the chunk allows and as still fit below the
limit, whichever is least (`Sink.portion`). Repeated writes therefore take a number of bytes
that is known beforehand (`Sink.accepts`): all of them, or those that fit below the limit, or
none if the chunk is empty. `Sink.writeAll_eq` says that the loop ends with these bytes taken,
in order, and reports a fault exactly if they are not all. Every write that succeeds takes at
least one byte, so that there are no more writes than bytes (`Sink.Writes.count_le`). Code that
is printed into a sink is flushed if all of its text was taken, and not otherwise.
-/
import IntBackend.Output.Sink

namespace IntBackend

set_option autoImplicit false

namespace Sink

/-! ## One write -/

/-- How many of the offered bytes one write takes. -/
def portion (sink : Sink) (offered : Nat) : Nat := sink.allowance?.elim offered (min offered)

/-- How many of the offered bytes are taken in the end. -/
def accepts (sink : Sink) (offered : Nat) : Nat :=
  if sink.chunk = some 0 then 0 else sink.room?.elim offered (min offered)

/-- Why a sink stops before all is written. -/
def refusal (sink : Sink) : SinkFault :=
  if sink.chunk = some 0 ∧ sink.isFull = false then .stalled else .limitReached

/-- The sink with a further piece taken. -/
def after (sink : Sink) (piece : List UInt8) : Sink := { sink with taken := sink.taken ++ piece }

theorem after_nil (sink : Sink) : sink.after [] = sink := by
  simp [after]

theorem after_after (sink : Sink) (first second : List UInt8) :
    (sink.after first).after second = sink.after (first ++ second) := by
  simp [after, ← Array.toList_inj]

theorem room?_after (sink : Sink) (piece : List UInt8) :
    (sink.after piece).room? = sink.room?.map (· - piece.length) := by
  have size : (sink.taken ++ piece).size = sink.taken.size + piece.length := by
    rw [← Array.length_toList, Array.toList_appendList, List.length_append, Array.length_toList]
  cases limit : sink.limit with
  | none => simp [room?, after, limit]
  | some most => simp [room?, after, limit, size, Nat.sub_sub]

theorem split_eq (sink : Sink) (bytes : List UInt8) :
    sink.split bytes =
      (bytes.take (sink.portion bytes.length), bytes.drop (sink.portion bytes.length)) := by
  unfold split portion
  cases sink.allowance? with
  | none => simp
  | some n => simp [List.splitAt_eq, Nat.min_comm bytes.length n]

theorem portion_le (sink : Sink) (offered : Nat) : sink.portion offered ≤ offered := by
  unfold portion
  cases sink.allowance? with
  | none => exact Nat.le_refl offered
  | some n => exact Nat.min_le_left offered n

theorem portion_le_room {sink : Sink} {room : Nat} (fits : sink.room? = some room)
    (offered : Nat) : sink.portion offered ≤ room := by
  unfold portion allowance?
  rw [fits]
  cases sink.chunk with
  | none => exact Nat.min_le_right offered room
  | some chunk =>
      simp only [Option.elim_some]
      omega

theorem isFull_iff {sink : Sink} : sink.isFull = true ↔ sink.room? = some 0 := by
  rw [isFull, beq_iff_eq]

/-- A write takes nothing of what is offered exactly if the chunk is empty or the limit is
reached. -/
theorem portion_eq_zero_iff {sink : Sink} {offered : Nat} (offers : 0 < offered) :
    sink.portion offered = 0 ↔ sink.chunk = some 0 ∨ sink.isFull = true := by
  rw [isFull_iff]
  unfold portion allowance?
  cases sink.chunk with
  | none =>
      cases sink.room? with
      | none =>
          simp only [Option.elim_none, reduceCtorEq, or_self, iff_false]
          omega
      | some room =>
          simp only [Option.elim_some, reduceCtorEq, Option.some.injEq, false_or]
          omega
  | some chunk =>
      cases sink.room? with
      | none =>
          simp only [Option.elim_some, reduceCtorEq, Option.some.injEq, or_false]
          omega
      | some room =>
          simp only [Option.elim_some, Option.some.injEq]
          omega

theorem chunk_ne_of_portion_pos {sink : Sink} {offered : Nat}
    (takes : 0 < sink.portion offered) : sink.chunk ≠ some 0 := by
  have offers := Nat.lt_of_lt_of_le takes (sink.portion_le offered)
  intro empty
  have nothing := (portion_eq_zero_iff offers).mpr (.inl empty)
  omega

/-- A write takes a portion of the bytes and leaves the others, or refuses if it takes none. -/
theorem write_eq (sink : Sink) (bytes : List UInt8) :
    sink.write bytes =
      if sink.portion bytes.length = 0 then
        .error (if sink.isFull then .limitReached else .stalled)
      else
        .ok (sink.after (bytes.take (sink.portion bytes.length)),
          bytes.drop (sink.portion bytes.length)) := by
  have within := sink.portion_le bytes.length
  have empty : (bytes.take (sink.portion bytes.length)).isEmpty =
      decide (sink.portion bytes.length = 0) := by
    rw [Bool.eq_iff_iff, List.isEmpty_iff_length_eq_zero, List.length_take, decide_eq_true_iff]
    omega
  rw [write, split_eq]
  by_cases nothing : sink.portion bytes.length = 0
  · cases full : sink.isFull with
    | true => simp [nothing]
    | false => simp [nothing]
  · simp [empty, nothing, after]

theorem write_eq_ok_iff {sink next : Sink} {bytes rest : List UInt8} :
    sink.write bytes = .ok (next, rest) ↔
      0 < sink.portion bytes.length ∧ next = sink.after (bytes.take (sink.portion bytes.length)) ∧
        rest = bytes.drop (sink.portion bytes.length) := by
  rw [write_eq]
  by_cases nothing : sink.portion bytes.length = 0
  · simp [nothing]
  · simp [nothing, Nat.pos_iff_ne_zero, eq_comm (b := next), eq_comm (b := rest)]

/-- A sink refuses for a reason of its own, whatever it is offered. -/
theorem write_eq_error_iff {sink : Sink} {bytes : List UInt8} (offered : 0 < bytes.length)
    {fault : SinkFault} :
    sink.write bytes = .error fault ↔
      sink.portion bytes.length = 0 ∧ fault = sink.refusal := by
  rw [write_eq]
  by_cases nothing : sink.portion bytes.length = 0
  · have cause := (portion_eq_zero_iff offered).mp nothing
    cases full : sink.isFull with
    | true => simp [nothing, refusal, full, eq_comm (b := fault)]
    | false =>
        have empty : sink.chunk = some 0 := by simpa [full] using cause
        simp [nothing, refusal, full, empty, eq_comm (b := fault)]
  · simp [nothing]

/-! ## Repeated writes -/

theorem accepts_le (sink : Sink) (offered : Nat) : sink.accepts offered ≤ offered := by
  unfold accepts
  split
  · exact Nat.zero_le offered
  · cases sink.room? with
    | none => exact Nat.le_refl offered
    | some room => exact Nat.min_le_left offered room

theorem accepts_of_portion_eq_zero {sink : Sink} {offered : Nat} (offers : 0 < offered)
    (nothing : sink.portion offered = 0) : sink.accepts offered = 0 := by
  unfold accepts
  rcases (portion_eq_zero_iff offers).mp nothing with empty | full
  · simp [empty]
  · simp [isFull_iff.mp full]

/-- What a write takes and what is taken afterwards add up. -/
theorem accepts_after {sink : Sink} {offered : Nat} (takes : 0 < sink.portion offered)
    {piece : List UInt8} (size : piece.length = sink.portion offered) :
    sink.portion offered + (sink.after piece).accepts (offered - sink.portion offered) =
      sink.accepts offered := by
  have within := sink.portion_le offered
  have nonzero := chunk_ne_of_portion_pos takes
  have same : (sink.after piece).chunk = sink.chunk := rfl
  rw [accepts, accepts, same, if_neg nonzero, if_neg nonzero, room?_after, size]
  cases fits : sink.room? with
  | none =>
      simp only [Option.map_none, Option.elim_none]
      omega
  | some room =>
      have below := portion_le_room fits offered
      simp only [Option.map_some, Option.elim_some]
      omega

/-- A sink that takes something does not change its reason to refuse. -/
theorem refusal_after {sink : Sink} (takes : sink.chunk ≠ some 0) (piece : List UInt8) :
    (sink.after piece).refusal = sink.refusal := by
  have same : (sink.after piece).chunk = sink.chunk := rfl
  simp [refusal, same, takes]

/-- The loop ends when the bytes that the sink accepts are taken, and names the cause if some
are left. -/
theorem writeAll_eq (sink : Sink) (bytes : List UInt8) :
    sink.writeAll bytes =
      (sink.after (bytes.take (sink.accepts bytes.length)),
        if sink.accepts bytes.length = bytes.length then none else some sink.refusal) := by
  fun_induction writeAll sink bytes with
  | case1 sink bytes empty =>
      obtain rfl := List.isEmpty_iff.mp empty
      have nothing : sink.accepts 0 = 0 := Nat.le_zero.mp (sink.accepts_le 0)
      simp [after_nil, nothing]
  | case2 sink bytes offered fault failed =>
      have offers : 0 < bytes.length := List.length_pos_iff.mpr (by simpa using offered)
      obtain ⟨nothing, rfl⟩ := (write_eq_error_iff offers).mp failed
      rw [accepts_of_portion_eq_zero offers nothing, if_neg (by omega), List.take_zero, after_nil]
  | case3 sink bytes offered next rest wrote shorter ih =>
      obtain ⟨takes, rfl, rfl⟩ := write_eq_ok_iff.mp wrote
      have within := sink.portion_le bytes.length
      -- This write and the rest of the loop together take what the sink accepts at the start.
      have sum := accepts_after takes (List.length_take_of_le within)
      rw [ih, List.length_drop, after_after, ← List.take_add, sum,
        refusal_after (chunk_ne_of_portion_pos takes)]
      congr 2
      exact propext (by omega)

/-- Writes one after the other: each takes a piece of what the one before has left. -/
inductive Writes : Sink → List UInt8 → Nat → Sink → List UInt8 → Prop
  | none (sink : Sink) (bytes : List UInt8) : Writes sink bytes 0 sink bytes
  | next {sink next last : Sink} {bytes rest left : List UInt8} {count : Nat}
      (wrote : sink.write bytes = .ok (next, rest)) (more : Writes next rest count last left) :
      Writes sink bytes (count + 1) last left

/-- There are no more writes than bytes that they take. -/
theorem Writes.count_le {sink last : Sink} {bytes left : List UInt8} {count : Nat}
    (writes : Writes sink bytes count last left) : count + left.length ≤ bytes.length := by
  induction writes with
  | none sink bytes => omega
  | next wrote more ih =>
      have shorter := length_of_write wrote
      omega

/-- The loop makes writes until nothing is left or a write fails. -/
theorem writes_writeAll (sink : Sink) (bytes : List UInt8) :
    ∃ count left, sink.Writes bytes count (sink.writeAll bytes).1 left ∧
      (left = [] ∨ ∃ fault, (sink.writeAll bytes).1.write left = .error fault) := by
  fun_induction writeAll sink bytes with
  | case1 sink bytes empty =>
      exact ⟨0, bytes, .none sink bytes, .inl (List.isEmpty_iff.mp empty)⟩
  | case2 sink bytes offered fault failed =>
      exact ⟨0, bytes, .none sink bytes, .inr ⟨fault, failed⟩⟩
  | case3 sink bytes offered next rest wrote shorter ih =>
      obtain ⟨count, left, writes, ends⟩ := ih
      exact ⟨count + 1, left, .next wrote writes, ends⟩

end Sink

/-! ## Code -/

/-- The sink gets the beginning of the text that it accepts, and is flushed only if that is all of
it. -/
theorem Code.writeTo_eq (code : Code) (target : Target) (sink : Sink) {bytes : List UInt8}
    (text : bytes = utf8 (Code.render target code)) :
    code.writeTo target sink =
      if sink.accepts bytes.length = bytes.length then (sink.after bytes).flush
      else (sink.after (bytes.take (sink.accepts bytes.length)), some sink.refusal) := by
  rw [writeTo, ← text, Sink.writeAll_eq]
  by_cases all : sink.accepts bytes.length = bytes.length
  · rw [if_pos all, if_pos all, all, List.take_length]
  · rw [if_neg all, if_neg all]

/-- Code that is printed into a sink leaves the start of its text there, and nothing else: as much
as the sink accepts. Without a fault it is the whole text, and a flush that succeeded; a text that
was taken whole is flushed once, another one is not. Writing ends, after no more writes than the
text has bytes. -/
theorem Code.delivered_or_reported (code : Code) (target : Target) (sink : Sink) :
    let bytes := utf8 (Code.render target code)
    ∃ after fault delivered, code.writeTo target sink = (after, fault) ∧
      after.taken.toList = sink.taken.toList ++ delivered ∧
      delivered <+: bytes ∧ delivered.length = sink.accepts bytes.length ∧
      (fault = none ↔ delivered = bytes ∧ sink.flushFails = false) ∧
      after.flushes = sink.flushes + (if delivered = bytes then 1 else 0) ∧
      (∃ count last left, sink.Writes bytes count last left ∧ last.taken = after.taken ∧
        (left = [] ∨ ∃ stop, last.write left = .error stop)) ∧
      ∀ count last left, sink.Writes bytes count last left → count ≤ bytes.length := by
  intro bytes
  have bounded : ∀ count last left, sink.Writes bytes count last left → count ≤ bytes.length :=
    fun _ _ _ writes => Nat.le_of_add_right_le writes.count_le
  obtain ⟨count, left, writes, ends⟩ := sink.writes_writeAll bytes
  rw [sink.writeAll_eq] at writes ends
  have outcome := code.writeTo_eq target sink (rfl : bytes = _)
  by_cases all : sink.accepts bytes.length = bytes.length
  · rw [if_pos all] at outcome
    rw [all, List.take_length] at writes ends
    refine ⟨_, _, bytes, outcome, Array.toList_appendList, List.prefix_rfl, all.symm, ?_, ?_,
      ⟨count, _, left, writes, rfl, ends⟩, bounded⟩
    · cases fails : sink.flushFails <;> simp [Sink.after, fails]
    · rw [if_pos rfl]
      rfl
  · rw [if_neg all] at outcome
    have size := List.length_take_of_le (sink.accepts_le bytes.length)
    have partly : bytes.take (sink.accepts bytes.length) ≠ bytes := fun whole =>
      all (size.symm.trans (congrArg List.length whole))
    refine ⟨_, _, _, outcome, Array.toList_appendList, List.take_prefix .., size, ?_, ?_,
      ⟨count, _, left, writes, rfl, ends⟩, bounded⟩
    · simp [partly]
    · rw [if_neg partly]
      rfl

end IntBackend
