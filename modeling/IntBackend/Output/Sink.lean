/-
# IntBackend.Output.Sink — where text goes, piece by piece

A sink takes at most `chunk` bytes at a time and `limit` bytes in all. Writing
repeats until all is taken and stops at the first fault; a sink that takes
nothing while it has room is a fault too. What was taken is flushed once.
-/
import IntBackend.Machine.Assembly

namespace IntBackend

set_option autoImplicit false

structure Sink where
  limit : Option Nat
  chunk : Option Nat
  flushFails : Bool
  taken : Array UInt8
  flushes : Nat
  deriving DecidableEq, Repr

inductive SinkFault where
  | limitReached
  /-- A write took no bytes. -/
  | stalled
  | flushFailed
  deriving DecidableEq, Repr

def SinkFault.message : SinkFault → String
  | .limitReached => "limit reached"
  | .stalled => "failed to write whole buffer"
  | .flushFailed => "flush failed"

namespace Sink

def fresh (limit chunk : Option Nat) (flushFails : Bool) : Sink :=
  ⟨limit, chunk, flushFails, #[], 0⟩

/-- The bytes that still fit below the limit. -/
def room? (sink : Sink) : Option Nat := sink.limit.map (· - sink.taken.size)

/-- The most bytes that one write takes, if there is a bound. -/
def allowance? (sink : Sink) : Option Nat :=
  match sink.chunk, sink.room? with
  | none, room => room
  | some chunk, none => some chunk
  | some chunk, some room => some (min chunk room)

def isFull (sink : Sink) : Bool := sink.room? == some 0

/-- The part of the offered bytes that one write takes, and the rest. -/
def split (sink : Sink) (bytes : List UInt8) : List UInt8 × List UInt8 :=
  match sink.allowance? with
  | none => (bytes, [])
  | some n => bytes.splitAt n

/-- One write: the sink afterwards and the bytes still to be written. -/
def write (sink : Sink) (bytes : List UInt8) : Except SinkFault (Sink × List UInt8) :=
  let (piece, rest) := sink.split bytes
  if piece.isEmpty && sink.isFull then .error .limitReached
  else if piece.isEmpty then .error .stalled
  else .ok ({ sink with taken := sink.taken ++ piece }, rest)

@[simp] theorem split_append (sink : Sink) (bytes : List UInt8) :
    (sink.split bytes).1 ++ (sink.split bytes).2 = bytes := by
  unfold split
  split <;> simp [List.splitAt_eq]

/-- A write succeeds by taking a piece that is not empty. -/
theorem split_of_write {sink next : Sink} {bytes rest : List UInt8}
    (wrote : sink.write bytes = .ok (next, rest)) :
    (sink.split bytes).1 ≠ [] ∧ (sink.split bytes).2 = rest ∧
      next = { sink with taken := sink.taken ++ (sink.split bytes).1 } := by
  simp only [write] at wrote
  split at wrote
  · contradiction
  · split at wrote
    · contradiction
    · rename_i nonempty
      simp only [Except.ok.injEq, Prod.mk.injEq] at wrote
      exact ⟨by simpa using nonempty, wrote.2, wrote.1.symm⟩

/-- A write that succeeds leaves less to be written. -/
theorem length_of_write {sink next : Sink} {bytes rest : List UInt8}
    (wrote : sink.write bytes = .ok (next, rest)) : rest.length < bytes.length := by
  obtain ⟨nonempty, left, -⟩ := split_of_write wrote
  have sum := congrArg List.length (sink.split_append bytes)
  have positive := List.length_pos_iff.mpr nonempty
  rw [List.length_append, left] at sum
  omega

/-- Writes until all bytes are taken or a write fails. -/
def writeAll (sink : Sink) (bytes : List UInt8) : Sink × Option SinkFault :=
  if bytes.isEmpty then (sink, none)
  else
    match wrote : sink.write bytes with
    | .error fault => (sink, some fault)
    | .ok (next, rest) =>
        have _shorter := length_of_write wrote
        next.writeAll rest
termination_by bytes.length

def flush (sink : Sink) : Sink × Option SinkFault :=
  ({ sink with flushes := sink.flushes + 1 }, if sink.flushFails then some .flushFailed else none)

end Sink

def utf8 (text : String) : List UInt8 := text.toUTF8.data.toList

/-- Prints code into a sink. -/
def Code.writeTo (code : Code) (target : Target) (sink : Sink) : Sink × Option SinkFault :=
  match sink.writeAll (utf8 (Code.render target code)) with
  | (sink, some fault) => (sink, some fault)
  | (sink, none) => sink.flush

/-- The text of bytes that start a text; a character that is cut short shows as
the replacement character. -/
def textOfBytes (bytes : ByteArray) : String :=
  match String.fromUTF8? bytes with
  | some text => text
  | none =>
      let cut := [1, 2, 3].findSome? fun n =>
        String.fromUTF8? (bytes.extract 0 (bytes.size - n))
      (cut.getD "").push '�'

end IntBackend
