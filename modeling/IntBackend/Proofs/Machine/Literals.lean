/-
# IntBackend.Proofs.Machine.Literals — the numbers that literals stand for

The text of a literal is the decimal numeral of a number, and a machine reads it as that
number. What the library says of `String.toInt?` is in no part of it that can be imported
by itself: this module imports the whole of it, and the modules that compute with literals
or compare them import this one.
-/
import Mathlib
import IntBackend.Lowering.Code
import IntBackend.Proofs.Machine.Execution

namespace IntBackend

set_option autoImplicit false

namespace Machine

/-- A constant of the source is read as itself, extended by its sign. -/
theorem read_constText (m : Machine) (w : Width) (n : Int32) :
    m.read w (.const (constText n)) = some (BitVec.ofInt 64 n.toInt) := by
  rw [read, constText, Int.toInt?_repr, Option.map_some]

/-- A size or a number of the system is read as itself. -/
theorem read_nat (m : Machine) (w : Width) (n : Nat) :
    m.read w (.nat n) = some (BitVec.ofNat 64 n) := by
  rw [Operand.nat, read, Nat.toInt?_repr, Option.map_some, BitVec.ofInt_natCast]

end Machine

end IntBackend
