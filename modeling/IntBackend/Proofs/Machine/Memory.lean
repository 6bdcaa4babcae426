/-
# IntBackend.Proofs.Machine.Memory — bytes at 64-bit addresses

Memory holds a byte at every address. Numbers of several bytes lie with their
lowest byte first. What is loaded from where something was stored is what was
stored, as far as it is loaded; a store changes no byte outside its own.
-/
import Mathlib.Logic.Function.Basic
import Mathlib.Tactic.Ring

namespace IntBackend

set_option autoImplicit false

abbrev Address := BitVec 64

abbrev Memory := Address → BitVec 8

namespace Memory

/-- The number in some bytes from an address on. -/
def load (mem : Memory) : Address → (bytes : Nat) → Nat
  | _, 0 => 0
  | a, n + 1 => (mem a).toNat + 256 * mem.load (a + 1) n

/-- Puts a number into some bytes from an address on. What does not fit is dropped. -/
def store (mem : Memory) : Address → (value bytes : Nat) → Memory
  | _, _, 0 => mem
  | a, value, n + 1 =>
      Function.update (mem.store (a + 1) (value / 256) n) a (BitVec.ofNat 8 value)

/-- No byte at or above a bound differs. -/
def AgreeFrom (bound : Nat) (before after : Memory) : Prop :=
  ∀ a : Address, bound ≤ a.toNat → after a = before a

theorem AgreeFrom.refl (bound : Nat) (mem : Memory) : AgreeFrom bound mem mem := fun _ _ => rfl

theorem AgreeFrom.trans {low high : Nat} {first second third : Memory}
    (early : AgreeFrom low first second) (late : AgreeFrom high second third) (le : low ≤ high) :
    AgreeFrom high first third :=
  fun a above => (late a above).trans (early a (le.trans above))

theorem toNat_add_ofNat {a : Address} {n : Nat} (fits : a.toNat + n < 2 ^ 64) :
    (a + BitVec.ofNat 64 n).toNat = a.toNat + n := by
  rw [BitVec.toNat_add, BitVec.toNat_ofNat]
  omega

theorem add_one_add_ofNat (a : Address) (n : Nat) :
    a + 1 + BitVec.ofNat 64 n = a + BitVec.ofNat 64 (n + 1) := by
  rw [BitVec.add_assoc, Nat.add_comm n 1, BitVec.ofNat_add]
  rfl

theorem add_ofNat_ne {a : Address} {n : Nat} (pos : 0 < n) (small : n < 2 ^ 64) :
    a + BitVec.ofNat 64 n ≠ a := by
  intro same
  have := congrArg BitVec.toNat same
  rw [BitVec.toNat_add, BitVec.toNat_ofNat, Nat.mod_eq_of_lt small] at this
  have := a.isLt
  omega

/-! ## Loads -/

/-- A load depends on the bytes that it reads and on no others. -/
theorem load_congr {mem other : Memory} {a : Address} {n : Nat}
    (same : ∀ i < n, other (a + BitVec.ofNat 64 i) = mem (a + BitVec.ofNat 64 i)) :
    other.load a n = mem.load a n := by
  induction n generalizing a with
  | zero => rfl
  | succ n ih =>
      have here := same 0 (by omega)
      rw [BitVec.add_zero] at here
      have there : other.load (a + 1) n = mem.load (a + 1) n := by
        refine ih fun i lt => ?_
        rw [add_one_add_ofNat]
        exact same (i + 1) (by omega)
      rw [load, load, here, there]

theorem load_of_agreeFrom {mem other : Memory} {bound : Nat} {a : Address} {n : Nat}
    (agree : AgreeFrom bound mem other) (above : bound ≤ a.toNat) (fits : a.toNat + n ≤ 2 ^ 64) :
    other.load a n = mem.load a n := by
  refine load_congr fun i lt => agree _ ?_
  rw [toNat_add_ofNat (by omega)]
  omega

/-! ## Loads after stores -/

/-- A store changes no byte outside the range that it writes. -/
theorem store_apply_of_outside {mem : Memory} {a x : Address} {value n : Nat}
    (fits : a.toNat + n ≤ 2 ^ 64) (outside : x.toNat < a.toNat ∨ a.toNat + n ≤ x.toNat) :
    mem.store a value n x = mem x := by
  induction n generalizing a value with
  | zero => rfl
  | succ n ih =>
      have ne : x ≠ a := by
        rintro rfl
        omega
      rw [store, Function.update_of_ne ne]
      cases n with
      | zero => rfl
      | succ n =>
          have next : (a + 1).toNat = a.toNat + 1 := toNat_add_ofNat (n := 1) (by omega)
          exact ih (by omega) (by omega)

/-- A load of other bytes gives what it gave before the store. -/
theorem load_store_of_outside {mem : Memory} {a b : Address} {value m n : Nat}
    (fits : a.toNat + n ≤ 2 ^ 64) (fitsToo : b.toNat + m ≤ 2 ^ 64)
    (outside : b.toNat + m ≤ a.toNat ∨ a.toNat + n ≤ b.toNat) :
    (mem.store a value n).load b m = mem.load b m := by
  refine load_congr fun i lt => store_apply_of_outside fits ?_
  rw [toNat_add_ofNat (by omega)]
  omega

/-- The lower bytes of what was stored. -/
theorem load_store_of_le {mem : Memory} {a : Address} {value k n : Nat} (le : k ≤ n)
    (small : n < 2 ^ 64) : (mem.store a value n).load a k = value % 256 ^ k := by
  induction n generalizing a value k with
  | zero =>
      obtain rfl : k = 0 := by omega
      simp [load, Nat.mod_one]
  | succ n ih =>
      cases k with
      | zero => simp [load, Nat.mod_one]
      | succ k =>
          -- the first byte lies below all later ones
          have later : (mem.store a value (n + 1)).load (a + 1) k =
              (mem.store (a + 1) (value / 256) n).load (a + 1) k := by
            refine load_congr fun i lt => ?_
            rw [add_one_add_ofNat, store, Function.update_of_ne]
            exact add_ofNat_ne (by omega) (by omega)
          have first : (mem.store a value (n + 1) a).toNat = value % 256 := by
            rw [store, Function.update_self, BitVec.toNat_ofNat]
          rw [load, first, later, ih (by omega) (by omega), pow_succ', Nat.mod_mul]

/-- A store below a bound is not seen from there on. -/
theorem agreeFrom_store {mem : Memory} {a : Address} {value n bound : Nat}
    (below : a.toNat + n ≤ bound) (fits : bound ≤ 2 ^ 64) :
    AgreeFrom bound mem (mem.store a value n) :=
  fun _ above => store_apply_of_outside (by omega) (.inr (by omega))

end Memory

end IntBackend
