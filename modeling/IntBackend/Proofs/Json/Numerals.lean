/-
# IntBackend.Proofs.Json.Numerals — reading a written integer

A written integer is a sign and the digits of its magnitude, without a leading zero.
Reading it gives the integer back and leaves what follows, if what follows does not
go on with the numeral (`Stops`). A magnitude of 32 bits is far from the largest
double, so the test of a numeral's size passes.
-/
import IntBackend.Json.Numeral
import IntBackend.Proofs.Results

namespace IntBackend.Json

set_option autoImplicit false

/-- No numeral goes on here: neither with a digit nor with a point or an exponent. -/
def Stops (s : List Char) : Prop :=
  ∀ c ∈ s.head?, c.isDigit = false ∧ c ≠ '.' ∧ c ≠ 'e' ∧ c ≠ 'E'

/-! ## Digits -/

theorem isDigit_toDigits (n : Nat) : ∀ c ∈ Nat.toDigits 10 n, c.isDigit = true :=
  fun _ among => Nat.isDigit_of_mem_toDigits (by decide) (by decide) among

theorem toDigits_eq_cons (n : Nat) :
    ∃ d ds, Nat.toDigits 10 n = d :: ds ∧ d.isDigit = true := by
  obtain ⟨d, ds, front⟩ := List.exists_cons_of_ne_nil
    (Nat.toDigits_ne_nil : Nat.toDigits 10 n ≠ [])
  exact ⟨d, ds, front, isDigit_toDigits n d (by simp [front])⟩

/-- Only zero is written with a leading zero. -/
theorem head_toDigits_ne_zero (n : Nat) (positive : 0 < n) :
    ∀ c ∈ (Nat.toDigits 10 n).head?, c ≠ '0' := by
  induction n using Nat.strongRecOn with
  | _ n ih =>
      rw [Nat.toDigits_eq_if (by decide)]
      split
      · rename_i small
        have all : ∀ d : Fin 10, 0 < d.val → Nat.digitChar d.val ≠ '0' := by decide
        simpa using all ⟨n, small⟩ positive
      · obtain ⟨d, ds, front, -⟩ := toDigits_eq_cons (n / 10)
        have earlier := ih (n / 10) (by omega) (by omega)
        rw [front] at earlier ⊢
        simpa using earlier

def Digits (ds : List Char) : Prop := ds ≠ [] ∧ ∀ c ∈ ds, c.isDigit = true

/-- Digits without a leading zero, unless it is the only one. -/
def WholeText (ds : List Char) : Prop := ds = ['0'] ∨ Digits ds ∧ ∀ c ∈ ds.head?, c ≠ '0'

/-- No more digits follow. -/
def NoDigit (s : List Char) : Prop := ∀ c ∈ s.head?, c.isDigit = false

theorem Stops.noDigit {s : List Char} (stops : Stops s) : NoDigit s :=
  fun c first => (stops c first).1

/-- Digits are read up to the first character that is none. -/
theorem Digits.readDigits {ds rest : List Char} (digits : Digits ds) (after : NoDigit rest)
    (atEnd : Fault) : readDigits atEnd (ds ++ rest) = .ok (ds, rest) := by
  obtain ⟨nonempty, digits⟩ := digits
  have none : rest.takeWhile Char.isDigit = [] ∧ rest.dropWhile Char.isDigit = rest := by
    cases rest with
    | nil => exact ⟨rfl, rfl⟩
    | cons c rest => simp [after c rfl]
  have taken : (ds ++ rest).takeWhile Char.isDigit = ds := by
    rw [List.takeWhile_append_of_pos digits, none.1, List.append_nil]
  have left : (ds ++ rest).dropWhile Char.isDigit = rest := by
    rw [List.dropWhile_append_of_pos digits, none.2]
  unfold Json.readDigits
  rw [taken, left]
  cases ds with
  | nil => exact absurd rfl nonempty
  | cons d ds => rfl

/-- A whole number is read up to its end. That it has no leading zero is what makes it one number.
-/
theorem WholeText.readWhole {ds rest : List Char} (whole : WholeText ds) (after : NoDigit rest)
    (atEnd : Fault) : readWhole atEnd (ds ++ rest) = .ok (ds, rest) := by
  rcases whole with rfl | ⟨digits, notZero⟩
  · cases rest with
    | nil => rfl
    | cons c rest => simp [Json.readWhole, after c rfl]
  · have read := digits.readDigits after atEnd
    cases ds with
    | nil => exact absurd rfl digits.1
    | cons d ds =>
        rw [← read, List.cons_append, Json.readWhole]
        simpa using notZero d rfl

/-- Decimal digits of a number have no leading zero. -/
theorem wholeText_toDigits (n : Nat) : WholeText (Nat.toDigits 10 n) := by
  by_cases zero : n = 0
  · subst zero
    exact .inl rfl
  · exact .inr ⟨⟨Nat.toDigits_ne_nil, isDigit_toDigits n⟩, head_toDigits_ne_zero n (by omega)⟩

theorem readFraction_of_stops {rest : List Char} (atEnd : Fault) (stops : Stops rest) :
    readFraction atEnd rest = .ok ([], rest) := by
  unfold readFraction
  split
  · exact absurd rfl (stops '.' rfl).2.1
  · rfl

theorem readExponent_of_stops {rest : List Char} (atEnd : Fault) (stops : Stops rest) :
    readExponent atEnd rest = .ok ((false, []), rest) := by
  cases rest with
  | nil => rfl
  | cons c rest =>
      obtain ⟨-, -, small, large⟩ := stops c rfl
      simp [readExponent, small, large]

/-! ## Size -/

theorem le_ofDigitChars (ds : List Char) (start : Nat) : start ≤ Nat.ofDigitChars 10 ds start := by
  rw [Nat.ofDigitChars_eq_ofDigitChars_zero]
  have := Nat.le_mul_of_pos_left start (Nat.pow_pos (by decide) : 0 < 10 ^ ds.length)
  omega

/-- Digits of a number of 64 bits are all gathered. -/
theorem gather_eq {ds : List Char} {start : Nat}
    (small : Nat.ofDigitChars 10 ds start < Nat.pow 2 64) :
    gather start ds = (Nat.ofDigitChars 10 ds start, 0) := by
  induction ds generalizing start with
  | nil => simp [gather]
  | cons c ds ih =>
      rw [Nat.ofDigitChars_cons, Nat.mul_comm] at small ⊢
      have next := le_ofDigitChars ds (start * 10 + (c.toNat - '0'.toNat))
      rw [gather, if_pos (Nat.lt_of_le_of_lt next small), ih small]

/-- A double represents integers below its precision exactly. -/
theorem roundToDouble_of_lt {n : Nat} (small : n < Nat.pow 2 53) : roundToDouble n = n := by
  have noShift : n.log2 - 52 = 0 := by
    by_cases zero : n = 0
    · subst zero
      decide
    · have := (Nat.log2_lt zero).mpr (show n < 2 ^ 53 from small)
      omega
  simp [roundToDouble, noShift, Nat.mod_one]

/-! ## Integers -/

/-- The numeral of a written integer. -/
def Numeral.ofInt (n : Int) : Numeral :=
  ⟨decide (n < 0), Nat.toDigits 10 n.natAbs, [], false, []⟩

namespace Numeral

theorem integer_ofInt (n : Int) : (ofInt n).integer = n := by
  simp only [integer, ofInt, Nat.ofDigitChars_ten_toDigits, decide_eq_true_eq]
  split <;> omega

theorem exceedsDouble_ofInt {n : Int} (small : n.natAbs < Nat.pow 2 53) :
    (ofInt n).exceedsDouble = false := by
  have whole : gather 0 (Nat.toDigits 10 n.natAbs) = (n.natAbs, 0) := by
    have fits : n.natAbs < Nat.pow 2 64 := Nat.lt_trans small (by decide)
    rw [gather_eq (by rwa [Nat.ofDigitChars_ten_toDigits]), Nat.ofDigitChars_ten_toDigits]
  have scaled : (ofInt n).scaled = (n.natAbs, 0) := by
    simp [Numeral.scaled, ofInt, whole, gather]
  have one : roundToDouble (Nat.pow 10 (0 : Int).toNat) = 1 := by decide
  have far : Nat.pow 2 53 < doubleLimit := by decide +kernel
  simp only [exceedsDouble, scaled, roundToDouble_of_lt small, one]
  split
  · rfl
  · simp only [Int.reduceLT, if_false, decide_eq_false_iff_not]
    omega

/-- A written integer of 32 bits is in range when it is read. -/
theorem int32?_ofInt (n : Int32) : (ofInt n.toInt).int32? = some n := by
  have low := n.minValue_le_toInt
  have high := n.toInt_le
  have notMinusZero : (decide (n.toInt < 0) && n.toInt == 0) = false := by
    simp only [Bool.and_eq_false_imp, decide_eq_true_eq, beq_eq_false_iff_ne]
    omega
  rw [int32?, integer_ofInt]
  simp only [isWhole, ofInt, notMinusZero, List.isEmpty_nil, Bool.and_self, Bool.not_false,
    Int32.ofInt_toInt, low, high, decide_true, if_true]

end Numeral

theorem startsNumeral_writeInt (n : Int) :
    ∃ c s, writeInt n = c :: s ∧ startsNumeral c = true := by
  obtain ⟨d, ds, front, digit⟩ := toDigits_eq_cons n.natAbs
  rw [writeInt, front]
  split
  · exact ⟨'-', d :: ds, rfl, rfl⟩
  · exact ⟨d, ds, rfl, by simp [startsNumeral, digit]⟩

theorem takeMinus_writeInt (n : Int) (rest : List Char) :
    takeMinus (writeInt n ++ rest) = (decide (n < 0), Nat.toDigits 10 n.natAbs ++ rest) := by
  unfold writeInt
  split
  · rename_i negative
    simp [takeMinus, negative]
  · rename_i notNegative
    unfold takeMinus
    split
    · rename_i s minus
      obtain ⟨d, ds, front, digit⟩ := toDigits_eq_cons n.natAbs
      rw [front] at minus
      cases minus
      cases digit
    · simp [notNegative]

/-- A written integer is read back as a numeral of this value. -/
theorem readNumeralWith_writeInt (n : Int) {rest : List Char} (atEnd : Fault)
    (stops : Stops rest) :
    readNumeralWith atEnd (writeInt n ++ rest) = .ok (.ofInt n, rest) := by
  simp [readNumeralWith, takeMinus_writeInt, (wholeText_toDigits _).readWhole stops.noDigit atEnd,
    readFraction_of_stops atEnd stops, readExponent_of_stops atEnd stops, Numeral.ofInt, bind,
    Except.bind]

/-- A written integer of 32 bits is read back as itself. -/
theorem readInt32_writeInt (n : Int32) {rest : List Char} (stops : Stops rest) :
    readInt32 (writeInt n.toInt ++ rest) = .ok (n, rest) := by
  have small : n.toInt.natAbs < Nat.pow 2 53 := by
    have low := n.le_toInt
    have high := n.toInt_lt
    show n.toInt.natAbs < 2 ^ 53
    omega
  simp [readInt32, readNumeral, readNumeralWith_writeInt _ _ stops,
    Numeral.exceedsDouble_ofInt small, Numeral.int32?_ofInt, bind, Except.bind]

end IntBackend.Json
