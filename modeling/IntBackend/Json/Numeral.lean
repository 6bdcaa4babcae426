/-
# IntBackend.Json.Numeral — number literals

A numeral is kept as its digits. As a value it is an integer when it has neither
fraction nor exponent, is not `-0`, and fits 32 bits; every other numeral is of
another kind, unless no double is large enough for it, which is malformed.

That last test follows the usual reading of a decimal as a double: digits join a
64-bit significand while it can hold them, digits of the whole part beyond that
raise the exponent, digits of the fraction beyond that are dropped, and the two
factors are rounded to doubles before they are multiplied.
-/
import IntBackend.Json.Reader

namespace IntBackend.Json

set_option autoImplicit false

structure Numeral where
  negative : Bool
  whole : List Char
  fraction : List Char
  exponentNegative : Bool
  exponent : List Char
  deriving DecidableEq, Repr

/-- One digit or more; `atEnd` is the fault of a text that ends instead. -/
def readDigits (atEnd : Fault) (s : List Char) : Except Fault (List Char × List Char) :=
  match s.takeWhile Char.isDigit, s.dropWhile Char.isDigit with
  | [], [] => .error atEnd
  | [], _ :: _ => .error .malformed
  | ds, rest => .ok (ds, rest)

/-- The whole part: a single zero, or digits that do not start with one. -/
def readWhole (atEnd : Fault) : Reader (List Char)
  | '0' :: s =>
      match s with
      | c :: _ => if c.isDigit then .error .malformed else .ok (['0'], s)
      | [] => .ok (['0'], [])
  | s => readDigits atEnd s

/-- The digits after a point; none if there is no point. -/
def readFraction (atEnd : Fault) : Reader (List Char)
  | '.' :: s => readDigits atEnd s
  | s => .ok ([], s)

/-- The sign and digits of an exponent; none if there is no `e`. -/
def readExponent (atEnd : Fault) : Reader (Bool × List Char)
  | [] => .ok ((false, []), [])
  | c :: s =>
      if c = 'e' || c = 'E' then do
        let (negative, s) := match s with
          | '+' :: s => (false, s)
          | '-' :: s => (true, s)
          | s => (false, s)
        let (ds, s) ← readDigits atEnd s
        .ok ((negative, ds), s)
      else .ok ((false, []), c :: s)

/-- Whether there is a minus, and what follows it. -/
def takeMinus : List Char → Bool × List Char
  | '-' :: s => (true, s)
  | s => (false, s)

def readNumeralWith (atEnd : Fault) (s : List Char) : Except Fault (Numeral × List Char) := do
  let (negative, s) := takeMinus s
  let (whole, s) ← readWhole atEnd s
  let (fraction, s) ← readFraction atEnd s
  let ((exponentNegative, exponent), s) ← readExponent atEnd s
  .ok (⟨negative, whole, fraction, exponentNegative, exponent⟩, s)

/-- Passes over a numeral of any size. One that the text's end cuts off is
malformed here. -/
def skipNumeral (s : List Char) : Except Fault (List Char) := do
  let (_, s) ← readNumeralWith .malformed s
  .ok s

def startsNumeral (c : Char) : Bool := c == '-' || c.isDigit

/-! ## Size -/

/-- The nearest natural that 53 significant bits can hold, a tie going to the even one. -/
def roundToDouble (n : Nat) : Nat :=
  let shift := n.log2 - 52
  let unit := Nat.pow 2 shift
  let low := n / unit
  let twice := 2 * (n % unit)
  if twice < unit || (twice == unit && low % 2 == 0) then low * unit else (low + 1) * unit

/-- The least product that rounds to no double. -/
def doubleLimit : Nat := Nat.pow 2 1024 - Nat.pow 2 970

/-- Appends digits to a significand while 64 bits hold it, and counts those left over. -/
def gather (significand : Nat) : List Char → Nat × Nat
  | [] => (significand, 0)
  | c :: cs =>
      let next := significand * 10 + (c.toNat - '0'.toNat)
      if next < Nat.pow 2 64 then gather next cs else (significand, cs.length + 1)

namespace Numeral

/-- The significand and the power of ten that scales it. -/
def scaled (n : Numeral) : Nat × Int :=
  let (significand, raised) := gather 0 n.whole
  let (significand, dropped) := gather significand n.fraction
  let stated : Int := Nat.ofDigitChars 10 n.exponent 0
  (significand,
    raised - (n.fraction.length - dropped : Nat) + (if n.exponentNegative then -stated else stated))

/-- No double is large enough. -/
def exceedsDouble (n : Numeral) : Bool :=
  let (significand, power) := n.scaled
  if significand = 0 || power < 0 then false
  else if 308 < power then true
  else doubleLimit ≤ roundToDouble significand * roundToDouble (Nat.pow 10 power.toNat)

def isWhole (n : Numeral) : Bool := n.fraction.isEmpty && n.exponent.isEmpty

/-- The integer that the whole part denotes. -/
def integer (n : Numeral) : Int :=
  let magnitude : Int := Nat.ofDigitChars 10 n.whole 0
  if n.negative then -magnitude else magnitude

/-- The 32-bit integer that a numeral denotes. -/
def int32? (n : Numeral) : Option Int32 :=
  if n.isWhole && !(n.negative && n.integer == 0) &&
      Int32.minValue.toInt ≤ n.integer && n.integer ≤ Int32.maxValue.toInt then
    some (Int32.ofInt n.integer)
  else none

end Numeral

/-- A numeral of a size that some double has. -/
def readNumeral (s : List Char) : Except Fault (Numeral × List Char) := do
  let (n, s) ← readNumeralWith .truncated s
  if n.exceedsDouble then .error .malformed else .ok (n, s)

def readInt32 (s : List Char) : Except Fault (Int32 × List Char) := do
  let (n, s) ← readNumeral s
  match n.int32? with
  | some value => .ok (value, s)
  | none => .error .mismatch

def writeInt (n : Int) : List Char :=
  if n < 0 then '-' :: Nat.toDigits 10 n.natAbs else Nat.toDigits 10 n.natAbs

end IntBackend.Json
