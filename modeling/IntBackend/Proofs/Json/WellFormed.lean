/-
# IntBackend.Proofs.Json.WellFormed — the texts of JSON

What a JSON text is, without regard to how one is read: literals with the characters they
denote, numbers, and values of any depth. A literal that denotes a text is read as that text
(`Denotes.readText`), and every well-formed value can be passed over (`WellFormed.skipValue`).

In a value that is passed over, an escape of a single surrogate is well-formed although it
denotes no character.
-/
import IntBackend.Json.Skip
import IntBackend.Proofs.Json.Tokens

namespace IntBackend.Json

set_option autoImplicit false

/-! ## Literals -/

/-- A hexadecimal digit; its letter may be of either case. -/
def HexDigit (d : Nat) (c : Char) : Prop :=
  d < 16 ∧ (c = Nat.digitChar d ∨ c = (Nat.digitChar d).toUpper)

/-- Four hexadecimal digits of a number. -/
def HexDigits (n : Nat) (text : List Char) : Prop :=
  ∃ p q r s a b c d, text = [a, b, c, d] ∧ HexDigit p a ∧ HexDigit q b ∧ HexDigit r c ∧
    HexDigit s d ∧ n = ((p * 16 + q) * 16 + r) * 16 + s

/-- A letter after a backslash, and the character that the two stand for. -/
def shortEscapes : List (Char × Char) :=
  [('"', '"'), ('\\', '\\'), ('/', '/'), ('b', '\x08'), ('f', '\x0c'), ('n', '\n'), ('r', '\r'),
    ('t', '\t')]

/-- A character that may stand in a literal as it is. -/
def Ordinary (c : Char) : Prop := c ≠ '"' ∧ c ≠ '\\' ∧ 0x20 ≤ c.toNat

/-- The two halves of a character outside the basic plane. -/
def highHalf (c : Char) : Nat := 0xD800 + (c.toNat - 0x10000) / 0x400

def lowHalf (c : Char) : Nat := 0xDC00 + (c.toNat - 0x10000) % 0x400

/-- The ways to write a character in a literal. One outside the basic plane takes two escapes,
for the two halves of its surrogate pair. -/
inductive CharText (c : Char) : List Char → Prop
  | plain (ordinary : Ordinary c) : CharText c [c]
  | short {letter : Char} (listed : (letter, c) ∈ shortEscapes) : CharText c ['\\', letter]
  | unit {digits : List Char} (basic : c.toNat < 0x10000) (hex : HexDigits c.toNat digits) :
      CharText c ('\\' :: 'u' :: digits)
  | pair {high low : List Char} (beyond : 0x10000 ≤ c.toNat)
      (hexHigh : HexDigits (highHalf c) high) (hexLow : HexDigits (lowHalf c) low) :
      CharText c ('\\' :: 'u' :: (high ++ '\\' :: 'u' :: low))

/-- What stands between the quotes of a literal for `cs`. -/
inductive CharsText : List Char → List Char → Prop
  | done : CharsText [] []
  | char {c : Char} {cs text rest : List Char} (own : CharText c text)
      (others : CharsText cs rest) : CharsText (c :: cs) (text ++ rest)

/-- A literal for a text. -/
def Denotes (t : String) (text : List Char) : Prop :=
  ∃ body, text = '"' :: (body ++ ['"']) ∧ CharsText t.toList body

/-- A piece of a literal whose characters do not matter. -/
inductive Piece : List Char → Prop
  | plain {c : Char} (ordinary : Ordinary c) : Piece [c]
  | short {letter c : Char} (listed : (letter, c) ∈ shortEscapes) : Piece ['\\', letter]
  | unit {n : Nat} {digits : List Char} (hex : HexDigits n digits) : Piece ('\\' :: 'u' :: digits)

/-- What stands between the quotes of a literal whose characters do not matter. -/
def Pieces (body : List Char) : Prop :=
  ∃ pieces : List (List Char), body = pieces.flatten ∧ ∀ piece ∈ pieces, Piece piece

theorem HexDigit.hexValue? {d : Nat} {c : Char} (hex : HexDigit d c) : hexValue? c = some d := by
  have upper : ∀ d : Fin 16, Json.hexValue? (Nat.digitChar d.val).toUpper = some d.val := by decide
  obtain ⟨small, rfl | rfl⟩ := hex
  · exact hexValue?_digitChar small
  · exact upper ⟨d, small⟩

theorem HexDigits.hexUnit {n : Nat} {text : List Char} (hex : HexDigits n text) (s : List Char) :
    hexUnit (text ++ s) = .ok (n, s) := by
  obtain ⟨p, q, r, t, a, b, c, d, rfl, hexA, hexB, hexC, hexD, rfl⟩ := hex
  simp [Json.hexUnit, hexA.hexValue?, hexB.hexValue?, hexC.hexValue?, hexD.hexValue?]

theorem shortEscape?_of_mem {letter c : Char} (listed : (letter, c) ∈ shortEscapes) :
    letter ≠ 'u' ∧ shortEscape? letter = some c := by
  have all : shortEscapes.all fun (letter, c) =>
      letter != 'u' && shortEscape? letter == some c := by decide
  simpa using List.all_eq_true.mp all (letter, c) listed

theorem escapeWith_short {letter c : Char} (listed : (letter, c) ∈ shortEscapes)
    (unicode : Reader Char) (s : List Char) : escapeWith unicode (letter :: s) = .ok (c, s) := by
  obtain ⟨notUnit, short⟩ := shortEscape?_of_mem listed
  simp [escapeWith, notUnit, short]

theorem literalBody_ordinary {c : Char} (ordinary : Ordinary c) (escape : Reader Char) (b : Char)
    (bound s : List Char) :
    literalBody escape (b :: bound) (c :: s) =
      (literalBody escape bound s).map fun (cs, s) => (c :: cs, s) := by
  obtain ⟨notQuote, notSlash, high⟩ := ordinary
  rw [literalBody, if_neg notQuote, if_neg notSlash, if_neg (Nat.not_lt.mpr high)]
  cases literalBody escape bound s <;> rfl

theorem literalBody_escaped {escape : Reader Char} {c : Char} {s rest : List Char}
    (escaped : escape s = .ok (c, rest)) (b : Char) (bound : List Char) :
    literalBody escape (b :: bound) ('\\' :: s) =
      (literalBody escape bound rest).map fun (cs, s) => (c :: cs, s) := by
  rw [literalBody, if_neg (by decide), if_pos rfl, escaped]
  show (literalBody escape bound rest >>= _) = _
  cases literalBody escape bound rest <;> rfl

/-- A character of its own is no surrogate. -/
theorem not_surrogate (c : Char) :
    isLowSurrogate c.toNat = false ∧ isHighSurrogate c.toNat = false := by
  have valid : c.toNat < 0xD800 ∨ 0xDFFF < c.toNat ∧ c.toNat < 0x110000 := c.valid
  simp only [isLowSurrogate, isHighSurrogate, Bool.and_eq_false_iff, decide_eq_false_iff_not]
  omega

theorem highHalf_bounds (c : Char) : 0xD800 ≤ highHalf c ∧ highHalf c ≤ 0xDBFF := by
  have valid : c.toNat < 0xD800 ∨ 0xDFFF < c.toNat ∧ c.toNat < 0x110000 := c.valid
  unfold highHalf
  omega

theorem lowHalf_bounds (c : Char) : 0xDC00 ≤ lowHalf c ∧ lowHalf c ≤ 0xDFFF := by
  unfold lowHalf
  omega

/-- The two halves of a character outside the basic plane make it up again. -/
theorem ofSurrogates_halves {c : Char} (beyond : 0x10000 ≤ c.toNat) :
    ofSurrogates (highHalf c) (lowHalf c) = c := by
  have same : 0x10000 + (highHalf c - 0xD800) * 0x400 + (lowHalf c - 0xDC00) = c.toNat := by
    simp only [highHalf, lowHalf]
    omega
  rw [ofSurrogates, same, Char.ofNat_toNat]

/-- Two escapes in a row are read as one character. -/
theorem unicodeEscape_pair {m n : Nat} {high low : List Char} (hexHigh : HexDigits m high)
    (hexLow : HexDigits n low) (boundsHigh : 0xD800 ≤ m ∧ m ≤ 0xDBFF)
    (boundsLow : 0xDC00 ≤ n ∧ n ≤ 0xDFFF) (s : List Char) :
    unicodeEscape (high ++ '\\' :: 'u' :: (low ++ s)) = .ok (ofSurrogates m n, s) := by
  have isHigh : isHighSurrogate m = true := by simp [isHighSurrogate, boundsHigh]
  have notLow : isLowSurrogate m = false := by simp [isLowSurrogate]; omega
  have isLow : isLowSurrogate n = true := by simp [isLowSurrogate, boundsLow]
  simp [unicodeEscape, hexHigh.hexUnit, hexLow.hexUnit, notLow, isHigh, isLow, expect, bind,
    Except.bind]

/-- In each of its spellings a character is read as itself. -/
theorem CharText.literalBody {c : Char} {text : List Char} (own : CharText c text) (b : Char)
    (bound s : List Char) :
    literalBody escape (b :: bound) (text ++ s) =
      (literalBody escape bound s).map fun (cs, s) => (c :: cs, s) := by
  cases own with
  | plain ordinary => exact literalBody_ordinary ordinary escape b bound s
  | short listed => exact literalBody_escaped (escapeWith_short listed _ s) b bound
  | @unit digits basic hex =>
      refine literalBody_escaped ?_ b bound
      obtain ⟨notLow, notHigh⟩ := not_surrogate c
      show unicodeEscape (digits ++ s) = _
      rw [unicodeEscape, hex.hexUnit]
      simp [notLow, notHigh, bind, Except.bind, Char.ofNat_toNat]
  | @pair high low beyond hexHigh hexLow =>
      rw [List.cons_append, List.cons_append, List.append_assoc]
      refine literalBody_escaped ?_ b bound
      have read := unicodeEscape_pair hexHigh hexLow (highHalf_bounds c) (lowHalf_bounds c) s
      rw [ofSurrogates_halves beyond] at read
      exact read

/-- A literal is read as its characters, up to its closing quote. -/
theorem CharsText.literalBody {cs body : List Char} (chars : CharsText cs body) (rest : List Char) :
    ∀ bound : List Char, cs.length < bound.length →
      literalBody escape bound (body ++ '"' :: rest) = .ok (cs, rest) := by
  induction chars with
  | done =>
      intro bound enough
      match bound with
      | _ :: _ => rfl
  | char own others ih =>
      intro bound enough
      match bound with
      | b :: bound =>
          rw [List.append_assoc, own.literalBody, ih bound (by simpa using enough)]
          rfl

theorem CharText.ne_nil {c : Char} {text : List Char} (own : CharText c text) : text ≠ [] := by
  cases own <;> simp

theorem CharsText.length_le {cs body : List Char} (chars : CharsText cs body) :
    cs.length ≤ body.length := by
  induction chars with
  | done => exact Nat.le_refl 0
  | char own others ih =>
      have := List.length_pos_iff.mpr own.ne_nil
      simp only [List.length_cons, List.length_append]
      omega

/-- A literal is read as what it denotes. -/
theorem Denotes.readText {t : String} {text : List Char} (denotes : Denotes t text) :
    ∃ body, text = '"' :: body ∧ ∀ rest, readText (body ++ rest) = .ok (t, rest) := by
  obtain ⟨body, rfl, chars⟩ := denotes
  refine ⟨_, rfl, fun rest => ?_⟩
  have shorter := chars.length_le
  have enough : t.toList.length < (body ++ ['"'] ++ rest).length := by
    simp only [List.length_append, List.length_cons]
    omega
  rw [Json.readText, List.append_assoc, List.singleton_append,
    chars.literalBody rest _ (by simpa using enough)]
  simp [bind, Except.bind]

theorem charText_escapeChar (c : Char) : CharText c (escapeChar c) := by
  unfold escapeChar
  repeat' split
  all_goals try (subst_vars; exact .short (by simp [shortEscapes]))
  · rename_i control
    have zero : HexDigit 0 '0' := ⟨by decide, .inl rfl⟩
    refine .unit (by omega) ⟨0, 0, c.toNat / 16, c.toNat % 16, _, _, _, _, rfl, zero, zero,
      ⟨by omega, .inl rfl⟩, ⟨by omega, .inl rfl⟩, by omega⟩
  · rename_i notQuote notSlash _ _ _ _ _ high
    exact .plain ⟨notQuote, notSlash, Nat.not_lt.mp high⟩

/-- A written text is one of the literals for it. -/
theorem denotes_writeText (t : String) : Denotes t (writeText t) := by
  have chars : ∀ cs : List Char, CharsText cs (cs.flatMap escapeChar) := by
    intro cs
    induction cs with
    | nil => exact .done
    | cons c cs ih => exact .char (charText_escapeChar c) ih
  exact ⟨_, rfl, chars t.toList⟩

/-- A piece is read as some character, which is dropped. -/
theorem Piece.literalBody {piece : List Char} (own : Piece piece) (s : List Char) :
    ∃ c, ∀ b bound, literalBody looseEscape (b :: bound) (piece ++ s) =
      (literalBody looseEscape bound s).map fun (cs, s) => (c :: cs, s) := by
  cases own with
  | plain ordinary => exact ⟨_, fun b bound => literalBody_ordinary ordinary looseEscape b bound s⟩
  | short listed =>
      exact ⟨_, fun b bound => literalBody_escaped (escapeWith_short listed _ s) b bound⟩
  | @unit n digits hex =>
      refine ⟨Char.ofNat n, fun b bound => literalBody_escaped ?_ b bound⟩
      show (hexUnit (digits ++ s) >>= _) = _
      rw [hex.hexUnit]
      rfl

/-- A literal whose characters do not matter is passed over up to its closing quote. -/
theorem Pieces.skipText {body : List Char} (loose : Pieces body) (rest : List Char) :
    skipText (body ++ '"' :: rest) = .ok rest := by
  obtain ⟨pieces, rfl, each⟩ := loose
  have passed : ∀ bound : List Char, (pieces.flatten ++ '"' :: rest).length ≤ bound.length →
      ∃ cs, literalBody looseEscape bound (pieces.flatten ++ '"' :: rest) = .ok (cs, rest) := by
    induction pieces with
    | nil =>
        intro bound enough
        match bound with
        | _ :: _ => exact ⟨[], rfl⟩
    | cons piece pieces ih =>
        intro bound enough
        obtain ⟨own, others⟩ := List.forall_mem_cons.mp each
        obtain ⟨c, step⟩ := own.literalBody (pieces.flatten ++ '"' :: rest)
        have nonempty : 0 < piece.length := by cases own <;> simp
        cases bound with
        | nil => simp at enough
        | cons b bound =>
            obtain ⟨cs, read⟩ := ih others bound (by
              simp only [List.flatten_cons, List.length_append, List.length_cons] at enough ⊢
              omega)
            refine ⟨c :: cs, ?_⟩
            rw [List.flatten_cons, List.append_assoc, step, read]
            rfl
  obtain ⟨cs, read⟩ := passed _ (Nat.le_refl _)
  rw [Json.skipText, read]
  rfl

/-! ## Numbers -/

def FractionText (text : List Char) : Prop := text = [] ∨ ∃ ds, text = '.' :: ds ∧ Digits ds

def ExponentText (text : List Char) : Prop :=
  text = [] ∨ ∃ e sign ds, text = e :: (sign ++ ds) ∧ (e = 'e' ∨ e = 'E') ∧
    (sign = [] ∨ sign = ['+'] ∨ sign = ['-']) ∧ Digits ds

/-- A number of any size. -/
def NumberText (text : List Char) : Prop :=
  ∃ sign whole fraction exponent, text = sign ++ (whole ++ (fraction ++ exponent)) ∧
    (sign = [] ∨ sign = ['-']) ∧ WholeText whole ∧ FractionText fraction ∧ ExponentText exponent

theorem WholeText.eq_cons {ds : List Char} (whole : WholeText ds) :
    ∃ d rest, ds = d :: rest ∧ d.isDigit = true := by
  rcases whole with rfl | ⟨⟨nonempty, digits⟩, -⟩
  · exact ⟨'0', [], rfl, rfl⟩
  · obtain ⟨d, rest, rfl⟩ := List.exists_cons_of_ne_nil nonempty
    exact ⟨d, rest, rfl, digits d (List.mem_cons_self ..)⟩

theorem ExponentText.readExponent {text rest : List Char} (exponent : ExponentText text)
    (stops : Stops rest) (atEnd : Fault) :
    ∃ read, readExponent atEnd (text ++ rest) = .ok (read, rest) := by
  rcases exponent with rfl | ⟨e, sign, ds, rfl, letter, signed, digits⟩
  · exact ⟨_, readExponent_of_stops atEnd stops⟩
  · have isLetter : (decide (e = 'e') || decide (e = 'E')) = true := by simpa using letter
    have read := digits.readDigits stops.noDigit atEnd
    have noSign : ∀ c s, ds ++ rest = c :: s → c.isDigit = true := by
      obtain ⟨d, ds, rfl⟩ := List.exists_cons_of_ne_nil digits.1
      rintro c s ⟨⟩
      exact digits.2 _ (List.mem_cons_self ..)
    rcases signed with rfl | rfl | rfl
    · refine ⟨(false, ds), ?_⟩
      rw [List.cons_append, List.nil_append, Json.readExponent, if_pos isLetter, read]
      · rfl
      · intro s plus
        cases noSign _ s plus
      · intro s minus
        cases noSign _ s minus
    · refine ⟨(false, ds), ?_⟩
      show Json.readExponent atEnd (e :: '+' :: (ds ++ rest)) = _
      rw [Json.readExponent, if_pos isLetter, read]
      rfl
    · refine ⟨(true, ds), ?_⟩
      show Json.readExponent atEnd (e :: '-' :: (ds ++ rest)) = _
      rw [Json.readExponent, if_pos isLetter, read]
      rfl

theorem FractionText.readFraction {text rest : List Char} (fraction : FractionText text)
    (after : NoDigit rest) (noPoint : ∀ c ∈ rest.head?, c ≠ '.') (atEnd : Fault) :
    ∃ read, readFraction atEnd (text ++ rest) = .ok (read, rest) := by
  rcases fraction with rfl | ⟨ds, rfl, digits⟩
  · refine ⟨[], ?_⟩
    rw [List.nil_append, Json.readFraction]
    rintro s rfl
    exact noPoint '.' rfl rfl
  · exact ⟨ds, digits.readDigits after atEnd⟩

/-- Where a fraction ends, neither digit nor point follows. -/
theorem ExponentText.head {text rest : List Char} (exponent : ExponentText text)
    (stops : Stops rest) : ∀ c ∈ (text ++ rest).head?, c.isDigit = false ∧ c ≠ '.' := by
  rcases exponent with rfl | ⟨e, sign, ds, rfl, letter, -⟩
  · exact fun c first => ⟨(stops c first).1, (stops c first).2.1⟩
  · rintro c ⟨⟩
    rcases letter with rfl | rfl <;> decide

theorem FractionText.noDigit {text rest : List Char} (fraction : FractionText text)
    (after : NoDigit rest) : NoDigit (text ++ rest) := by
  rcases fraction with rfl | ⟨ds, rfl, -⟩
  · exact after
  · rintro c ⟨⟩
    rfl

/-- A number of any size is passed over up to its end. -/
theorem NumberText.skipNumeral {text rest : List Char} (number : NumberText text)
    (stops : Stops rest) : skipNumeral (text ++ rest) = .ok rest := by
  obtain ⟨sign, ds, fraction, exponent, rfl, signed, whole, fractionText, exponentText⟩ := number
  obtain ⟨d, others, front, digit⟩ := whole.eq_cons
  have head := exponentText.head stops
  have noDigit : NoDigit (exponent ++ rest) := fun c first => (head c first).1
  obtain ⟨fractionRead, readFraction⟩ :=
    fractionText.readFraction noDigit (fun c first => (head c first).2) .malformed
  obtain ⟨exponentRead, readExponent⟩ := exponentText.readExponent stops .malformed
  have readWhole := whole.readWhole (fractionText.noDigit noDigit) .malformed
  have taken : ∃ negative, takeMinus (sign ++ (ds ++ (fraction ++ (exponent ++ rest)))) =
      (negative, ds ++ (fraction ++ (exponent ++ rest))) := by
    rcases signed with rfl | rfl
    · refine ⟨false, ?_⟩
      rw [List.nil_append, takeMinus]
      rintro s minus
      rw [front, List.cons_append] at minus
      cases minus
      cases digit
    · exact ⟨true, rfl⟩
  obtain ⟨negative, taken⟩ := taken
  simp only [List.append_assoc]
  simp [Json.skipNumeral, readNumeralWith, taken, readWhole, readFraction, readExponent, bind,
    Except.bind]

theorem NumberText.startsNumeral {text : List Char} (number : NumberText text) :
    ∃ c s, text = c :: s ∧ startsNumeral c = true := by
  obtain ⟨sign, ds, fraction, exponent, rfl, signed, whole, -⟩ := number
  rcases signed with rfl | rfl
  · obtain ⟨d, others, rfl, digit⟩ := whole.eq_cons
    exact ⟨d, _, rfl, by simp [Json.startsNumeral, digit]⟩
  · exact ⟨'-', _, rfl, rfl⟩

/-! ## Values -/

/-- The mark that closes a bracket. -/
def Bracket.closing : Bracket → Char
  | .array => ']'
  | .object => '}'

/-- The mark that opens a bracket. -/
def Bracket.opening : Bracket → Char
  | .array => '['
  | .object => '{'

/-- What a well-formed text may be: a value, or what is left of an array or object up to its
closing mark. -/
inductive Form where
  | value
  | entries (bracket : Bracket) (first : Bool)

inductive WellFormed : Form → List Char → Prop
  | null : WellFormed .value ['n', 'u', 'l', 'l']
  | true : WellFormed .value ['t', 'r', 'u', 'e']
  | false : WellFormed .value ['f', 'a', 'l', 's', 'e']
  | literal {body : List Char} (pieces : Pieces body) : WellFormed .value ('"' :: (body ++ ['"']))
  | number {text : List Char} (number : NumberText text) : WellFormed .value text
  | array {text : List Char} (items : WellFormed (.entries .array Bool.true) text) :
      WellFormed .value ('[' :: (text ++ [']']))
  | object {text : List Char} (members : WellFormed (.entries .object Bool.true) text) :
      WellFormed .value ('{' :: (text ++ ['}']))
  | done {bracket : Bracket} {first : Bool} {ws : List Char} (blanks : Blanks ws) :
      WellFormed (.entries bracket first) ws
  | item {first : Bool} {sep text tail : List Char} (separates : Separates first sep)
      (value : WellFormed .value text) (others : WellFormed (.entries .array Bool.false) tail) :
      WellFormed (.entries .array first) (sep ++ (text ++ tail))
  | member {first : Bool} {sep key colon ws text tail : List Char} (separates : Separates first sep)
      (pieces : Pieces key) (blanksColon : Blanks colon) (blanks : Blanks ws)
      (value : WellFormed .value text) (others : WellFormed (.entries .object Bool.false) tail) :
      WellFormed (.entries .object first)
        (sep ++ '"' :: (key ++ '"' :: (colon ++ ':' :: (ws ++ (text ++ tail)))))

theorem WellFormed.starts {text : List Char} (value : WellFormed .value text) : Starts text := by
  cases value with
  | null => exact ⟨_, _, rfl, by decide⟩
  | true => exact ⟨_, _, rfl, by decide⟩
  | false => exact ⟨_, _, rfl, by decide⟩
  | literal pieces => exact ⟨_, _, rfl, by decide⟩
  | number number =>
      obtain ⟨c, s, same, numeral⟩ := number.startsNumeral
      obtain ⟨solid, inside, -⟩ := starts_of_startsNumeral numeral
      exact ⟨c, s, same, solid, inside⟩
  | array items => exact ⟨_, _, rfl, by decide⟩
  | object members => exact ⟨_, _, rfl, by decide⟩

/-- Passing over arrives after a value, with `rest` to come and steps enough for it. -/
def Arrives (result : Except Fault (List Char)) (stack : List Bracket) (rest : List Char) : Prop :=
  ∃ bound : List Char, rest.length ≤ bound.length ∧ result = skipSteps bound .follow stack rest

/-- What passing over makes of a well-formed text. The first entry of an array or object is looked
for together with the opening bracket, the others after a value. -/
def Form.Passed : Form → List Char → Prop
  | .value, text => ∀ bound stack ws rest, Blanks ws → Stops rest →
      (text ++ rest).length ≤ bound.length →
      Arrives (skipSteps bound .value stack (ws ++ (text ++ rest))) stack rest
  | .entries bracket true, text => ∀ b bound stack ws rest, Blanks ws →
      (text ++ bracket.closing :: rest).length ≤ bound.length →
      Arrives (skipSteps (b :: bound) .value stack
        (ws ++ bracket.opening :: (text ++ bracket.closing :: rest))) stack rest
  | .entries bracket false, text => ∀ bound stack rest,
      (text ++ bracket.closing :: rest).length ≤ bound.length →
      Arrives (skipSteps bound .follow (bracket :: stack) (text ++ bracket.closing :: rest)) stack
        rest

/-- A literal, number or word is passed over in one step. -/
theorem passed_scalar {c : Char} {s : List Char} (solid : isBlank c = false) (noBracket : c ≠ '[')
    (noBrace : c ≠ '{')
    (scalar : ∀ rest, Stops rest → skipScalar (c :: (s ++ rest)) = .ok rest) :
    Form.value.Passed (c :: s) := by
  intro bound stack ws rest blanks stops enough
  cases bound with
  | nil => simp at enough
  | cons _ bound =>
      refine ⟨bound, ?_, ?_⟩
      · simp only [List.length_append, List.length_cons] at enough
        omega
      · have passed := scalar rest stops
        rw [List.cons_append, skipSteps, skipBlank_blanks blanks solid]
        simp [noBracket, noBrace, passed, bind, Except.bind]

/-- No numeral goes on where the rest of an array or object stands. -/
theorem stops_entries {bracket : Bracket} {text : List Char}
    (entries : WellFormed (.entries bracket false) text) (rest : List Char) :
    Stops (text ++ bracket.closing :: rest) := by
  cases entries with
  | done blanks =>
      cases bracket with
      | array => exact stops_blanks blanks stops_bracket rest
      | object => exact stops_blanks blanks stops_brace rest
  | item separates value others =>
      rw [List.append_assoc]
      exact separates.stops _
  | member separates pieces blanksColon blanks value others =>
      rw [List.append_assoc]
      exact separates.stops _

theorem skipKey_pieces {key colon : List Char} (pieces : Pieces key) (blanks : Blanks colon)
    {ws : List Char} (before : Blanks ws) (s : List Char) :
    skipKey (ws ++ '"' :: (key ++ '"' :: (colon ++ ':' :: s))) = .ok s := by
  rw [skipKey, mark_blanks before (by decide)]
  show (skipText (key ++ '"' :: (colon ++ ':' :: s)) >>= _) = _
  rw [pieces.skipText]
  exact mark_blanks blanks (by decide) s

theorem skipScalar_numeral {c : Char} (numeral : startsNumeral c = true) (s : List Char) :
    skipScalar (c :: s) = skipNumeral (c :: s) := by
  have other : c ≠ '"' ∧ c ≠ 'n' ∧ c ≠ 't' ∧ c ≠ 'f' := by
    refine ⟨?_, ?_, ?_, ?_⟩ <;> (rintro rfl; simp [startsNumeral] at numeral)
  simp [skipScalar, other, numeral]

/-- After an entry the others are passed over, and the bracket is closed. -/
theorem Arrives.entries {result : Except Fault (List Char)} {bracket : Bracket}
    {stack : List Bracket} {tail rest : List Char}
    (arrives : Arrives result (bracket :: stack) (tail ++ bracket.closing :: rest))
    (others : (Form.entries bracket false).Passed tail) : Arrives result stack rest := by
  obtain ⟨bound, enough, rfl⟩ := arrives
  exact others bound stack rest enough

theorem passed_done {ws : List Char} (blanks : Blanks ws) (bracket : Bracket) (first : Bool) :
    (Form.entries bracket first).Passed ws := by
  have closing : ∀ rest, skipBlank (ws ++ bracket.closing :: rest) = bracket.closing :: rest :=
    skipBlank_blanks blanks (by cases bracket <;> decide)
  cases first with
  | true =>
      intro b bound stack before rest blanksBefore enough
      refine ⟨bound, ?_, ?_⟩
      · simp only [List.length_append, List.length_cons] at enough
        omega
      · have opening := skipBlank_blanks blanksBefore
          (show isBlank bracket.opening = false by cases bracket <;> decide)
        rw [skipSteps, opening]
        cases bracket <;> simp only [Bracket.opening, closing] <;> rfl
  | false =>
      intro bound stack rest enough
      cases bound with
      | nil => simp at enough
      | cons b bound =>
          refine ⟨bound, ?_, ?_⟩
          · simp only [List.length_append, List.length_cons] at enough
            omega
          · cases bracket <;> (rw [skipSteps, closing]; rfl)

theorem passed_item {first : Bool} {sep text tail : List Char} (separates : Separates first sep)
    (value : WellFormed .value text) (others : WellFormed (.entries .array false) tail)
    (passed : Form.value.Passed text) (passedOthers : (Form.entries .array false).Passed tail) :
    (Form.entries .array first).Passed (sep ++ (text ++ tail)) := by
  cases separates with
  | first blanks =>
      intro b bound stack before rest blanksBefore enough
      refine Arrives.entries ?_ passedOthers
      dsimp only [Bracket.opening, Bracket.closing] at enough ⊢
      obtain ⟨c, s, rfl, solid, inside⟩ := value.starts
      have step : skipSteps (b :: bound) .value stack
          (before ++ '[' :: (sep ++ (c :: s ++ tail) ++ ']' :: rest)) =
          skipSteps bound .value (.array :: stack) (c :: s ++ (tail ++ ']' :: rest)) := by
        rw [skipSteps, skipBlank_blanks blanksBefore (by decide)]
        simp only [List.append_assoc, List.cons_append, skipBlank_blanks blanks solid]
        simp [inside]
      rw [step]
      refine passed bound _ [] _ blanks_nil (stops_entries others rest) ?_
      simp only [List.length_append, List.length_cons] at enough ⊢
      omega
  | @next ws after blanks blanksAfter =>
      intro bound stack rest enough
      refine Arrives.entries ?_ passedOthers
      dsimp only [Bracket.opening, Bracket.closing] at enough ⊢
      cases bound with
      | nil => simp at enough
      | cons b bound =>
          have step : skipSteps (b :: bound) .follow (.array :: stack)
              (ws ++ ',' :: after ++ (text ++ tail) ++ ']' :: rest) =
              skipSteps bound .value (.array :: stack)
                (after ++ (text ++ (tail ++ ']' :: rest))) := by
            simp only [List.append_assoc, List.cons_append]
            rw [skipSteps, skipBlank_blanks blanks (by decide)]
            rfl
          rw [step]
          refine passed bound _ after _ blanksAfter (stops_entries others rest) ?_
          simp only [List.length_append, List.length_cons] at enough ⊢
          omega

/-- One more member in an object that is passed over. -/
theorem passed_member {first : Bool} {sep key colon ws text tail : List Char}
    (separates : Separates first sep) (pieces : Pieces key) (blanksColon : Blanks colon)
    (blanks : Blanks ws) (others : WellFormed (.entries .object false) tail)
    (passed : Form.value.Passed text) (passedOthers : (Form.entries .object false).Passed tail) :
    (Form.entries .object first).Passed
      (sep ++ '"' :: (key ++ '"' :: (colon ++ ':' :: (ws ++ (text ++ tail))))) := by
  cases separates with
  | first blanksSep =>
      intro b bound stack before rest blanksBefore enough
      refine Arrives.entries ?_ passedOthers
      dsimp only [Bracket.opening, Bracket.closing] at enough ⊢
      have step : skipSteps (b :: bound) .value stack (before ++ '{' ::
          (sep ++ '"' :: (key ++ '"' :: (colon ++ ':' :: (ws ++ (text ++ tail)))) ++ '}' :: rest)) =
          skipSteps bound .value (.object :: stack) (ws ++ (text ++ (tail ++ '}' :: rest))) := by
        have atKey := skipKey_pieces pieces blanksColon blanks_nil
          (ws ++ (text ++ (tail ++ '}' :: rest)))
        rw [skipSteps, skipBlank_blanks blanksBefore (by decide)]
        simp only [List.append_assoc, List.cons_append, List.nil_append] at atKey ⊢
        simp [skipBlank_blanks blanksSep (show isBlank '"' = false by decide), atKey, bind,
          Except.bind]
      rw [step]
      refine passed bound _ ws _ blanks (stops_entries others rest) ?_
      simp only [List.length_append, List.length_cons] at enough ⊢
      omega
  | @next before after blanksBefore blanksAfter =>
      intro bound stack rest enough
      refine Arrives.entries ?_ passedOthers
      dsimp only [Bracket.opening, Bracket.closing] at enough ⊢
      cases bound with
      | nil => simp at enough
      | cons b bound =>
          have step : skipSteps (b :: bound) .follow (.object :: stack) (before ++ ',' :: after ++
              '"' :: (key ++ '"' :: (colon ++ ':' :: (ws ++ (text ++ tail)))) ++ '}' :: rest) =
              skipSteps bound .value (.object :: stack)
                (ws ++ (text ++ (tail ++ '}' :: rest))) := by
            have atKey := skipKey_pieces pieces blanksColon blanksAfter
              (ws ++ (text ++ (tail ++ '}' :: rest)))
            simp only [List.append_assoc, List.cons_append]
            rw [skipSteps, skipBlank_blanks blanksBefore (by decide)]
            simp [atKey, bind, Except.bind]
          rw [step]
          refine passed bound _ ws _ blanks (stops_entries others rest) ?_
          simp only [List.length_append, List.length_cons] at enough ⊢
          omega

/-- A well-formed text is passed over, whatever it holds. -/
theorem WellFormed.passed {form : Form} {text : List Char} (wellFormed : WellFormed form text) :
    form.Passed text := by
  induction wellFormed with
  | null => exact passed_scalar (by decide) (by decide) (by decide) fun rest _ => rfl
  | true => exact passed_scalar (by decide) (by decide) (by decide) fun rest _ => rfl
  | false => exact passed_scalar (by decide) (by decide) (by decide) fun rest _ => rfl
  | literal pieces =>
      refine passed_scalar (by decide) (by decide) (by decide) fun rest _ => ?_
      rw [List.append_assoc]
      exact pieces.skipText rest
  | number number =>
      obtain ⟨c, s, rfl, numeral⟩ := number.startsNumeral
      have solid := (starts_of_startsNumeral numeral).1
      refine passed_scalar solid ?_ ?_ fun rest stops => ?_
      · rintro rfl
        simp [Json.startsNumeral] at numeral
      · rintro rfl
        simp [Json.startsNumeral] at numeral
      · rw [skipScalar_numeral numeral]
        exact number.skipNumeral stops
  | array items ih =>
      intro bound stack ws rest blanks _ enough
      cases bound with
      | nil => simp at enough
      | cons b bound =>
          rw [List.cons_append, List.append_assoc, List.singleton_append] at enough ⊢
          exact ih b bound stack ws rest blanks (by simpa using enough)
  | object members ih =>
      intro bound stack ws rest blanks _ enough
      cases bound with
      | nil => simp at enough
      | cons b bound =>
          rw [List.cons_append, List.append_assoc, List.singleton_append] at enough ⊢
          exact ih b bound stack ws rest blanks (by simpa using enough)
  | done blanks => exact passed_done blanks _ _
  | item separates value others ihValue ihOthers =>
      exact passed_item separates value others ihValue ihOthers
  | member separates pieces blanksColon blanks value others ihValue ihOthers =>
      exact passed_member separates pieces blanksColon blanks others ihValue ihOthers

/-- A well-formed value is passed over, however deep it is. -/
theorem WellFormed.skipValue {text ws rest : List Char} (value : WellFormed .value text)
    (blanks : Blanks ws) (stops : Stops rest) : skipValue (ws ++ (text ++ rest)) = .ok rest := by
  obtain ⟨bound, -, arrived⟩ := value.passed (ws ++ (text ++ rest)) [] ws rest blanks stops
    (by simp only [List.length_append]; omega)
  rw [Json.skipValue, arrived]
  cases bound <;> rfl

end IntBackend.Json
