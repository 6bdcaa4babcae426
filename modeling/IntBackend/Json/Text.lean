/-
# IntBackend.Json.Text — string literals

Reading decodes escapes; a character outside the basic plane may be written as
a pair of `\u` escapes, and a half of such a pair alone is malformed. Writing
escapes the quote, the backslash and the characters below U+0020, and nothing
else. A literal whose value is not wanted is read loosely: its `\u` escapes need
four hexadecimal digits each, paired or not. `readText_writeText` states that
reading a written literal gives its text and leaves what follows it.
-/
import IntBackend.Json.Reader

namespace IntBackend.Json

set_option autoImplicit false

/-! ## Reading -/

def hexValue? (c : Char) : Option Nat :=
  if '0' ≤ c ∧ c ≤ '9' then some (c.toNat - '0'.toNat)
  else if 'a' ≤ c ∧ c ≤ 'f' then some (c.toNat - 'a'.toNat + 10)
  else if 'A' ≤ c ∧ c ≤ 'F' then some (c.toNat - 'A'.toNat + 10)
  else none

/-- The 16-bit unit that four hexadecimal digits denote. A text with fewer than
four bytes left is truncated, whatever they are. -/
def hexUnit : Reader Nat
  | a :: b :: c :: d :: rest =>
      match hexValue? a, hexValue? b, hexValue? c, hexValue? d with
      | some p, some q, some r, some s => .ok (((p * 16 + q) * 16 + r) * 16 + s, rest)
      | _, _, _, _ => .error .malformed
  | short =>
      if 4 ≤ short.foldr (fun c bytes => c.utf8Size + bytes) 0 then .error .malformed
      else .error .truncated

def isHighSurrogate (unit : Nat) : Bool := 0xD800 ≤ unit && unit ≤ 0xDBFF

def isLowSurrogate (unit : Nat) : Bool := 0xDC00 ≤ unit && unit ≤ 0xDFFF

/-- The character of a surrogate pair. -/
def ofSurrogates (high low : Nat) : Char :=
  Char.ofNat (0x10000 + (high - 0xD800) * 0x400 + (low - 0xDC00))

/-- What follows `\u`: one unit, or a high and a low surrogate, the second with
an escape of its own. -/
def unicodeEscape (s : List Char) : Except Fault (Char × List Char) := do
  let (unit, s) ← hexUnit s
  if isLowSurrogate unit then .error .malformed
  else if isHighSurrogate unit then
    let s ← expect '\\' s
    let s ← expect 'u' s
    let (low, s) ← hexUnit s
    if isLowSurrogate low then .ok (ofSurrogates unit low, s) else .error .malformed
  else .ok (Char.ofNat unit, s)

/-- The character that a one-letter escape stands for. -/
def shortEscape? : Char → Option Char
  | '"' => some '"'
  | '\\' => some '\\'
  | '/' => some '/'
  | 'b' => some '\x08'
  | 'f' => some '\x0c'
  | 'n' => some '\n'
  | 'r' => some '\r'
  | 't' => some '\t'
  | _ => none

/-- What follows a backslash, given how to read what follows `\u`. -/
def escapeWith (unicode : Reader Char) : Reader Char
  | [] => .error .truncated
  | c :: s =>
      if c = 'u' then unicode s
      else match shortEscape? c with
        | some d => .ok (d, s)
        | none => .error .malformed

def escape : Reader Char := escapeWith unicodeEscape

/-- Accepts any unit after `\u`; the character itself is of no use. -/
def looseEscape : Reader Char :=
  escapeWith fun s => do
    let (unit, s) ← hexUnit s
    .ok (Char.ofNat unit, s)

/-- The characters of a literal up to its closing quote, in at most as many steps
as `bound` has characters. Each step takes a character, so a text bounds its own
reading. -/
def literalBody (escape : Reader Char) : (bound : List Char) → Reader (List Char)
  | [], _ => .error .truncated
  | _ :: _, [] => .error .truncated
  | _ :: bound, c :: s =>
      if c = '"' then .ok ([], s)
      else if c = '\\' then do
        let (d, s) ← escape s
        let (cs, s) ← literalBody escape bound s
        .ok (d :: cs, s)
      else if c.toNat < 0x20 then .error .malformed
      else do
        let (cs, s) ← literalBody escape bound s
        .ok (c :: cs, s)

/-- A string literal whose opening quote has been taken. -/
def readText (s : List Char) : Except Fault (String × List Char) := do
  let (cs, s) ← literalBody escape s s
  .ok (String.ofList cs, s)

/-- Passes over a string literal whose opening quote has been taken. -/
def skipText (s : List Char) : Except Fault (List Char) := do
  let (_, s) ← literalBody looseEscape s s
  .ok s

/-! ## Writing -/

/-- How a character stands in a literal. -/
def escapeChar (c : Char) : List Char :=
  if c = '"' then ['\\', '"']
  else if c = '\\' then ['\\', '\\']
  else if c = '\x08' then ['\\', 'b']
  else if c = '\x0c' then ['\\', 'f']
  else if c = '\n' then ['\\', 'n']
  else if c = '\r' then ['\\', 'r']
  else if c = '\t' then ['\\', 't']
  else if c.toNat < 0x20 then
    ['\\', 'u', '0', '0', Nat.digitChar (c.toNat / 16), Nat.digitChar (c.toNat % 16)]
  else [c]

/-- A string literal, with its quotes. -/
def writeText (s : String) : List Char :=
  '"' :: (s.toList.flatMap escapeChar ++ ['"'])

/-! ## Reading what was written -/

theorem hexValue?_digitChar {d : Nat} (small : d < 16) : hexValue? (Nat.digitChar d) = some d := by
  have all : ∀ d : Fin 16, hexValue? (Nat.digitChar d.val) = some d.val := by decide
  exact all ⟨d, small⟩

/-- A written character is read back in one step. -/
theorem literalBody_escapeChar (b : Char) (bound s : List Char) (c : Char) :
    literalBody escape (b :: bound) (escapeChar c ++ s) =
      (literalBody escape bound s).map fun (cs, s) => (c :: cs, s) := by
  have step : ∀ r : Except Fault (List Char × List Char),
      (do let (cs, s) ← r; Except.ok (c :: cs, s)) = r.map fun (cs, s) => (c :: cs, s) := by
    intro r
    cases r <;> rfl
  unfold escapeChar
  repeat' split
  all_goals try (subst_vars; exact step _)
  · rename_i low
    have unit : hexUnit ('0' :: '0' :: Nat.digitChar (c.toNat / 16) ::
        Nat.digitChar (c.toNat % 16) :: s) = .ok (c.toNat, s) := by
      simp only [hexUnit, hexValue?_digitChar (show c.toNat / 16 < 16 by omega),
        hexValue?_digitChar (show c.toNat % 16 < 16 by omega)]
      have : hexValue? '0' = some 0 := by decide
      simp only [this]
      congr 2
      omega
    have plain : escape ('u' :: '0' :: '0' :: Nat.digitChar (c.toNat / 16) ::
        Nat.digitChar (c.toNat % 16) :: s) = .ok (c, s) := by
      have notLow : isLowSurrogate c.toNat = false := by
        simp [isLowSurrogate]; omega
      have notHigh : isHighSurrogate c.toNat = false := by
        simp [isHighSurrogate]; omega
      simp [escape, escapeWith, unicodeEscape, unit, notLow, notHigh, bind, Except.bind,
        Char.ofNat_toNat]
    simp only [List.cons_append, List.nil_append, literalBody]
    rw [plain]
    exact step _
  · rename_i notQuote notSlash _ _ _ _ _ high
    simp only [List.cons_append, List.nil_append, literalBody, notQuote, notSlash, high, if_false]
    exact step _

/-- Each step of `bound` takes one written character, the last one the quote. -/
theorem literalBody_flatMap (cs : List Char) : ∀ (bound rest : List Char),
    cs.length < bound.length →
      literalBody escape bound (cs.flatMap escapeChar ++ '"' :: rest) = .ok (cs, rest) := by
  induction cs with
  | nil =>
      intro bound rest enough
      match bound with
      | _ :: _ => rfl
  | cons c cs ih =>
      intro bound rest enough
      match bound with
      | b :: bound =>
          rw [List.flatMap_cons, List.append_assoc, literalBody_escapeChar,
            ih bound rest (by simpa using enough)]
          rfl

theorem escapeChar_ne_nil (c : Char) : escapeChar c ≠ [] := by
  unfold escapeChar
  repeat' split
  all_goals simp

theorem length_le_flatMap (cs : List Char) : cs.length ≤ (cs.flatMap escapeChar).length := by
  induction cs with
  | nil => simp
  | cons c cs ih =>
      have := List.length_pos_iff.mpr (escapeChar_ne_nil c)
      simp only [List.length_cons, List.flatMap_cons, List.length_append]
      omega

/-- Reading takes exactly the literal that writing gave. -/
theorem readText_writeText (text : String) (rest : List Char) :
    ∃ body, writeText text ++ rest = '"' :: body ∧ readText body = .ok (text, rest) := by
  refine ⟨text.toList.flatMap escapeChar ++ '"' :: rest, by simp [writeText], ?_⟩
  have enough := length_le_flatMap text.toList
  simp only [readText]
  rw [literalBody_flatMap _ _ rest
    (by simp only [List.length_append, List.length_cons]; omega)]
  simp [bind, Except.bind]

end IntBackend.Json
