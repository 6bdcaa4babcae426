/-
# IntBackend.Proofs.Json.Nesting — brackets open at once

`nesting` counts, in any text, the most arrays and objects that are open at once. It looks
at brackets and string literals alone and knows nothing of grammars: a bracket inside a
literal does not count, and an escaped quote does not end a literal.

A text is `Nested n` if it closes what it opens and has at most `n` brackets open on the
way. Compact texts are: an array or object is nested one deeper than the deepest of its
entries.
-/
import IntBackend.Json.Numeral
import IntBackend.Json.Write
import IntBackend.Proofs.Json.Numerals

namespace IntBackend.Json

set_option autoImplicit false

/-- Where a scan stands: between string literals, in one, or in one and after a backslash. -/
inductive Place where
  | outside
  | literal
  | escaped
  deriving DecidableEq, Repr

def Place.next : Place → Char → Place
  | .outside, c => if c = '"' then .literal else .outside
  | .literal, c => if c = '"' then .outside else if c = '\\' then .escaped else .literal
  | .escaped, _ => .literal

/-- How many brackets are open after `c`, if `count` are before it. -/
def Place.opened (place : Place) (count : Nat) (c : Char) : Nat :=
  if place = .outside then
    if c = '[' ∨ c = '{' then count + 1
    else if c = ']' ∨ c = '}' then count - 1
    else count
  else count

/-- The most brackets open at once from a place on, with `count` of them open there. -/
def nestingFrom : Place → (count : Nat) → List Char → Nat
  | _, count, [] => count
  | place, count, c :: s => max count (nestingFrom (place.next c) (place.opened count c) s)

/-- The most arrays and objects that are open at once in a text. -/
def nesting (text : List Char) : Nat := nestingFrom .outside 0 text

example : nesting ['[', '"', '[', '\\', '"', '{', '"', ',', '[', ']', ']'] = 2 := by decide

/-- Closes what it opens, and has `n` brackets open at once. -/
def Nested (n : Nat) (text : List Char) : Prop :=
  ∀ count rest, nestingFrom .outside count (text ++ rest) =
    max (count + n) (nestingFrom .outside count rest)

theorem le_nestingFrom (place : Place) (count : Nat) (s : List Char) :
    count ≤ nestingFrom place count s := by
  cases s with
  | nil => exact Nat.le_refl count
  | cons c s => exact Nat.le_max_left ..

/-- A text that closes what it opens is nested as deep as that. -/
theorem Nested.nesting_eq {n : Nat} {text : List Char} (nested : Nested n text) :
    nesting text = n := by
  have scanned := nested 0 []
  simpa [nestingFrom, nesting] using scanned

/-! ## Literals, numerals and null -/

/-- A character that opens nothing can be left out of the count. -/
theorem nestingFrom_step {place : Place} {count : Nat} {c : Char}
    (kept : place.opened count c = count) (s : List Char) :
    nestingFrom place count (c :: s) = nestingFrom (place.next c) count s := by
  rw [nestingFrom, kept]
  exact Nat.max_eq_right (le_nestingFrom ..)

theorem nestingFrom_literal {c : Char} (notQuote : c ≠ '"') (notSlash : c ≠ '\\') (count : Nat)
    (s : List Char) : nestingFrom .literal count (c :: s) = nestingFrom .literal count s := by
  have stays : Place.literal.next c = .literal := by simp [Place.next, notQuote, notSlash]
  rw [nestingFrom_step rfl, stays]

theorem nestingFrom_escape (count : Nat) (c : Char) (s : List Char) :
    nestingFrom .literal count ('\\' :: c :: s) = nestingFrom .literal count s := by
  rw [nestingFrom_step rfl]
  exact nestingFrom_step rfl s

theorem nestingFrom_digitChar {d : Nat} (small : d < 16) (count : Nat) (s : List Char) :
    nestingFrom .literal count (Nat.digitChar d :: s) = nestingFrom .literal count s := by
  have all : ∀ d : Fin 16, Nat.digitChar d.val ≠ '"' ∧ Nat.digitChar d.val ≠ '\\' := by decide
  exact nestingFrom_literal (all ⟨d, small⟩).1 (all ⟨d, small⟩).2 count s

/-- A written character, escaped or not, neither ends its literal nor opens a bracket. -/
theorem nestingFrom_escapeChar (count : Nat) (c : Char) (s : List Char) :
    nestingFrom .literal count (escapeChar c ++ s) = nestingFrom .literal count s := by
  unfold escapeChar
  repeat' split
  all_goals try exact nestingFrom_escape count _ s
  · rename_i control
    simp only [List.cons_append, List.nil_append]
    rw [nestingFrom_escape, nestingFrom_literal (by decide) (by decide),
      nestingFrom_literal (by decide) (by decide), nestingFrom_digitChar (by omega),
      nestingFrom_digitChar (by omega)]
  · rename_i notQuote notSlash _ _ _ _ _ _
    exact nestingFrom_literal notQuote notSlash count s

/-- Brackets inside a literal do not count. -/
theorem nested_writeText (t : String) : Nested 0 (writeText t) := by
  intro count rest
  have body : ∀ cs : List Char,
      nestingFrom .literal count (cs.flatMap escapeChar ++ '"' :: rest) =
        nestingFrom .outside count rest := by
    intro cs
    induction cs with
    | nil => exact nestingFrom_step rfl rest
    | cons c cs ih =>
        rw [List.flatMap_cons, List.append_assoc, nestingFrom_escapeChar, ih]
  rw [writeText, List.cons_append, nestingFrom_step rfl, List.append_assoc]
  exact (body t.toList).trans (Nat.max_eq_right (le_nestingFrom ..)).symm

/-- A character that is neither bracket nor quote. -/
def Plain (c : Char) : Prop := c ≠ '"' ∧ c ≠ '[' ∧ c ≠ '{' ∧ c ≠ ']' ∧ c ≠ '}'

theorem nested_of_plain {text : List Char} (plain : ∀ c ∈ text, Plain c) : Nested 0 text := by
  intro count rest
  have skipped : nestingFrom .outside count (text ++ rest) = nestingFrom .outside count rest := by
    induction text with
    | nil => rfl
    | cons c text ih =>
        obtain ⟨noQuote, noBracket, noBrace, noClosing, noEnd⟩ := plain c (List.mem_cons_self ..)
        have kept : Place.outside.opened count c = count := by
          simp [Place.opened, noBracket, noBrace, noClosing, noEnd]
        have next : Place.outside.next c = .outside := if_neg noQuote
        rw [List.cons_append, nestingFrom_step kept, next]
        exact ih fun d among => plain d (List.mem_cons_of_mem _ among)
  rw [skipped]
  exact (Nat.max_eq_right (le_nestingFrom ..)).symm

theorem plain_of_isDigit {c : Char} (digit : c.isDigit = true) : Plain c := by
  refine ⟨?_, ?_, ?_, ?_, ?_⟩ <;> (rintro rfl; simp at digit)

theorem nested_writeInt (n : Int) : Nested 0 (writeInt n) := by
  apply nested_of_plain
  intro c among
  unfold writeInt at among
  split at among
  · rcases List.mem_cons.mp among with rfl | digit
    · simp [Plain]
    · exact plain_of_isDigit (isDigit_toDigits _ c digit)
  · exact plain_of_isDigit (isDigit_toDigits _ c among)

theorem nested_writeNull : Nested 0 writeNull :=
  nested_of_plain (by simp [writeNull, Plain])

/-! ## Arrays and objects -/

/-- Entries one after the other, with a comma before each but the first of all. -/
def joined (first : Bool) : List (List Char) → List Char
  | [] => []
  | text :: texts => (if first then [] else [',']) ++ (text ++ joined false texts)

/-- The deepest of some texts. -/
def deepest (texts : List (List Char)) : Nat := (texts.map nesting).foldr max 0

theorem intercalate_eq_joined (texts : List (List Char)) :
    List.intercalate [','] texts = joined true texts := by
  match texts with
  | [] => rfl
  | [text] => simp [List.intercalate, joined]
  | text :: next :: texts =>
      have others := intercalate_eq_joined (next :: texts)
      rw [List.intercalate_cons_cons, others]
      simp [joined]

/-- Entries side by side are nested as deep as the deepest of them. -/
theorem nestingFrom_joined {texts : List (List Char)}
    (nested : ∀ text ∈ texts, Nested (nesting text) text) (first : Bool) (count : Nat)
    (rest : List Char) :
    nestingFrom .outside count (joined first texts ++ rest) =
      max (count + deepest texts) (nestingFrom .outside count rest) := by
  induction texts generalizing first with
  | nil => exact (Nat.max_eq_right (le_nestingFrom ..)).symm
  | cons text texts ih =>
      have others := ih (fun t among => nested t (List.mem_cons_of_mem _ among)) false
      have comma : nestingFrom .outside count ((if first then [] else [',']) ++
          (text ++ (joined false texts ++ rest))) =
          nestingFrom .outside count (text ++ (joined false texts ++ rest)) := by
        cases first with
        | true => rfl
        | false => exact nestingFrom_step rfl _
      rw [joined, List.append_assoc, List.append_assoc, comma,
        nested text (List.mem_cons_self ..), others]
      simp only [deepest, List.map_cons, List.foldr_cons]
      omega

/-- What brackets enclose is nested one deeper. -/
theorem nested_enclosed {opening closing : Char} {texts : List (List Char)}
    (opens : opening = '[' ∨ opening = '{') (closes : closing = ']' ∨ closing = '}')
    (nested : ∀ text ∈ texts, Nested (nesting text) text) :
    Nested (deepest texts + 1) (opening :: (joined true texts ++ [closing])) := by
  intro count rest
  have opened : nestingFrom .outside count (opening :: (joined true texts ++ closing :: rest)) =
      max count (nestingFrom .outside (count + 1) (joined true texts ++ closing :: rest)) := by
    rcases opens with rfl | rfl <;> rfl
  have closed : nestingFrom .outside (count + 1) (closing :: rest) =
      max (count + 1) (nestingFrom .outside count rest) := by
    rcases closes with rfl | rfl <;> rfl
  rw [List.cons_append, List.append_assoc, List.singleton_append, opened,
    nestingFrom_joined nested, closed]
  omega

/-- An array is one deeper than its deepest item. -/
theorem nested_writeArray {items : List (List Char)}
    (nested : ∀ text ∈ items, Nested (nesting text) text) :
    Nested (deepest items + 1) (writeArray items) := by
  rw [writeArray, intercalate_eq_joined]
  exact nested_enclosed (.inl rfl) (.inl rfl) nested

theorem nested_writeMember {name : String} {text : List Char} {n : Nat} (nested : Nested n text) :
    Nested n (writeMember name text) := by
  intro count rest
  rw [writeMember, List.append_assoc, nested_writeText, List.cons_append, nestingFrom_step rfl]
  show max _ (nestingFrom .outside count (text ++ rest)) = _
  rw [nested]
  omega

theorem nesting_writeMember {name : String} {text : List Char}
    (nested : Nested (nesting text) text) : nesting (writeMember name text) = nesting text :=
  (nested_writeMember nested).nesting_eq

/-- An object is one deeper than its deepest member. -/
theorem nested_writeObject {members : List (String × List Char)}
    (nested : ∀ member ∈ members, Nested (nesting member.2) member.2) :
    Nested (deepest (members.map Prod.snd) + 1) (writeObject members) := by
  have within : ∀ text ∈ members.map fun m => writeMember m.1 m.2, Nested (nesting text) text := by
    intro text among
    obtain ⟨member, listed, rfl⟩ := List.mem_map.mp among
    rw [nesting_writeMember (nested member listed)]
    exact nested_writeMember (nested member listed)
  have same : deepest (members.map fun m => writeMember m.1 m.2) =
      deepest (members.map Prod.snd) := by
    simp only [deepest, List.map_map]
    congr 1
    exact List.map_congr_left fun member listed => nesting_writeMember (nested member listed)
  rw [writeObject, intercalate_eq_joined, ← same]
  exact nested_enclosed (.inr rfl) (.inr rfl) within

end IntBackend.Json
