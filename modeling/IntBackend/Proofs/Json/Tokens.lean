/-
# IntBackend.Proofs.Json.Tokens — what stands between values

Blanks may stand before every mark. What separates an entry of an array or object from
the bracket or entry before it is blanks, with a comma among them unless it is the first.
After such a separation, and at the closing mark, no numeral goes on.
-/
import IntBackend.Json.Grammar
import IntBackend.Json.Write
import IntBackend.Proofs.Json.Numerals

namespace IntBackend.Json

set_option autoImplicit false

/-! ## Blanks -/

/-- Nothing but blanks. -/
def Blanks (s : List Char) : Prop := ∀ c ∈ s, isBlank c = true

theorem blanks_nil : Blanks [] := by simp [Blanks]

/-- Blanks are skipped up to the first character that is none. -/
theorem skipBlank_blanks {ws : List Char} (blanks : Blanks ws) {c : Char}
    (solid : isBlank c = false) (s : List Char) : skipBlank (ws ++ c :: s) = c :: s := by
  rw [skipBlank, List.dropWhile_append_of_pos blanks]
  simp [solid]

theorem mark_blanks {ws : List Char} (blanks : Blanks ws) {c : Char} (solid : isBlank c = false)
    (s : List Char) : mark c (ws ++ c :: s) = .ok s := by
  rw [mark, skipBlank_blanks blanks solid]
  simp [expect]

theorem skipBlank_eq_nil {ws : List Char} (blanks : Blanks ws) : skipBlank ws = [] := by
  rw [skipBlank, ← List.append_nil ws, List.dropWhile_append_of_pos blanks, List.dropWhile_nil]

theorem stops_nil : Stops [] := by simp [Stops]

/-- No numeral goes on with a blank. -/
theorem Blanks.stops {ws : List Char} (blanks : Blanks ws) : Stops ws := by
  cases ws with
  | nil => exact stops_nil
  | cons b ws =>
      have blank := blanks b (List.mem_cons_self ..)
      simp only [isBlank, Bool.or_eq_true, beq_iff_eq] at blank
      intro d first
      cases first
      rcases blank with ((rfl | rfl) | rfl) | rfl <;> decide

/-- A mark that closes or separates ends a numeral, and so do blanks before it. -/
theorem stops_blanks {ws : List Char} (blanks : Blanks ws) {c : Char} (stops : Stops [c])
    (s : List Char) : Stops (ws ++ c :: s) := by
  cases ws with
  | nil => exact stops
  | cons b ws => exact fun d first => blanks.stops d first

theorem stops_comma : Stops [','] := by simp [Stops]

theorem stops_bracket : Stops [']'] := by simp [Stops]

theorem stops_brace : Stops ['}'] := by simp [Stops]

/-! ## Separations -/

/-- What stands before an entry: blanks, and a comma unless it is the first one. -/
inductive Separates : (first : Bool) → List Char → Prop
  | first {ws : List Char} (blanks : Blanks ws) : Separates true ws
  | next {ws after : List Char} (blanks : Blanks ws) (blanksAfter : Blanks after) :
      Separates false (ws ++ ',' :: after)

/-- The text of a value starts with a character that is neither blank nor closes an array. -/
def Starts (text : List Char) : Prop :=
  ∃ c s, text = c :: s ∧ isBlank c = false ∧ c ≠ ']'

variable {first : Bool} {sep : List Char}

theorem Separates.stops (separates : Separates false sep) (s : List Char) : Stops (sep ++ s) := by
  cases separates with
  | next blanks blanksAfter =>
      rw [List.append_assoc]
      exact stops_blanks blanks stops_comma _

theorem nextItem_comma {ws : List Char} (blanks : Blanks ws) (s : List Char) :
    nextItem false (ws ++ ',' :: s) =
      match skipBlank s with
      | [] => .error .truncated
      | ']' :: _ => .error .malformed
      | rest => .ok (.entry rest) := by
  rw [nextItem, skipBlank_blanks blanks (by decide)]
  rfl

/-- Behind blanks and a comma the next item starts. -/
theorem nextItem_entry (separates : Separates first sep) {text : List Char} (starts : Starts text)
    (rest : List Char) : nextItem first (sep ++ (text ++ rest)) = .ok (.entry (text ++ rest)) := by
  obtain ⟨c, s, rfl, solid, inside⟩ := starts
  cases separates with
  | first blanks =>
      rw [nextItem, List.cons_append, skipBlank_blanks blanks solid]
      simp
  | next blanks blanksAfter =>
      rw [List.append_assoc, List.cons_append, nextItem_comma blanks, List.cons_append,
        skipBlank_blanks blanksAfter solid]
      simp [inside]

theorem nextItem_done {ws : List Char} (blanks : Blanks ws) (rest : List Char) :
    nextItem first (ws ++ ']' :: rest) = .ok (.done rest) := by
  rw [nextItem, skipBlank_blanks blanks (by decide)]
  rfl

/-- Behind blanks and a comma the name of the next member starts. -/
theorem nextMember_entry (separates : Separates first sep) (rest : List Char) :
    nextMember first (sep ++ '"' :: rest) = .ok (.entry rest) := by
  cases separates with
  | first blanks =>
      rw [nextMember, skipBlank_blanks blanks (by decide)]
      rfl
  | @next ws after blanks blanksAfter =>
      rw [nextMember, List.append_assoc, List.cons_append, skipBlank_blanks blanks (by decide)]
      show (mark '"' (after ++ '"' :: rest) >>= fun rest => Except.ok (Next.entry rest)) = _
      rw [mark_blanks blanksAfter (by decide)]
      rfl

/-- A closing brace ends the members, also where none has been read. -/
theorem nextMember_done {ws : List Char} (blanks : Blanks ws) (rest : List Char) :
    nextMember first (ws ++ '}' :: rest) = .ok (.done rest) := by
  rw [nextMember, skipBlank_blanks blanks (by decide)]
  rfl

theorem starts_of_startsNumeral {c : Char} (numeral : startsNumeral c = true) :
    isBlank c = false ∧ c ≠ ']' ∧ c ≠ 'n' := by
  refine ⟨?_, ?_, ?_⟩
  · refine Bool.eq_false_iff.mpr fun blank => ?_
    simp only [isBlank, Bool.or_eq_true, beq_iff_eq] at blank
    rcases blank with ((rfl | rfl) | rfl) | rfl <;> simp [startsNumeral] at numeral
  · rintro rfl
    simp [startsNumeral] at numeral
  · rintro rfl
    simp [startsNumeral] at numeral

end IntBackend.Json
