/-
# IntBackend.Json.Skip — passing over a value

A value that nobody asked for is still checked against the grammar of JSON, but
it may be nested to any depth, its numbers may have any size and its literals
are read loosely. The arrays and objects still open are kept on a stack.
-/
import IntBackend.Json.Text
import IntBackend.Json.Numeral

namespace IntBackend.Json

set_option autoImplicit false

inductive Bracket where
  | array
  | object
  deriving DecidableEq, Repr

/-- Before a value, or after one. -/
inductive Phase where
  | value
  | follow
  deriving DecidableEq, Repr

/-- The key of a member and its colon. -/
def skipKey (s : List Char) : Except Fault (List Char) := do
  let s ← mark '"' s
  let s ← skipText s
  mark ':' s

/-- A literal, a numeral or a keyword, at the front of the text. -/
def skipScalar : List Char → Except Fault (List Char)
  | [] => .error .truncated
  | '"' :: s => skipText s
  | 'n' :: s => keyword ['u', 'l', 'l'] s
  | 't' :: s => keyword ['r', 'u', 'e'] s
  | 'f' :: s => keyword ['a', 'l', 's', 'e'] s
  | c :: s => if startsNumeral c then skipNumeral (c :: s) else .error .malformed

/-- Passes over what is left of a value inside the open brackets, in at most as
many steps as `bound` has characters. Each step takes a character. -/
def skipSteps : (bound : List Char) → Phase → List Bracket → List Char →
    Except Fault (List Char)
  | _, .follow, [], s => .ok s
  | [], _, _, _ => .error .truncated
  | _ :: bound, .value, stack, s =>
      match skipBlank s with
      | '[' :: s =>
          match skipBlank s with
          | ']' :: s => skipSteps bound .follow stack s
          | s => skipSteps bound .value (.array :: stack) s
      | '{' :: s =>
          match skipBlank s with
          | '}' :: s => skipSteps bound .follow stack s
          | s => do skipSteps bound .value (.object :: stack) (← skipKey s)
      | s => do skipSteps bound .follow stack (← skipScalar s)
  | _ :: bound, .follow, .array :: stack, s =>
      match skipBlank s with
      | [] => .error .truncated
      | ']' :: s => skipSteps bound .follow stack s
      | ',' :: s => skipSteps bound .value (.array :: stack) s
      | _ => .error .malformed
  | _ :: bound, .follow, .object :: stack, s =>
      match skipBlank s with
      | [] => .error .truncated
      | '}' :: s => skipSteps bound .follow stack s
      | ',' :: s => do skipSteps bound .value (.object :: stack) (← skipKey s)
      | _ => .error .malformed

def skipValue (s : List Char) : Except Fault (List Char) :=
  skipSteps s .value [] s

end IntBackend.Json
