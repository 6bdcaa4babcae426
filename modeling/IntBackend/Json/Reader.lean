/-
# IntBackend.Json.Reader — reading off the front of a text

A reader takes a value off the front of a text and leaves the rest. This module
holds what lies between values: blanks, keywords, and the marks that separate
and close the items of arrays and the members of objects. A mark that is missing
because the text has ended is a truncation, any other surprise is malformed.
-/
import IntBackend.Json.Fault

namespace IntBackend.Json

set_option autoImplicit false

/-- Takes a value off the front of a text and leaves the rest. -/
abbrev Reader (α : Type) := List Char → Except Fault (α × List Char)

/-- JSON knows four blanks: space, tab, line feed and carriage return. -/
def isBlank (c : Char) : Bool :=
  c == ' ' || c == '\t' || c == '\n' || c == '\r'

def skipBlank (s : List Char) : List Char := s.dropWhile isBlank

/-- Exactly the character `c` comes next. -/
def expect (c : Char) : List Char → Except Fault (List Char)
  | [] => .error .truncated
  | d :: s => if d = c then .ok s else .error .malformed

/-- The characters of a keyword come next, one after the other. -/
def keyword : List Char → List Char → Except Fault (List Char)
  | [], s => .ok s
  | c :: cs, s => do keyword cs (← expect c s)

/-- The mark `c` comes next, after blanks. -/
def mark (c : Char) (s : List Char) : Except Fault (List Char) :=
  expect c (skipBlank s)

/-- What comes next inside an array or object: its end, with the text after the
closing mark, or one more entry, with the text where it starts. -/
inductive Next where
  | done (rest : List Char)
  | entry (rest : List Char)
  deriving Repr

/-- The next item of an array. Between items stands a comma, and a comma is
followed by an item. -/
def nextItem (first : Bool) (s : List Char) : Except Fault Next :=
  match skipBlank s with
  | [] => .error .truncated
  | ']' :: rest => .ok (.done rest)
  | c :: rest =>
      if first then .ok (.entry (c :: rest))
      else if c = ',' then
        match skipBlank rest with
        | [] => .error .truncated
        | ']' :: _ => .error .malformed
        | rest => .ok (.entry rest)
      else .error .malformed

/-- The next member of an object, past the quote that opens its key. -/
def nextMember (first : Bool) (s : List Char) : Except Fault Next :=
  match skipBlank s with
  | [] => .error .truncated
  | '}' :: rest => .ok (.done rest)
  | c :: rest =>
      if first then
        if c = '"' then .ok (.entry rest) else .error .malformed
      else if c = ',' then do
        let rest ← mark '"' rest
        .ok (.entry rest)
      else .error .malformed

end IntBackend.Json
