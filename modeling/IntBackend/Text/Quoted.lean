/-
# IntBackend.Text.Quoted — a text in double quotes

The quote, the backslash, NUL, tab, line feed and carriage return have escapes
of their own; a character that would not show is given by its code point.
-/
import IntBackend.Text.Visible

namespace IntBackend.Text

set_option autoImplicit false

def escapeChar (c : Char) : String :=
  match c with
  | '\x00' => "\\0"
  | '\t' => "\\t"
  | '\r' => "\\r"
  | '\n' => "\\n"
  | '"' => "\\\""
  | '\\' => "\\\\"
  | c =>
      if isVisible c then String.singleton c
      else "\\u\x7b" ++ String.ofList (Nat.toDigits 16 c.toNat) ++ "\x7d"

def quote (s : String) : String :=
  "\"" ++ String.join (s.toList.map escapeChar) ++ "\""

end IntBackend.Text
