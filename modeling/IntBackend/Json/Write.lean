/-
# IntBackend.Json.Write — compact texts

Arrays, objects and null without blanks. Items and members stand in the order in
which they are given.
-/
import IntBackend.Json.Text

namespace IntBackend.Json

set_option autoImplicit false

def writeArray (items : List (List Char)) : List Char :=
  '[' :: (List.intercalate [','] items ++ [']'])

def writeMember (name : String) (value : List Char) : List Char :=
  writeText name ++ ':' :: value

def writeObject (members : List (String × List Char)) : List Char :=
  '{' :: (List.intercalate [','] (members.map fun m => writeMember m.1 m.2) ++ ['}'])

def writeNull : List Char := ['n', 'u', 'l', 'l']

end IntBackend.Json
