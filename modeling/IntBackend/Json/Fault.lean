/-
# IntBackend.Json.Fault — why a text is not the expected document

A text fails in one of three ways: it is not JSON (`malformed`), it ends before
the value does (`truncated`), or it is JSON of another kind than asked for. The
last way has four causes, three of which name what they are about.
-/

namespace IntBackend.Json

set_option autoImplicit false

inductive Category where
  | malformed
  | truncated
  | mismatched
  deriving DecidableEq, Repr

def Category.name : Category → String
  | .malformed => "syntax"
  | .truncated => "eof"
  | .mismatched => "data"

inductive Fault where
  | malformed
  | truncated
  | mismatch
  | missingField (field : String)
  | duplicateField (field : String)
  | unknownVariant (variant : String) (expected : List String)
  deriving DecidableEq, Repr

namespace Fault

def category : Fault → Category
  | .malformed => .malformed
  | .truncated => .truncated
  | .mismatch | .missingField _ | .duplicateField _ | .unknownVariant .. => .mismatched

def quoted (name : String) : String := "`" ++ name ++ "`"

/-- One allowed name stands alone; several are listed in declared order. -/
def expectation : List String → String
  | [name] => "expected " ++ quoted name
  | names => "expected one of " ++ ", ".intercalate (names.map quoted)

/-- The causes that name a field or a variant come with a text. -/
def message? : Fault → Option String
  | .malformed | .truncated | .mismatch => none
  | .missingField field => some ("missing field " ++ quoted field)
  | .duplicateField field => some ("duplicate field " ++ quoted field)
  | .unknownVariant variant expected =>
      some ("unknown variant " ++ quoted variant ++ ", " ++ expectation expected)

end Fault

end IntBackend.Json
