/-
# IntBackend.Json.Grammar — reading documents by kind

A grammar gives every kind of document a production: the shape its JSON has and
how the parts make a value. One reader then serves all kinds.

* A record is an object whose members stand in any order, or an array of its
  fields in declared order. Members of other names are passed over. A repeated
  field is noticed at its key, a missing one at the closing brace, where a field
  that may be null counts as null.
* A choice is an object with one member, named for the case, or, for a case
  that holds nothing, its bare name.
* A kind that may be null says what null means.

Reading goes from left to right and reports the first fault. The reader opens at
most `depthLimit` arrays and objects inside each other; values that are passed
over do not count.
-/
import IntBackend.Json.Skip

namespace IntBackend.Json

set_option autoImplicit false

variable {κ : Type}

/-- A field of a record, or of an array of fixed length: its name and its kind. -/
abbrev Field (κ : Type) := String × κ

/-- One value for every field. -/
@[reducible] def Row (El : κ → Type) : List (Field κ) → Type
  | [] => Unit
  | field :: fields => El field.2 × Row El fields

/-- For every field a value, or none yet. -/
@[reducible] def Slots (El : κ → Type) : List (Field κ) → Type
  | [] => Unit
  | field :: fields => Option (El field.2) × Slots El fields

/-- A case of a choice: it holds nothing, or a value of some kind. -/
inductive Case (El : κ → Type) (α : Type) where
  | unit (name : String) (value : α)
  | holding (name : String) (kind : κ) (make : El kind → α)

inductive Shape (El : κ → Type) (α : Type) where
  | text (make : String → α)
  | int32 (make : Int32 → α)
  | list (kind : κ) (make : List (El kind) → α)
  | tuple (fields : List (Field κ)) (make : Row El fields → α)
  | record (fields : List (Field κ)) (make : Row El fields → α)
  | choice (cases : List (Case El α))

/-- What the documents of a kind look like; `null?` is what null means, if it may stand there. -/
structure Production (El : κ → Type) (α : Type) where
  shape : Shape El α
  null? : Option α

abbrev Grammar (El : κ → Type) := (k : κ) → Production El (El k)

def Case.name {El : κ → Type} {α : Type} : Case El α → String
  | .unit name _ => name
  | .holding name _ _ => name

/-! ## Arrays -/

/-- The items of an array after its bracket, in at most as many steps as `bound`
has characters. Each step takes a character. -/
def readItems {α : Type} (item : Reader α) : (bound : List Char) → Bool → Reader (List α)
  | [], _, _ => .error .truncated
  | _ :: bound, first, s => do
      match ← nextItem first s with
      | .done rest => .ok ([], rest)
      | .entry s =>
          let (v, s) ← item s
          let (vs, s) ← readItems item bound false s
          .ok (v :: vs, s)

variable {El : κ → Type}

/-- One item for every field, and then the end of the array. -/
def readRow (read : (k : κ) → Reader (El k)) :
    (fields : List (Field κ)) → Bool → Reader (Row El fields)
  | [], _, s => do
      let s ← mark ']' s
      .ok ((), s)
  | (_, k) :: fields, first, s => do
      match ← nextItem first s with
      | .done _ => .error .mismatch
      | .entry s =>
          let (v, s) ← read k s
          let (vs, s) ← readRow read fields false s
          .ok ((v, vs), s)

/-! ## Objects -/

def Slots.empty (El : κ → Type) : (fields : List (Field κ)) → Slots El fields
  | [] => ()
  | _ :: fields => (none, Slots.empty El fields)

/-- Reads the value of the member `key` into its slot; `none` if no field has that name. -/
def readMember (read : (k : κ) → Reader (El k)) (key : String) :
    (fields : List (Field κ)) → Slots El fields → List Char →
      Except Fault (Option (Slots El fields × List Char))
  | [], _, _ => .ok none
  | (name, k) :: fields, (slot, slots), s =>
      if key = name then
        match slot with
        | some _ => .error (.duplicateField name)
        | none => do
            let s ← mark ':' s
            let (v, s) ← read k s
            .ok (some ((some v, slots), s))
      else do
        match ← readMember read key fields slots s with
        | some (slots, s) => .ok (some ((slot, slots), s))
        | none => .ok none

/-- A field of another name keeps its slot. -/
theorem readMember_other {read : (k : κ) → Reader (El k)} {key name : String} (other : key ≠ name)
    {k : κ} {fields : List (Field κ)} (slot : Option (El k)) (slots : Slots El fields)
    (s : List Char) :
    readMember read key ((name, k) :: fields) (slot, slots) s =
      (do match ← readMember read key fields slots s with
          | some (slots, s) => .ok (some ((slot, slots), s))
          | none => .ok none) := by
  cases slot <;> rw [readMember, if_neg other]

/-- The members of an object after its brace, in at most as many steps as `bound`
has characters. -/
def readMembers (read : (k : κ) → Reader (El k)) (fields : List (Field κ)) :
    (bound : List Char) → Bool → Slots El fields → Reader (Slots El fields)
  | [], _, _, _ => .error .truncated
  | _ :: bound, first, slots, s => do
      match ← nextMember first s with
      | .done rest => .ok (slots, rest)
      | .entry s =>
          let (key, s) ← readText s
          match ← readMember read key fields slots s with
          | some (slots, s) => readMembers read fields bound false slots s
          | none =>
              let s ← mark ':' s
              let s ← skipValue s
              readMembers read fields bound false slots s

/-- The row of a finished object: what its slots hold, and what null means in the empty ones. -/
def completeRow (grammar : Grammar El) :
    (fields : List (Field κ)) → Slots El fields → Except Fault (Row El fields)
  | [], _ => .ok ()
  | (name, k) :: fields, (slot, slots) => do
      let v ← match slot, (grammar k).null? with
        | some v, _ => .ok v
        | none, some v => .ok v
        | none, none => .error (.missingField name)
      let vs ← completeRow grammar fields slots
      .ok (v, vs)

/-! ## Choices -/

variable {α : Type}

/-- The case of that name. -/
def pickCase (cases : List (Case El α)) (name : String) : Except Fault (Case El α) :=
  match cases.find? fun c => c.name == name with
  | some c => .ok c
  | none => .error (.unknownVariant name (cases.map Case.name))

/-- The fault of a value of another kind. A word, numeral or literal is read to
its end first, so a fault inside it comes before the mismatch. -/
def wrongKind (s : List Char) : Fault :=
  let verdict : {β : Type} → Except Fault β → Fault := fun
    | .ok _ => .mismatch
    | .error fault => fault
  match s with
  | [] => .truncated
  | 'n' :: s => verdict (keyword ['u', 'l', 'l'] s)
  | 't' :: s => verdict (keyword ['r', 'u', 'e'] s)
  | 'f' :: s => verdict (keyword ['a', 'l', 's', 'e'] s)
  | '"' :: s => verdict (readText s)
  | '[' :: _ => .mismatch
  | '{' :: _ => .mismatch
  | c :: s => if startsNumeral c then verdict (readNumeral (c :: s)) else .malformed

/-- What a case that holds nothing holds when it is written as an object. -/
def readNull (s : List Char) : Except Fault (List Char) :=
  match skipBlank s with
  | 'n' :: s => keyword ['u', 'l', 'l'] s
  | s => .error (wrongKind s)

/-- What the member of a case holds, from its colon to the closing brace. -/
def readHeld (read : (k : κ) → Reader (El k)) : Case El α → Reader α
  | .unit _ value, s => do
      let s ← mark ':' s
      let s ← readNull s
      let s ← mark '}' s
      .ok (value, s)
  | .holding _ kind make, s => do
      let s ← mark ':' s
      let (v, s) ← read kind s
      let s ← mark '}' s
      .ok (make v, s)

/-- A choice written as an object, after its brace. The name of the case has to be a text:
any other value in its place is malformed, however it goes on. -/
def readTagged (read : (k : κ) → Reader (El k)) (cases : List (Case El α)) : Reader α :=
  fun s => do
    let s ← mark '"' s
    let (name, s) ← readText s
    let case ← pickCase cases name
    readHeld read case s

/-- A choice written as a bare name, after its quote. -/
def readBare (cases : List (Case El α)) : Reader α := fun s => do
  let (name, s) ← readText s
  match ← pickCase cases name with
  | .unit _ value => .ok (value, s)
  | .holding .. => .error .mismatch

/-! ## Documents -/

/-- How to read inside one more bracket, if one more may be opened. -/
abbrev Inner (El : κ → Type) := Option ((k : κ) → Reader (El k))

def Inner.enter (inner : Inner El) : Except Fault ((k : κ) → Reader (El k)) :=
  match inner with
  | some read => .ok read
  | none => .error .malformed

/-- A value of a shape, after blanks. What may stand where the value is to start
depends on the shape alone; a choice that starts with neither brace nor quote is
malformed, whatever stands there. -/
def Shape.read (grammar : Grammar El) (inner : Inner El) : Shape El α → Reader α
  | .text make, s =>
      match skipBlank s with
      | '"' :: s => do
          let (t, s) ← readText s
          .ok (make t, s)
      | s => .error (wrongKind s)
  | .int32 make, s =>
      match skipBlank s with
      | [] => .error .truncated
      | c :: s =>
          if startsNumeral c then do
            let (n, s) ← readInt32 (c :: s)
            .ok (make n, s)
          else .error (wrongKind (c :: s))
  | .list kind make, s =>
      match skipBlank s with
      | '[' :: s => do
          let read ← inner.enter
          let (vs, s) ← readItems (read kind) s true s
          .ok (make vs, s)
      | s => .error (wrongKind s)
  | .tuple fields make, s =>
      match skipBlank s with
      | '[' :: s => do
          let read ← inner.enter
          let (row, s) ← readRow read fields true s
          .ok (make row, s)
      | s => .error (wrongKind s)
  | .record fields make, s =>
      match skipBlank s with
      | '[' :: s => do
          let read ← inner.enter
          let (row, s) ← readRow read fields true s
          .ok (make row, s)
      | '{' :: s => do
          let read ← inner.enter
          let (slots, s) ← readMembers read fields s true (Slots.empty El fields) s
          let row ← completeRow grammar fields slots
          .ok (make row, s)
      | s => .error (wrongKind s)
  | .choice cases, s =>
      match skipBlank s with
      | [] => .error .truncated
      | '"' :: s => readBare cases s
      | '{' :: s => do
          let read ← inner.enter
          readTagged read cases s
      | _ => .error .malformed

def Production.read (grammar : Grammar El) (inner : Inner El) (production : Production El α) :
    Reader α :=
  fun s =>
    match production.null? with
    | none => production.shape.read grammar inner s
    | some value =>
        match skipBlank s with
        | 'n' :: s => do
            let s ← keyword ['u', 'l', 'l'] s
            .ok (value, s)
        | s => production.shape.read grammar inner s

/-- A value of a kind, with at most `depth` arrays and objects inside each other. -/
def Grammar.read (grammar : Grammar El) : (depth : Nat) → (k : κ) → Reader (El k)
  | 0, k => (grammar k).read grammar none
  | depth + 1, k => (grammar k).read grammar (some (Grammar.read grammar depth))

def depthLimit : Nat := 127

/-- A whole text: one value, and nothing but blanks after it. -/
def Grammar.document (grammar : Grammar El) (k : κ) (s : List Char) : Except Fault (El k) := do
  let (value, rest) ← Grammar.read grammar depthLimit k s
  if (skipBlank rest).isEmpty then .ok value else .error .malformed

end IntBackend.Json
