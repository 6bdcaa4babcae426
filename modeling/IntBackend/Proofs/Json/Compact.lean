/-
# IntBackend.Proofs.Json.Compact — one text for each value

A grammar is `WrittenBy` a family of writers if they write what its productions say:
arrays, objects and bare names without blanks, the fields of a record in declared order
and none left out. The text of a value is then one of those that spell it, and reading it
opens as many brackets as are open in it at once.

A reader never gives a value whose text is nested deeper than the brackets that it may
open, whatever it was read from. So what can be read at all can be written and read again.
-/
import IntBackend.Proofs.Json.Made
import IntBackend.Proofs.Json.Nesting
import IntBackend.Proofs.Json.Spelling

namespace IntBackend.Json

set_option autoImplicit false

variable {κ : Type} {El : κ → Type} {α : Type}

/-! ## Writers of a grammar -/

section

variable (write : (k : κ) → El k → List Char)

/-- The members of a record in declared order. -/
def Row.members : (fields : List (Field κ)) → Row El fields → List (String × List Char)
  | [], _ => []
  | (name, k) :: fields, (v, row) => (name, write k v) :: Row.members fields row

def Row.texts (fields : List (Field κ)) (row : Row El fields) : List (List Char) :=
  (Row.members write fields row).map Prod.snd

def Case.WrittenBy (own : α → List Char) : Case El α → Prop
  | .unit name v => own v = writeText name
  | .holding name kind make => ∀ v, own (make v) = writeObject [(name, write kind v)]

def Shape.WrittenBy (own : α → List Char) : Shape El α → Prop
  | .text make => ∀ t, own (make t) = writeText t
  | .int32 make => ∀ i, own (make i) = writeInt i.toInt
  | .list kind make => ∀ vs, own (make vs) = writeArray (vs.map (write kind))
  | .tuple fields make => ∀ row, own (make row) = writeArray (Row.texts write fields row)
  | .record fields make =>
      (fields.map Prod.fst).Nodup ∧
        ∀ row, own (make row) = writeObject (Row.members write fields row)
  | .choice cases =>
      (cases.map Case.name).Nodup ∧ ∀ case ∈ cases, case.WrittenBy write own

structure Production.WrittenBy (own : α → List Char) (production : Production El α) : Prop where
  shape : production.shape.WrittenBy write own
  null : ∀ v, production.null? = some v → own v = writeNull

def Grammar.WrittenBy (grammar : Grammar El) : Prop :=
  ∀ k, (grammar k).WrittenBy write (write k)

/-- The text of a value spells it, and is nested as deep as reading it goes. -/
structure Grammar.Canonical (grammar : Grammar El) (k : κ) (v : El k) : Prop where
  nested : Nested (nesting (write k v)) (write k v)
  spelled : grammar.Spells k v (write k v) (nesting (write k v)) none

end

variable {grammar : Grammar El} {write : (k : κ) → El k → List Char}

/-! ## Compact texts spell -/

theorem separates_comma (first : Bool) : Separates first (if first then [] else [',']) := by
  cases first with
  | true => exact .first blanks_nil
  | false => exact .next blanks_nil blanks_nil

/-- Items with nothing but commas between them spell a list. -/
theorem spellsItems_joined {kind : κ} {vs : List (El kind)}
    (each : ∀ v ∈ vs, grammar.Canonical write kind v) (first : Bool) :
    SpellsItems (grammar.Spells kind) first vs (joined first (vs.map (write kind)))
      (deepest (vs.map (write kind))) none := by
  induction vs generalizing first with
  | nil => exact .done blanks_nil
  | cons v vs ih =>
      exact .item (separates_comma first) (each v (List.mem_cons_self ..)).spelled
        (ih (fun w among => each w (List.mem_cons_of_mem _ among)) false)

/-- Fields in declared order with nothing but commas between them spell a row. -/
theorem spellsRow_joined (fields : List (Field κ)) {row : Row El fields}
    (each : Row.All (grammar.Canonical write) fields row) (first : Bool) :
    SpellsRow grammar.Spells fields first row (joined first (Row.texts write fields row))
      (deepest (Row.texts write fields row)) none := by
  induction fields generalizing first with
  | nil => exact .done blanks_nil
  | cons field fields ih =>
      exact .item (separates_comma first) each.1.spelled (ih each.2 false)

/-- The fields of a record that are still to come after those of the names `seen`. -/
structure Remains (all : List (Field κ)) (whole : Row El all) (seen : List String)
    (fields : List (Field κ)) (row : Row El fields) : Prop where
  distinct : (fields.map Prod.fst).Nodup
  has : ∀ {name k v}, Row.Has name k v fields row → Row.Has name k v all whole
  unseen : ∀ name ∈ fields.map Prod.fst, name ∉ seen
  covered : ∀ name ∈ all.map Prod.fst, name ∈ seen ∨ name ∈ fields.map Prod.fst

theorem remains_all {fields : List (Field κ)} (distinct : (fields.map Prod.fst).Nodup)
    (row : Row El fields) : Remains fields row [] fields row :=
  ⟨distinct, id, by simp, fun _ listed => .inr listed⟩

theorem Remains.next {all : List (Field κ)} {whole : Row El all} {seen : List String}
    {field : Field κ} {fields : List (Field κ)} {v : El field.2} {row : Row El fields}
    (remains : Remains all whole seen (field :: fields) (v, row)) :
    Remains all whole (field.1 :: seen) fields row := by
  obtain ⟨absent, distinct⟩ := List.nodup_cons.mp remains.distinct
  refine ⟨distinct, fun has => remains.has (.there has), fun name listed => ?_,
    fun name listed => ?_⟩
  · have old := remains.unseen name (List.mem_cons_of_mem _ listed)
    have other : name ≠ field.1 := fun same => absent (same ▸ listed)
    simp [other, old]
  · rcases remains.covered name listed with earlier | listed
    · exact .inl (List.mem_cons_of_mem _ earlier)
    · rcases List.mem_cons.mp listed with rfl | listed
      · exact .inl (List.mem_cons_self ..)
      · exact .inr listed

theorem keyed_writeText (key : String) : Keyed key (writeText key ++ ([] ++ [':'])) :=
  ⟨_, _, rfl, denotes_writeText key, blanks_nil⟩

/-- Members in declared order spell a record, and no name comes twice. -/
theorem spellsMembers_joined {all : List (Field κ)} {whole : Row El all} {seen : List String}
    (fields : List (Field κ)) {row : Row El fields}
    (remains : Remains all whole seen fields row)
    (each : Row.All (grammar.Canonical write) fields row) (first : Bool) :
    SpellsMembers grammar.Spells grammar all whole first seen
      (joined first ((Row.members write fields row).map fun m => writeMember m.1 m.2))
      (deepest (Row.texts write fields row)) none := by
  induction fields generalizing first seen with
  | nil =>
      refine .done blanks_nil fun name k v has absent => ?_
      rcases remains.covered name has.mem with earlier | listed
      · exact absurd earlier absent
      · cases listed
  | cons field fields ih =>
      obtain ⟨v, row⟩ := row
      have member := SpellsMembers.known (separates_comma first) (keyed_writeText field.1)
        blanks_nil (remains.has .here) (remains.unseen field.1 (List.mem_cons_self ..))
        each.1.spelled (ih remains.next each.2 false)
      simpa [Row.members, Row.texts, joined, writeMember, deepest] using member

/-- An object with one member is the text of a case that holds something. -/
theorem tagged_writeObject (name : String) (text : List Char) :
    Tagged name text (writeObject [(name, text)]) :=
  ⟨[], _, [], [], by simp [writeObject, writeMember, List.intercalate], blanks_nil,
    keyed_writeText name, blanks_nil, blanks_nil⟩

/-! ## Canonical values -/

theorem Row.texts_all {P : List Char → Prop} (fields : List (Field κ)) {row : Row El fields}
    (each : Row.All (fun k v => P (write k v)) fields row) :
    ∀ text ∈ Row.texts write fields row, P text := by
  induction fields with
  | nil => exact nofun
  | cons field fields ih =>
      intro text among
      rcases List.mem_cons.mp among with rfl | among
      · exact each.1
      · exact ih each.2 text among

theorem Row.All.mono {P Q : (k : κ) → El k → Prop} (weaker : ∀ k v, P k v → Q k v)
    (fields : List (Field κ)) {row : Row El fields} (each : Row.All P fields row) :
    Row.All Q fields row := by
  induction fields with
  | nil => trivial
  | cons field fields ih => exact ⟨weaker _ _ each.1, ih each.2⟩

theorem deepest_singleton (text : List Char) : deepest [text] = nesting text := by
  simp [deepest]

theorem deepest_lt {texts : List (List Char)} {depth : Nat} (positive : 0 < depth)
    (each : ∀ text ∈ texts, nesting text < depth) : deepest texts < depth := by
  induction texts with
  | nil => exact positive
  | cons text texts ih =>
      have own := each text (List.mem_cons_self ..)
      have others := ih fun t among => each t (List.mem_cons_of_mem _ among)
      exact Nat.max_lt.mpr ⟨own, others⟩

/-- A value with parts takes a bracket, and its parts are nested less deep than `depth`. -/
def Parts.Below (parts : Parts El) (write : (k : κ) → El k → List Char) (depth : Nat) : Prop :=
  ∀ P, parts = some P → 0 < depth ∧ ∀ k v, P k v → nesting (write k v) < depth

/-- A text that spells what it should, with as many brackets open at once as reading it takes, and
within any limit that its parts are below. -/
def Compact (write : (k : κ) → El k → List Char) (parts : Parts El)
    (spells : List Char → Nat → Prop) (text : List Char) : Prop :=
  ∃ n, Nested n text ∧ spells text n ∧ ∀ depth, parts.Below write depth → n ≤ depth

theorem Compact.flat {parts : Parts El} {spells : List Char → Nat → Prop} {text : List Char}
    (nested : Nested 0 text) (spelled : spells text 0) : Compact write parts spells text :=
  ⟨0, nested, spelled, fun depth _ => Nat.zero_le depth⟩

theorem Compact.enclosed {P : (k : κ) → El k → Prop} {spells : List Char → Nat → Prop}
    {text : List Char} {texts : List (List Char)} (nested : Nested (deepest texts + 1) text)
    (spelled : spells text (deepest texts + 1))
    (less : ∀ depth, (∀ k v, P k v → nesting (write k v) < depth) →
      ∀ t ∈ texts, nesting t < depth) : Compact write (some P) spells text := by
  refine ⟨_, nested, spelled, ?_⟩
  intro depth below
  obtain ⟨positive, parts⟩ := below P rfl
  exact deepest_lt positive (less depth parts)

/-- What is made of canonical parts has a compact text. -/
theorem Shape.Made.compact {parts : Parts El} {shape : Shape El α} {v : α} {own : α → List Char}
    (made : shape.Made parts v) (grammar : Grammar El) (written : shape.WrittenBy write own)
    (canonical : ∀ P, parts = some P → ∀ k v, P k v → grammar.Canonical write k v) :
    Compact write parts (fun text n => shape.Spells grammar.Spells grammar v text n none)
      (own v) := by
  cases made with
  | text t =>
      rw [written t]
      exact .flat (nested_writeText t) (.text (denotes_writeText t))
  | int32 i =>
      rw [written i]
      exact .flat (nested_writeInt i.toInt) (.int32 i)
  | @list P kind make vs each =>
      have parts : ∀ v ∈ vs, grammar.Canonical write kind v :=
        fun v among => canonical P rfl kind v (each v among)
      rw [written vs]
      refine .enclosed (nested_writeArray ?_) ?_ ?_
      · exact List.forall_mem_map.mpr fun v among => (parts v among).nested
      · rw [writeArray, intercalate_eq_joined]
        exact .list (spellsItems_joined parts true)
      · intro depth less
        exact List.forall_mem_map.mpr fun v among => less kind v (each v among)
  | @tuple P fields make _ row each same =>
      subst same
      have parts := each.mono (canonical P rfl) fields
      rw [written row]
      refine .enclosed (nested_writeArray ?_) ?_ ?_
      · exact Row.texts_all fields (parts.mono (fun k v part => part.nested) fields)
      · rw [writeArray, intercalate_eq_joined]
        exact .tuple (spellsRow_joined fields parts true)
      · intro depth less
        exact Row.texts_all fields (each.mono less fields)
  | @record P fields make _ row each same =>
      subst same
      have parts := each.mono (canonical P rfl) fields
      obtain ⟨distinct, written⟩ := written
      rw [written row]
      refine .enclosed (nested_writeObject ?_) ?_ ?_
      · have nested : ∀ text ∈ Row.texts write fields row, Nested (nesting text) text :=
          Row.texts_all fields (parts.mono (fun k v part => part.nested) fields)
        exact fun member listed => nested _ (List.mem_map_of_mem listed)
      · rw [writeObject, intercalate_eq_joined]
        exact .object (spellsMembers_joined fields (remains_all distinct row) parts true)
      · intro depth less
        exact Row.texts_all fields (each.mono less fields)
  | @unit parts cases name v listed =>
      obtain ⟨distinct, written⟩ := written
      have text : own v = writeText name := written _ listed
      rw [text]
      exact .flat (nested_writeText name) (.bare listed (denotes_writeText name))
  | @holding P cases name kind make part _ listed held same =>
      subst same
      obtain ⟨distinct, written⟩ := written
      have text : own (make part) = writeObject [(name, write kind part)] := written _ listed part
      have within := canonical P rfl kind part held
      rw [text]
      refine .enclosed (nested_writeObject ?_) ?_ ?_
      · simpa using within.nested
      · have spelled := within.spelled
        rw [← deepest_singleton] at spelled
        exact .holding listed spelled (tagged_writeObject name _)
      · intro depth less
        simpa using less kind part held

/-- The text of a value is compact if those of its parts are canonical. -/
theorem Production.Made.compact {parts : Parts El} {production : Production El α} {v : α}
    {own : α → List Char} (made : production.Made parts v) (grammar : Grammar El)
    (written : production.WrittenBy write own)
    (canonical : ∀ P, parts = some P → ∀ k v, P k v → grammar.Canonical write k v) :
    Compact write parts (fun text n => production.Spells grammar.Spells grammar v text n none)
      (own v) := by
  cases made with
  | null null =>
      rw [written.null v null]
      exact .flat nested_writeNull (.null null)
  | shaped made =>
      obtain ⟨n, nested, spelled, within⟩ := made.compact grammar written.shape canonical
      exact ⟨n, nested, .shaped spelled, within⟩

/-- A text is canonical if reading it takes the brackets that it shows. -/
theorem Grammar.Canonical.of_compact {k : κ} {v : El k} {n : Nat} (nested : Nested n (write k v))
    (spelled : (grammar k).Spells grammar.Spells grammar v (write k v) n none) :
    grammar.Canonical write k v := by
  have same := nested.nesting_eq
  subst same
  exact ⟨nested, .intro _ (fun _ _ _ _ _ spelled => spelled) spelled⟩

/-- What is made of canonical parts is canonical. -/
theorem Grammar.canonical_of_made (written : grammar.WrittenBy write) {k : κ} {v : El k}
    (made : (grammar k).Made (some (grammar.Canonical write)) v) : grammar.Canonical write k v := by
  obtain ⟨n, nested, spelled, -⟩ := made.compact grammar (written k)
    (fun P same k v part => by cases same; exact part)
  exact .of_compact nested spelled

/-! ## Reading what was written -/

theorem Grammar.WrittenBy.distinct (written : grammar.WrittenBy write) : grammar.Distinct := by
  intro k
  have shape := (written k).shape
  cases same : (grammar k).shape with
  | record fields make => exact (same ▸ shape : (Shape.record fields make).WrittenBy write _).1
  | choice cases => exact (same ▸ shape : (Shape.choice cases).WrittenBy write _).1
  | text make => trivial
  | int32 make => trivial
  | list kind make => trivial
  | tuple fields make => trivial

/-- Reading a canonical text gives its value back, within the limit, and stops behind it. -/
theorem Grammar.Canonical.read (written : grammar.WrittenBy write) {k : κ} {v : El k}
    (canonical : grammar.Canonical write k v) {rest : List Char} (stops : Stops rest)
    (depth : Nat) :
    grammar.read depth k (write k v ++ rest) = allow depth (nesting (write k v)) (v, rest) :=
  (Grammar.Spells.follows written.distinct depth k).reads canonical.spelled blanks_nil stops

/-- A canonical text read as a whole document gives its value back, within the limit. -/
theorem Grammar.Canonical.document (written : grammar.WrittenBy write) {k : κ} {v : El k}
    (canonical : grammar.Canonical write k v) :
    grammar.document k (write k v) = allow depthLimit (nesting (write k v)) v := by
  have answers := Grammar.document_spells written.distinct canonical.spelled blanks_nil blanks_nil
  rw [List.nil_append, List.append_nil] at answers
  exact answers

theorem Grammar.gives_null (written : grammar.WrittenBy write) {k : κ} {v : El k}
    (null : (grammar k).null? = some v) (depth : Nat) : Gives (grammar.read depth) k v := by
  have spelled : grammar.Spells k v writeNull 0 none :=
    .intro (fun _ _ _ _ _ => False) nofun (.null null)
  have answers := (Grammar.Spells.follows written.distinct depth k).reads spelled blanks_nil
    stops_nil
  exact ⟨_, _, answers.eq_ok (Nat.zero_le depth)⟩

/-- The value that a reader gives is canonical, and its text is nested no deeper than the brackets
that the reader may open. -/
theorem Grammar.canonical_of_read (written : grammar.WrittenBy write) (depth : Nat) {k : κ}
    {s rest : List Char} {v : El k} (done : grammar.read depth k s = .ok (v, rest)) :
    grammar.Canonical write k v ∧ nesting (write k v) ≤ depth := by
  induction depth generalizing k s rest v with
  | zero =>
      have made : (grammar k).Made none v := Production.made_of_read nofun done
      obtain ⟨n, nested, spelled, within⟩ := made.compact grammar (written k) nofun
      exact ⟨.of_compact nested spelled, nested.nesting_eq ▸ within 0 nofun⟩
  | succ depth ih =>
      have made : (grammar k).Made (some (Gives (grammar.read depth))) v :=
        Production.made_of_read (fun read same k v null => by
          cases same
          exact grammar.gives_null written null depth) done
      have parts : ∀ P, some (Gives (grammar.read depth)) = some P → ∀ k v, P k v →
          grammar.Canonical write k v ∧ nesting (write k v) ≤ depth := by
        intro P same k v given
        cases same
        obtain ⟨s, rest, done⟩ := given
        exact ih done
      obtain ⟨n, nested, spelled, within⟩ := made.compact grammar (written k)
        fun P same k v given => (parts P same k v given).1
      refine ⟨.of_compact nested spelled, nested.nesting_eq ▸ within (depth + 1) ?_⟩
      intro P same
      exact ⟨Nat.succ_pos depth, fun k v given => Nat.lt_succ_of_le (parts P same k v given).2⟩

/-- Any text that can be read gives a value whose own text reads as that value. -/
theorem Grammar.document_of_document (written : grammar.WrittenBy write) {k : κ} {s : List Char}
    {v : El k} (done : grammar.document k s = .ok v) : grammar.document k (write k v) = .ok v := by
  rw [Grammar.document] at done
  obtain ⟨⟨w, rest⟩, read, done⟩ := bind_eq_ok_iff.mp done
  obtain ⟨canonical, shallow⟩ := grammar.canonical_of_read written depthLimit read
  by_cases ended : (skipBlank rest).isEmpty = true
  · simp only [ended, if_true] at done
    cases done
    rw [canonical.document written, allow_of_le shallow]
  · simp only [ended] at done
    cases done

end IntBackend.Json
