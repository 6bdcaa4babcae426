/-
# IntBackend.Proofs.Json.Spelling — the texts of a value

A value has many texts. Blanks may stand between tokens, the members of an object in any
order and with others among them that nobody asked for, a member whose value is null may
be missing, a record may be the array of its fields, and a case that holds nothing may be
an object whose one member is null. `grammar.Spells k v text n repeated` describes the texts
of `v` by the syntax of JSON alone. `n` is how many arrays and objects are open at once
outside the values that nobody asked for.

A text may also give a field of a record again, with any well-formed value. `repeated` is
the first field, from left to right, that does so.

`Grammar.document_spells` states what the reader makes of such a text: the value, as long
as nothing is repeated and `n` does not exceed the brackets that may be opened; a malformed
text if it does; and the repeated field if there is one and the brackets are within the limit.
-/
import IntBackend.Proofs.Json.WellFormed

namespace IntBackend.Json

set_option autoImplicit false

variable {κ : Type} {El : κ → Type} {α β : Type}

/-! ## Texts -/

/-- A literal for `key`, and the colon after it. -/
def Keyed (key : String) (head : List Char) : Prop :=
  ∃ literal ws, head = literal ++ (ws ++ [':']) ∧ Denotes key literal ∧ Blanks ws

/-- An object with the one member `key`, which has the text `text`. -/
def Tagged (key : String) (text object : List Char) : Prop :=
  ∃ before head ws after, object = '{' :: (before ++ (head ++ (ws ++ (text ++ (after ++ ['}']))))) ∧
    Blanks before ∧ Keyed key head ∧ Blanks ws ∧ Blanks after

/-- The field `name` of a row holds `v`. -/
inductive Row.Has (name : String) (k : κ) (v : El k) :
    (fields : List (Field κ)) → Row El fields → Prop
  | here {fields : List (Field κ)} {row : Row El fields} :
      Has name k v ((name, k) :: fields) (v, row)
  | there {field : Field κ} {fields : List (Field κ)} {w : El field.2} {row : Row El fields}
      (has : Has name k v fields row) : Has name k v (field :: fields) (w, row)

inductive SpellsItems (spells : α → List Char → Nat → Option String → Prop) :
    Bool → List α → List Char → Nat → Option String → Prop
  | done {first : Bool} {ws : List Char} (blanks : Blanks ws) :
      SpellsItems spells first [] ws 0 none
  | item {first : Bool} {v : α} {vs : List α} {sep text tail : List Char} {n m : Nat}
      {own later : Option String} (separates : Separates first sep)
      (spelled : spells v text n own) (others : SpellsItems spells false vs tail m later) :
      SpellsItems spells first (v :: vs) (sep ++ (text ++ tail)) (max n m) (own.or later)

section

variable (spells : (k : κ) → El k → List Char → Nat → Option String → Prop)

inductive SpellsRow :
    (fields : List (Field κ)) → Bool → Row El fields → List Char → Nat → Option String → Prop
  | done {first : Bool} {ws : List Char} (blanks : Blanks ws) : SpellsRow [] first () ws 0 none
  | item {first : Bool} {name : String} {k : κ} {fields : List (Field κ)} {v : El k}
      {row : Row El fields} {sep text tail : List Char} {n m : Nat} {own later : Option String}
      (separates : Separates first sep) (spelled : spells k v text n own)
      (others : SpellsRow fields false row tail m later) :
      SpellsRow ((name, k) :: fields) first (v, row) (sep ++ (text ++ tail)) (max n m)
        (own.or later)

/-- The members of an object up to its end, after those of the names `seen`. -/
inductive SpellsMembers (grammar : Grammar El) (fields : List (Field κ)) (row : Row El fields) :
    Bool → (seen : List String) → List Char → Nat → Option String → Prop
  | done {first : Bool} {seen : List String} {ws : List Char} (blanks : Blanks ws)
      (omitted : ∀ name k v, Row.Has name k v fields row → name ∉ seen →
        (grammar k).null? = some v) :
      SpellsMembers grammar fields row first seen ws 0 none
  | known {first : Bool} {seen : List String} {name : String} {k : κ} {v : El k}
      {sep head ws text tail : List Char} {n m : Nat} {own later : Option String}
      (separates : Separates first sep) (keyed : Keyed name head) (blanks : Blanks ws)
      (has : Row.Has name k v fields row) (unseen : name ∉ seen) (spelled : spells k v text n own)
      (others : SpellsMembers grammar fields row false (name :: seen) tail m later) :
      SpellsMembers grammar fields row first seen (sep ++ (head ++ (ws ++ (text ++ tail))))
        (max n m) (own.or later)
  | unknown {first : Bool} {seen : List String} {name : String} {sep head ws text tail : List Char}
      {m : Nat} {later : Option String} (separates : Separates first sep) (keyed : Keyed name head)
      (blanks : Blanks ws) (other : name ∉ fields.map Prod.fst) (value : WellFormed .value text)
      (others : SpellsMembers grammar fields row false seen tail m later) :
      SpellsMembers grammar fields row first seen (sep ++ (head ++ (ws ++ (text ++ tail))))
        m later
  | again {first : Bool} {seen : List String} {name : String} {sep head ws text tail : List Char}
      {m : Nat} {later : Option String} (separates : Separates first sep) (keyed : Keyed name head)
      (blanks : Blanks ws) (known : name ∈ fields.map Prod.fst) (earlier : name ∈ seen)
      (value : WellFormed .value text)
      (others : SpellsMembers grammar fields row false seen tail m later) :
      SpellsMembers grammar fields row first seen (sep ++ (head ++ (ws ++ (text ++ tail))))
        m (some name)

inductive Shape.Spells (grammar : Grammar El) :
    Shape El α → α → List Char → Nat → Option String → Prop
  | text {make : String → α} {t : String} {text : List Char} (denotes : Denotes t text) :
      Spells grammar (.text make) (make t) text 0 none
  | int32 {make : Int32 → α} (i : Int32) :
      Spells grammar (.int32 make) (make i) (writeInt i.toInt) 0 none
  | list {kind : κ} {make : List (El kind) → α} {vs : List (El kind)} {text : List Char} {n : Nat}
      {repeated : Option String} (items : SpellsItems (spells kind) true vs text n repeated) :
      Spells grammar (.list kind make) (make vs) ('[' :: (text ++ [']'])) (n + 1) repeated
  | tuple {fields : List (Field κ)} {make : Row El fields → α} {row : Row El fields}
      {text : List Char} {n : Nat} {repeated : Option String}
      (items : SpellsRow spells fields true row text n repeated) :
      Spells grammar (.tuple fields make) (make row) ('[' :: (text ++ [']'])) (n + 1) repeated
  | array {fields : List (Field κ)} {make : Row El fields → α} {row : Row El fields}
      {text : List Char} {n : Nat} {repeated : Option String}
      (items : SpellsRow spells fields true row text n repeated) :
      Spells grammar (.record fields make) (make row) ('[' :: (text ++ [']'])) (n + 1) repeated
  | object {fields : List (Field κ)} {make : Row El fields → α} {row : Row El fields}
      {text : List Char} {n : Nat} {repeated : Option String}
      (members : SpellsMembers spells grammar fields row true [] text n repeated) :
      Spells grammar (.record fields make) (make row) ('{' :: (text ++ ['}'])) (n + 1) repeated
  | bare {cases : List (Case El α)} {name : String} {v : α} {text : List Char}
      (listed : .unit name v ∈ cases) (denotes : Denotes name text) :
      Spells grammar (.choice cases) v text 0 none
  | empty {cases : List (Case El α)} {name : String} {v : α} {object : List Char}
      (listed : .unit name v ∈ cases) (tagged : Tagged name writeNull object) :
      Spells grammar (.choice cases) v object 1 none
  | holding {cases : List (Case El α)} {name : String} {kind : κ} {make : El kind → α} {v : El kind}
      {text object : List Char} {n : Nat} {repeated : Option String}
      (listed : .holding name kind make ∈ cases) (spelled : spells kind v text n repeated)
      (tagged : Tagged name text object) :
      Spells grammar (.choice cases) (make v) object (n + 1) repeated

inductive Production.Spells (grammar : Grammar El) (production : Production El α) :
    α → List Char → Nat → Option String → Prop
  | null {v : α} (null : production.null? = some v) :
      Spells grammar production v writeNull 0 none
  | shaped {v : α} {text : List Char} {n : Nat} {repeated : Option String}
      (spelled : production.shape.Spells spells grammar v text n repeated) :
      Spells grammar production v text n repeated

end

/-- A text of a value of some kind. The parts are spelled by any relation that the texts of their
kinds satisfy. -/
inductive Grammar.Spells (grammar : Grammar El) :
    (k : κ) → El k → List Char → Nat → Option String → Prop
  | intro {k : κ} {v : El k} {text : List Char} {n : Nat} {repeated : Option String}
      (spells : (k : κ) → El k → List Char → Nat → Option String → Prop)
      (parts : ∀ k v text n repeated, spells k v text n repeated →
        Grammar.Spells grammar k v text n repeated)
      (spelled : (grammar k).Spells spells grammar v text n repeated) :
      Grammar.Spells grammar k v text n repeated

/-! ## Where texts start and end -/

variable {spells : (k : κ) → El k → List Char → Nat → Option String → Prop}
  {repeated : Option String} {text : List Char} {n : Nat}

/-- No text of a shape can be taken for a blank, for the end of an array or for `null`. -/
theorem Shape.Spells.starts {grammar : Grammar El} {shape : Shape El α} {v : α}
    (spelled : shape.Spells spells grammar v text n repeated) :
    ∃ c s, text = c :: s ∧ isBlank c = false ∧ c ≠ ']' ∧ c ≠ 'n' := by
  cases spelled with
  | text denotes =>
      obtain ⟨body, rfl, -⟩ := denotes
      exact ⟨_, _, rfl, by decide⟩
  | int32 i =>
      obtain ⟨c, s, same, numeral⟩ := startsNumeral_writeInt i.toInt
      exact ⟨c, s, same, starts_of_startsNumeral numeral⟩
  | list items => exact ⟨_, _, rfl, by decide⟩
  | tuple items => exact ⟨_, _, rfl, by decide⟩
  | array items => exact ⟨_, _, rfl, by decide⟩
  | object members => exact ⟨_, _, rfl, by decide⟩
  | bare listed denotes =>
      obtain ⟨body, rfl, -⟩ := denotes
      exact ⟨_, _, rfl, by decide⟩
  | empty listed tagged =>
      obtain ⟨before, head, ws, after, rfl, -⟩ := tagged
      exact ⟨_, _, rfl, by decide⟩
  | holding listed spelled tagged =>
      obtain ⟨before, head, ws, after, rfl, -⟩ := tagged
      exact ⟨_, _, rfl, by decide⟩

theorem Grammar.Spells.starts {grammar : Grammar El} {k : κ} {v : El k}
    (spelled : grammar.Spells k v text n repeated) : Starts text := by
  obtain ⟨spells, -, spelled⟩ := spelled
  cases spelled with
  | null null => exact ⟨_, _, rfl, by decide⟩
  | shaped spelled =>
      obtain ⟨c, s, same, solid, inside, -⟩ := spelled.starts
      exact ⟨c, s, same, solid, inside⟩

theorem SpellsItems.stops {spells : α → List Char → Nat → Option String → Prop} {vs : List α}
    (items : SpellsItems spells false vs text n repeated) (rest : List Char) :
    Stops (text ++ ']' :: rest) := by
  cases items with
  | done blanks => exact stops_blanks blanks stops_bracket rest
  | item separates spelled others =>
      rw [List.append_assoc]
      exact separates.stops _

theorem SpellsRow.stops {fields : List (Field κ)} {row : Row El fields}
    (items : SpellsRow spells fields false row text n repeated) (rest : List Char) :
    Stops (text ++ ']' :: rest) := by
  cases items with
  | done blanks => exact stops_blanks blanks stops_bracket rest
  | item separates spelled others =>
      rw [List.append_assoc]
      exact separates.stops _

theorem SpellsMembers.stops {grammar : Grammar El} {fields : List (Field κ)}
    {row : Row El fields} {seen : List String}
    (members : SpellsMembers spells grammar fields row false seen text n repeated)
    (rest : List Char) : Stops (text ++ '}' :: rest) := by
  cases members with
  | done blanks omitted => exact stops_blanks blanks stops_brace rest
  | known separates keyed blanks has unseen spelled others =>
      rw [List.append_assoc]
      exact separates.stops _
  | unknown separates keyed blanks other value others =>
      rw [List.append_assoc]
      exact separates.stops _
  | again separates keyed blanks known earlier value others =>
      rw [List.append_assoc]
      exact separates.stops _

/-! ## Limited readers -/

section Answers

variable {depth n m : Nat} {own later : Option String} {v : α} {w : β} {f : α → Except Fault β}
  {result : Except Fault α}

/-- What becomes of `v` if it takes `nesting` brackets inside each other and `depth` may be
opened. -/
def allow (depth nesting : Nat) (v : α) : Except Fault α :=
  if nesting ≤ depth then .ok v else .error .malformed

theorem allow_of_le (fits : n ≤ depth) : allow depth n v = .ok v := if_pos fits

theorem allow_of_not_le (deep : ¬ n ≤ depth) : allow depth n v = .error .malformed := if_neg deep

theorem allow_zero : allow depth 0 v = .ok v := allow_of_le (Nat.zero_le depth)

/-- The result of reading a text of `v`. Where a field is repeated in a text that is also too
deep, either may be reported. -/
def Answers (depth nesting : Nat) (repeated : Option String) (v : α) (result : Except Fault α) :
    Prop :=
  match repeated with
  | none => result = allow depth nesting v
  | some field => nesting ≤ depth → result = .error (.duplicateField field)

theorem answers_ok : Answers depth 0 none v (.ok v) := allow_zero.symm

/-- Without repetition and within the limit the value itself is the result. -/
theorem Answers.eq_ok (answers : Answers depth n none v result) (fits : n ≤ depth) :
    result = .ok v := answers.trans (allow_of_le fits)

/-- Nesting in sequence is the larger one, and the first repetition is reported. -/
theorem Answers.bind (answers : Answers depth n own v result)
    (next : Answers depth m later w (f v)) :
    Answers depth (max n m) (own.or later) w (result >>= f) := by
  cases own with
  | some field =>
      intro fits
      rw [answers (by omega)]
      rfl
  | none =>
      by_cases fits : n ≤ depth
      · rw [answers.eq_ok fits]
        show Answers depth (max n m) later w (f v)
        cases later with
        | some field => exact fun within => next (by omega)
        | none =>
            have same : max n m ≤ depth ↔ m ≤ depth := by omega
            simpa only [Answers, allow, same] using next
      · have fault : result = .error .malformed := answers.trans (allow_of_not_le fits)
        rw [fault]
        cases later with
        | some field => exact fun within => absurd (show n ≤ depth by omega) fits
        | none => exact (allow_of_not_le (by omega)).symm

theorem Answers.map (answers : Answers depth n own v result) (next : f v = .ok w) :
    Answers depth n own w (result >>= f) := by
  have both := answers.bind (show Answers depth 0 none w (f v) from next ▸ answers_ok)
  rwa [Nat.max_zero, Option.or_none] at both

end Answers

/-! ## Items -/

/-- A reader that may open `depth` brackets gives each spelled value for its text. -/
structure Follows (read : Reader α) (depth : Nat)
    (spells : α → List Char → Nat → Option String → Prop) : Prop where
  starts : ∀ {v text n repeated}, spells v text n repeated → Starts text
  reads : ∀ {v text n repeated ws rest}, spells v text n repeated → Blanks ws → Stops rest →
    Answers depth n repeated (v, rest) (read (ws ++ (text ++ rest)))

/-- Reading the spelled items of an array, of which the bound has more than enough. -/
theorem readItems_spells {item : Reader α} {depth : Nat}
    {spells : α → List Char → Nat → Option String → Prop} (follows : Follows item depth spells)
    {first : Bool} {vs : List α} (items : SpellsItems spells first vs text n repeated) :
    ∀ bound rest, text.length < bound.length →
      Answers depth n repeated (vs, rest) (readItems item bound first (text ++ ']' :: rest)) := by
  induction items with
  | @done first ws blanks =>
      intro bound rest enough
      match bound with
      | _ :: bound =>
          rw [readItems, nextItem_done blanks]
          exact answers_ok
  | @item first v vs sep text tail n m own later separates spelled others ih =>
      intro bound rest enough
      have starts := follows.starts spelled
      match bound with
      | _ :: bound =>
          have shorter : tail.length < bound.length := by
            obtain ⟨c, s, rfl, -⟩ := starts
            simp only [List.length_append, List.length_cons] at enough
            omega
          rw [readItems, List.append_assoc, List.append_assoc, nextItem_entry separates starts]
          exact (follows.reads spelled blanks_nil (others.stops rest)).bind
            ((ih bound rest shorter).map rfl)

variable {read : (k : κ) → Reader (El k)} {depth : Nat}

/-- Reading the spelled fields of a row in declared order. -/
theorem readRow_spells (follows : ∀ k, Follows (read k) depth (spells k)) {first : Bool}
    {fields : List (Field κ)} {row : Row El fields}
    (items : SpellsRow spells fields first row text n repeated) :
    ∀ rest, Answers depth n repeated (row, rest)
      (readRow read fields first (text ++ ']' :: rest)) := by
  induction items with
  | done blanks =>
      intro rest
      rw [readRow, mark_blanks blanks (by decide)]
      exact answers_ok
  | @item first name k fields v row sep text tail n m own later separates spelled others ih =>
      intro rest
      rw [readRow, List.append_assoc, List.append_assoc,
        nextItem_entry separates ((follows k).starts spelled)]
      exact ((follows k).reads spelled blanks_nil (others.stops rest)).bind ((ih rest).map rfl)

/-! ## Members -/

/-- The slots of a record after the members of the names `seen`. -/
def Slots.seen (seen : List String) : (fields : List (Field κ)) → Row El fields → Slots El fields
  | [], _ => ()
  | (name, _) :: fields, (v, row) =>
      (if name ∈ seen then some v else none, Slots.seen seen fields row)

theorem Slots.seen_nil (fields : List (Field κ)) (row : Row El fields) :
    Slots.seen [] fields row = Slots.empty El fields := by
  induction fields with
  | nil => rfl
  | cons field fields ih => simp [Slots.seen, Slots.empty, ih]

theorem Slots.seen_cons_of_not_mem {name : String} {fields : List (Field κ)}
    (absent : name ∉ fields.map Prod.fst) (seen : List String) (row : Row El fields) :
    Slots.seen (name :: seen) fields row = Slots.seen seen fields row := by
  induction fields with
  | nil => rfl
  | cons field fields ih =>
      simp only [List.map_cons, List.mem_cons, not_or] at absent
      simp [Slots.seen, ih absent.2, Ne.symm absent.1]

theorem Row.Has.mem {name : String} {k : κ} {v : El k} {fields : List (Field κ)}
    {row : Row El fields} (has : Row.Has name k v fields row) : name ∈ fields.map Prod.fst := by
  induction has with
  | here => exact List.mem_cons_self ..
  | there has ih => exact List.mem_cons_of_mem _ ih

/-- A member is read and put into its slot; where it goes does not depend on what it is. -/
theorem Row.Has.readMember_eq {name : String} {k : κ} {v : El k} {fields : List (Field κ)}
    {row : Row El fields} (has : Row.Has name k v fields row)
    (distinct : (fields.map Prod.fst).Nodup) {seen : List String} (unseen : name ∉ seen) :
    ∃ put : El k → Slots El fields, put v = Slots.seen (name :: seen) fields row ∧
      ∀ (read : (k : κ) → Reader (El k)) (s : List Char),
        readMember read name fields (Slots.seen seen fields row) s = (do
          let s ← mark ':' s
          let (w, s) ← read k s
          .ok (some (put w, s))) := by
  induction has with
  | @here fields row =>
      have absent := (List.nodup_cons.mp distinct).1
      refine ⟨fun w => (some w, Slots.seen seen fields row), ?_, fun read s => ?_⟩
      · simp [Slots.seen, Slots.seen_cons_of_not_mem absent]
      · simp only [Slots.seen, if_neg unseen]
        rw [readMember, if_pos rfl]
  | @there field fields w row has ih =>
      obtain ⟨absent, distinct⟩ := List.nodup_cons.mp distinct
      have other : name ≠ field.1 := fun same => absent (same ▸ has.mem)
      obtain ⟨put, same, read_eq⟩ := ih distinct
      refine ⟨fun u => (if field.1 ∈ seen then some w else none, put u), ?_, fun read s => ?_⟩
      · simp [Slots.seen, same, Ne.symm other]
      · rw [Slots.seen, readMember_other other, read_eq, bind_assoc]
        simp only [bind_assoc]
        rfl

/-- A field that was seen before is noticed at its key. -/
theorem readMember_seen {name : String} {fields : List (Field κ)}
    (known : name ∈ fields.map Prod.fst) {seen : List String} (earlier : name ∈ seen)
    (row : Row El fields) (s : List Char) :
    readMember read name fields (Slots.seen seen fields row) s =
      .error (.duplicateField name) := by
  induction fields with
  | nil => cases known
  | cons field fields ih =>
      obtain ⟨v, row⟩ := row
      by_cases own : name = field.1
      · subst own
        rw [Slots.seen, if_pos earlier, readMember, if_pos rfl]
      · have known := (List.mem_cons.mp known).resolve_left own
        rw [Slots.seen, readMember_other own, ih known]
        rfl

theorem readMember_unknown {key : String} {fields : List (Field κ)}
    (unknown : key ∉ fields.map Prod.fst) (slots : Slots El fields) (s : List Char) :
    readMember read key fields slots s = .ok none := by
  induction fields with
  | nil => rfl
  | cons field fields ih =>
      simp only [List.map_cons, List.mem_cons, not_or] at unknown
      rw [readMember_other unknown.1, ih unknown.2]
      rfl

/-- What is missing at the end is what null means there. -/
theorem completeRow_seen {grammar : Grammar El} {seen : List String} (fields : List (Field κ))
    {row : Row El fields}
    (omitted : ∀ name k v, Row.Has name k v fields row → name ∉ seen →
      (grammar k).null? = some v) :
    completeRow grammar fields (Slots.seen seen fields row) = .ok row := by
  induction fields with
  | nil => rfl
  | cons field fields ih =>
      obtain ⟨v, row⟩ := row
      have others := ih fun name k w has => omitted name k w (.there has)
      by_cases present : field.1 ∈ seen
      · rw [Slots.seen, if_pos present, completeRow, others]
        rfl
      · have null := omitted field.1 field.2 v .here present
        rw [Slots.seen, if_neg present]
        simp [completeRow, null, others, bind, Except.bind]

/-- Reading the spelled members of an object fills slots that complete to its row. -/
theorem readMembers_spells (follows : ∀ k, Follows (read k) depth (spells k)) {grammar : Grammar El}
    {fields : List (Field κ)} (distinct : (fields.map Prod.fst).Nodup) {row : Row El fields}
    {first : Bool} {seen : List String}
    (members : SpellsMembers spells grammar fields row first seen text n repeated) :
    ∃ final, completeRow grammar fields final = .ok row ∧
      ∀ bound rest, text.length < bound.length → Answers depth n repeated (final, rest)
        (readMembers read fields bound first (Slots.seen seen fields row)
          (text ++ '}' :: rest)) := by
  induction members with
  | @done first seen ws blanks omitted =>
      refine ⟨_, completeRow_seen fields omitted, fun bound rest enough => ?_⟩
      match bound with
      | _ :: bound =>
          rw [readMembers, nextMember_done blanks]
          exact answers_ok
  | @known first seen name k v sep head ws text tail n m own later separates keyed blanks has unseen
      spelled others ih =>
      obtain ⟨final, complete, ih⟩ := ih
      refine ⟨final, complete, fun bound rest enough => ?_⟩
      obtain ⟨_, colon, rfl, denotes, blanksColon⟩ := keyed
      obtain ⟨body, rfl, readKey⟩ := denotes.readText
      obtain ⟨put, same, readMember_eq⟩ := has.readMember_eq distinct unseen
      match bound with
      | _ :: bound =>
          have shorter : tail.length < bound.length := by
            simp only [List.length_append, List.length_cons] at enough
            omega
          have later := ih bound rest shorter
          rw [← same] at later
          simp only [List.append_assoc, List.cons_append, List.nil_append]
          rw [readMembers, nextMember_entry separates]
          show Answers _ _ _ _ (readText (body ++ _) >>= _)
          rw [readKey]
          show Answers _ _ _ _ (readMember read name fields _ _ >>= _)
          rw [readMember_eq, mark_blanks blanksColon (by decide), bind_assoc]
          show Answers _ _ _ _ ((read k _ >>= _) >>= _)
          rw [bind_assoc]
          exact ((follows k).reads spelled blanks (others.stops rest)).bind later
  | @unknown first seen name sep head ws text tail m later separates keyed blanks other value others
      ih =>
      obtain ⟨final, complete, ih⟩ := ih
      refine ⟨final, complete, fun bound rest enough => ?_⟩
      obtain ⟨_, colon, rfl, denotes, blanksColon⟩ := keyed
      obtain ⟨body, rfl, readKey⟩ := denotes.readText
      match bound with
      | _ :: bound =>
          have shorter : tail.length < bound.length := by
            simp only [List.length_append, List.length_cons] at enough
            omega
          simp only [List.append_assoc, List.cons_append, List.nil_append]
          rw [readMembers, nextMember_entry separates]
          show Answers _ _ _ _ (readText (body ++ _) >>= _)
          rw [readKey]
          show Answers _ _ _ _ (readMember read name fields _ _ >>= _)
          rw [readMember_unknown other]
          show Answers _ _ _ _ (mark ':' _ >>= _)
          rw [mark_blanks blanksColon (by decide)]
          show Answers _ _ _ _ (skipValue _ >>= _)
          rw [value.skipValue blanks (others.stops rest)]
          exact ih bound rest shorter
  | @again first seen name sep head ws text tail m later separates keyed blanks known earlier value
      others ih =>
      obtain ⟨final, complete, -⟩ := ih
      refine ⟨final, complete, fun bound rest enough _ => ?_⟩
      obtain ⟨_, colon, rfl, denotes, blanksColon⟩ := keyed
      obtain ⟨body, rfl, readKey⟩ := denotes.readText
      match bound with
      | _ :: bound =>
          simp only [List.append_assoc, List.cons_append, List.nil_append]
          rw [readMembers, nextMember_entry separates]
          show (readText (body ++ _) >>= _) = _
          rw [readKey]
          show (readMember read name fields _ _ >>= _) = _
          rw [readMember_seen known earlier]
          rfl

/-! ## Choices -/

/-- The names that a shape tells its parts by are all different. -/
def Shape.Distinct : Shape El α → Prop
  | .record fields _ => (fields.map Prod.fst).Nodup
  | .choice cases => (cases.map Case.name).Nodup
  | _ => True

theorem find?_name_of_mem {cases : List (Case El α)} (distinct : (cases.map Case.name).Nodup)
    {case : Case El α} (listed : case ∈ cases) :
    cases.find? (fun c => c.name == case.name) = some case := by
  induction cases with
  | nil => cases listed
  | cons head cases ih =>
      obtain ⟨absent, distinct⟩ := List.nodup_cons.mp distinct
      rcases List.mem_cons.mp listed with rfl | listed
      · simp
      · have other : head.name ≠ case.name :=
          fun same => absent (same ▸ List.mem_map_of_mem listed)
        simp [other, ih distinct listed]

/-- Where names are different, a case is picked by its name. -/
theorem pickCase_of_mem {cases : List (Case El α)} (distinct : (cases.map Case.name).Nodup)
    {case : Case El α} (listed : case ∈ cases) : pickCase cases case.name = .ok case := by
  rw [pickCase, find?_name_of_mem distinct listed]

theorem readNull_writeNull {ws : List Char} (blanks : Blanks ws) (rest : List Char) :
    readNull (ws ++ (writeNull ++ rest)) = .ok rest := by
  rw [readNull, writeNull, List.cons_append, skipBlank_blanks blanks (by decide)]
  rfl

/-- An object with one member is read as what the case of its name holds. -/
theorem readTagged_keyed {cases : List (Case El α)} {key : String} {case : Case El α}
    (picked : pickCase cases key = .ok case) {before head : List Char} (blanks : Blanks before)
    (keyed : Keyed key head) (s : List Char) :
    ∃ colon, Blanks colon ∧
      readTagged read cases (before ++ (head ++ s)) = readHeld read case (colon ++ ':' :: s) := by
  obtain ⟨_, colon, rfl, denotes, blanksColon⟩ := keyed
  obtain ⟨body, rfl, readKey⟩ := denotes.readText
  refine ⟨colon, blanksColon, ?_⟩
  simp only [List.append_assoc, List.cons_append, List.nil_append]
  rw [readTagged, mark_blanks blanks (by decide)]
  show (readText (body ++ _) >>= _) = _
  rw [readKey]
  show (pickCase cases key >>= _) = _
  rw [picked]
  rfl

/-! ## Brackets -/

/-- How a reader that may open `depth` brackets reads inside one more. -/
def Grammar.inner (grammar : Grammar El) : Nat → Inner El
  | 0 => none
  | depth + 1 => some (grammar.read depth)

/-- Reading unfolds to one production, with one bracket less for its parts. -/
theorem Grammar.read_eq (grammar : Grammar El) (depth : Nat) (k : κ) :
    grammar.read depth k = (grammar k).read grammar (grammar.inner depth) := by
  cases depth <;> rfl

/-- A bracket takes one of those that may be opened. -/
theorem Grammar.enter_answers (grammar : Grammar El)
    {body : ((k : κ) → Reader (El k)) → Except Fault β} {v : β}
    (inside : ∀ depth, Answers depth n repeated v (body (grammar.read depth))) (depth : Nat) :
    Answers depth (n + 1) repeated v ((grammar.inner depth).enter >>= body) := by
  cases depth with
  | zero =>
      cases repeated with
      | none => simp [Answers, Grammar.inner, Inner.enter, allow, bind, Except.bind]
      | some field => exact fun fits => absurd fits (Nat.not_succ_le_zero n)
  | succ depth =>
      have within := inside depth
      show Answers (depth + 1) (n + 1) repeated v (body (grammar.read depth))
      cases repeated with
      | none => simpa [Answers, allow] using within
      | some field => exact fun fits => within (Nat.le_of_succ_le_succ fits)

section Reading

variable {grammar : Grammar El} {ws rest : List Char}

/-- A spelled shape is read back, if that is so of the spelled parts. -/
theorem Shape.read_spells (follows : ∀ depth k, Follows (grammar.read depth k) depth (spells k))
    {shape : Shape El α} (distinct : shape.Distinct) {v : α}
    (spelled : shape.Spells spells grammar v text n repeated) (blanks : Blanks ws)
    (stops : Stops rest) (depth : Nat) :
    Answers depth n repeated (v, rest)
      (shape.read grammar (grammar.inner depth) (ws ++ (text ++ rest))) := by
  cases spelled with
  | text denotes =>
      obtain ⟨body, rfl, read⟩ := denotes.readText
      rw [Shape.read, List.cons_append, skipBlank_blanks blanks (by decide)]
      show Answers _ _ _ _ (readText (body ++ rest) >>= _)
      rw [read]
      exact answers_ok
  | int32 i =>
      have read := readInt32_writeInt i stops
      obtain ⟨c, s, same, numeral⟩ := startsNumeral_writeInt i.toInt
      rw [same] at read ⊢
      rw [Shape.read, List.cons_append, skipBlank_blanks blanks (starts_of_startsNumeral numeral).1]
      show Answers _ _ _ _ (if startsNumeral c = true then _ else _)
      rw [if_pos numeral, ← List.cons_append, read]
      exact answers_ok
  | @list kind make vs text n repeated items =>
      rw [Shape.read, List.cons_append, skipBlank_blanks blanks (by decide)]
      refine grammar.enter_answers (fun depth => ?_) depth
      rw [List.append_assoc, List.singleton_append]
      exact (readItems_spells (follows depth kind) items _ _ (by simp)).map rfl
  | tuple items =>
      rw [Shape.read, List.cons_append, skipBlank_blanks blanks (by decide)]
      refine grammar.enter_answers (fun depth => ?_) depth
      rw [List.append_assoc, List.singleton_append]
      exact (readRow_spells (follows depth) items _).map rfl
  | array items =>
      rw [Shape.read, List.cons_append, skipBlank_blanks blanks (by decide)]
      refine grammar.enter_answers (fun depth => ?_) depth
      rw [List.append_assoc, List.singleton_append]
      exact (readRow_spells (follows depth) items _).map rfl
  | @object fields make row text n repeated members =>
      rw [Shape.read, List.cons_append, skipBlank_blanks blanks (by decide)]
      refine grammar.enter_answers (fun depth => ?_) depth
      obtain ⟨final, complete, read⟩ := readMembers_spells (follows depth) distinct members
      rw [Slots.seen_nil] at read
      rw [List.append_assoc, List.singleton_append]
      refine (read _ _ (by simp)).map ?_
      show (completeRow grammar _ _ >>= _) = _
      rw [complete]
      rfl
  | @bare cases name v text listed denotes =>
      have picked : pickCase cases name = .ok (.unit name v) := pickCase_of_mem distinct listed
      obtain ⟨body, rfl, read⟩ := denotes.readText
      rw [Shape.read, List.cons_append, skipBlank_blanks blanks (by decide)]
      show Answers _ _ _ _ (readBare _ (body ++ rest))
      rw [readBare, read]
      show Answers _ _ _ _ (pickCase _ _ >>= _)
      rw [picked]
      exact answers_ok
  | @empty cases name v object listed tagged =>
      have picked : pickCase cases name = .ok (.unit name v) := pickCase_of_mem distinct listed
      obtain ⟨before, head, space, after, rfl, blanksBefore, keyed, blanksSpace, blanksAfter⟩ :=
        tagged
      rw [Shape.read, List.cons_append, skipBlank_blanks blanks (by decide)]
      refine grammar.enter_answers (n := 0) (fun depth => ?_) depth
      simp only [List.append_assoc]
      obtain ⟨colon, blanksColon, same⟩ := readTagged_keyed picked blanksBefore keyed _
      rw [same, readHeld, mark_blanks blanksColon (by decide)]
      show Answers _ _ _ _ (readNull _ >>= _)
      rw [readNull_writeNull blanksSpace]
      show Answers _ _ _ _ (mark '}' (after ++ '}' :: rest) >>= _)
      rw [mark_blanks blanksAfter (by decide)]
      exact answers_ok
  | @holding cases name kind make v text object n repeated listed spelled tagged =>
      have picked : pickCase cases name = .ok (.holding name kind make) :=
        pickCase_of_mem distinct listed
      obtain ⟨before, head, space, after, rfl, blanksBefore, keyed, blanksSpace, blanksAfter⟩ :=
        tagged
      rw [Shape.read, List.cons_append, skipBlank_blanks blanks (by decide)]
      refine grammar.enter_answers (fun depth => ?_) depth
      simp only [List.append_assoc]
      obtain ⟨colon, blanksColon, same⟩ := readTagged_keyed picked blanksBefore keyed _
      rw [same, readHeld, mark_blanks blanksColon (by decide)]
      have stops := stops_blanks blanksAfter stops_brace rest
      refine ((follows depth kind).reads spelled blanksSpace stops).map ?_
      show (mark '}' (after ++ '}' :: rest) >>= _) = _
      rw [mark_blanks blanksAfter (by decide)]
      rfl

/-- A spelled production is read back, as `null` or by its shape. -/
theorem Production.read_spells
    (follows : ∀ depth k, Follows (grammar.read depth k) depth (spells k))
    {production : Production El α} (distinct : production.shape.Distinct) {v : α}
    (spelled : production.Spells spells grammar v text n repeated) (blanks : Blanks ws)
    (stops : Stops rest) (depth : Nat) :
    Answers depth n repeated (v, rest)
      (production.read grammar (grammar.inner depth) (ws ++ (text ++ rest))) := by
  cases spelled with
  | null null =>
      rw [Production.read, null, writeNull, List.cons_append]
      simp only [skipBlank_blanks blanks (show isBlank 'n' = false by decide)]
      exact answers_ok
  | shaped spelled =>
      rw [Production.read]
      split
      · exact Shape.read_spells follows distinct spelled blanks stops depth
      · -- The blanks are gone when the shape is read.
        have read := Shape.read_spells follows distinct spelled blanks_nil stops depth
        obtain ⟨c, s, rfl, solid, -, notNull⟩ := spelled.starts
        rw [List.nil_append, List.cons_append] at read
        rw [List.cons_append, skipBlank_blanks blanks solid]
        simpa [notNull] using read

end Reading

/-! ## Documents -/

/-- The names by which a grammar tells fields and cases apart are different. -/
def Grammar.Distinct (grammar : Grammar El) : Prop := ∀ k, (grammar k).shape.Distinct

/-- Reading follows spelling, whatever may be opened. -/
theorem Grammar.Spells.follows {grammar : Grammar El} (distinct : grammar.Distinct) (depth : Nat)
    (k : κ) : Follows (grammar.read depth k) depth (grammar.Spells k) where
  starts := Grammar.Spells.starts
  reads := by
    intro v text n repeated ws rest spelled blanks stops
    -- The induction is on the spelling: the depth does not get smaller where nothing may be opened.
    induction spelled generalizing depth ws rest with
    | @intro k v text n repeated spells parts spelled ih =>
        rw [Grammar.read_eq]
        refine Production.read_spells (fun depth k => ⟨?_, ?_⟩) (distinct k) spelled blanks stops
          depth
        · intro v text n repeated spelled
          exact (parts k v text n repeated spelled).starts
        · intro v text n repeated ws rest spelled blanks stops
          exact ih k v text n repeated spelled depth blanks stops

/-- What the reader makes of a text of a value, with blanks around it. -/
theorem Grammar.document_spells {grammar : Grammar El} (distinct : grammar.Distinct) {k : κ}
    {v : El k} (spelled : grammar.Spells k v text n repeated) {before after : List Char}
    (blanksBefore : Blanks before) (blanksAfter : Blanks after) :
    Answers depthLimit n repeated v (grammar.document k (before ++ (text ++ after))) := by
  have read := (Grammar.Spells.follows distinct depthLimit k).reads spelled blanksBefore
    blanksAfter.stops
  rw [Grammar.document]
  refine read.map ?_
  simp [skipBlank_eq_nil blanksAfter]

end IntBackend.Json
