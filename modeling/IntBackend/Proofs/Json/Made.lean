/-
# IntBackend.Proofs.Json.Made — what a reader can give

Whatever text a value was read from, it was put together as its kind's production says,
from parts that were read inside one bracket more. `Production.Made parts` says that of a
value: `parts` is what is known of the parts, and `none` if there can be none because no
bracket may be opened. `Grammar.made_of_read` states it of every value that is read.
-/
import IntBackend.Json.Grammar
import IntBackend.Proofs.Results

namespace IntBackend.Json

set_option autoImplicit false

variable {κ : Type} {El : κ → Type} {α : Type}

/-! ## Rows and slots -/

def Row.All (P : (k : κ) → El k → Prop) : (fields : List (Field κ)) → Row El fields → Prop
  | [], _ => True
  | (_, k) :: fields, (v, row) => P k v ∧ Row.All P fields row

def Slots.All (P : (k : κ) → El k → Prop) : (fields : List (Field κ)) → Slots El fields → Prop
  | [], _ => True
  | (_, k) :: fields, (slot, slots) => (∀ v, slot = some v → P k v) ∧ Slots.All P fields slots

theorem Slots.all_empty (P : (k : κ) → El k → Prop) (fields : List (Field κ)) :
    Slots.All P fields (Slots.empty El fields) := by
  induction fields with
  | nil => trivial
  | cons field fields ih => exact ⟨nofun, ih⟩

/-- What is known of the parts of a value, if it can have any. -/
abbrev Parts (El : κ → Type) := Option ((k : κ) → El k → Prop)

inductive Shape.Made : Parts El → Shape El α → α → Prop
  | text {parts : Parts El} {make : String → α} (t : String) : Made parts (.text make) (make t)
  | int32 {parts : Parts El} {make : Int32 → α} (i : Int32) : Made parts (.int32 make) (make i)
  | list {P : (k : κ) → El k → Prop} {kind : κ} {make : List (El kind) → α} {vs : List (El kind)}
      (each : ∀ v ∈ vs, P kind v) : Made (some P) (.list kind make) (make vs)
  | tuple {P : (k : κ) → El k → Prop} {fields : List (Field κ)} {make : Row El fields → α} {v : α}
      (row : Row El fields) (each : Row.All P fields row) (same : make row = v) :
      Made (some P) (.tuple fields make) v
  | record {P : (k : κ) → El k → Prop} {fields : List (Field κ)} {make : Row El fields → α} {v : α}
      (row : Row El fields) (each : Row.All P fields row) (same : make row = v) :
      Made (some P) (.record fields make) v
  | unit {parts : Parts El} {cases : List (Case El α)} {name : String} {v : α}
      (listed : .unit name v ∈ cases) : Made parts (.choice cases) v
  | holding {P : (k : κ) → El k → Prop} {cases : List (Case El α)} {name : String} {kind : κ}
      {make : El kind → α} {part : El kind} {v : α} (listed : .holding name kind make ∈ cases)
      (held : P kind part) (same : make part = v) : Made (some P) (.choice cases) v

inductive Production.Made (parts : Parts El) (production : Production El α) : α → Prop
  | null {v : α} (null : production.null? = some v) : Made parts production v
  | shaped {v : α} (made : production.shape.Made parts v) : Made parts production v

/-! ## Readers -/

/-- Some text has the value `v`. -/
def Gives (read : (k : κ) → Reader (El k)) (k : κ) (v : El k) : Prop :=
  ∃ s rest, read k s = .ok (v, rest)

/-- What is known of the parts that are read inside one more bracket. -/
def Inner.parts (inner : Inner El) : Parts El := inner.map Gives

variable {read : (k : κ) → Reader (El k)}

theorem readItems_gives {kind : κ} (bound : List Char) {first : Bool} {s rest : List Char}
    {vs : List (El kind)} (done : readItems (read kind) bound first s = .ok (vs, rest)) :
    ∀ v ∈ vs, Gives read kind v := by
  induction bound generalizing first s vs with
  | nil => cases done
  | cons _ bound ih =>
      rw [readItems] at done
      obtain ⟨next, -, done⟩ := bind_eq_ok_iff.mp done
      cases next with
      | done rest =>
          cases done
          simp
      | entry s =>
          obtain ⟨⟨v, s'⟩, item, done⟩ := bind_eq_ok_iff.mp done
          obtain ⟨⟨others, rest'⟩, items, done⟩ := bind_eq_ok_iff.mp done
          cases done
          intro w among
          rcases List.mem_cons.mp among with rfl | among
          · exact ⟨s, s', item⟩
          · exact ih items w among

theorem readRow_gives (fields : List (Field κ)) {first : Bool} {s rest : List Char}
    {row : Row El fields} (done : readRow read fields first s = .ok (row, rest)) :
    Row.All (Gives read) fields row := by
  induction fields generalizing first s with
  | nil => trivial
  | cons field fields ih =>
      rw [readRow] at done
      obtain ⟨next, -, done⟩ := bind_eq_ok_iff.mp done
      cases next with
      | done rest => cases done
      | entry s =>
          obtain ⟨⟨v, s'⟩, item, done⟩ := bind_eq_ok_iff.mp done
          obtain ⟨⟨others, rest'⟩, items, done⟩ := bind_eq_ok_iff.mp done
          cases done
          exact ⟨⟨s, s', item⟩, ih items⟩

theorem readMember_gives {key : String} (fields : List (Field κ)) {s rest : List Char}
    {slots filled : Slots El fields} (before : Slots.All (Gives read) fields slots)
    (done : readMember read key fields slots s = .ok (some (filled, rest))) :
    Slots.All (Gives read) fields filled := by
  induction fields with
  | nil => cases done
  | cons field fields ih =>
      obtain ⟨slot, slots⟩ := slots
      by_cases own : key = field.1
      · cases slot with
        | some v =>
            rw [readMember, if_pos own] at done
            cases done
        | none =>
            rw [readMember, if_pos own] at done
            obtain ⟨s', -, done⟩ := bind_eq_ok_iff.mp done
            obtain ⟨⟨v, rest'⟩, member, done⟩ := bind_eq_ok_iff.mp done
            cases done
            refine ⟨?_, before.2⟩
            intro w same
            cases same
            exact ⟨s', rest, member⟩
      · rw [readMember_other own] at done
        obtain ⟨_ | ⟨others, rest'⟩, member, done⟩ := bind_eq_ok_iff.mp done
        · cases done
        · cases done
          exact ⟨before.1, ih before.2 member⟩

/-- Slots hold nothing but what was read. -/
theorem readMembers_gives (fields : List (Field κ)) (bound : List Char) {first : Bool}
    {s rest : List Char} {slots final : Slots El fields}
    (before : Slots.All (Gives read) fields slots)
    (done : readMembers read fields bound first slots s = .ok (final, rest)) :
    Slots.All (Gives read) fields final := by
  induction bound generalizing first slots s with
  | nil => cases done
  | cons _ bound ih =>
      rw [readMembers] at done
      obtain ⟨next, -, done⟩ := bind_eq_ok_iff.mp done
      cases next with
      | done rest =>
          cases done
          exact before
      | entry s =>
          obtain ⟨⟨key, s'⟩, -, done⟩ := bind_eq_ok_iff.mp done
          obtain ⟨_ | ⟨filled, rest'⟩, member, done⟩ := bind_eq_ok_iff.mp done
          · obtain ⟨s'', -, done⟩ := bind_eq_ok_iff.mp done
            obtain ⟨passed, -, done⟩ := bind_eq_ok_iff.mp done
            exact ih before done
          · exact ih (readMember_gives fields before member) done

/-- A slot that stayed empty is filled by the value that stands for nothing. -/
theorem completeRow_all {grammar : Grammar El} {P : (k : κ) → El k → Prop}
    (nulls : ∀ k v, (grammar k).null? = some v → P k v) (fields : List (Field κ))
    {slots : Slots El fields} {row : Row El fields} (filled : Slots.All P fields slots)
    (done : completeRow grammar fields slots = .ok row) : Row.All P fields row := by
  induction fields with
  | nil => trivial
  | cons field fields ih =>
      obtain ⟨slot, slots⟩ := slots
      cases slot with
      | some v =>
          rw [completeRow] at done
          obtain ⟨_, own, done⟩ := bind_eq_ok_iff.mp done
          cases own
          obtain ⟨others, complete, same⟩ := bind_eq_ok_iff.mp done
          cases same
          exact ⟨filled.1 v rfl, ih filled.2 complete⟩
      | none =>
          cases null : (grammar field.2).null? with
          | none =>
              rw [completeRow.eq_4 _ _ _ _ _ null] at done
              cases done
          | some v =>
              rw [completeRow.eq_3 _ _ _ _ _ v null] at done
              obtain ⟨_, own, done⟩ := bind_eq_ok_iff.mp done
              cases own
              obtain ⟨others, complete, same⟩ := bind_eq_ok_iff.mp done
              cases same
              exact ⟨nulls field.2 v null, ih filled.2 complete⟩

theorem mem_of_pickCase {cases : List (Case El α)} {name : String} {case : Case El α}
    (picked : pickCase cases name = .ok case) : case ∈ cases := by
  unfold pickCase at picked
  split at picked
  · rename_i found
    cases picked
    exact List.mem_of_find?_eq_some found
  · cases picked

/-- A case that holds something holds what was read. -/
theorem readTagged_gives {cases : List (Case El α)} {s rest : List Char} {v : α}
    (done : readTagged read cases s = .ok (v, rest)) :
    (Shape.choice cases).Made (some (Gives read)) v := by
  rw [readTagged] at done
  obtain ⟨s₁, -, done⟩ := bind_eq_ok_iff.mp done
  obtain ⟨⟨name, s₂⟩, -, done⟩ := bind_eq_ok_iff.mp done
  obtain ⟨case, picked, done⟩ := bind_eq_ok_iff.mp done
  have listed := mem_of_pickCase picked
  cases case with
  | unit own value =>
      obtain ⟨s₃, -, done⟩ := bind_eq_ok_iff.mp done
      obtain ⟨s₄, -, done⟩ := bind_eq_ok_iff.mp done
      obtain ⟨s₅, -, same⟩ := bind_eq_ok_iff.mp done
      cases same
      exact .unit listed
  | holding own kind make =>
      obtain ⟨s₃, -, done⟩ := bind_eq_ok_iff.mp done
      obtain ⟨⟨held, s₄⟩, member, done⟩ := bind_eq_ok_iff.mp done
      obtain ⟨s₅, -, same⟩ := bind_eq_ok_iff.mp done
      cases same
      exact .holding listed ⟨s₃, s₄, member⟩ rfl

theorem readBare_gives {parts : Parts El} {cases : List (Case El α)} {s rest : List Char} {v : α}
    (done : readBare cases s = .ok (v, rest)) : (Shape.choice cases).Made parts v := by
  rw [readBare] at done
  obtain ⟨⟨name, s₁⟩, -, done⟩ := bind_eq_ok_iff.mp done
  obtain ⟨case, picked, done⟩ := bind_eq_ok_iff.mp done
  cases case with
  | unit own value =>
      cases done
      exact .unit (mem_of_pickCase picked)
  | holding own kind make => cases done

theorem Inner.enter_eq_ok {inner : Inner El} (entered : inner.enter = .ok read) :
    inner = some read := by
  cases inner with
  | none => cases entered
  | some read' =>
      cases entered
      rfl

/-- A value is made of parts that were read, or that null stands for. -/
theorem Shape.made_of_read {grammar : Grammar El} {inner : Inner El}
    (nulls : ∀ read, inner = some read → ∀ k v, (grammar k).null? = some v → Gives read k v)
    {shape : Shape El α} {s rest : List Char} {v : α}
    (done : shape.read grammar inner s = .ok (v, rest)) : shape.Made inner.parts v := by
  cases shape with
  | text make =>
      simp only [Shape.read] at done
      split at done
      · obtain ⟨⟨t, s'⟩, -, same⟩ := bind_eq_ok_iff.mp done
        cases same
        exact .text t
      · cases done
  | int32 make =>
      simp only [Shape.read] at done
      split at done
      · cases done
      · split at done
        · obtain ⟨⟨i, s'⟩, -, same⟩ := bind_eq_ok_iff.mp done
          cases same
          exact .int32 i
        · cases done
  | list kind make =>
      simp only [Shape.read] at done
      split at done
      · obtain ⟨read, entered, done⟩ := bind_eq_ok_iff.mp done
        obtain ⟨⟨vs, s'⟩, items, same⟩ := bind_eq_ok_iff.mp done
        cases same
        cases Inner.enter_eq_ok entered
        exact .list (readItems_gives _ items)
      · cases done
  | tuple fields make =>
      simp only [Shape.read] at done
      split at done
      · obtain ⟨read, entered, done⟩ := bind_eq_ok_iff.mp done
        obtain ⟨⟨row, s'⟩, items, same⟩ := bind_eq_ok_iff.mp done
        cases same
        cases Inner.enter_eq_ok entered
        exact .tuple row (readRow_gives fields items) rfl
      · cases done
  | record fields make =>
      simp only [Shape.read] at done
      split at done
      · obtain ⟨read, entered, done⟩ := bind_eq_ok_iff.mp done
        obtain ⟨⟨row, s'⟩, items, same⟩ := bind_eq_ok_iff.mp done
        cases same
        cases Inner.enter_eq_ok entered
        exact .record row (readRow_gives fields items) rfl
      · obtain ⟨read, entered, done⟩ := bind_eq_ok_iff.mp done
        obtain ⟨⟨slots, s'⟩, members, done⟩ := bind_eq_ok_iff.mp done
        obtain ⟨row, complete, same⟩ := bind_eq_ok_iff.mp done
        cases same
        cases Inner.enter_eq_ok entered
        have filled := readMembers_gives fields _ (Slots.all_empty _ fields) members
        exact .record row (completeRow_all (nulls read rfl) fields filled complete) rfl
      · cases done
  | choice cases =>
      simp only [Shape.read] at done
      split at done
      · cases done
      · exact readBare_gives done
      · obtain ⟨read, entered, done⟩ := bind_eq_ok_iff.mp done
        cases Inner.enter_eq_ok entered
        exact readTagged_gives done
      · cases done

/-- Whatever is read is made of parts that were themselves read inside one more bracket. -/
theorem Production.made_of_read {grammar : Grammar El} {inner : Inner El}
    (nulls : ∀ read, inner = some read → ∀ k v, (grammar k).null? = some v → Gives read k v)
    {production : Production El α} {s rest : List Char} {v : α}
    (done : production.read grammar inner s = .ok (v, rest)) : production.Made inner.parts v := by
  rw [Production.read] at done
  split at done
  · exact .shaped (Shape.made_of_read nulls done)
  · rename_i value null
    split at done
    · obtain ⟨s', -, same⟩ := bind_eq_ok_iff.mp done
      cases same
      exact .null null
    · exact .shaped (Shape.made_of_read nulls done)

end IntBackend.Json
