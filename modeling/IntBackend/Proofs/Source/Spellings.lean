/-
# IntBackend.Proofs.Source.Spellings — other spellings of a tree

A tree has many texts besides the one that it is written as; `grammar.Spells` says which.
They all read as the tree. A text that gives a field of a record twice is none of them, and
its reader says which field it was.
-/
import IntBackend.Proofs.Source.Documents

namespace IntBackend

set_option autoImplicit false

open Json

namespace Document

section

variable {α : Type} [Document α]

/-- A text of `v` in any spelling, with blanks around it. `opened` is how many arrays and objects
are open in it at once outside the values that nobody asked for, and `repeated` the first field of
a record that is given again. -/
def Spelled (v : α) (text : String) (opened : Nat) (repeated : Option String) : Prop :=
  ∃ x before inner after, ofEl x = v ∧ text.toList = before ++ (inner ++ after) ∧
    Blanks before ∧ Blanks after ∧ grammar.Spells (kind α) x inner opened repeated

/-- A spelled value is read from its text within the limit of a document. -/
theorem Spelled.answers {v : α} {text : String} {opened : Nat} {repeated : Option String}
    (spelled : Spelled v text opened repeated) : Answers 127 opened repeated v (read text) := by
  obtain ⟨x, before, inner, after, rfl, same, blanksBefore, blanksAfter, spelled⟩ := spelled
  have answers := Grammar.document_spells Kind.grammar_writtenBy.distinct spelled blanksBefore
    blanksAfter
  have mapped : (read text : Except Fault α) =
      (grammar.document (kind α) (before ++ (inner ++ after)) >>= fun x => .ok (ofEl x)) := by
    rw [read, same]
    cases grammar.document (kind α) (before ++ (inner ++ after)) <;> rfl
  rw [mapped]
  exact answers.map rfl

variable (α)

/-- The text of a value is one of those that spell it. All of them read as the value, up to the
limit on brackets, and with a field given again none of them is read. -/
def ReadsAlike : Prop :=
  ∀ v : α, Spelled v (write v) (nesting (write v).toList) none ∧
    (∀ text opened, Spelled v text opened none → opened ≤ 127 → read text = .ok v) ∧
    ∀ text opened field, Spelled v text opened (some field) → opened ≤ 127 →
      ∃ fault, (read text : Except Fault α) = .error fault ∧ fault.category.name = "data" ∧
        fault.message? = some ("duplicate field `" ++ field ++ "`")

end

variable {α : Type} [Document α] [Lawful α]

/-- The text that is written is one of the spellings. -/
theorem spelled_write (v : α) : Spelled v (write v) (nesting (write v).toList) none := by
  obtain ⟨x, rfl⟩ := Lawful.onto v
  rw [write, String.toList_ofList, Lawful.written]
  refine ⟨x, [], Kind.write (kind α) x, [], rfl, ?_, blanks_nil, blanks_nil, ?_⟩
  · simp
  · exact (Kind.canonical (kind α) x).spelled

/-- All spellings of a value are read alike. -/
theorem readsAlike : ReadsAlike α := by
  intro v
  refine ⟨spelled_write v, fun text opened spelled shallow => ?_,
    fun text opened field spelled shallow => ?_⟩
  · exact spelled.answers.eq_ok shallow
  · refine ⟨_, spelled.answers shallow, rfl, ?_⟩
    have quote : "duplicate field " ++ "`" = "duplicate field `" := by decide
    rw [Fault.message?, Fault.quoted, ← String.append_assoc, ← String.append_assoc, quote]

/-- However a tree is spelled, it is read as itself; a record that gives a field twice is not
read. -/
theorem trees_readAlike :
    ReadsAlike Program ∧ ReadsAlike Func ∧ ReadsAlike Binding ∧ ReadsAlike (List Stmt) ∧
      ReadsAlike Stmt ∧ ReadsAlike Expr ∧ ReadsAlike BinOp ∧ ReadsAlike Ty :=
  ⟨readsAlike, readsAlike, readsAlike, readsAlike, readsAlike, readsAlike, readsAlike, readsAlike⟩

/-- The fields of a binding. -/
abbrev bindingFields : List (Json.Field Kind) := [("name", .name), ("ty", .type)]

theorem spellsMembers_end {seen : List String} (both : "name" ∈ seen ∧ "ty" ∈ seen)
    (row : Row Kind.El bindingFields) :
    SpellsMembers grammar.Spells grammar bindingFields row false seen [] 0 none := by
  refine .done blanks_nil fun name k v has absent => ?_
  have listed := has.mem
  simp only [List.map_cons, List.map_nil, List.mem_cons, List.not_mem_nil, or_false] at listed
  rcases listed with rfl | rfl
  · exact absurd both.1 absent
  · exact absurd both.2 absent

theorem spelled_respelledBinding :
    Spelled (Binding.mk "a" .int) (String.ofList respelledBinding) 2 none := by
  have blank : Blanks [' '] := by simp [Blanks, isBlank]
  have escaped : Denotes "a" ['"', '\\', 'u', '0', '0', '6', '1', '"'] := by
    have hex : ∀ d < 10, HexDigit d (Nat.digitChar d) := fun d small => ⟨by omega, .inl rfl⟩
    have unit : CharText 'a' ['\\', 'u', '0', '0', '6', '1'] :=
      .unit (by decide) ⟨0, 0, 6, 1, _, _, _, _, rfl, hex 0 (by decide), hex 0 (by decide),
        hex 6 (by decide), hex 1 (by decide), by decide⟩
    exact ⟨_, rfl, .char unit .done⟩
  have nameText : grammar.Spells .name "a" ['"', '\\', 'u', '0', '0', '6', '1', '"'] 0 none :=
    .intro _ (fun _ _ _ _ _ spelled => spelled) (.shaped (.text escaped))
  have typeText : grammar.Spells .type .int _ 1 none :=
    .intro _ (fun _ _ _ _ _ spelled => spelled)
      (.shaped (.empty (List.mem_cons_self ..) (tagged_writeObject "Int" writeNull)))
  have inner : WellFormed .value ['[', ']'] := .array (.done blanks_nil)
  have passed : WellFormed .value ['[', '[', ']', ']'] :=
    .array (.item (.first blanks_nil) inner (.done blanks_nil))
  have spaced : Keyed "name" (writeText "name" ++ ([' '] ++ [':'])) :=
    ⟨_, _, rfl, denotes_writeText "name", blank⟩
  have last : SpellsMembers grammar.Spells grammar bindingFields ("a", .int, ()) false
      ["name", "ty"] [] 0 none := spellsMembers_end (by decide) _
  have fromName := SpellsMembers.known (.next blanks_nil blanks_nil) spaced blanks_nil .here
    (by decide) nameText last
  have fromType := SpellsMembers.known (.next blanks_nil blank) (keyed_writeText "ty") blanks_nil
    (.there .here) (by decide) typeText fromName
  have members := SpellsMembers.unknown (.first blanks_nil) (keyed_writeText "z") blanks_nil
    (by decide) passed fromType
  have whole : grammar.Spells .binding (Binding.mk "a" .int) _ _ _ :=
    .intro _ (fun _ _ _ _ _ spelled => spelled) (.shaped (.object members))
  refine ⟨Binding.mk "a" .int, [], _, [], rfl, ?_, blanks_nil, blanks_nil, whole⟩
  rw [String.toList_ofList]
  decide +kernel

/-- A binding that gives its name again, with another value. -/
def renamedBinding : List Char :=
  ['{', '"', 'n', 'a', 'm', 'e', '"', ':', '"', 'a', '"', ',', '"', 't', 'y', '"', ':', '"', 'I',
    'n', 't', '"', ',', '"', 'n', 'a', 'm', 'e', '"', ':', 'n', 'u', 'l', 'l', '}']

theorem spelled_renamedBinding :
    Spelled (Binding.mk "a" .int) (String.ofList renamedBinding) 1 (some "name") := by
  have last : SpellsMembers grammar.Spells grammar bindingFields ("a", .int, ()) false
      ["ty", "name"] [] 0 none := spellsMembers_end (by decide) _
  have again := SpellsMembers.again (.next blanks_nil blanks_nil) (keyed_writeText "name")
    blanks_nil (by decide) (by decide) .null last
  have fromType := SpellsMembers.known (.next blanks_nil blanks_nil) (keyed_writeText "ty")
    blanks_nil (.there .here) (by decide) (Kind.canonical .type .int).spelled again
  have members := SpellsMembers.known (.first blanks_nil) (keyed_writeText "name") blanks_nil .here
    (by decide) (Kind.canonical .name "a").spelled fromType
  have whole : grammar.Spells .binding (Binding.mk "a" .int) _ _ _ :=
    .intro _ (fun _ _ _ _ _ spelled => spelled) (.shaped (.object members))
  refine ⟨Binding.mk "a" .int, [], _, [], rfl, ?_, blanks_nil, blanks_nil, whole⟩
  rw [String.toList_ofList]
  decide +kernel

theorem trees_readAlike_bindings :
    read (String.ofList respelledBinding) = .ok (Binding.mk "a" .int) ∧
      ∃ fault, (read (String.ofList renamedBinding) : Except Fault Binding) = .error fault ∧
        fault.category.name = "data" ∧ fault.message? = some "duplicate field `name`" := by
  have alike := trees_readAlike.2.2.1 (Binding.mk "a" .int)
  exact ⟨alike.2.1 _ _ spelled_respelledBinding (by decide),
    alike.2.2 _ _ _ spelled_renamedBinding (by decide)⟩

end Document

end IntBackend
