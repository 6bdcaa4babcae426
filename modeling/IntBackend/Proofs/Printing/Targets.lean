/-
# IntBackend.Proofs.Printing.Targets — what depends on the target system

The code of a program is the same for all targets but for the number of the system
call that ends the process. Printed code differs in that number, in the underscore
that functions or the start routine get in front, and in the section directives.
`neutralLines` takes these out of a text, and what is left is the same for both
targets, provided that no function's own name begins with an underscore.
-/
import IntBackend.Proofs.Printing.Lines
import IntBackend.Proofs.Lowering.Modularity

namespace IntBackend

set_option autoImplicit false

open Convention

/-! ## Text without conventions -/

/-- Replaces `old`, which is not empty, by `new` wherever it stands, from left to right;
`skip` characters are passed over first. -/
def replaceFrom (old new : List Char) : (skip : Nat) → List Char → List Char
  | _, [] => []
  | skip + 1, _ :: text => replaceFrom old new skip text
  | 0, c :: text =>
      if old.isPrefixOf (c :: text) then new ++ replaceFrom old new (old.length - 1) text
      else c :: replaceFrom old new 0 text

def replaceAll (old new : String) (text : List Char) : List Char :=
  replaceFrom old.toList new.toList 0 text

/-- The numbers of the system call that ends the process get one name. -/
def neutralNumbers (line : List Char) : List Char :=
  replaceAll "$33554433" "$EXIT" (replaceAll "$60" "$EXIT" line)

def withoutUnderscore : List Char → List Char
  | '_' :: word => word
  | word => word

def neutralLine (line : List Char) : List Char :=
  [' '].intercalate ((wordsOf (neutralNumbers line)).map withoutUnderscore)

def isSectionLine (line : List Char) : Bool := ".section".toList.isPrefixOf line

/-- Lines, less those that name a section, without the numbers and the underscores that
systems want in their own way. -/
def neutral (lines : List (List Char)) : List (List Char) :=
  (lines.filter fun line => !isSectionLine line).map neutralLine

@[simp] theorem neutral_append (a b : List (List Char)) :
    neutral (a ++ b) = neutral a ++ neutral b := by
  simp [neutral]

theorem neutral_singleton {line : List Char} (kept : isSectionLine line = false) :
    neutral [line] = [neutralLine line] := by
  simp [neutral, kept]

theorem replaceFrom_of_not_mem {first : Char} {old new text : List Char} (absent : first ∉ text) :
    replaceFrom (first :: old) new 0 text = text := by
  induction text with
  | nil => rfl
  | cons c text ih =>
      have ne : first ≠ c := fun same => absent (same ▸ List.mem_cons_self ..)
      have there := ih fun among => absent (List.mem_cons_of_mem _ among)
      simp [replaceFrom, ne, there]

theorem neutralNumbers_of_not_mem {line : List Char} (absent : '$' ∉ line) :
    neutralNumbers line = line := by
  have first : replaceAll "$60" "$EXIT" line = line := replaceFrom_of_not_mem absent
  rw [neutralNumbers, first]
  exact replaceFrom_of_not_mem absent

/-- Without numbers only the underscores go. -/
theorem neutralLine_intercalate {list : List (List Char)} (present : list ≠ [])
    (plain : ∀ word ∈ list, ' ' ∉ word ∧ '$' ∉ word) :
    neutralLine ([' '].intercalate list) = [' '].intercalate (list.map withoutUnderscore) := by
  have absent : '$' ∉ [' '].intercalate list :=
    Instruction.not_mem_intercalate (by decide) fun word among => (plain word among).2
  have cut : wordsOf ([' '].intercalate list) = list :=
    List.splitOn_intercalate ' ' (fun word among => (plain word among).1) present
  rw [neutralLine, neutralNumbers_of_not_mem absent, cut]

/-! ## Labels -/

def beginsWithLetter (name : String) : Bool := name.toList.head?.any isLetter

/-- A label whose underscore, if it is printed with one, is no part of a name. -/
def Label.Plain : Label → Prop
  | .function name => beginsWithLetter name = true
  | _ => True

theorem withoutUnderscore_cons {c : Char} (rest : List Char) (other : c ≠ '_') :
    withoutUnderscore (c :: rest) = c :: rest := by
  unfold withoutUnderscore
  split
  · rename_i eq
    exact absurd (List.cons.inj eq).1 other
  · rfl

theorem withoutUnderscore_append {word : List Char} (present : word ≠ []) (rest : List Char) :
    withoutUnderscore (word ++ rest) = withoutUnderscore word ++ rest := by
  cases word with
  | nil => exact absurd rfl present
  | cons c word =>
      by_cases underscore : c = '_'
      · subst underscore
        rfl
      · rw [List.cons_append, withoutUnderscore_cons _ underscore,
          withoutUnderscore_cons _ underscore, List.cons_append]

namespace Label

/-- A label is printed alike on both targets, but for an underscore in front. -/
theorem withoutUnderscore_render {l : Label} (plain : l.Plain) :
    withoutUnderscore (l.render .linux).toList = withoutUnderscore (l.render .macos).toList := by
  cases l with
  | start => rfl
  | epilogue name => rfl
  | function name =>
      have marked : ("_" ++ name).toList = '_' :: name.toList := by simp [String.toList_append]
      have letter : name.toList.head?.any isLetter = true := plain
      rw [Label.render, Label.render, marked, withoutUnderscore]
      cases chars : name.toList with
      | nil => rfl
      | cons first rest =>
          rw [chars, List.head?_cons, Option.any_some] at letter
          refine withoutUnderscore_cons rest ?_
          rintro rfl
          exact absurd letter (by decide)

theorem not_dollar_render {l : Label} (target : Target) (legible : l.Legible) :
    '$' ∉ (l.render target).toList :=
  not_mem_render target legible (by decide) (by decide)

/-- The line of a label names no section. -/
theorem not_section_render {l : Label} (target : Target) (legible : l.Legible) (rest : List Char) :
    isSectionLine ((l.render target).toList ++ rest) = false := by
  cases l with
  | start => cases target <;> rfl
  | epilogue name => simp [Label.render, String.toList_append, isSectionLine, List.isPrefixOf]
  | function name =>
      obtain ⟨first, others, chars, -, all⟩ := exists_of_isName legible
      have inName : isNameChar first = true := all first (chars ▸ List.mem_cons_self ..)
      have other : '.' ≠ first := (ne_of_isNameChar inName (by decide)).symm
      cases target <;>
        simp [Label.render, String.toList_append, chars, isSectionLine, List.isPrefixOf, other]

/-- The line of a label is the same for all systems but for an underscore. -/
theorem neutral_line {l : Label} (legible : l.Legible) (plain : l.Plain) :
    neutral [(l.render .linux ++ ":").toList] = neutral [(l.render .macos ++ ":").toList] := by
  have line : ∀ target : Target, neutral [(l.render target ++ ":").toList] =
      [withoutUnderscore (l.render target).toList ++ [':']] := by
    intro target
    have word : ∀ word ∈ [(l.render target).toList ++ [':']], ' ' ∉ word ∧ '$' ∉ word := by
      have blank : ' ' ∉ (l.render target).toList := (blankless_render target legible).not_mem rfl
      simp [blank, not_dollar_render target legible]
    have whole := neutralLine_intercalate (List.cons_ne_nil _ []) word
    have present : (l.render target).toList ≠ [] := by
      simpa using render_ne_empty target legible
    have colon : (":" : String).toList = [':'] := rfl
    rw [String.toList_append, colon, neutral_singleton (not_section_render target legible _)]
    rw [List.intercalate_singleton, List.map_singleton, List.intercalate_singleton,
      withoutUnderscore_append present] at whole
    rw [whole]
  rw [line, line, withoutUnderscore_render plain]

end Label

/-! ## Instructions -/

/-- A label is the only operand of a jump, a call or a declaration. -/
theorem Opcode.label_of_accepts {op : Opcode} {operands : List Operand}
    (accepts : op.accepts operands = true) {l : Label} (among : .label l ∈ operands) :
    operands = [.label l] ∧ op ∈ [Opcode.jmp, .call, .global] := by
  have alone : ∀ {only : Operand}, .label l ∈ [only] → [only] = [.label l] := by
    intro only among
    rw [List.mem_singleton.mp among]
  have neither : ∀ {dst src : Operand}, (dst.isAnyRegister || dst.isMemory) = true →
      src.isLabel = false → .label l ∉ [dst, src] := by
    intro dst src place value among
    rcases List.mem_pair.mp among with rfl | rfl
    · cases place
    · cases value
  have computed : ∀ {dst src : Operand} {same : Bool},
      (dst.isAnyRegister && !src.isLabel && same) = true → .label l ∉ [dst, src] := by
    intro dst src same all
    simp only [Bool.and_eq_true, Bool.not_eq_true'] at all
    exact neither (by simp [all.1.1]) all.1.2
  unfold Opcode.accepts at accepts
  split at accepts
  · simp only [Bool.and_eq_true, Bool.not_eq_true'] at accepts
    exact absurd among (neither accepts.1.1.1 accepts.1.1.2)
  · exact absurd among (computed accepts)
  · exact absurd among (computed accepts)
  · exact absurd among (computed accepts)
  · rw [← List.mem_singleton.mp among] at accepts
    cases accepts
  · rw [← List.mem_singleton.mp among] at accepts
    cases accepts
  · exact ⟨alone among, by simp⟩
  · exact ⟨alone among, by simp⟩
  · exact ⟨alone among, by simp⟩
  · cases among
  · cases among
  · cases among
  · cases accepts

namespace Instruction

/-- The lines of an instruction without what depends on the system. -/
def neutralLines (target : Target) (i : Instruction) : List (List Char) :=
  neutral ((i.lines target).map String.toList)

/-- Labels apart, operands are printed alike for all systems. -/
theorem renderLine_eq_of_unlabelled {i : Instruction} (within : ∀ s, i.op ≠ .enter s)
    (unlabelled : ∀ l, .label l ∉ i.operands) (target other : Target) :
    i.renderLine target = i.renderLine other := by
  have operands : renderOperands target i.operands = renderOperands other i.operands := by
    unfold renderOperands
    congr 1
    refine List.map_congr_left fun operand among => ?_
    cases operand with
    | label l => exact absurd (mem_lastFirst.mp among) (unlabelled l)
    | _ => rfl
  unfold renderLine
  rw [operands]
  cases op : i.op with
  | enter s => exact absurd op (within s)
  | _ => rfl

/-- The line of an instruction whose operand is a label is the same for all systems but
for the underscore of that label. -/
theorem neutral_line_of_label {i : Instruction} (legible : i.Legible) {l : Label}
    (mentions : .label l ∈ i.operands) (plain : l.Plain) :
    neutral [(i.renderLine .linux).toList] = neutral [(i.renderLine .macos).toList] := by
  obtain ⟨operands, op⟩ := Opcode.label_of_accepts legible.accepted mentions
  have legibleLabel : l.Legible := legible.operands _ mentions
  have within : ∀ s, i.op ≠ .enter s := by
    rintro s enters
    simp [enters] at op
  have line : ∀ target : Target, neutral [(i.renderLine target).toList] =
      [[' '].intercalate [withoutUnderscore i.headWord.toList,
        withoutUnderscore (l.render target).toList]] := by
    intro target
    have words : i.words target = [i.headWord, l.render target] := by
      rw [Instruction.words, operands]
      rfl
    have printed := renderLine_eq_intercalate target legible within
    rw [words, String.intercalate_cons_cons, String.intercalate_singleton] at printed
    have kept : isSectionLine (i.renderLine target).toList = false := by
      simp only [List.mem_cons, List.not_mem_nil, or_false] at op
      rw [printed]
      rcases op with op | op | op <;>
        simp [headWord, op, sizedMnemonic, Opcode.isSized, Opcode.mnemonic, String.toList_append,
          isSectionLine, List.isPrefixOf]
    rw [neutral_singleton kept, renderLine_eq_intercalate target legible within, words,
      String.toList_intercalate]
    have blank : ' ' ∉ (l.render target).toList :=
      (Label.blankless_render target legibleLabel).not_mem rfl
    have plainWords : ∀ word ∈ [i.headWord.toList, (l.render target).toList],
        ' ' ∉ word ∧ '$' ∉ word := by
      simp [i.headWord_plain.1, i.headWord_plain.2.2, blank,
        Label.not_dollar_render target legibleLabel]
    have whole := neutralLine_intercalate (List.cons_ne_nil _ _) plainWords
    exact congrArg (fun chars => [chars]) whole
  rw [line, line, Label.withoutUnderscore_render plain]

/-- An instruction is printed alike for all systems but for its conventions. -/
theorem neutralLines_eq {i : Instruction} (legible : i.Legible)
    (plain : ∀ l, i.label = some l ∨ .label l ∈ i.operands → l.Plain) :
    i.neutralLines .linux = i.neutralLines .macos := by
  have label : neutral (((i.label.map fun l => l.render .linux ++ ":").toList).map String.toList) =
      neutral (((i.label.map fun l => l.render .macos ++ ":").toList).map String.toList) := by
    cases labelled : i.label with
    | none => rfl
    | some l => exact Label.neutral_line (legible.label l labelled) (plain l (.inl labelled))
  by_cases within : ∀ s, i.op ≠ .enter s
  · have own : neutral [(i.renderLine .linux).toList] = neutral [(i.renderLine .macos).toList] := by
      by_cases mentions : ∃ l, .label l ∈ i.operands
      · obtain ⟨l, among⟩ := mentions
        exact neutral_line_of_label legible among (plain l (.inr among))
      · rw [renderLine_eq_of_unlabelled within (not_exists.mp mentions) .linux .macos]
    simp only [neutralLines, lines_of_within _ within, List.map_append, neutral_append, label,
      List.map_singleton, own]
  · obtain ⟨s, enters⟩ : ∃ s, i.op = .enter s := by simpa using within
    have directive : ∀ target, i.renderLine target = s.render target := by
      intro target
      rw [renderLine, enters]
    simp only [neutralLines, lines, directive, List.map_append, neutral_append, label]
    congr 1
    cases s <;> decide

end Instruction

/-! ## Programs -/

/-- The text of code without what differs between targets, instruction by instruction. -/
theorem neutral_render {code : Code} (target : Target) (legible : ∀ i ∈ code, i.Legible) :
    neutral (linesOf (Code.render target code)) =
      code.flatMap (Instruction.neutralLines target) ++ [[]] := by
  have whole : neutral ((code.flatMap (Instruction.lines target)).map String.toList) =
      code.flatMap (Instruction.neutralLines target) := by
    clear legible
    induction code with
    | nil => rfl
    | cons i code ih =>
        rw [List.flatMap_cons, List.map_append, neutral_append, ih, List.flatMap_cons]
        rfl
  rw [linesOf_render target legible, neutral_append, whole]
  rfl

namespace Program

variable {p : Program} {target : Target} {code : Code}

theorem plain_of_mem_labels (lowers : p.lower target = .ok code)
    (letters : ∀ name ∈ p.names, beginsWithLetter name = true) {l : Label}
    (among : l ∈ labels code) : l.Plain := by
  cases l with
  | function name => exact letters name ((function_mem_labels lowers).mp among)
  | _ => trivial

/-- The start routines differ in the number of the system call only. -/
theorem neutral_front :
    (front .linux).flatMap (Instruction.neutralLines .macos) =
      (front .macos).flatMap (Instruction.neutralLines .macos) := by
  decide +kernel

/-- What lowers for one system lowers for the other, with another number in the fifth
instruction. -/
theorem lower_macos_of_linux (lowers : p.lower .linux = .ok code) :
    p.lower .macos = .ok (code.set 4 (.mov (.reg .ax .quad) (.nat Target.macos.exitNumber))) ∧
      code[4]? = some (.mov (.reg .ax .quad) (.nat Target.linux.exitNumber)) := by
  obtain ⟨fine, rfl⟩ := lower_eq_ok_iff.mp lowers
  exact ⟨lower_eq_ok_iff.mpr ⟨fine, rfl⟩, rfl⟩

theorem neutral_of_lower {linux macos : Code} (lowersLinux : p.lower .linux = .ok linux)
    (lowersMacos : p.lower .macos = .ok macos)
    (proper : ∀ name ∈ p.names, isName name = true ∧ beginsWithLetter name = true) :
    neutral (linesOf (Code.render .linux linux)) =
      neutral (linesOf (Code.render .macos macos)) := by
  have names : ∀ name ∈ p.names, isName name = true := fun name among => (proper name among).1
  have letters : ∀ name ∈ p.names, beginsWithLetter name = true := fun name among =>
    (proper name among).2
  have legible := legible_of_lower lowersLinux names
  have alike : ∀ i ∈ linux, i.neutralLines .linux = i.neutralLines .macos := by
    intro i among
    refine Instruction.neutralLines_eq (legible i among) fun l mentioned => ?_
    refine plain_of_mem_labels lowersLinux letters ?_
    rcases mentioned with labelled | mentioned
    · exact List.mem_filterMap.mpr ⟨i, among, labelled⟩
    · exact mem_labels_of_mentioned lowersLinux among mentioned
  rw [neutral_render .linux legible, List.flatMap_congr alike,
    neutral_render .macos (legible_of_lower lowersMacos names)]
  obtain ⟨-, rfl⟩ := lower_eq_ok_iff.mp lowersLinux
  obtain ⟨-, rfl⟩ := lower_eq_ok_iff.mp lowersMacos
  simp only [List.flatMap_append, neutral_front]

end Program

/-- For all systems a program is rejected with the same fault, or its code differs only
in the number of the system call that ends the process. If the names of its functions
begin with a letter, the text of that code differs only in conventions. -/
theorem Program.targets_agree (p : Program) :
    (∃ fault, p.lower .linux = .error fault ∧ p.lower .macos = .error fault) ∨
    ∃ linux macos : Code, p.lower .linux = .ok linux ∧ p.lower .macos = .ok macos ∧
      linux.length = macos.length ∧ (∀ k, k ≠ 4 → linux[k]? = macos[k]?) ∧
      linux[4]? = some (.mov (.reg .ax .quad) (.const "60")) ∧
      macos[4]? = some (.mov (.reg .ax .quad) (.const "33554433")) ∧
      ((∀ name ∈ p.names, isName name = true ∧ beginsWithLetter name = true) →
        neutral (linesOf (Code.render .linux linux)) =
          neutral (linesOf (Code.render .macos macos))) := by
  cases lowersLinux : p.lower .linux with
  | error fault =>
      have found : p.fault? = some fault := by
        rw [← p.faultOr_lower .linux]
        exact faultOr_eq_some_iff.mpr lowersLinux
      rw [← p.faultOr_lower .macos] at found
      exact .inl ⟨fault, rfl, faultOr_eq_some_iff.mp found⟩
  | ok linux =>
      obtain ⟨lowersMacos, exit⟩ := Program.lower_macos_of_linux lowersLinux
      have fifth : 4 < linux.length := (List.getElem?_eq_some_iff.mp exit).1
      refine .inr ⟨linux, _, rfl, lowersMacos, ?_, ?_, ?_, ?_, ?_⟩
      · rw [List.length_set]
      · intro k other
        rw [List.getElem?_set_ne other.symm]
      · rw [exit]
        rfl
      · rw [List.getElem?_set_self fifth]
        rfl
      · exact Program.neutral_of_lower lowersLinux lowersMacos

/-- A function and constants that read like what the systems differ in. -/
def exitNumbers : Program :=
  ⟨[⟨"start", [⟨"n", .int⟩], some .int,
      [.ret (some (.binary .add (.var "n") (.const 60)))]⟩,
    ⟨"main", [], some .int,
      [.ret (some (.binary .mul (.call "start" [.const 33554433]) (.const 601)))]⟩]⟩

theorem Program.targets_agree_exitNumbers :
    (∀ name ∈ exitNumbers.names, isName name = true ∧ beginsWithLetter name = true) ∧
    ∃ linux macos : Code, exitNumbers.lower .linux = .ok linux ∧
      exitNumbers.lower .macos = .ok macos ∧
      linux.length = macos.length ∧ (∀ k, k ≠ 4 → linux[k]? = macos[k]?) ∧
      linux[4]? = some (.mov (.reg .ax .quad) (.const "60")) ∧
      macos[4]? = some (.mov (.reg .ax .quad) (.const "33554433")) ∧
      neutral (linesOf (Code.render .linux linux)) =
        neutral (linesOf (Code.render .macos macos)) := by
  have lowersOk : (exitNumbers.lower .linux).isOk = true := by decide +kernel
  have proper : ∀ name ∈ exitNumbers.names,
      isName name = true ∧ beginsWithLetter name = true := by decide +kernel
  refine ⟨proper, ?_⟩
  rcases Program.targets_agree exitNumbers with
    ⟨fault, fails, -⟩ | ⟨linux, macos, lowersLinux, lowersMacos, length, same, first, second, text⟩
  · rw [fails] at lowersOk
    cases lowersOk
  · exact ⟨linux, macos, lowersLinux, lowersMacos, length, same, first, second, text proper⟩

end IntBackend
