/-
# IntBackend.Proofs.Printing.Lines — the lines and words of printed code

An instruction is printed as a line for its label and a line of its own
(`Instruction.lines`), and that line consists of words with a blank between any two
(`Instruction.words`): the mnemonic after a tab, and the operands, all but the last
with a comma. Cutting the text at line ends and a line at blanks gives these back
(`linesOf_render`, `wordsOf_renderLine`), because the code of a program is legible:
its constants are numbers, and labels have proper names.
-/
import IntBackend.Proofs.Lowering.Symbols

namespace IntBackend

set_option autoImplicit false

open Convention

/-! ## Cutting text -/

/-- The lines of a text; what follows the last line end is one more. -/
def linesOf (text : String) : List (List Char) := text.toList.splitOn '\n'

/-- The words of a line, which are separated by single blanks. -/
def wordsOf (line : List Char) : List (List Char) := line.splitOn ' '

/-- Pieces that are each closed by a mark are found by splitting there. -/
theorem splitOn_closed {pieces : List (List Char)} {close : Char}
    (unbroken : ∀ piece ∈ pieces, close ∉ piece) :
    (pieces.flatMap (· ++ [close])).splitOn close = pieces ++ [[]] := by
  induction pieces with
  | nil => rfl
  | cons piece pieces ih =>
      have here : close ∉ piece := unbroken piece (List.mem_cons_self ..)
      have there := ih fun other among => unbroken other (List.mem_cons_of_mem _ among)
      rw [List.flatMap_cons, List.append_assoc, List.singleton_append,
        List.splitOn_append_cons_self_of_not_mem here, there, List.cons_append]

/-! ## Names and numbers -/

/-- The letters of ASCII, and all characters beyond it. -/
def isLetter (c : Char) : Bool := c.isAlpha || 128 ≤ c.toNat

def isNameChar (c : Char) : Bool := isLetter c || c.isDigit || c = '_'

/-- A name consists of letters, digits and underscores and does not begin with a digit. -/
def isName (name : String) : Bool :=
  match name.toList with
  | [] => false
  | first :: rest => (isLetter first || first = '_') && rest.all isNameChar

/-- A name starts with a letter or an underscore and goes on with name characters. -/
theorem exists_of_isName {name : String} (proper : isName name = true) :
    ∃ first rest, name.toList = first :: rest ∧ (isLetter first = true ∨ first = '_') ∧
      ∀ c ∈ name.toList, isNameChar c = true := by
  unfold isName at proper
  cases chars : name.toList with
  | nil => simp [chars] at proper
  | cons first rest =>
      simp only [chars, Bool.and_eq_true, Bool.or_eq_true, decide_eq_true_eq,
        List.all_eq_true] at proper
      refine ⟨first, rest, rfl, proper.1, List.forall_mem_cons.mpr ⟨?_, proper.2⟩⟩
      rcases proper.1 with letter | underscore
      · simp [isNameChar, letter]
      · simp [isNameChar, underscore]

theorem ne_of_isNameChar {c other : Char} (inName : isNameChar c = true)
    (not : isNameChar other = false) : c ≠ other := by
  rintro rfl
  exact Bool.false_ne_true (not.symm.trans inName)

theorem mem_repr {n : Int} {c : Char} (among : c ∈ n.repr.toList) : c.isDigit = true ∨ c = '-' := by
  have digits : ∀ k : Nat, c ∈ k.repr.toList → c.isDigit = true := by
    intro k inside
    rw [Nat.toList_repr] at inside
    exact Nat.isDigit_of_mem_toDigits (by decide) (by decide) inside
  cases n with
  | ofNat k => exact .inl (digits k among)
  | negSucc k =>
      have chars : (Int.negSucc k).repr.toList = '-' :: (k + 1).repr.toList := by
        simp [Int.repr, String.toList_append]
      rw [chars, List.mem_cons] at among
      exact among.symm.imp_left (digits (k + 1))

/-! ## Legible code -/

def Label.Legible : Label → Prop
  | .start => True
  | .function name => isName name = true
  | .epilogue name => isName name = true

def Operand.Legible : Operand → Prop
  | .const text => ∃ n : Int, text = n.repr
  | .label l => l.Legible
  | _ => True

/-- The operands fit the opcode, constants are numbers, and labels have proper names. -/
structure Instruction.Legible (i : Instruction) : Prop where
  accepted : i.op.accepts i.operands = true
  operands : ∀ operand ∈ i.operands, operand.Legible
  label : ∀ l, i.label = some l → l.Legible

/-- Characters among which there is no blank, tab or line end. -/
def Blankless (chars : List Char) : Prop := ∀ c ∈ chars, c.isWhitespace = false

instance (chars : List Char) : Decidable (Blankless chars) :=
  decidable_of_iff (chars.all fun c => !c.isWhitespace) (by simp [Blankless])

theorem Blankless.append {a b : List Char} (first : Blankless a) (second : Blankless b) :
    Blankless (a ++ b) := by
  intro c among
  rcases List.mem_append.mp among with among | among
  · exact first c among
  · exact second c among

theorem Blankless.not_mem {chars : List Char} (blankless : Blankless chars) {c : Char}
    (blank : c.isWhitespace = true) : c ∉ chars := fun among =>
  Bool.false_ne_true ((blankless c among).symm.trans blank)

theorem isWhitespace_of_isNameChar {c : Char} (inName : isNameChar c = true) :
    c.isWhitespace = false := by
  rw [← Bool.not_eq_true]
  intro blank
  simp only [Char.isWhitespace, Bool.or_eq_true, decide_eq_true_eq] at blank
  rcases blank with ((rfl | rfl) | rfl) | rfl <;> exact absurd inName (by decide)

theorem blankless_repr (n : Int) : Blankless n.repr.toList := by
  intro c among
  rcases mem_repr among with digit | rfl
  · exact isWhitespace_of_isNameChar (by simp [isNameChar, digit])
  · decide

theorem Register.isNameChar_name (r : Register) (w : Width) :
    ∀ c ∈ (r.name w).toList, isNameChar c = true := by
  have all : (r.name w).toList.all isNameChar = true := by cases r <;> cases w <;> decide
  exact List.all_eq_true.mp all

theorem Register.blankless_name (r : Register) (w : Width) : Blankless (r.name w).toList :=
  fun c among => isWhitespace_of_isNameChar (r.isNameChar_name w c among)

/-- A label is printed in the characters of names, and with a dot. -/
theorem Label.mem_render {l : Label} {target : Target} (legible : l.Legible) {c : Char}
    (among : c ∈ (l.render target).toList) : isNameChar c = true ∨ c = '.' := by
  cases l with
  | start =>
      have letters : (Label.start.render target).toList.all isNameChar = true := by
        cases target <;> decide
      exact .inl (List.all_eq_true.mp letters c among)
  | function name =>
      obtain ⟨-, -, -, -, all⟩ := exists_of_isName legible
      cases target with
      | linux => exact .inl (all c among)
      | macos =>
          rw [Label.render, String.toList_append, List.mem_append] at among
          rcases among with among | among
          · rw [List.mem_singleton.mp among]
            exact .inl rfl
          · exact .inl (all c among)
  | epilogue name =>
      obtain ⟨-, -, -, -, all⟩ := exists_of_isName legible
      have ending : "_epilogue".toList.all isNameChar = true := by decide
      simp only [Label.render, String.toList_append, List.mem_append] at among
      rcases among with (among | among) | among
      · rcases List.mem_pair.mp among with rfl | rfl
        · exact .inr rfl
        · exact .inl rfl
      · exact .inl (all c among)
      · exact .inl (List.all_eq_true.mp ending c among)

/-- A printed label holds no character that neither names nor the dot have. -/
theorem Label.not_mem_render {l : Label} {c : Char} (target : Target) (legible : l.Legible)
    (foreign : isNameChar c = false) (other : c ≠ '.') : c ∉ (l.render target).toList := by
  intro among
  rcases mem_render legible among with inName | dot
  · exact ne_of_isNameChar inName foreign rfl
  · exact other dot

theorem Label.blankless_render {l : Label} (target : Target) (legible : l.Legible) :
    Blankless (l.render target).toList := by
  intro c among
  rcases mem_render legible among with inName | rfl
  · exact isWhitespace_of_isNameChar inName
  · rfl

/-- A printed operand holds no blank. -/
theorem Operand.blankless_render {operand : Operand} (target : Target)
    (legible : operand.Legible) : Blankless (operand.render target).toList := by
  cases operand with
  | reg r w =>
      rw [Operand.render, String.toList_append]
      exact .append (by decide) (r.blankless_name w)
  | mem r w offset =>
      simp only [Operand.render, String.toList_append]
      exact .append (.append (.append (blankless_repr offset) (by decide))
        (r.blankless_name .quad)) (by decide)
  | const text =>
      obtain ⟨n, rfl⟩ := legible
      rw [Operand.render, String.toList_append]
      exact .append (by decide) (blankless_repr n)
  | label l => exact Label.blankless_render target legible

theorem Label.render_ne_empty {l : Label} (target : Target) (legible : l.Legible) :
    l.render target ≠ "" := by
  intro empty
  have chars : (l.render target).toList = [] := by rw [empty]; rfl
  cases l with
  | start => cases target <;> simp [Label.render] at chars
  | function name =>
      obtain ⟨first, rest, same, -⟩ := exists_of_isName legible
      cases target <;> simp [Label.render, String.toList_append, same] at chars
  | epilogue name => simp [Label.render, String.toList_append] at chars

theorem Operand.render_ne_empty {operand : Operand} (target : Target)
    (legible : operand.Legible) : operand.render target ≠ "" := by
  cases operand with
  | label l => exact Label.render_ne_empty target legible
  | _ =>
      intro empty
      have chars := congrArg String.toList empty
      simp [Operand.render, String.toList_append] at chars

/-! ## The words of a line -/

/-- Words with a comma behind all but the last. -/
def punctuated : List String → List String
  | [] => []
  | [word] => [word]
  | word :: rest => (word ++ ",") :: punctuated rest

theorem punctuated_ne_nil {list : List String} (present : list ≠ []) : punctuated list ≠ [] := by
  cases list with
  | nil => exact absurd rfl present
  | cons word rest => cases rest <;> simp [punctuated]

/-- Commas belong to the words in front of them. -/
theorem intercalate_punctuated (list : List String) :
    " ".intercalate (punctuated list) = ", ".intercalate list := by
  induction list with
  | nil => rfl
  | cons word rest ih =>
      cases rest with
      | nil => rfl
      | cons next rest =>
          have comma : ", " = "," ++ " " := rfl
          rw [punctuated, String.intercalate_cons_of_ne_nil (punctuated_ne_nil (by simp)), ih,
            String.intercalate_cons_cons]
          · rw [comma, String.append_assoc, String.append_assoc, String.append_assoc,
              String.append_assoc]
          · nofun

namespace Instruction

/-- The first word of a line: a directive, or a mnemonic after a tab. -/
def headWord (i : Instruction) : String :=
  match i.op with
  | .global => Opcode.global.mnemonic
  | op => "\t" ++ sizedMnemonic op i.operands

/-- The words of an instruction's line. -/
def words (target : Target) (i : Instruction) : List String :=
  i.headWord :: punctuated ((lastFirst i.operands).map (Operand.render target))

theorem lastFirst_concat {α : Type} (xs : List α) (x : α) : lastFirst (xs ++ [x]) = x :: xs := by
  simp [lastFirst]

theorem renderOperands_ne_empty {operands : List Operand} (target : Target)
    (legible : ∀ operand ∈ operands, operand.Legible) (present : operands ≠ []) :
    renderOperands target operands ≠ "" := by
  obtain ⟨front, last, rfl⟩ := (List.eq_nil_or_concat operands).resolve_left present
  have printed : last.render target ≠ "" :=
    Operand.render_ne_empty target (legible last (by simp))
  rw [List.concat_eq_append, renderOperands, lastFirst_concat, List.map_cons]
  cases front with
  | nil => simpa using printed
  | cons next rest =>
      rw [List.map_cons, String.intercalate_cons_cons]
      simp [printed]

/-- A line is its words with blanks between them. -/
theorem renderLine_eq_intercalate {i : Instruction} (target : Target) (legible : i.Legible)
    (within : ∀ s, i.op ≠ .enter s) :
    i.renderLine target = " ".intercalate (i.words target) := by
  obtain ⟨label, op, operands⟩ := i
  by_cases none : operands = []
  · subst none
    have accepted := legible.accepted
    cases op with
    | enter s => exact absurd rfl (within s)
    | ret => rfl
    | syscall => rfl
    | _ => cases accepted
  · have printed : (lastFirst operands).map (Operand.render target) ≠ [] := by
      obtain ⟨front, last, rfl⟩ := (List.eq_nil_or_concat operands).resolve_left none
      rw [List.concat_eq_append, lastFirst_concat]
      nofun
    have present : (renderOperands target operands).isEmpty = false :=
      String.isEmpty_eq_false_iff.mpr (renderOperands_ne_empty target legible.operands none)
    have joined : " ".intercalate (punctuated ((lastFirst operands).map (Operand.render target))) =
        renderOperands target operands := intercalate_punctuated _
    rw [words, String.intercalate_cons_of_ne_nil (punctuated_ne_nil printed), joined]
    cases op with
    | enter s => exact absurd rfl (within s)
    | global => rfl
    | _ => simp [renderLine, present, headWord]

/-- No opcode or directive is printed with a blank, a line break or a dollar sign. -/
theorem headWord_plain (i : Instruction) :
    ' ' ∉ i.headWord.toList ∧ '\n' ∉ i.headWord.toList ∧ '$' ∉ i.headWord.toList := by
  unfold headWord sizedMnemonic
  generalize Operand.size i.operands = w
  cases i.op with
  | enter s => cases s <;> cases w <;> decide
  | _ => cases w <;> decide

theorem mem_punctuated {list : List String} {word : String} (among : word ∈ punctuated list) :
    ∃ item ∈ list, word = item ∨ word = item ++ "," := by
  fun_induction punctuated list with
  | case1 => cases among
  | case2 item => exact ⟨item, List.mem_cons_self .., .inl (List.mem_singleton.mp among)⟩
  | case3 item rest _ ih =>
      rcases List.mem_cons.mp among with rfl | among
      · exact ⟨item, List.mem_cons_self .., .inr rfl⟩
      · obtain ⟨other, inside, eq⟩ := ih among
        exact ⟨other, List.mem_cons_of_mem _ inside, eq⟩

theorem mem_lastFirst {α : Type} {xs : List α} {x : α} : x ∈ lastFirst xs ↔ x ∈ xs := by
  rcases List.eq_nil_or_concat xs with rfl | ⟨front, last, rfl⟩
  · rfl
  · rw [List.concat_eq_append, lastFirst_concat]
    simp [or_comm]

/-- Words hold neither blanks nor line breaks, so lines can be split into them. -/
theorem unbroken_of_mem_words {i : Instruction} {target : Target} (legible : i.Legible)
    {word : String} (among : word ∈ i.words target) :
    ' ' ∉ word.toList ∧ '\n' ∉ word.toList := by
  rcases List.mem_cons.mp among with rfl | among
  · exact ⟨i.headWord_plain.1, i.headWord_plain.2.1⟩
  · obtain ⟨item, inside, eq⟩ := mem_punctuated among
    obtain ⟨operand, member, rfl⟩ := List.mem_map.mp inside
    have blankless := Operand.blankless_render target
      (legible.operands operand (mem_lastFirst.mp member))
    rcases eq with rfl | rfl
    · exact ⟨blankless.not_mem rfl, blankless.not_mem rfl⟩
    · have comma : Blankless ",".toList := by decide
      rw [String.toList_append]
      exact ⟨(blankless.append comma).not_mem rfl, (blankless.append comma).not_mem rfl⟩

/-- Cutting a line at its blanks gives its words. -/
theorem wordsOf_renderLine {i : Instruction} (target : Target) (legible : i.Legible)
    (within : ∀ s, i.op ≠ .enter s) :
    wordsOf (i.renderLine target).toList = (i.words target).map String.toList := by
  rw [renderLine_eq_intercalate target legible within, String.toList_intercalate, wordsOf]
  apply List.splitOn_intercalate ' '
  · intro chars among
    obtain ⟨word, inside, rfl⟩ := List.mem_map.mp among
    exact (unbroken_of_mem_words legible inside).1
  · nofun

/-! ## The lines of code -/

/-- The lines that an instruction is printed as: that of its label and its own. -/
def lines (target : Target) (i : Instruction) : List String :=
  (i.label.map fun l => l.render target ++ ":").toList ++
    if (i.renderLine target).isEmpty then [] else [i.renderLine target]

/-- Only section directives can be printed as nothing. -/
theorem lines_of_within {i : Instruction} (target : Target) (within : ∀ s, i.op ≠ .enter s) :
    i.lines target =
      (i.label.map fun l => l.render target ++ ":").toList ++ [i.renderLine target] := by
  have printed : i.renderLine target ≠ "" := by
    unfold renderLine
    cases op : i.op with
    | enter s => exact absurd op (within s)
    | global => simp
    | _ =>
        dsimp only
        split <;> simp
  rw [lines, String.isEmpty_eq_false_iff.mpr printed]
  rfl

theorem render_eq_join (target : Target) (i : Instruction) :
    i.render target = String.join ((i.lines target).map (· ++ "\n")) := by
  have label : renderLabel target i.label =
      String.join ((i.label.map fun l => l.render target ++ ":").toList.map (· ++ "\n")) := by
    cases i.label with
    | none => rfl
    | some l =>
        have close : ":\n" = ":" ++ "\n" := rfl
        simp [renderLabel, close, String.append_assoc]
  rw [render, lines, List.map_append, String.join_append, label]
  congr 1
  split <;> simp

theorem not_mem_intercalate {c : Char} {separator : List Char} {pieces : List (List Char)}
    (between : c ∉ separator) (inside : ∀ piece ∈ pieces, c ∉ piece) :
    c ∉ separator.intercalate pieces := by
  induction pieces with
  | nil => simp
  | cons piece rest ih =>
      have here := inside piece (List.mem_cons_self ..)
      have there := ih fun other among => inside other (List.mem_cons_of_mem _ among)
      cases rest with
      | nil => simpa using here
      | cons next rest =>
          rw [List.intercalate_cons_cons]
          simp [here, between, there]

theorem unbroken_renderLine {i : Instruction} (target : Target) (legible : i.Legible) :
    '\n' ∉ (i.renderLine target).toList := by
  by_cases within : ∀ s, i.op ≠ .enter s
  · rw [renderLine_eq_intercalate target legible within, String.toList_intercalate]
    refine not_mem_intercalate (by decide) fun piece among => ?_
    obtain ⟨word, inside, rfl⟩ := List.mem_map.mp among
    exact (unbroken_of_mem_words legible inside).2
  · obtain ⟨s, enters⟩ : ∃ s, i.op = .enter s := by simpa using within
    have directive : i.renderLine target = s.render target := by rw [renderLine, enters]
    rw [directive]
    cases s <;> cases target <;> decide

theorem unbroken_lines {i : Instruction} {target : Target} (legible : i.Legible) {line : String}
    (among : line ∈ i.lines target) : '\n' ∉ line.toList := by
  rw [lines, List.mem_append] at among
  rcases among with among | among
  · rw [Option.mem_toList, Option.map_eq_some_iff] at among
    obtain ⟨l, labelled, rfl⟩ := among
    have colon : Blankless ":".toList := by decide
    rw [String.toList_append]
    exact ((Label.blankless_render target (legible.label l labelled)).append colon).not_mem rfl
  · split at among
    · cases among
    · rw [List.mem_singleton.mp among]
      exact unbroken_renderLine target legible

end Instruction

/-- The text of code is its lines, each of them closed by a line break. -/
theorem toList_render (target : Target) (code : Code) :
    (Code.render target code).toList =
      ((code.flatMap (Instruction.lines target)).map String.toList).flatMap (· ++ ['\n']) := by
  induction code with
  | nil => rfl
  | cons i code ih =>
      have cons : Code.render target (i :: code) = i.render target ++ Code.render target code :=
        String.join_cons
      rw [cons, String.toList_append, ih, i.render_eq_join, List.flatMap_cons, List.map_append,
        List.flatMap_append, String.toList_join]
      simp only [List.flatMap_map, String.toList_append]
      rfl

/-- Cutting printed code at its line ends gives the lines of its instructions. -/
theorem linesOf_render {code : Code} (target : Target) (legible : ∀ i ∈ code, i.Legible) :
    linesOf (Code.render target code) =
      (code.flatMap (Instruction.lines target)).map String.toList ++ [[]] := by
  rw [linesOf, toList_render]
  apply splitOn_closed
  intro chars among
  obtain ⟨line, inside, rfl⟩ := List.mem_map.mp among
  obtain ⟨i, member, inLines⟩ := List.mem_flatMap.mp inside
  exact Instruction.unbroken_lines (legible i member) inLines

/-! ## Programs are legible -/

namespace Scope

variable {scope : Scope} {text : String}

theorem Source.number (cells : scope.Cells) (source : scope.Source (.const text)) :
    ∃ n : Int, text = n.repr := by
  cases source with
  | const value => exact ⟨value.toInt, rfl⟩
  | place found =>
      obtain ⟨offset, eq⟩ := cells found
      cases eq

theorem number_of_source_or_reg (cells : scope.Cells) {r : Register} {w : Width}
    (value : scope.Source (.const text) ∨ .const text = Operand.reg r w) :
    ∃ n : Int, text = n.repr := by
  rcases value with source | same
  · exact source.number cells
  · cases same

theorem Emits.number (cells : scope.Cells) {i : Instruction} (emits : scope.Emits i)
    (among : .const text ∈ i.operands) : ∃ n : Int, text = n.repr := by
  cases emits with
  | load source =>
      rcases List.mem_pair.mp among with same | rfl
      · cases same
      · exact source.number cells
  | park => rcases List.mem_pair.mp among with same | same <;> cases same
  | negate =>
      rcases List.mem_pair.mp among with same | same
      · cases same
      · cases same
        exact ⟨-1, rfl⟩
  | add left =>
      rcases List.mem_pair.mp among with same | rfl
      · cases same
      · exact number_of_source_or_reg cells left
  | mul left =>
      rcases List.mem_pair.mp among with same | rfl
      · cases same
      · exact number_of_source_or_reg cells left
  | pass carries value =>
      rcases List.mem_pair.mp among with same | rfl
      · cases same
      · exact number_of_source_or_reg cells value
  | @push operand value =>
      have same := List.mem_singleton.mp among
      cases operand with
      | const other =>
          cases same
          exact number_of_source_or_reg cells value
      | _ => cases same
  | call known =>
      have same := List.mem_singleton.mp among
      cases same
  | drop count =>
      rcases List.mem_pair.mp among with same | same
      · cases same
      · cases same
        exact ⟨(stackArgSize * count : Nat), rfl⟩

/-- Constants of a body are printed integers. -/
theorem EmitsBody.number (cells : scope.Cells) {i : Instruction} (emits : scope.EmitsBody i)
    (among : .const text ∈ i.operands) : ∃ n : Int, text = n.repr := by
  cases emits with
  | value emits => exact emits.number cells among
  | store found value =>
      obtain ⟨offset, rfl⟩ := cells found
      rcases List.mem_pair.mp among with same | rfl
      · cases same
      · rcases value with ⟨n, same⟩ | same
        · cases same
          exact ⟨n.toInt, rfl⟩
        · cases same
  | arrive found carries =>
      obtain ⟨offset, rfl⟩ := cells found
      rcases List.mem_pair.mp among with same | same <;> cases same
  | leave =>
      have same := List.mem_singleton.mp among
      cases same

end Scope

namespace Program

variable {p : Program} {target : Target} {code : Code}

/-- Every constant of a lowered program is the text of a number. -/
theorem number_of_lower (lowers : p.lower target = .ok code) {i : Instruction} (inside : i ∈ code)
    {text : String} (among : .const text ∈ i.operands) : ∃ n : Int, text = n.repr := by
  have size : ∀ (f : Func), .const text = Operand.nat f.frameSize → ∃ n : Int, text = n.repr := by
    intro f same
    cases same
    exact ⟨f.frameSize, rfl⟩
  rcases mem_of_lower lowers inside with
    ⟨s, rfl⟩ | inside | ⟨f, -, body, final, lowersBody, inside | inside | inside⟩
  · cases among
  · simp only [startRoutine, List.mem_cons, List.not_mem_nil, or_false] at inside
    rcases inside with rfl | rfl | rfl | rfl | rfl <;>
      simp [Instruction.labelled, Instruction.global, Instruction.call, Instruction.mov,
        Instruction.syscall, Instruction.plain, accumulator, Operand.nat] at among
    exact ⟨target.exitNumber, among⟩
  · simp only [Func.prologue, List.mem_cons, List.not_mem_nil, or_false] at inside
    rcases inside with rfl | rfl | rfl | rfl <;>
      simp [Instruction.labelled, Instruction.global, Instruction.push, Instruction.mov,
        Instruction.sub, Instruction.plain, basePointer, stackPointer] at among
    exact size f among
  · have cells := (Func.laid_of_lowerBody lowersBody).cells
    exact (Func.emitsBody_of_lowerBody lowersBody i inside).number cells among
  · simp only [Func.epilogue, List.mem_cons, List.not_mem_nil, or_false] at inside
    rcases inside with rfl | rfl | rfl <;>
      simp [Instruction.labelled, Instruction.add, Instruction.pop, Instruction.ret,
        Instruction.plain, basePointer, stackPointer] at among
    exact size f among

theorem legible_of_mem_labels (lowers : p.lower target = .ok code)
    (proper : ∀ name ∈ p.names, isName name = true) {l : Label} (among : l ∈ labels code) :
    l.Legible := by
  cases l with
  | start => trivial
  | function name => exact proper name ((function_mem_labels lowers).mp among)
  | epilogue name => exact proper name ((epilogue_mem_labels lowers).mp among)

/-- All that is lowered from proper names is legible. -/
theorem legible_of_lower (lowers : p.lower target = .ok code)
    (proper : ∀ name ∈ p.names, isName name = true) : ∀ i ∈ code, i.Legible := by
  intro i inside
  refine ⟨accepts_of_lower lowers i inside, ?_, ?_⟩
  · intro operand among
    cases operand with
    | reg r w => trivial
    | mem r w offset => trivial
    | const text => exact number_of_lower lowers inside among
    | label l =>
        exact legible_of_mem_labels lowers proper (mem_labels_of_mentioned lowers inside among)
  · intro l labelled
    exact legible_of_mem_labels lowers proper (List.mem_filterMap.mpr ⟨i, inside, labelled⟩)

end Program

end IntBackend
