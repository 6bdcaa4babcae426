/-
# IntBackend.Proofs.Source.Documents — trees and their texts

The text of a tree reads as that tree, as long as at most 127 arrays and objects are open
in it at once; deeper texts are refused as malformed. Any text that reads as a tree, with
whatever blanks, order of fields, array for a record or member that nobody asked for, gives
a tree whose own text is within that limit. A tree's text that was cut off is never read as
another tree.
-/
import IntBackend.Source.Document
import IntBackend.Proofs.Json.Truncation
import IntBackend.Proofs.Source.Nodes

namespace IntBackend

set_option autoImplicit false

open Json

/-! ## The writers of the grammar -/

theorem Expr.writeAll_eq_map (es : List Expr) : Expr.writeAll es = es.map Expr.write := by
  induction es with
  | nil => rfl
  | cons e es ih => rw [Expr.writeAll, ih, List.map_cons]

theorem Stmt.writeAll_eq_map (ss : List Stmt) : Stmt.writeAll ss = ss.map Stmt.write := by
  induction ss with
  | nil => rfl
  | cons s ss ih => rw [Stmt.writeAll, ih, List.map_cons]

namespace Kind

/-- The text of a value of some kind. -/
def write : (k : Kind) → k.El → List Char
  | .name, x => writeText x
  | .number, n => writeInt n.toInt
  | .operator, op => op.write
  | .type, t => t.write
  | .resultType, result => match result with | some t => t.write | none => writeNull
  | .binding, b => b.write
  | .bindings, bs => writeArray (bs.map Binding.write)
  | .expr, e => e.write
  | .exprs, es => writeArray (es.map Expr.write)
  | .binary, (op, lhs, rhs) =>
      writeObject [("op", op.write), ("lhs", lhs.write), ("rhs", rhs.write)]
  | .call, (callee, args) => writeArray [writeText callee, writeArray (args.map Expr.write)]
  | .returned, value => match value with | some e => e.write | none => writeNull
  | .stmt, s => s.write
  | .assignment, (x, v) => writeObject [("name", writeText x), ("value", v.write)]
  | .block, body => writeBlock body
  | .func, f => f.write
  | .funcs, fs => writeArray (fs.map Func.write)
  | .program, p => p.write

/-- The cases of an expression are told apart and written as they are read. -/
theorem exprCases_writtenBy {α : Type} {make : Expr → α} {own : α → List Char}
    (same : ∀ e, own (make e) = e.write) :
    (Shape.choice (exprCases make)).WrittenBy write own := by
  refine ⟨by simp [exprCases, Case.name], ?_⟩
  simp only [exprCases, List.forall_mem_cons]
  refine ⟨fun x => ?_, fun n => ?_, fun (op, lhs, rhs) => ?_, fun (callee, args) => ?_, nofun⟩
  · rw [same, Expr.write, write]
  · rw [same, Expr.write, write]
  · rw [same, Expr.write, write]
  · rw [same, Expr.write, Expr.writeAll_eq_map, write]

theorem operatorCases_writtenBy : (Shape.choice operatorCases).WrittenBy write BinOp.write := by
  refine ⟨by decide, ?_⟩
  simp only [operatorCases, List.forall_mem_cons]
  exact ⟨rfl, rfl, rfl, rfl, rfl, nofun⟩

theorem typeCases_writtenBy {α : Type} {make : Ty → α} {own : α → List Char}
    (same : ∀ t, own (make t) = t.write) : (Shape.choice (typeCases make)).WrittenBy write own := by
  refine ⟨by simp [typeCases], ?_⟩
  simp only [typeCases, List.forall_mem_cons]
  exact ⟨same .int, nofun⟩

theorem stmtCases_writtenBy : (Shape.choice stmtCases).WrittenBy write Stmt.write := by
  refine ⟨by decide, ?_⟩
  simp only [stmtCases, List.forall_mem_cons]
  refine ⟨fun b => ?_, fun (x, v) => ?_, fun v => ?_, fun value => ?_, fun body => ?_, nofun⟩
  · rw [Stmt.write, write]
  · rw [Stmt.write, write]
  · rw [Stmt.write, write]
  · cases value <;> rw [Stmt.write, write]
  · rw [Stmt.write, write, writeBlock]

/-- The grammar of trees describes the texts that trees are written as. -/
theorem grammar_writtenBy : grammar.WrittenBy write := by
  intro k
  cases k with
  | name => exact ⟨fun _ => rfl, nofun⟩
  | number => exact ⟨fun _ => rfl, nofun⟩
  | operator => exact ⟨operatorCases_writtenBy, nofun⟩
  | type => exact ⟨typeCases_writtenBy fun _ => rfl, nofun⟩
  | resultType => exact ⟨typeCases_writtenBy fun _ => rfl, by simp [grammar, write]⟩
  | binding => exact ⟨⟨by decide, fun _ => rfl⟩, nofun⟩
  | bindings => exact ⟨fun _ => rfl, nofun⟩
  | expr => exact ⟨exprCases_writtenBy fun _ => rfl, nofun⟩
  | exprs => exact ⟨fun _ => rfl, nofun⟩
  | binary => exact ⟨⟨by decide, fun _ => rfl⟩, nofun⟩
  | call => exact ⟨fun _ => rfl, nofun⟩
  | returned => exact ⟨exprCases_writtenBy fun _ => rfl, by simp [grammar, write]⟩
  | stmt => exact ⟨stmtCases_writtenBy, nofun⟩
  | assignment => exact ⟨⟨by decide, fun _ => rfl⟩, nofun⟩
  | block =>
      refine ⟨fun body => ?_, nofun⟩
      exact congrArg writeArray (Stmt.writeAll_eq_map body)
  | func => exact ⟨⟨by decide, fun _ => rfl⟩, nofun⟩
  | funcs => exact ⟨fun _ => rfl, nofun⟩
  | program => exact ⟨⟨by decide, fun _ => rfl⟩, nofun⟩

/-! ## Every tree is canonical -/

/-- The text of a value spells it. -/
abbrev Canonical (k : Kind) (v : k.El) : Prop := grammar.Canonical write k v

/-- A value is canonical if it is made of canonical parts. -/
theorem canonical_of_made {k : Kind} {v : k.El}
    (made : (grammar k).shape.Made (some Canonical) v) : Canonical k v :=
  grammar.canonical_of_made grammar_writtenBy (.shaped made)

theorem canonical_name (x : String) : Canonical .name x := canonical_of_made (.text x)

theorem canonical_number (n : Int32) : Canonical .number n := canonical_of_made (.int32 n)

theorem canonical_operator (op : BinOp) : Canonical .operator op := by
  have listed : .unit op.caseName op ∈ operatorCases := by
    cases op <;> simp [operatorCases, BinOp.caseName]
  exact canonical_of_made (.unit listed)

theorem canonical_type (t : Ty) : Canonical .type t := by
  cases t
  exact canonical_of_made (.unit (List.mem_cons_self ..))

theorem canonical_binding (b : Binding) : Canonical .binding b := by
  refine canonical_of_made (.record (b.name, b.type, ()) ?_ rfl)
  exact ⟨canonical_name b.name, canonical_type b.type, trivial⟩

theorem canonical_binary (op : BinOp) {lhs rhs : Expr} (left : Canonical .expr lhs)
    (right : Canonical .expr rhs) : Canonical .binary (op, lhs, rhs) := by
  refine canonical_of_made (.record (op, lhs, rhs, ()) ?_ rfl)
  exact ⟨canonical_operator op, left, right, trivial⟩

theorem canonical_exprs {es : List Expr} (each : ∀ e ∈ es, Canonical .expr e) :
    Canonical .exprs es := canonical_of_made (.list each)

theorem canonical_call (callee : String) {args : List Expr}
    (each : ∀ arg ∈ args, Canonical .expr arg) : Canonical .call (callee, args) := by
  refine canonical_of_made (.tuple (callee, args, ()) ?_ rfl)
  exact ⟨canonical_name callee, canonical_exprs each, trivial⟩

/-- An expression is one of its cases, whatever is made of it then. -/
theorem exprCases_made (e : Expr) : ∀ {α : Type} (make : Expr → α),
    (Shape.choice (exprCases make)).Made (some Canonical) (make e) := by
  induction e with
  | var x =>
      intro α make
      exact .holding (.head _) (canonical_name x) rfl
  | const n =>
      intro α make
      exact .holding (.tail _ (.head _)) (canonical_number n) rfl
  | binary op lhs rhs left right =>
      intro α make
      have held := canonical_binary op (canonical_of_made (left id)) (canonical_of_made (right id))
      exact .holding (.tail _ (.tail _ (.head _))) held rfl
  | call callee args each =>
      intro α make
      have held := canonical_call callee fun arg among => canonical_of_made (each arg among id)
      exact .holding (.tail _ (.tail _ (.tail _ (.head _)))) held rfl

theorem canonical_expr (e : Expr) : Canonical .expr e := canonical_of_made (exprCases_made e id)

theorem canonical_returned (value : Option Expr) : Canonical .returned value := by
  cases value with
  | none => exact grammar.canonical_of_made grammar_writtenBy (.null rfl)
  | some e => exact canonical_of_made (exprCases_made e some)

theorem canonical_resultType (result : Option Ty) : Canonical .resultType result := by
  cases result with
  | none => exact grammar.canonical_of_made grammar_writtenBy (.null rfl)
  | some t =>
      cases t
      exact canonical_of_made (.unit (List.mem_cons_self ..))

theorem canonical_assignment (x : String) (v : Expr) : Canonical .assignment (x, v) := by
  refine canonical_of_made (.record (x, v, ()) ?_ rfl)
  exact ⟨canonical_name x, canonical_expr v, trivial⟩

theorem canonical_block {body : List Stmt} (each : ∀ s ∈ body, Canonical .stmt s) :
    Canonical .block body := canonical_of_made (.list each)

theorem canonical_stmt (s : Stmt) : Canonical .stmt s := by
  induction s with
  | declare b => exact canonical_of_made (.holding (.head _) (canonical_binding b) rfl)
  | assign x v =>
      exact canonical_of_made (.holding (.tail _ (.head _)) (canonical_assignment x v) rfl)
  | eval v =>
      exact canonical_of_made (.holding (.tail _ (.tail _ (.head _))) (canonical_expr v) rfl)
  | ret value =>
      exact canonical_of_made
        (.holding (.tail _ (.tail _ (.tail _ (.head _)))) (canonical_returned value) rfl)
  | block body each =>
      exact canonical_of_made
        (.holding (.tail _ (.tail _ (.tail _ (.tail _ (.head _))))) (canonical_block each) rfl)

theorem canonical_bindings (bs : List Binding) : Canonical .bindings bs :=
  canonical_of_made (.list fun b _ => canonical_binding b)

theorem canonical_func (f : Func) : Canonical .func f := by
  refine canonical_of_made (.record (f.name, f.params, f.result, f.body, ()) ?_ rfl)
  exact ⟨canonical_name f.name, canonical_bindings f.params, canonical_resultType f.result,
    canonical_block fun s _ => canonical_stmt s, trivial⟩

theorem canonical_funcs (fs : List Func) : Canonical .funcs fs :=
  canonical_of_made (.list fun f _ => canonical_func f)

/-- Every value of every kind is canonical. -/
theorem canonical (k : Kind) (v : k.El) : Canonical k v := by
  cases k with
  | name => exact canonical_name v
  | number => exact canonical_number v
  | operator => exact canonical_operator v
  | type => exact canonical_type v
  | resultType => exact canonical_resultType v
  | binding => exact canonical_binding v
  | bindings => exact canonical_bindings v
  | expr => exact canonical_expr v
  | exprs => exact canonical_exprs fun e _ => canonical_expr e
  | binary => exact canonical_binary v.1 (canonical_expr v.2.1) (canonical_expr v.2.2)
  | call => exact canonical_call v.1 fun arg _ => canonical_expr arg
  | returned => exact canonical_returned v
  | stmt => exact canonical_stmt v
  | assignment => exact canonical_assignment v.1 v.2
  | block => exact canonical_block fun s _ => canonical_stmt s
  | func => exact canonical_func v
  | funcs => exact canonical_funcs v
  | program =>
      refine canonical_of_made (.record (v.functions, ()) ?_ rfl)
      exact ⟨canonical_funcs v.functions, trivial⟩

end Kind

/-! ## Reading what was written -/

namespace Document

section

variable (α : Type) [Document α]

/-- The text of a value reads as the value if at most 127 arrays and objects are open in it at
once, and is a syntax error otherwise. -/
def RoundTrips : Prop :=
  ∀ v : α,
    if nesting (write v).toList ≤ 127 then read (write v) = .ok v
    else ∃ fault, (read (write v) : Except Fault α) = .error fault ∧ fault.category.name = "syntax"

/-- The compact text of the value that a text reads as. -/
def normalize (text : String) : Except Fault String :=
  (read text : Except Fault α).map write

/-- Whatever text a value was read from, its own text reads as it, and is its own compact text. -/
def Normalizes : Prop :=
  ∀ (text : String) (v : α), read text = .ok v →
    read (write v) = .ok v ∧ normalize α text = .ok (write v) ∧
      normalize α (write v) = .ok (write v)

/-- The values of a type are those of its kind, and written alike. -/
class Lawful : Prop where
  written : ∀ x : (kind α).El, writeChars (ofEl x : α) = Kind.write (kind α) x
  onto : ∀ v : α, ∃ x, ofEl x = v

end

variable {α : Type} [Document α] [Lawful α]

theorem read_write (x : (kind α).El) :
    read (write (ofEl x : α)) = (grammar.document (kind α) (Kind.write (kind α) x)).map ofEl := by
  rw [read, write, String.toList_ofList, Lawful.written]

/-- The text of a value reads as the value, unless its brackets are nested too deep. -/
theorem read_write_eq_allow (v : α) :
    read (write v) = allow depthLimit (nesting (write v).toList) v := by
  obtain ⟨x, rfl⟩ := Lawful.onto v
  have document := (Kind.canonical (kind α) x).document Kind.grammar_writtenBy
  rw [read_write, document, write, String.toList_ofList, Lawful.written]
  by_cases shallow : nesting (Kind.write (kind α) x) ≤ depthLimit
  · rw [allow_of_le shallow, allow_of_le shallow]
    rfl
  · rw [allow_of_not_le shallow, allow_of_not_le shallow]
    rfl

/-- A value that is not nested too deep is read back from its text. -/
theorem roundTrips : RoundTrips α := by
  intro v
  rw [read_write_eq_allow, depthLimit]
  by_cases shallow : nesting (write v).toList ≤ 127
  · rw [if_pos shallow, allow_of_le shallow]
  · rw [if_neg shallow, allow_of_not_le shallow]
    exact ⟨.malformed, rfl, rfl⟩

/-- Whatever is read has a text that is read as the same value. -/
theorem normalizes : Normalizes α := by
  intro text v done
  rw [read] at done
  cases document : grammar.document (kind α) text.toList with
  | error fault =>
      rw [document] at done
      cases done
  | ok x =>
      rw [document] at done
      cases done
      have again : read (write (ofEl x : α)) = .ok (ofEl x : α) := by
        rw [read_write, grammar.document_of_document Kind.grammar_writtenBy document]
        rfl
      refine ⟨again, ?_, ?_⟩
      · rw [normalize, read, document]
        rfl
      · rw [normalize, again]
        rfl

instance : Lawful BinOp := ⟨fun _ => rfl, fun v => ⟨v, rfl⟩⟩

instance : Lawful Ty := ⟨fun _ => rfl, fun v => ⟨v, rfl⟩⟩

instance : Lawful Binding := ⟨fun _ => rfl, fun v => ⟨v, rfl⟩⟩

instance : Lawful Expr := ⟨fun _ => rfl, fun v => ⟨v, rfl⟩⟩

instance : Lawful Stmt := ⟨fun _ => rfl, fun v => ⟨v, rfl⟩⟩

instance : Lawful (List Stmt) := ⟨fun _ => rfl, fun v => ⟨v, rfl⟩⟩

instance : Lawful Func := ⟨fun _ => rfl, fun v => ⟨v, rfl⟩⟩

instance : Lawful Program := ⟨fun _ => rfl, fun v => ⟨v, rfl⟩⟩

/-- Every tree is handed over by its text, up to the limit on brackets. A binding is a parameter or
a declared variable, a list of statements is a block. -/
theorem trees_roundTrip :
    RoundTrips Program ∧ RoundTrips Func ∧ RoundTrips Binding ∧ RoundTrips (List Stmt) ∧
      RoundTrips Stmt ∧ RoundTrips Expr ∧ RoundTrips BinOp ∧ RoundTrips Ty :=
  ⟨roundTrips, roundTrips, roundTrips, roundTrips, roundTrips, roundTrips, roundTrips, roundTrips⟩

/-- Every text that reads as a tree has a compact text that reads as the same tree. -/
theorem trees_normalize :
    Normalizes Program ∧ Normalizes Func ∧ Normalizes Binding ∧ Normalizes (List Stmt) ∧
      Normalizes Stmt ∧ Normalizes Expr ∧ Normalizes BinOp ∧ Normalizes Ty :=
  ⟨normalizes, normalizes, normalizes, normalizes, normalizes, normalizes, normalizes, normalizes⟩

/-- A binding with its fields turned round, a blank, an escape, a type as an object and a member
that nobody asked for. -/
def respelledBinding : List Char :=
  ['{', '"', 'z', '"', ':', '[', '[', ']', ']', ',', ' ', '"', 't', 'y', '"', ':', '{', '"', 'I',
    'n', 't', '"', ':', 'n', 'u', 'l', 'l', '}', ',', '"', 'n', 'a', 'm', 'e', '"', ' ', ':', '"',
    '\\', 'u', '0', '0', '6', '1', '"', '}']

theorem read_respelledBinding :
    read (String.ofList respelledBinding) = .ok (Binding.mk "a" .int) := by
  rw [read, String.toList_ofList]
  rfl

theorem trees_normalize_respelledBinding :
    read (String.ofList respelledBinding) = .ok (Binding.mk "a" .int) ∧
      read (write (Binding.mk "a" .int)) = .ok (Binding.mk "a" .int) :=
  ⟨read_respelledBinding, (trees_normalize.2.2.1 _ _ read_respelledBinding).1⟩

/-! ## Texts that are cut off -/

/-- The text of anything but a numeral misses its end when it is cut off. -/
theorem read_cutOff {α : Type} [Document α] [Lawful α] {v : α}
    (shallow : nesting (write v).toList ≤ 127)
    (notNumeral : ∀ make, (grammar (kind α)).shape ≠ .int32 make) {cut : String}
    (cutOff : CutOff cut.toList (write v).toList) :
    (read cut : Except Fault α) = .error .truncated := by
  obtain ⟨x, rfl⟩ := Lawful.onto v
  rw [write, String.toList_ofList, Lawful.written] at shallow cutOff
  rw [read, grammar.document_cutOff Kind.grammar_writtenBy (Kind.canonical _ x) shallow notNumeral
    cutOff]
  rfl

/-- A program whose text was cut off anywhere on its way is not taken for another one: the reader
says that the text has ended. -/
theorem program_cut_refused (p : Program) (shallow : nesting (write p).toList ≤ 127) (cut : String)
    (front : cut.toList <+: (write p).toList) (proper : cut ≠ write p) :
    ∃ fault, (read cut : Except Fault Program) = .error fault ∧ fault.category.name = "eof" := by
  obtain ⟨lost, same⟩ := front
  have nonempty : lost ≠ [] := by
    rintro rfl
    rw [List.append_nil] at same
    exact proper (String.toList_injective same)
  exact ⟨.truncated, read_cutOff shallow nofun ⟨lost, nonempty, same⟩, rfl⟩

/-- Returns a negative number. -/
def negativeResult : Program :=
  ⟨[⟨"f\n", [], none, [.ret (some (.const (-12)))]⟩]⟩

theorem program_cut_refused_inNumeral :
    negativeResult.write.drop 94 = ['2', '}', '}', ']', '}', ']', '}'] ∧
    ∃ fault, (read (String.ofList (negativeResult.write.take 94)) : Except Fault Program) =
      .error fault ∧ fault.category.name = "eof" := by
  refine ⟨by decide +kernel, program_cut_refused negativeResult ?_ _ ?_ ?_⟩
  · rw [write, String.toList_ofList]
    decide +kernel
  · rw [write, String.toList_ofList, String.toList_ofList]
    exact List.take_prefix ..
  · intro same
    have := congrArg String.toList same
    rw [write, String.toList_ofList, String.toList_ofList] at this
    revert this
    decide +kernel

end Document

end IntBackend
