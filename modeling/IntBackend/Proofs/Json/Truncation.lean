/-
# IntBackend.Proofs.Json.Truncation — texts that are cut off

Cut anywhere, the compact text of a value is missing something, and that is what its reader
reports: the rest of an escape, of a keyword or of a literal, a colon, a closing bracket, or a
member after a comma. Nothing else can be reported first, since all that comes before the cut
is as it should be.

A numeral alone does not say where it ends. What is left of one is a minus, or the numeral of
a number closer to zero, and then the bracket around it is what is missing. So the induction
is over `EndsEarly`, which allows for a value that is read to the end of the text, and
`Takes.bind` turns that into a missed end whenever reading goes on.
-/
import IntBackend.Proofs.Json.Compact

namespace IntBackend.Json

set_option autoImplicit false

/-! ## What is left of a text -/

/-- `cut` is `whole` without some of its end. -/
def CutOff (cut whole : List Char) : Prop := ∃ lost, lost ≠ [] ∧ cut ++ lost = whole

variable {cut whole : List Char}

theorem not_cutOff_nil : ¬ CutOff cut [] := by
  rintro ⟨lost, nonempty, same⟩
  exact nonempty (List.append_eq_nil_iff.mp same).2

/-- A text is cut off before its first character or behind it. -/
theorem CutOff.cons {c : Char} {s : List Char} (cutOff : CutOff cut (c :: s)) :
    cut = [] ∨ ∃ left, cut = c :: left ∧ CutOff left s := by
  obtain ⟨lost, nonempty, same⟩ := cutOff
  cases cut with
  | nil => exact .inl rfl
  | cons d left =>
      obtain ⟨rfl, rest⟩ := List.cons.inj same
      exact .inr ⟨left, rfl, lost, nonempty, rest⟩

theorem CutOff.singleton {c : Char} (cutOff : CutOff cut [c]) : cut = [] := by
  rcases cutOff.cons with rfl | ⟨left, -, cutOff⟩
  · rfl
  · exact absurd cutOff not_cutOff_nil

/-- A text is cut off in its first part or after it. -/
theorem CutOff.append {before after : List Char} (cutOff : CutOff cut (before ++ after)) :
    CutOff cut before ∨ ∃ left, cut = before ++ left ∧ CutOff left after := by
  induction before generalizing cut with
  | nil => exact .inr ⟨cut, rfl, cutOff⟩
  | cons c before ih =>
      rcases cutOff.cons with rfl | ⟨left, rfl, within⟩
      · exact .inl ⟨c :: before, by simp, rfl⟩
      · rcases ih within with ⟨lost, nonempty, rfl⟩ | ⟨rest, rfl, beyond⟩
        · exact .inl ⟨lost, nonempty, rfl⟩
        · exact .inr ⟨rest, rfl, beyond⟩

theorem CutOff.length_lt (cutOff : CutOff cut whole) : cut.length < whole.length := by
  obtain ⟨lost, nonempty, rfl⟩ := cutOff
  have := List.length_pos_iff.mpr nonempty
  rw [List.length_append]
  omega

theorem CutOff.subset (cutOff : CutOff cut whole) : cut ⊆ whole := by
  obtain ⟨lost, -, rfl⟩ := cutOff
  exact List.subset_append_left cut lost

/-- What is left of a text that stops a numeral stops it, too. -/
theorem CutOff.stops (cutOff : CutOff cut whole) (stops : Stops whole) : Stops cut := by
  obtain ⟨lost, -, rfl⟩ := cutOff
  intro c first
  exact stops c (by simp_all)

/-! ## Literals -/

theorem utf8Size_digitChar {d : Nat} (small : d < 16) : (Nat.digitChar d).utf8Size = 1 := by
  have all : ∀ d : Fin 16, (Nat.digitChar d.val).utf8Size = 1 := by decide
  exact all ⟨d, small⟩

/-- Fewer than four digits are truncated. -/
theorem hexUnit_of_few {s : List Char} (few : s.length < 4) (narrow : ∀ c ∈ s, c.utf8Size = 1) :
    hexUnit s = .error .truncated := by
  match s with
  | [] => rfl
  | [a] => simp_all [hexUnit]
  | [a, b] => simp_all [hexUnit]
  | [a, b, c] => simp_all [hexUnit]

theorem literalBody_nil (escape : Reader Char) (bound : List Char) :
    literalBody escape bound [] = .error .truncated := by
  cases bound <;> rfl

/-- What follows a backslash is missed before the literal's end is. -/
theorem literalBody_backslash {s : List Char} (cutOff : escape s = .error .truncated)
    (bound : List Char) : literalBody escape bound ('\\' :: s) = .error .truncated := by
  cases bound with
  | nil => rfl
  | cons _ bound =>
      rw [literalBody, if_neg (by decide), if_pos rfl, cutOff]
      rfl

theorem literalBody_cutOff_escapeChar {c : Char} (cutOff : CutOff cut (escapeChar c))
    (bound : List Char) : literalBody escape bound cut = .error .truncated := by
  -- An escape of one letter is cut off before its backslash or after it.
  have short : ∀ letter, CutOff cut ['\\', letter] →
      literalBody escape bound cut = .error .truncated := by
    intro letter cutOff
    rcases cutOff.cons with rfl | ⟨_, rfl, within⟩
    · exact literalBody_nil escape bound
    · rcases within.singleton with rfl
      exact literalBody_backslash rfl bound
  unfold escapeChar at cutOff
  repeat' split at cutOff
  all_goals try exact short _ cutOff
  · rename_i control
    rcases cutOff.cons with rfl | ⟨_, rfl, within⟩
    · exact literalBody_nil escape bound
    refine literalBody_backslash ?_ bound
    rcases within.cons with rfl | ⟨digits, rfl, few⟩
    · rfl
    have unit : hexUnit digits = .error .truncated := by
      refine hexUnit_of_few few.length_lt fun d among => ?_
      have listed := few.subset among
      simp only [List.mem_cons, List.not_mem_nil, or_false] at listed
      rcases listed with rfl | rfl | rfl | rfl
      · decide
      · decide
      · exact utf8Size_digitChar (by omega)
      · exact utf8Size_digitChar (by omega)
    rw [escape, escapeWith, if_pos rfl, unicodeEscape, unit]
    rfl
  · rcases cutOff.singleton with rfl
    exact literalBody_nil escape bound

/-- A literal that is cut off misses its end, wherever it is cut. -/
theorem literalBody_cutOff (cs : List Char) (cutOff : CutOff cut (cs.flatMap escapeChar ++ ['"']))
    (bound : List Char) : literalBody escape bound cut = .error .truncated := by
  induction cs generalizing cut bound with
  | nil =>
      rcases cutOff.singleton with rfl
      exact literalBody_nil escape bound
  | cons c cs ih =>
      rw [List.flatMap_cons, List.append_assoc] at cutOff
      rcases cutOff.append with within | ⟨left, rfl, within⟩
      · exact literalBody_cutOff_escapeChar within bound
      · cases bound with
        | nil => rfl
        | cons b bound =>
            rw [literalBody_escapeChar, ih within bound]
            rfl

/-! ## Numerals -/

/-- Digits that are cut off are those of a smaller number. -/
theorem toDigits_cutOff {n : Nat} (cutOff : CutOff cut (Nat.toDigits 10 n)) (nonempty : cut ≠ []) :
    ∃ m, 0 < m ∧ m < n ∧ cut = Nat.toDigits 10 m := by
  induction n using Nat.strongRecOn with
  | _ n ih =>
      rw [Nat.toDigits_eq_if (by decide)] at cutOff
      split at cutOff
      · exact absurd cutOff.singleton nonempty
      · have fewer : n / 10 < n := by omega
        rcases cutOff.append with within | ⟨left, rfl, within⟩
        · obtain ⟨m, positive, less, same⟩ := ih (n / 10) fewer within
          exact ⟨m, positive, by omega, same⟩
        · rcases within.singleton with rfl
          exact ⟨n / 10, by omega, fewer, List.append_nil _⟩

/-- A written integer that is cut off is nothing, a minus, or one closer to zero. -/
theorem writeInt_cutOff {n : Int} (cutOff : CutOff cut (writeInt n)) :
    cut = [] ∨ cut = ['-'] ∨
      ∃ m : Int, m.natAbs < n.natAbs ∧ (m < 0 ↔ n < 0) ∧ cut = writeInt m := by
  unfold writeInt at cutOff
  split at cutOff
  · rename_i negative
    rcases cutOff.cons with rfl | ⟨left, rfl, within⟩
    · exact .inl rfl
    by_cases nonempty : left = []
    · exact .inr (.inl (by rw [nonempty]))
    · obtain ⟨m, positive, less, rfl⟩ := toDigits_cutOff within nonempty
      refine .inr (.inr ⟨-m, by omega, by omega, ?_⟩)
      rw [writeInt, if_pos (by omega)]
      simp
  · by_cases nonempty : cut = []
    · exact .inl nonempty
    · obtain ⟨m, positive, less, rfl⟩ := toDigits_cutOff cutOff nonempty
      refine .inr (.inr ⟨m, by omega, by omega, ?_⟩)
      rw [writeInt, if_neg (by omega)]
      simp

/-- An integer that is cut off is either missed or read as a shorter one. -/
theorem readInt32_cutOff (n : Int32) (cutOff : CutOff cut (writeInt n.toInt)) :
    readInt32 cut = .error .truncated ∨ ∃ m, readInt32 cut = .ok (m, []) := by
  rcases writeInt_cutOff cutOff with rfl | rfl | ⟨m, closer, sign, rfl⟩
  · exact .inl rfl
  · exact .inl rfl
  · have low := n.le_toInt
    have high := n.toInt_lt
    have fits : (Int32.ofInt m).toInt = m := Int32.toInt_ofInt_of_le (by omega) (by omega)
    have read := readInt32_writeInt (Int32.ofInt m) stops_nil
    rw [fits, List.append_nil] at read
    exact .inr ⟨_, read⟩

/-! ## Readers -/

section

variable {α β γ : Type}

/-- The end of a text is missed, or all of it was read because a numeral may end anywhere. -/
def EndsEarly (result : Except Fault (α × List Char)) : Prop :=
  result = .error .truncated ∨ ∃ v, result = .ok (v, [])

/-- A reader takes `text` for `v`, and of a text that is cut off no more than is there. -/
structure Takes (read : Reader α) (v : α) (text : List Char) : Prop where
  starts : Starts text
  whole : ∀ {rest}, Stops rest → read (text ++ rest) = .ok (v, rest)
  cutOff : ∀ {cut}, CutOff cut text → EndsEarly (read cut)

/-- Something is missed before `after`, or what is left of `after` comes next. -/
def Reaches (result : Except Fault β) (arrive : List Char → β) (after : List Char) : Prop :=
  result = .error .truncated ∨ ∃ left, CutOff left after ∧ result = .ok (arrive left)

/-- If something is missed now or later, it is missed. -/
theorem Reaches.bind {result : Except Fault β} {arrive : List Char → β} {after : List Char}
    {next : β → Except Fault γ} (reaches : Reaches result arrive after)
    (beyond : ∀ {left}, CutOff left after → next (arrive left) = .error .truncated) :
    (result >>= next) = .error .truncated := by
  rcases reaches with fault | ⟨left, lost, arrived⟩
  · rw [fault]
    rfl
  · rw [arrived]
    exact beyond lost

/-- Reading goes on after `text`. If it always misses the end of what is left then, it misses the
end of the two together. -/
theorem Takes.bind {read : Reader α} {v : α} {text after : List Char}
    {next : α × List Char → Except Fault β} (takes : Takes read v text) (stops : Stops after)
    (atEnd : ∀ w, next (w, []) = .error .truncated)
    (beyond : ∀ {left}, CutOff left after → next (v, left) = .error .truncated)
    (cutOff : CutOff cut (text ++ after)) : (read cut >>= next) = .error .truncated := by
  rcases cutOff.append with within | ⟨left, rfl, lost⟩
  · rcases takes.cutOff within with fault | ⟨w, read⟩
    · rw [fault]
      rfl
    · rw [read]
      exact atEnd w
  · rw [takes.whole (lost.stops stops)]
    exact beyond lost

end

theorem mark_cutOff {c : Char} (solid : isBlank c = false) {after : List Char}
    (cutOff : CutOff cut (c :: after)) : Reaches (mark c cut) id after := by
  rcases cutOff.cons with rfl | ⟨left, rfl, lost⟩
  · exact .inl rfl
  · exact .inr ⟨left, lost, mark_blanks blanks_nil solid left⟩

/-- A literal is missed, or the text is cut off behind it. -/
theorem readText_cutOff (t : String) {after : List Char}
    (cutOff : CutOff cut (t.toList.flatMap escapeChar ++ '"' :: after)) :
    Reaches (readText cut) (fun left => (t, left)) after := by
  rw [← List.singleton_append, ← List.append_assoc] at cutOff
  rcases cutOff.append with within | ⟨left, rfl, lost⟩
  · refine .inl ?_
    rw [readText, literalBody_cutOff t.toList within]
    rfl
  · obtain ⟨body, same, read⟩ := readText_writeText t left
    rw [writeText, List.cons_append, List.cons.injEq] at same
    rw [same.2]
    exact .inr ⟨left, lost, read⟩

/-! ## Arrays -/

theorem nextItem_nil (first : Bool) : nextItem first [] = .error .truncated := by
  cases first <;> rfl

theorem stops_joined (texts : List (List Char)) {close : Char} (closes : Stops [close]) :
    Stops (joined false texts ++ [close]) := by
  cases texts with
  | nil => exact closes
  | cons text texts => exact stops_comma

theorem nextItem_cutOff {first : Bool} {text after : List Char} (starts : Starts text)
    (cutOff : CutOff cut ((if first then [] else [',']) ++ (text ++ after))) :
    Reaches (nextItem first cut) .entry (text ++ after) := by
  obtain ⟨c, s, rfl, solid, inside⟩ := starts
  rcases cutOff.append with within | ⟨left, rfl, lost⟩
  · cases first with
    | true => exact absurd within not_cutOff_nil
    | false =>
        rcases within.singleton with rfl
        exact .inl rfl
  · rcases lost.cons with rfl | ⟨rest, rfl, -⟩
    · exact .inl (by cases first <;> rfl)
    · have entry := nextItem_entry (separates_comma first) ⟨c, rest, rfl, solid, inside⟩ []
      rw [List.append_nil] at entry
      exact .inr ⟨_, lost, entry⟩

theorem readItems_nil {α : Type} (item : Reader α) (bound : List Char) (first : Bool) :
    readItems item bound first [] = .error .truncated := by
  cases bound with
  | nil => rfl
  | cons _ bound =>
      rw [readItems, nextItem_nil]
      rfl

theorem readItems_cutOff {α : Type} {item : Reader α} {write : α → List Char} {vs : List α}
    (takes : ∀ v ∈ vs, Takes item v (write v)) (bound : List Char) {first : Bool}
    (cutOff : CutOff cut (joined first (vs.map write) ++ [']'])) :
    readItems item bound first cut = .error .truncated := by
  induction vs generalizing bound first cut with
  | nil =>
      rcases cutOff.singleton with rfl
      exact readItems_nil item bound first
  | cons v vs ih =>
      obtain ⟨own, others⟩ := List.forall_mem_cons.mp takes
      rw [List.map_cons, joined, List.append_assoc, List.append_assoc] at cutOff
      cases bound with
      | nil => rfl
      | cons _ bound =>
          rw [readItems]
          refine (nextItem_cutOff own.starts cutOff).bind
            (own.bind (stops_joined _ stops_bracket) (fun w => ?_) fun lost => ?_)
          · simp only [readItems_nil]
            rfl
          · simp only [ih others bound lost]
            rfl

variable {κ : Type} {El : κ → Type} {read : (k : κ) → Reader (El k)}
  {write : (k : κ) → El k → List Char}

theorem readRow_nil (fields : List (Field κ)) (first : Bool) :
    readRow read fields first [] = .error .truncated := by
  cases fields with
  | nil => rfl
  | cons field fields =>
      rw [readRow, nextItem_nil]
      rfl

theorem readRow_cutOff (fields : List (Field κ)) {row : Row El fields}
    (takes : Row.All (fun k v => Takes (read k) v (write k v)) fields row) {first : Bool}
    (cutOff : CutOff cut (joined first (Row.texts write fields row) ++ [']'])) :
    readRow read fields first cut = .error .truncated := by
  induction fields generalizing first cut with
  | nil =>
      rcases cutOff.singleton with rfl
      exact readRow_nil [] first
  | cons field fields ih =>
      obtain ⟨own, others⟩ := takes
      rw [Row.texts, Row.members, List.map_cons, joined, List.append_assoc, List.append_assoc]
        at cutOff
      rw [readRow]
      refine (nextItem_cutOff own.starts cutOff).bind
        (own.bind (stops_joined _ stops_bracket) (fun w => ?_) fun lost => ?_)
      · simp only [readRow_nil]
        rfl
      · simp only [ih others lost]
        rfl

/-! ## Objects -/

theorem nextMember_cutOff {first : Bool} {after : List Char}
    (cutOff : CutOff cut ((if first then [] else [',']) ++ '"' :: after)) :
    Reaches (nextMember first cut) .entry after := by
  rcases cutOff.append with within | ⟨left, rfl, lost⟩
  · cases first with
    | true => exact absurd within not_cutOff_nil
    | false =>
        rcases within.singleton with rfl
        exact .inl rfl
  · rcases lost.cons with rfl | ⟨rest, rfl, beyond⟩
    · exact .inl (by cases first <;> rfl)
    · exact .inr ⟨rest, beyond, nextMember_entry (separates_comma first) rest⟩

theorem readMembers_nil {fields : List (Field κ)} (bound : List Char) (first : Bool)
    (slots : Slots El fields) :
    readMembers read fields bound first slots [] = .error .truncated := by
  cases bound with
  | nil => rfl
  | cons _ bound => cases first <;> rfl

/-- An object that is cut off misses its end. -/
theorem readMembers_cutOff {all : List (Field κ)} (distinct : (all.map Prod.fst).Nodup)
    {whole : Row El all} {seen : List String} (fields : List (Field κ)) {row : Row El fields}
    (remains : Remains all whole seen fields row)
    (takes : Row.All (fun k v => Takes (read k) v (write k v)) fields row) (bound : List Char)
    {first : Bool} (cutOff : CutOff cut
      (joined first ((Row.members write fields row).map fun m => writeMember m.1 m.2) ++ ['}'])) :
    readMembers read all bound first (Slots.seen seen all whole) cut = .error .truncated := by
  induction fields generalizing bound first cut seen with
  | nil =>
      rcases cutOff.singleton with rfl
      exact readMembers_nil bound first _
  | cons field fields ih =>
      obtain ⟨v, row⟩ := row
      obtain ⟨own, others⟩ := takes
      obtain ⟨put, same, readMember_eq⟩ := (remains.has .here).readMember_eq distinct
        (remains.unseen field.1 (List.mem_cons_self ..))
      rw [Row.members, List.map_cons, joined, writeMember, writeText] at cutOff
      simp only [List.append_assoc, List.cons_append, List.nil_append] at cutOff
      cases bound with
      | nil => rfl
      | cons _ bound =>
          rw [readMembers]
          refine (nextMember_cutOff cutOff).bind fun atKey => ?_
          refine (readText_cutOff field.1 atKey).bind fun atColon => ?_
          show (readMember _ _ _ _ _ >>= _) = _
          rw [readMember_eq, bind_assoc]
          refine (mark_cutOff (by decide) atColon).bind fun atValue => ?_
          rw [bind_assoc]
          refine own.bind (stops_joined _ stops_brace) (fun w => ?_) (fun lost => ?_) atValue
          · exact readMembers_nil bound false _
          · show readMembers read all bound false (put v) _ = _
            rw [same]
            exact ih remains.next others bound lost

/-! ## Shapes -/

theorem keyword_cutOff {cs : List Char} (cutOff : CutOff cut cs) :
    keyword cs cut = .error .truncated := by
  induction cs generalizing cut with
  | nil => exact absurd cutOff not_cutOff_nil
  | cons c cs ih =>
      rcases cutOff.cons with rfl | ⟨left, rfl, lost⟩
      · rfl
      · have next : expect c (c :: left) = .ok left := if_pos rfl
        rw [keyword, next]
        exact ih lost

variable {α : Type} {grammar : Grammar El} {inner : Inner El}

theorem Shape.read_nil (shape : Shape El α) : shape.read grammar inner [] = .error .truncated := by
  cases shape <;> rfl

theorem readHeld_cutOff {kind : κ} {part : El kind}
    (takes : Takes (read kind) part (write kind part))
    (name : String) (make : El kind → α) (cutOff : CutOff cut (':' :: (write kind part ++ ['}']))) :
    readHeld read (.holding name kind make) cut = .error .truncated := by
  rw [readHeld]
  refine (mark_cutOff (by decide) cutOff).bind fun atValue => ?_
  refine takes.bind stops_brace (fun w => rfl) (fun lost => ?_) atValue
  rcases lost.singleton with rfl
  rfl

/-- The text of a shape that is cut off misses its end, if that is so of its parts. -/
theorem Shape.Made.cutOff {parts : Parts El} {shape : Shape El α} {v : α} {own : α → List Char}
    (made : shape.Made parts v) (written : shape.WrittenBy write own)
    (entered : ∀ P, parts = some P →
      ∃ read, inner = some read ∧ ∀ k v, P k v → Takes (read k) v (write k v))
    (cutOff : CutOff cut (own v)) :
    shape.read grammar inner cut = .error .truncated ∨
      ∃ make m, shape = .int32 make ∧ shape.read grammar inner cut = .ok (make m, []) := by
  cases made with
  | text t =>
      rw [written t, writeText] at cutOff
      rcases cutOff.cons with rfl | ⟨left, rfl, within⟩
      · exact .inl (Shape.read_nil _)
      · exact .inl ((readText_cutOff t within).bind fun lost => absurd lost not_cutOff_nil)
  | @int32 _ make i =>
      rw [written i] at cutOff
      have read := readInt32_cutOff i cutOff
      obtain ⟨c, s, same, numeral⟩ := startsNumeral_writeInt i.toInt
      rw [same] at cutOff
      rcases cutOff.cons with rfl | ⟨left, rfl, -⟩
      · exact .inl (Shape.read_nil _)
      · have solid := (starts_of_startsNumeral numeral).1
        have unfolded : (Shape.int32 make).read grammar inner (c :: left) =
            (readInt32 (c :: left) >>= fun taken => .ok (make taken.1, taken.2)) := by
          rw [Shape.read, ← List.nil_append (c :: left), skipBlank_blanks blanks_nil solid]
          exact if_pos numeral
        rw [unfolded]
        rcases read with fault | ⟨m, read⟩
        · rw [fault]
          exact .inl rfl
        · rw [read]
          exact .inr ⟨make, m, rfl, rfl⟩
  | @list P kind make vs each =>
      obtain ⟨read, rfl, takes⟩ := entered P rfl
      rw [written vs, writeArray, intercalate_eq_joined] at cutOff
      rcases cutOff.cons with rfl | ⟨left, rfl, within⟩
      · exact .inl (Shape.read_nil _)
      · have fault := readItems_cutOff (fun v among => takes kind v (each v among)) left within
        refine .inl ?_
        show (readItems (read kind) left true left >>= _) = _
        rw [fault]
        rfl
  | @tuple P fields make _ row each same =>
      obtain ⟨read, rfl, takes⟩ := entered P rfl
      subst same
      rw [written row, writeArray, intercalate_eq_joined] at cutOff
      rcases cutOff.cons with rfl | ⟨left, rfl, within⟩
      · exact .inl (Shape.read_nil _)
      · have fault := readRow_cutOff fields (each.mono takes fields) within
        refine .inl ?_
        show (readRow read fields true left >>= _) = _
        rw [fault]
        rfl
  | @record P fields make _ row each same =>
      obtain ⟨read, rfl, takes⟩ := entered P rfl
      subst same
      obtain ⟨distinct, written⟩ := written
      rw [written row, writeObject, intercalate_eq_joined] at cutOff
      rcases cutOff.cons with rfl | ⟨left, rfl, within⟩
      · exact .inl (Shape.read_nil _)
      · have fault := readMembers_cutOff distinct fields (remains_all distinct row)
          (each.mono takes fields) left within
        refine .inl ?_
        show (readMembers read fields left true (Slots.empty El fields) left >>= _) = _
        rw [← Slots.seen_nil fields row, fault]
        rfl
  | @unit parts cases name v listed =>
      have text : own v = writeText name := written.2 _ listed
      rw [text, writeText] at cutOff
      rcases cutOff.cons with rfl | ⟨left, rfl, within⟩
      · exact .inl (Shape.read_nil _)
      · exact .inl ((readText_cutOff name within).bind fun lost => absurd lost not_cutOff_nil)
  | @holding P cases name kind make part _ listed held same =>
      obtain ⟨read, rfl, takes⟩ := entered P rfl
      subst same
      obtain ⟨distinct, written⟩ := written
      have text : own (make part) = writeObject [(name, write kind part)] := written _ listed part
      rw [text, writeObject, intercalate_eq_joined] at cutOff
      rcases cutOff.cons with rfl | ⟨left, rfl, within⟩
      · exact .inl (Shape.read_nil _)
      · simp only [List.map_cons, List.map_nil, joined, writeMember, writeText, List.append_assoc,
          List.cons_append, List.nil_append, List.append_nil, if_true] at within
        refine .inl ?_
        show readTagged read cases left = _
        rw [readTagged]
        refine (mark_cutOff (by decide) within).bind fun atName => ?_
        refine (readText_cutOff name atName).bind fun atColon => ?_
        have picked : pickCase cases name = .ok (.holding name kind make) :=
          pickCase_of_mem distinct listed
        show (pickCase cases name >>= _) = _
        rw [picked]
        exact readHeld_cutOff (takes kind part held) name make atColon

/-- The text of a production that is cut off misses its end, if that is so of its parts. -/
theorem Production.Made.cutOff {parts : Parts El} {production : Production El α} {v : α}
    {own : α → List Char} (made : production.Made parts v)
    (written : production.WrittenBy write own)
    (canonical : ∀ P, parts = some P → ∀ k v, P k v → grammar.Canonical write k v)
    (entered : ∀ P, parts = some P →
      ∃ read, inner = some read ∧ ∀ k v, P k v → Takes (read k) v (write k v))
    (cutOff : CutOff cut (own v)) :
    production.read grammar inner cut = .error .truncated ∨
      ∃ make m, production.shape = .int32 make ∧
        production.read grammar inner cut = .ok (make m, []) := by
  cases made with
  | null null =>
      rw [written.null v null, writeNull] at cutOff
      refine .inl ?_
      rcases cutOff.cons with rfl | ⟨left, rfl, within⟩
      · rw [Production.read, null]
        exact production.shape.read_nil
      · rw [Production.read, null]
        show (keyword ['u', 'l', 'l'] left >>= _) = _
        rw [keyword_cutOff within]
        rfl
  | shaped made =>
      have unfolded : production.read grammar inner cut =
          production.shape.read grammar inner cut := by
        obtain ⟨n, -, spelled, -⟩ := made.compact grammar written.shape canonical
        obtain ⟨c, s, same, solid, -, notNull⟩ := spelled.starts
        rw [same] at cutOff
        rw [Production.read]
        split
        · rfl
        · rcases cutOff.cons with rfl | ⟨left, rfl, -⟩
          · rfl
          · rw [← List.nil_append (c :: left), skipBlank_blanks blanks_nil solid]
            simp [notNull]
      rw [unfolded]
      exact made.cutOff written.shape entered cutOff

/-! ## Documents -/

/-- A value that a reader gives has a text that it reads, and whose end it misses where it is cut
off; only a numeral may end earlier. -/
theorem Grammar.read_cutOff (written : grammar.WrittenBy write) (depth : Nat) {k : κ} {v : El k}
    (given : Gives (grammar.read depth) k v) (cutOff : CutOff cut (write k v)) :
    grammar.read depth k cut = .error .truncated ∨
      ∃ make m, (grammar k).shape = .int32 make ∧
        grammar.read depth k cut = .ok (make m, []) := by
  induction depth generalizing k v cut with
  | zero =>
      obtain ⟨s, rest, done⟩ := given
      have made : (grammar k).Made none v := Production.made_of_read nofun done
      exact made.cutOff (written k) nofun nofun cutOff
  | succ depth ih =>
      obtain ⟨s, rest, done⟩ := given
      have made : (grammar k).Made (some (Gives (grammar.read depth))) v :=
        Production.made_of_read (fun read same k v null => by
          cases same
          exact grammar.gives_null written null depth) done
      have parts : ∀ {k v}, Gives (grammar.read depth) k v →
          grammar.Canonical write k v ∧ Takes (grammar.read depth k) v (write k v) := by
        intro k v given
        obtain ⟨s, rest, done⟩ := given
        obtain ⟨canonical, shallow⟩ := grammar.canonical_of_read written depth done
        refine ⟨canonical, canonical.spelled.starts, fun stops => ?_, fun cutOff => ?_⟩
        · exact (canonical.read written stops depth).trans (allow_of_le shallow)
        · rcases ih ⟨s, rest, done⟩ cutOff with fault | ⟨make, m, -, read⟩
          · exact .inl fault
          · exact .inr ⟨make m, read⟩
      refine made.cutOff (written k) ?_ ?_ cutOff
      · rintro _ ⟨⟩ k v given
        exact (parts given).1
      · rintro _ ⟨⟩
        exact ⟨_, rfl, fun k v given => (parts given).2⟩

/-- No text of a value other than a numeral is read if it is cut off: its end is missed. -/
theorem Grammar.document_cutOff (written : grammar.WrittenBy write) {k : κ} {v : El k}
    (canonical : grammar.Canonical write k v) (shallow : nesting (write k v) ≤ depthLimit)
    (notNumeral : ∀ make, (grammar k).shape ≠ .int32 make) (cutOff : CutOff cut (write k v)) :
    grammar.document k cut = .error .truncated := by
  have whole := canonical.read written stops_nil depthLimit
  have given : Gives (grammar.read depthLimit) k v := ⟨_, _, whole.trans (allow_of_le shallow)⟩
  rcases grammar.read_cutOff written depthLimit given cutOff with fault | ⟨make, m, numeral, -⟩
  · rw [Grammar.document, fault]
    rfl
  · exact absurd numeral (notNumeral make)

end IntBackend.Json
