/-
# IntBackend.Proofs.Lowering.ScopeHistory — a scope after any number of calls

A scope can be kept in place and changed by calls, one after the other. A call that fails leaves
it as it was, so that calls may go on: `InPlace.declare` and `InPlace.bind` do in place what
`Scope.declare` and `Scope.bind` do to a value (`Request.serve_run`). `Records` says what a
history of calls makes of a scope: the cursor counts the declarations that succeeded, a name is
bound to the operand of the first call that succeeded for it, and the slots that were handed out
follow each other down the frame. Every call keeps this (`Records.call`), and so does every
history (`Records.serveAll`).
-/
import IntBackend.Proofs.Lowering.Inversion

namespace IntBackend

set_option autoImplicit false

open Convention

namespace Scope

/-! ## In place -/

/-- A computation on a scope that is changed in place, and that is still there when the computation
fails. -/
abbrev InPlace := EStateM LoweringFault Scope

namespace InPlace

def bind (name : String) (operand : Operand) : InPlace Unit := do
  let scope ← get
  if (scope.find? name).isSome then throw (.alreadyDeclared name scope.function)
  else set { scope with bindings := (name, operand) :: scope.bindings }

/-- The cursor moves once the name is bound. -/
def declare (name : String) : InPlace Operand := do
  let scope ← get
  bind name scope.nextSlot
  modify fun bound => { bound with cursor := scope.cursor - slotSize }
  return scope.nextSlot

/-- What a computation in place gives if the same computation on a value has this result. -/
def settle {α : Type} (scope : Scope) (value : α) :
    Except LoweringFault Scope → EStateM.Result LoweringFault Scope α
  | .ok next => .ok value next
  | .error fault => .error fault scope

theorem bind_run (name : String) (operand : Operand) (scope : Scope) :
    (bind name operand).run scope = settle scope () (scope.bind name operand) := by
  cases found : scope.find? name with
  | none => simp [bind, Scope.bind, found, settle]
  | some place => simp [bind, Scope.bind, found, settle]

theorem declare_run (name : String) (scope : Scope) :
    (declare name).run scope = settle scope scope.nextSlot (scope.declare name) := by
  rw [Scope.declare, declare, EStateM.run_bind, EStateM.run_get]
  dsimp only
  rw [EStateM.run_bind, bind_run]
  cases scope.bind name scope.nextSlot with
  | error fault => rfl
  | ok bound => rfl

end InPlace

/-! ## Calls -/

/-- What can be asked of a scope. -/
inductive Request where
  | declare (name : String)
  | bind (name : String) (operand : Operand)
  deriving DecidableEq, Repr

namespace Request

def name : Request → String
  | .declare name => name
  | .bind name _ => name

def isDeclare : Request → Bool
  | .declare _ => true
  | .bind .. => false

/-- The result for a scope that is a value. -/
def result (scope : Scope) : Request → Except LoweringFault Scope
  | .declare name => scope.declare name
  | .bind name operand => scope.bind name operand

/-- The operand that the name is to be bound to. -/
def operand (scope : Scope) : Request → Operand
  | .declare _ => scope.nextSlot
  | .bind _ operand => operand

/-- The scope if the name is bound. -/
def granted (scope : Scope) (request : Request) : Scope :=
  { scope with
    bindings := (request.name, request.operand scope) :: scope.bindings
    cursor := if request.isDeclare then scope.cursor - slotSize else scope.cursor }

def serve : Request → InPlace Operand
  | .declare name => InPlace.declare name
  | .bind name operand => do
      InPlace.bind name operand
      return operand

/-- In place, a request answers as the same request on a value, and a refusal leaves the scope. -/
theorem serve_run (request : Request) (scope : Scope) :
    request.serve.run scope =
      InPlace.settle scope (request.operand scope) (request.result scope) := by
  cases request with
  | declare name => exact InPlace.declare_run name scope
  | bind name operand =>
      rw [serve, EStateM.run_bind, InPlace.bind_run, result]
      cases scope.bind name operand with
      | error fault => rfl
      | ok bound => rfl

theorem result_of_free {request : Request} {scope : Scope}
    (free : scope.find? request.name = none) :
    request.result scope = .ok (request.granted scope) := by
  cases request with
  | declare name => exact declare_eq_ok_iff.mpr ⟨free, rfl⟩
  | bind name operand => exact bind_eq_ok_iff.mpr ⟨free, rfl⟩

theorem result_of_bound {request : Request} {scope : Scope} {place : Operand}
    (found : scope.find? request.name = some place) :
    request.result scope = .error (.alreadyDeclared request.name scope.function) := by
  have fails : ∀ operand, scope.bind request.name operand =
      .error (.alreadyDeclared request.name scope.function) := by
    simp [Scope.bind, found]
  cases request with
  | declare name => exact congrArg (· >>= _) (fails scope.nextSlot)
  | bind name operand => exact fails operand

end Request

/-- A call: the scope before and after it, and what it answered. -/
structure Call where
  before : Scope
  request : Request
  answer : Except LoweringFault Operand
  after : Scope
  deriving Repr

namespace Call

def of (scope : Scope) (request : Request) : EStateM.Result LoweringFault Scope Operand → Call
  | .ok operand after => ⟨scope, request, .ok operand, after⟩
  | .error fault after => ⟨scope, request, .error fault, after⟩

/-- The operand that a successful call has bound the name to. -/
def bound? (name : String) (call : Call) : Option Operand :=
  if call.request.name = name then call.answer.toOption else none

/-- The slot that a successful declaration has returned. -/
def slot? (call : Call) : Option Operand :=
  if call.request.isDeclare then call.answer.toOption else none

/-- The call that binds the name. -/
def granted (scope : Scope) (request : Request) : Call :=
  ⟨scope, request, .ok (request.operand scope), request.granted scope⟩

/-- The call that finds the name bound. -/
def refused (scope : Scope) (request : Request) : Call :=
  ⟨scope, request, .error (.alreadyDeclared request.name scope.function), scope⟩

end Call

def Request.call (scope : Scope) (request : Request) : Call :=
  .of scope request (request.serve.run scope)

/-- All calls for a list of requests, and the scope after them. -/
def serveAll (scope : Scope) : List Request → List Call × Scope
  | [] => ([], scope)
  | request :: requests =>
      let call := request.call scope
      let rest := call.after.serveAll requests
      (call :: rest.1, rest.2)

/-- The slots that were returned, in order. -/
def slots (calls : List Call) : List Operand := calls.filterMap Call.slot?

theorem Request.call_of_free {request : Request} {scope : Scope}
    (free : scope.find? request.name = none) : request.call scope = .granted scope request := by
  rw [call, serve_run, result_of_free free]
  rfl

/-- A request for a name that is bound is refused, and the scope stays as it was. -/
theorem Request.call_of_bound {request : Request} {scope : Scope} {place : Operand}
    (found : scope.find? request.name = some place) :
    request.call scope = .refused scope request := by
  rw [call, serve_run, result_of_bound found]
  rfl

theorem Request.before_call (request : Request) (scope : Scope) :
    (request.call scope).before = scope := by
  rw [call]
  cases request.serve.run scope <;> rfl

theorem Request.request_call (request : Request) (scope : Scope) :
    (request.call scope).request = request := by
  rw [call]
  cases request.serve.run scope <;> rfl

/-- The call does what the request does to a value. -/
theorem Request.result_eq_call (request : Request) (scope : Scope) :
    request.result scope = (request.call scope).answer.map fun _ => (request.call scope).after := by
  rw [call, serve_run]
  cases request.result scope with
  | error fault => rfl
  | ok next => rfl

/-! ## Histories -/

theorem Call.isSome_bound? (name : String) (call : Call) :
    (call.bound? name).isSome ↔ call.request.name = name ∧ call.answer.isOk := by
  by_cases same : call.request.name = name
  · cases answered : call.answer with
    | ok operand => simp [bound?, same, answered, Except.toOption, Except.isOk, Except.toBool]
    | error fault => simp [bound?, same, answered, Except.toOption, Except.isOk, Except.toBool]
  · simp [bound?, same]

theorem slots_concat (calls : List Call) (call : Call) :
    slots (calls ++ [call]) = slots calls ++ call.slot?.toList := by
  rw [slots, List.filterMap_append, slots]
  cases returned : call.slot? with
  | none => simp [returned]
  | some slot => simp [returned]

/-- The name is found from now on, and other names as before. -/
theorem find?_granted (scope : Scope) (request : Request) (name : String) :
    (request.granted scope).find? name =
      if name = request.name then some (request.operand scope) else scope.find? name :=
  find?_cons scope request.name name (request.operand scope)

/-- The slot that is handed out after `k` others. -/
def slotAt (k : Nat) : Operand := frameCell (-(slotSize * (k + 1) : Int))

/-- What calls on a fresh scope of the function have made of it. -/
structure Records (function : String) (calls : List Call) (scope : Scope) : Prop where
  function : scope.function = function
  cursor : scope.cursor = -(slotSize * (slots calls).length : Int)
  finds : ∀ name, scope.find? name = calls.findSome? (Call.bound? name)
  down : slots calls = (List.range (slots calls).length).map slotAt

theorem records_fresh (function : String) (callees : List String) :
    Records function [] (fresh function callees) :=
  ⟨rfl, rfl, fun _ => rfl, rfl⟩

namespace Records

variable {function : String} {calls : List Call} {scope : Scope}
  (records : Records function calls scope)
include records

theorem nextSlot_eq : scope.nextSlot = slotAt (slots calls).length := by
  rw [nextSlot, records.cursor, slotAt]
  congr 1
  simp only [slotSize]
  omega

theorem refused (request : Request) :
    Records function (calls ++ [.refused scope request]) scope := by
  have same : slots (calls ++ [.refused scope request]) = slots calls := by
    simp [slots_concat, Call.slot?, Call.refused, Except.toOption]
  refine ⟨records.function, same ▸ records.cursor, ?_, same ▸ records.down⟩
  intro name
  simp [records.finds, List.findSome?_append, Call.bound?, Call.refused, Except.toOption]

/-- A call that binds a name adds its binding and, if it declares, its slot. -/
theorem granted {request : Request} (free : scope.find? request.name = none) :
    Records function (calls ++ [.granted scope request]) (request.granted scope) := by
  -- For the name of the request no earlier call counts, as it was free; for others this one
  -- does not.
  have finds : ∀ name, (request.granted scope).find? name =
      (calls ++ [Call.granted scope request]).findSome? (Call.bound? name) := by
    intro name
    rw [find?_granted, List.findSome?_append, ← records.finds]
    by_cases same : name = request.name
    · simp [same, free, Call.bound?, Call.granted, Except.toOption]
    · simp [same, Ne.symm same, Call.bound?, Call.granted]
  cases request with
  | declare name =>
      have more : slots (calls ++ [.granted scope (.declare name)]) =
          slots calls ++ [scope.nextSlot] := slots_concat calls _
      have moved : ((Request.declare name).granted scope).cursor = scope.cursor - slotSize := rfl
      refine ⟨records.function, ?_, finds, ?_⟩
      · rw [more, List.length_append, List.length_singleton, moved, records.cursor]
        simp only [slotSize]
        omega
      · rw [more, List.length_append, List.length_singleton, List.range_succ, List.map_append,
          ← records.down, records.nextSlot_eq, List.map_singleton]
  | bind name operand =>
      have same : slots (calls ++ [.granted scope (.bind name operand)]) = slots calls :=
        (slots_concat calls _).trans (List.append_nil _)
      refine ⟨records.function, ?_, finds, ?_⟩
      · rw [same]
        exact records.cursor
      · rw [same]
        exact records.down

/-- A call keeps the records. -/
theorem call (request : Request) :
    Records function (calls ++ [request.call scope]) (request.call scope).after := by
  cases found : scope.find? request.name with
  | some place =>
      rw [Request.call_of_bound found]
      exact records.refused request
  | none =>
      rw [Request.call_of_free found]
      exact records.granted found

/-- Calls keep the records, however many there are. -/
theorem serveAll (requests : List Request) :
    Records function (calls ++ (scope.serveAll requests).1) (scope.serveAll requests).2 := by
  induction requests generalizing calls scope with
  | nil => simpa [Scope.serveAll] using records
  | cons request requests ih =>
      have rest := ih (records.call request)
      rwa [List.append_assoc] at rest

theorem nodup : (slots calls).Nodup := by
  rw [records.down]
  refine List.pairwise_map.mpr (List.nodup_range.imp ?_)
  intro j k differ same
  simp only [slotAt, frameCell, Operand.mem.injEq, true_and, slotSize] at same
  omega

/-- A name is bound exactly if a call for it has succeeded. -/
theorem isSome_iff (name : String) :
    (scope.find? name).isSome ↔ ∃ call ∈ calls, call.request.name = name ∧ call.answer.isOk := by
  rw [records.finds, List.findSome?_isSome_iff]
  simp only [Call.isSome_bound?]

/-- A name is looked up as what the only successful call for it has bound it to. -/
theorem lookup_eq (name : String) :
    scope.lookup name = (calls.findSome? (Call.bound? name)).elim
      (.error (.variableNotFound name function)) .ok := by
  rw [lookup, ← records.finds, ← records.function]
  cases scope.find? name with
  | none => rfl
  | some operand => rfl

/-- A call fails exactly if its name is bound, says so, and changes nothing. -/
theorem failed_iff (request : Request) :
    ((request.call scope).answer.isOk = false ↔ (scope.find? request.name).isSome) ∧
      ∀ fault, (request.call scope).answer = .error fault →
        fault = .alreadyDeclared request.name function ∧ (request.call scope).after = scope := by
  cases found : scope.find? request.name with
  | some place =>
      rw [Request.call_of_bound found, ← records.function]
      refine ⟨by simp [Call.refused, Except.isOk, Except.toBool], ?_⟩
      intro fault failed
      exact ⟨(Except.error.inj failed).symm, rfl⟩
  | none =>
      rw [Request.call_of_free found]
      refine ⟨by simp [Call.granted, Except.isOk, Except.toBool], ?_⟩
      intro fault failed
      cases failed

end Records

theorem map_request_serveAll (scope : Scope) (requests : List Request) :
    (scope.serveAll requests).1.map Call.request = requests := by
  induction requests generalizing scope with
  | nil => rfl
  | cons request requests ih => rw [serveAll, List.map_cons, request.request_call, ih]

/-- A call of a history answers a request, on the scope that the calls before it have left. -/
theorem serveAll_split {scope : Scope} {requests : List Request} {earlier later : List Call}
    {call : Call} (calls : (scope.serveAll requests).1 = earlier ++ call :: later) :
    ∃ before, scope.serveAll before = (earlier, call.before) ∧
      call = call.request.call call.before := by
  induction earlier generalizing scope requests with
  | nil =>
      cases requests with
      | nil => cases calls
      | cons request requests =>
          obtain ⟨rfl, -⟩ := List.cons.inj calls
          rw [request.before_call, request.request_call]
          exact ⟨[], rfl, rfl⟩
  | cons first earlier ih =>
      cases requests with
      | nil => cases calls
      | cons request requests =>
          obtain ⟨rfl, rest⟩ := List.cons.inj calls
          obtain ⟨before, served, same⟩ := ih rest
          refine ⟨request :: before, ?_, same⟩
          rw [serveAll, served]

/-- Calls on a fresh scope, in any order and with failures among them. Each does to the scope in
place what the function of its name does to a value. It fails exactly if a call before it has bound
its name, says so, and leaves the scope as it was. In the end the cursor has moved down by four for
each declaration that succeeded, every name is found at the operand of the first call that succeeded
for it, and all slots that were returned are different. -/
theorem fresh_after_calls {function : String} {callees : List String} {requests : List Request}
    {calls : List Call} {last : Scope}
    (serves : (fresh function callees).serveAll requests = (calls, last)) :
    calls.map Call.request = requests ∧
      (∀ earlier call later, calls = earlier ++ call :: later →
        call.request.result call.before = call.answer.map (fun _ => call.after) ∧
          (call.answer.isOk = false ↔ ∃ former ∈ earlier,
            former.request.name = call.request.name ∧ former.answer.isOk) ∧
          ∀ fault, call.answer = .error fault →
            fault = .alreadyDeclared call.request.name function ∧ call.after = call.before) ∧
      last.cursor = -4 * (slots calls).length ∧
      (∀ name, last.lookup name = (calls.findSome? (Call.bound? name)).elim
        (.error (.variableNotFound name function)) .ok) ∧
      (slots calls).Nodup := by
  obtain ⟨rfl, rfl⟩ := Prod.mk.inj serves
  have records := (records_fresh function callees).serveAll requests
  rw [List.nil_append] at records
  refine ⟨map_request_serveAll .., ?_, ?_, records.lookup_eq, records.nodup⟩
  · intro earlier call later split
    obtain ⟨before, served, answers⟩ := serveAll_split split
    -- The calls up to this one are a history of their own.
    have recordsBefore := (records_fresh function callees).serveAll before
    rw [List.nil_append, served] at recordsBefore
    have outcome := recordsBefore.failed_iff call.request
    have value := call.request.result_eq_call call.before
    rw [recordsBefore.isSome_iff, ← answers] at outcome
    rw [← answers] at value
    exact ⟨value, outcome⟩
  · rw [records.cursor]
    simp only [slotSize]
    omega

/-- Two names that are asked for again, and a third one after the failures. -/
def repeatedNames : List Request :=
  [.declare "x", .bind "x" (stackArg 0), .bind "y" (stackArg 0), .declare "y", .declare "x",
    .declare "z"]

theorem fresh_after_calls_repeatedNames :
    ∃ calls last, (fresh "f" ["f"]).serveAll repeatedNames = (calls, last) ∧
      calls.map (·.answer.isOk) = [true, false, true, false, false, true] ∧
      slots calls = [frameCell (-4), frameCell (-8)] ∧ (slots calls).Nodup ∧
      last.cursor = -8 ∧ last.lookup "x" = .ok (frameCell (-4)) ∧
      last.lookup "y" = .ok (stackArg 0) := by
  obtain ⟨-, -, cursor, finds, distinct⟩ :=
    fresh_after_calls (rfl : (fresh "f" ["f"]).serveAll repeatedNames = (_, _))
  exact ⟨_, _, rfl, by decide +kernel, by decide +kernel, distinct, cursor, finds "x", finds "y"⟩

end Scope

end IntBackend
