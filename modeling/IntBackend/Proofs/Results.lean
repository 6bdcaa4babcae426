/-
# IntBackend.Proofs.Results — steps that may fail

A chain of steps succeeds exactly if each of its steps does.
-/

namespace IntBackend

set_option autoImplicit false

/-- Two steps succeed if the first does and the second does on its result. -/
theorem bind_eq_ok_iff {ε α β : Type} {first : Except ε α} {next : α → Except ε β} {result : β} :
    first >>= next = .ok result ↔ ∃ middle, first = .ok middle ∧ next middle = .ok result := by
  cases first with
  | error fault => exact ⟨nofun, nofun⟩
  | ok value => exact ⟨fun done => ⟨value, rfl, done⟩, fun ⟨_, rfl, done⟩ => done⟩

theorem exists_ok_of_isOk {ε α : Type} {result : Except ε α} (succeeds : result.isOk = true) :
    ∃ value, result = .ok value := by
  cases result with
  | error fault => cases succeeds
  | ok value => exact ⟨value, rfl⟩

end IntBackend
