/-
# IntBackend.Proofs.Session.FileTrees — what storing a file does to a tree

Following a path passes through directories only. Storing puts a file where no
directory is, so it leaves every way as it was, and with it the way to the file:
what was stored is found again at the same path, and nothing else has changed.
-/
import Mathlib.Tactic.SplitIfs
import IntBackend.Session.FileTree
import IntBackend.Proofs.Results

namespace IntBackend

set_option autoImplicit false

namespace FileTree

/-! ## Entries -/

theorem lookup_filter_ne {entries : List (Location × Entry)} {location other : Location}
    (ne : other ≠ location) :
    (entries.filter fun e => e.1 ≠ location).lookup other = entries.lookup other := by
  induction entries with
  | nil => rfl
  | cons e entries ih =>
      obtain ⟨here, entry⟩ := e
      by_cases same : here = location
      · have apart : (other == here) = false := by simpa [same] using ne
        rw [List.filter_cons_of_neg (by simpa using same), List.lookup_cons, apart, ih]
      · rw [List.filter_cons_of_pos (by simpa using same), List.lookup_cons, List.lookup_cons, ih]

theorem entry?_put_self (tree : FileTree) (location : Location) (entry : Entry) :
    FileTree.entry? (tree.put location entry) location = some entry := by
  simp [put, entry?]

theorem entry?_put_of_ne (tree : FileTree) {location other : Location} (entry : Entry)
    (ne : other ≠ location) :
    FileTree.entry? (tree.put location entry) other = tree.entry? other := by
  have apart : (other == location) = false := by simpa using ne
  simp only [put, entry?, List.lookup_cons, apart]
  exact lookup_filter_ne ne

/-! ## Ways -/

/-- A way leads through directories, so it does not change with what stands elsewhere. -/
theorem walk_put {tree : FileTree} {place : Location} (entry : Entry)
    (plain : tree.entry? place ≠ some .directory) {base reached : Location} {names : List String}
    (leads : tree.walk base names = .ok reached) :
    (tree.put place entry).walk base names = .ok reached := by
  induction names generalizing base with
  | nil => exact leads
  | cons name names ih =>
      rw [walk] at leads ⊢
      cases here : tree.entry? base with
      | none => simp [here] at leads
      | some entryHere =>
          cases entryHere with
          | file content => simp [here] at leads
          | fullDevice => simp [here] at leads
          | directory =>
              have apart : base ≠ place := by
                rintro rfl
                exact plain here
              rw [entry?_put_of_ne tree entry apart, here]
              simp only [here] at leads ⊢
              split_ifs at leads ⊢ with blank up long
              · exact ih leads
              · exact ih leads
              · exact ih leads

/-- A file can be created where its path leads, unless a directory is there. -/
theorem creatable_eq_ok {tree : FileTree} {path : String} {location : Location}
    (ok : tree.creatable path = .ok location) :
    tree.locate path = .ok location ∧ tree.entry? location ≠ some .directory := by
  rw [creatable, bind_eq_ok_iff] at ok
  obtain ⟨_, checked, ok⟩ := ok
  simp only at ok
  split at ok
  · rw [bind_eq_ok_iff] at ok
    obtain ⟨_, -, ok⟩ := ok
    cases ok
  · rename_i whole
    obtain ⟨reached, leads, ok⟩ := bind_eq_ok_iff.mp ok
    have kept : (Path.names path).reverse.dropWhile (· == "") = (Path.names path).reverse :=
      (List.dropWhile_suffix _).eq_of_length_le (by simpa using whole)
    rw [kept, List.reverse_reverse] at leads
    split at ok
    · cases ok
    · rename_i plain
      cases ok
      refine ⟨?_, plain⟩
      rw [locate, checked]
      exact leads

/-! ## Storing -/

/-- Storing changes at most the entry that the path leads to. -/
theorem creatable_of_store_ne {tree : FileTree} {path : String} {content : ByteArray}
    {location : Location}
    (changed : FileTree.entry? (tree.store path content) location ≠ tree.entry? location) :
    tree.creatable path = .ok location := by
  rw [store] at changed
  split at changed
  · exact absurd rfl changed
  · rename_i reached ok
    split at changed
    · exact absurd rfl changed
    · by_cases same : location = reached
      · rw [same, ok]
      · exact absurd (tree.entry?_put_of_ne _ same) changed

/-- What has been stored is read back at the same path. -/
theorem read_store {tree : FileTree} {path : String} (content : ByteArray)
    (writes : tree.writable path = .ok ()) : (tree.store path content).read path = .ok content := by
  obtain ⟨location, ok, room⟩ := bind_eq_ok_iff.mp writes
  obtain ⟨located, plain⟩ := creatable_eq_ok ok
  have stored : tree.store path content = tree.put location (.file content) := by
    rw [store, ok]
    simp only
    split at room
    · cases room
    · rfl
  obtain ⟨_, checked, leads⟩ := bind_eq_ok_iff.mp located
  have again : (tree.put location (.file content)).locate path = .ok location := by
    rw [locate, checked]
    exact walk_put _ plain leads
  simp only [stored, read, again, entry?_put_self, bind, Except.bind]

end FileTree

end IntBackend
