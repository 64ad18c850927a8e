import Mathlib.Data.List.Basic
import Mathlib.Tactic.SplitIfs
import FirmwareReport.Files.Store

/-!
# Reading what was written

What is written to a path is read from it afterwards (`FirmwareReport.Store.read_of_write`), unless
the path leads to a device that keeps nothing. Putting a file at a place changes what stands there
and nowhere else (`FirmwareReport.Store.at?_put_of_ne`), and no way leads through a file, so the
path still leads to where it led before (`FirmwareReport.Store.follow_put`).
-/

namespace FirmwareReport.Store

variable {store : Store} {place : Place} {node : Node}

/-! ### What stands at a place -/

theorem lookup_map_put {nodes : List (Place × Node)} (h : nodes.any (·.1 == place)) :
    (nodes.map fun other => if other.1 = place then (place, node) else other).lookup place =
      some node := by
  induction nodes with
  | nil => simp at h
  | cons other nodes ih =>
    obtain ⟨at', node'⟩ := other
    by_cases heq : at' = place
    · simp [heq]
    · have hne : (place == at') = false := by simpa using fun h => heq h.symm
      have hany : nodes.any (·.1 == place) := by simpa [heq] using h
      simpa [heq, hne, List.lookup_cons] using ih hany

theorem lookup_map_put_of_ne {other : Place} (hne : other ≠ place) (nodes : List (Place × Node)) :
    (nodes.map fun entry => if entry.1 = place then (place, node) else entry).lookup other =
      nodes.lookup other := by
  induction nodes with
  | nil => rfl
  | cons entry nodes ih =>
    obtain ⟨at', node'⟩ := entry
    by_cases heq : at' = place
    · subst heq
      have hne' : (other == at') = false := by simpa using hne
      simp [List.lookup_cons, hne', ih]
    · simp [List.lookup_cons, heq, ih]

/-- Everything but the working directory and the root can be put. -/
theorem at?_put_self (h : place.names ≠ []) : (store.put place node).at? place = some node := by
  rw [at?, if_neg (by simpa using h), put]
  split
  · next hany => rw [lookup_map_put hany]; rfl
  · next hany =>
    have hnone : store.nodes.lookup place = none := by
      rw [List.lookup_eq_none_iff]
      intro entry hentry
      simpa using fun h => hany (List.any_eq_true.2 ⟨entry, hentry, by simpa using h.symm⟩)
    simp [List.lookup_append, hnone]

theorem at?_put_of_ne {other : Place} (hne : other ≠ place) :
    (store.put place node).at? other = store.at? other := by
  rw [at?, at?, put]
  split
  · rfl
  · split
    · rw [lookup_map_put_of_ne hne]
    · have hne' : (other == place) = false := by simpa using hne
      simp [List.lookup_append, List.lookup_cons, hne']

/-! ### The way to a place -/

/-- A way leads through directories, so a file at its end or elsewhere does not change it. -/
theorem follow_put {contents : List UInt8} (h : store.at? place ≠ some .directory)
    {start stop : Place} {names : List String} (hfollow : store.follow start names = .ok stop) :
    (store.put place (.file contents)).follow start names = .ok stop := by
  induction names generalizing start with
  | nil => exact hfollow
  | cons name names ih =>
    rw [follow] at hfollow ⊢
    have hat : store.at? start = some .directory := by
      split at hfollow
      · cases hfollow
      · assumption
      · cases hfollow
    have hne : start ≠ place := fun heq => h (heq ▸ hat)
    rw [at?_put_of_ne hne, hat]
    rw [hat] at hfollow
    dsimp only at hfollow ⊢
    split_ifs at hfollow ⊢
    · exact ih hfollow
    · exact ih hfollow
    · exact ih hfollow

theorem locate_put {contents : List UInt8} (h : store.at? place ≠ some .directory) {stop : Place}
    {path : String} {names : List String} (hlocate : store.locate path names = .ok stop) :
    (store.put place (.file contents)).locate path names = .ok stop := by
  rw [locate] at hlocate ⊢
  split_ifs at hlocate ⊢
  exact follow_put h hlocate

/-! ### Reading and writing -/

theorem names_ne_nil (h : store.at? place ≠ some .directory) : place.names ≠ [] := by
  intro hnil
  rw [at?, hnil] at h
  exact h rfl

/-- What a path reads as, from what stands where it leads. -/
theorem read_eq_of_locate {path : String} (hslash : endsInSlash path = false)
    (hlocate : store.locate path (parts path) = .ok place) :
    (∀ {contents}, store.at? place = some (.file contents) → store.read path = .ok contents) ∧
      (store.at? place = some .sink → store.read path = .ok []) := by
  constructor
  · intro contents hat
    simp [read, hlocate, hat, hslash, bind, Except.bind]
  · intro hat
    simp [read, hlocate, hat, hslash, bind, Except.bind]

/-- **What a read tells**: the path leads to a file or to a device. -/
theorem exists_of_read {path : String} {contents : List UInt8}
    (h : store.read path = .ok contents) :
    endsInSlash path = false ∧ ∃ place, store.locate path (parts path) = .ok place ∧
      (store.at? place = some (.file contents) ∨ store.at? place = some .sink ∧ contents = []) := by
  simp only [read, bind, Except.bind] at h
  cases hplace : store.locate path (parts path) with
  | error fault => simp [hplace] at h
  | ok place =>
    rw [hplace] at h
    rcases hat : store.at? place with _ | ⟨old | _ | _⟩ <;> simp only [hat] at h
    · cases h
    · split_ifs at h with hslash
      obtain rfl : old = contents := by simpa using h
      exact ⟨Bool.eq_false_iff.2 hslash, place, rfl, Or.inl hat⟩
    · cases h
    · split_ifs at h with hslash
      obtain rfl : [] = contents := by simpa using h
      exact ⟨Bool.eq_false_iff.2 hslash, place, rfl, Or.inr ⟨hat, rfl⟩⟩

/-- **What a write tells**: a device takes it and nothing happens, or a file is put where the path
leads. -/
theorem exists_of_write {store' : Store} {path : String} {contents : List UInt8}
    (h : store.write path contents = .ok store') :
    endsInSlash path = false ∧ ∃ place, store.locate path (parts path) = .ok place ∧
      (store.at? place = some .sink ∧ store' = store ∨
        store.at? place ≠ some .directory ∧ store' = store.put place (.file contents)) := by
  simp only [write, bind, Except.bind] at h
  split_ifs at h with hslash
  · cases hway : store.locate path ((parts path).dropLast ++ ["."]) <;> simp [hway] at h
  refine ⟨Bool.eq_false_iff.2 hslash, ?_⟩
  cases hplace : store.locate path (parts path) with
  | error fault => simp [hplace] at h
  | ok place =>
    rw [hplace] at h
    refine ⟨place, rfl, ?_⟩
    rcases hat : store.at? place with _ | ⟨old | _ | _⟩ <;> simp only [hat] at h
    · exact Or.inr ⟨by simp, by simpa using h.symm⟩
    · exact Or.inr ⟨by simp, by simpa using h.symm⟩
    · cases h
    · exact Or.inl ⟨rfl, by simpa using h.symm⟩

/-- **What is written is read**, unless the path leads to a device, which is empty and stays so. -/
theorem read_of_write {store' : Store} {path : String} {contents : List UInt8}
    (h : store.write path contents = .ok store') :
    store'.read path = .ok contents ∨ store' = store ∧ store.read path = .ok [] := by
  obtain ⟨hslash, place, hplace, ⟨hat, rfl⟩ | ⟨hnot, rfl⟩⟩ := exists_of_write h
  · exact Or.inr ⟨rfl, (read_eq_of_locate hslash hplace).2 hat⟩
  · -- The path still leads there when the file is put.
    exact Or.inl ((read_eq_of_locate hslash (locate_put hnot hplace)).1
      (at?_put_self (names_ne_nil hnot)))

/-- **A write changes one place at most**, the one the path leads to. -/
theorem at?_of_write {store' : Store} {path : String} {contents : List UInt8}
    (h : store.write path contents = .ok store') {other : Place}
    (hother : store.locate path (parts path) ≠ .ok other) : store'.at? other = store.at? other := by
  obtain ⟨-, place, hplace, ⟨-, rfl⟩ | ⟨-, rfl⟩⟩ := exists_of_write h
  · rfl
  · exact at?_put_of_ne fun heq => hother (heq ▸ hplace)

/-- **What can be read can be written.** -/
theorem exists_write_of_read {path : String} {contents : List UInt8}
    (h : store.read path = .ok contents) (new : List UInt8) :
    ∃ store', store.write path new = .ok store' := by
  obtain ⟨hslash, place, hplace, hat | ⟨hat, -⟩⟩ := exists_of_read h
  · exact ⟨_, by simp [write, hslash, hplace, hat, bind, Except.bind]; rfl⟩
  · exact ⟨_, by simp [write, hslash, hplace, hat, bind, Except.bind]; rfl⟩

end FirmwareReport.Store
