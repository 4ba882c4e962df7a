import Mathlib.Data.PEquiv

/-!
Views of a store.

A view says which places of a buffer stand for which places of a store. `get` loads the
store's values into the buffer, `set` saves the buffer's into the store. What a place
holds after any saves through any views is what the last of them that has the place
saved there (`foldl_set`).
-/

namespace Kit.View

variable {ι κ β : Type*} (v : PEquiv ι κ) (store : κ → β) (buffer : ι → β)

/-- Load the places of a view. The buffer keeps the rest. -/
def get : ι → β := fun i =>
  match v i with
  | some k => store k
  | none => buffer i

/-- Save the places of a view. The store keeps the rest. -/
def set : κ → β := fun k =>
  match v.symm k with
  | some i => buffer i
  | none => store k

variable {v store buffer}

theorem get_of_some {i : ι} {k : κ} (h : v i = some k) : get v store buffer i = store k := by
  rw [get, h]

theorem get_of_none {i : ι} (h : v i = none) : get v store buffer i = buffer i := by
  rw [get, h]

theorem set_of_some {i : ι} {k : κ} (h : v.symm k = some i) : set v store buffer k = buffer i := by
  rw [set, h]

theorem set_of_none {k : κ} (h : v.symm k = none) : set v store buffer k = store k := by
  rw [set, h]

/-- What the last of some saves that has the place saved there. -/
def lastSaved (k : κ) : List (PEquiv ι κ × (ι → β)) → Option β
  | [] => none
  | save :: later => (lastSaved k later).or ((save.1.symm k).map save.2)

/-- The store after some saves. -/
theorem foldl_set (saves : List (PEquiv ι κ × (ι → β))) (store : κ → β) (k : κ) :
    saves.foldl (fun store save => set save.1 store save.2) store k =
      (lastSaved k saves).getD (store k) := by
  induction saves generalizing store with
  | nil => rfl
  | cons save later ih =>
    rw [List.foldl_cons, ih, lastSaved]
    cases lastSaved k later with
    | some b => rfl
    | none =>
      cases place : save.1.symm k with
      | some i => exact set_of_some place
      | none => exact set_of_none place

end Kit.View
