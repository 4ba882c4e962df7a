import Mathlib.Data.List.AList
import Mathlib.Data.List.Perm.Basic
import Mathlib.Data.List.Nodup

/-!
Indices given out from a free list and kept in a table.

A `Table` maps keys to indices. `Split p all t free` says that the indices of
interest (those that meet `p`) are each either the value of exactly one key of
`t` or exactly once in `free`: together they are a permutation of `all`. Values
that do not meet `p` are marks the program keeps in the same table, and the
table may hold any number of them. Giving out an index, taking one back and
writing a mark keep the split, whatever key is looked up and whatever index is
chosen.
-/

namespace Kit.Pool

universe u

open scoped List

/-- Keys to indices, each key at most once. -/
abbrev Table (κ : Type u) := AList fun _ : κ => Nat

variable {κ : Type u} [DecidableEq κ]

/-- The values of a table, with repetitions. -/
def values (t : Table κ) : List Nat := t.entries.map Sigma.snd

omit [DecidableEq κ] in
@[simp] theorem values_empty : values (∅ : Table κ) = [] := rfl

theorem mem_values_of_lookup {t : Table κ} {k : κ} {v : Nat} (h : t.lookup k = some v) :
    v ∈ values t :=
  List.mem_map.mpr ⟨⟨k, v⟩, AList.mem_lookup_iff.mp h, rfl⟩

theorem lookup_of_mem_values {t : Table κ} {v : Nat} (h : v ∈ values t) :
    ∃ k, t.lookup k = some v := by
  obtain ⟨⟨k, w⟩, mem, rfl⟩ := List.mem_map.mp h
  exact ⟨k, AList.mem_lookup_iff.mpr mem⟩

omit [DecidableEq κ] in
@[simp] theorem values_length (t : Table κ) : (values t).length = t.keys.length := by
  simp [values, AList.keys, List.keys]

theorem lookup_insert_if (t : Table κ) (k k' : κ) (v : Nat) :
    (t.insert k v).lookup k' = if k' = k then some v else t.lookup k' := by
  by_cases same : k' = k
  · rw [if_pos same, same, AList.lookup_insert]
  · rw [if_neg same, AList.lookup_insert_ne same]

theorem mem_of_lookup {t : Table κ} {k : κ} {v : Nat} (h : t.lookup k = some v) : k ∈ t :=
  AList.lookup_isSome.mp (by rw [h]; rfl)

theorem exists_lookup {t : Table κ} {k : κ} (h : k ∈ t) : ∃ v, t.lookup k = some v :=
  Option.isSome_iff_exists.mp (AList.lookup_isSome.mpr h)

theorem values_insert (t : Table κ) (k : κ) (v : Nat) :
    values (t.insert k v) = v :: values (t.erase k) := rfl

/-- A key's value, and the values of the other keys. -/
theorem values_of_lookup {t : Table κ} {k : κ} {v : Nat} (h : t.lookup k = some v) :
    (values t).Perm (v :: values (t.erase k)) := by
  have key : k ∈ t.entries.keys := AList.lookup_isSome.mp (by rw [h]; rfl)
  obtain ⟨w, l₁, l₂, -, whole, rest⟩ := List.exists_of_kerase key
  have same : w = v := by
    have entry : (⟨k, w⟩ : Sigma fun _ : κ => Nat) ∈ t.entries := by rw [whole]; simp
    have found : t.lookup k = some w := AList.mem_lookup_iff.mpr entry
    exact Option.some.inj (found.symm.trans h)
  subst same
  have erased : values (t.erase k) = l₁.map Sigma.snd ++ l₂.map Sigma.snd := by
    rw [← List.map_append, ← rest]
    rfl
  rw [erased, values, whole, List.map_append, List.map_cons]
  exact List.perm_middle

theorem values_of_absent {t : Table κ} {k : κ} (h : t.lookup k = none) :
    values (t.erase k) = values t := by
  have absent : k ∉ t.entries.keys := AList.lookup_eq_none.mp h
  exact congrArg (List.map Sigma.snd) (List.kerase_of_notMem_keys absent)

/-- The indices of interest, `all` of them, are split between table and free list. -/
structure Split (p : Nat → Bool) (all : List Nat) (t : Table κ) (free : List Nat) : Prop where
  nodup : all.Nodup
  perm : ((values t).filter p ++ free.filter p).Perm all

namespace Split

variable {p : Nat → Bool} {all free free' : List Nat} {t : Table κ} {k : κ} {v : Nat}

omit [DecidableEq κ] in
/-- Of all indices, those of interest. -/
theorem restrict (split : Split (fun _ => true) all t free) (p : Nat → Bool) :
    Split p (all.filter p) t free where
  nodup := split.nodup.filter p
  perm := by
    have perm := split.perm.filter p
    rwa [List.filter_true, List.filter_true, List.filter_append] at perm

variable (split : Split p all t free)
include split

omit [DecidableEq κ] in
theorem both_nodup : ((values t).filter p ++ free.filter p).Nodup :=
  split.perm.nodup_iff.mpr split.nodup

omit [DecidableEq κ] in
theorem mem_all (mem : v ∈ values t ∨ v ∈ free) (hp : p v = true) : v ∈ all := by
  rw [← split.perm.mem_iff, List.mem_append, List.mem_filter, List.mem_filter]
  exact mem.imp (⟨·, hp⟩) (⟨·, hp⟩)

omit split [DecidableEq κ] in
/-- With every index of interest, all values and free indices are a permutation. -/
theorem perm_all (split : Split (fun _ => true) all t free) : (values t ++ free).Perm all := by
  have perm := split.perm
  rwa [List.filter_true, List.filter_true] at perm

/-- No index is given out and free. -/
theorem not_free (h : t.lookup k = some v) (hp : p v = true) : v ∉ free := by
  intro isFree
  have apart := List.disjoint_of_nodup_append split.both_nodup
  exact apart (List.mem_filter.mpr ⟨mem_values_of_lookup h, hp⟩)
    (List.mem_filter.mpr ⟨isFree, hp⟩)

/-- No index is given out twice. -/
theorem injective {k' : κ} (h : t.lookup k = some v) (h' : t.lookup k' = some v)
    (hp : p v = true) : k = k' := by
  by_contra ne
  have other : v ∈ values (t.erase k) := by
    refine mem_values_of_lookup (k := k') ?_
    rwa [AList.lookup_erase_ne (Ne.symm ne)]
  have twice := ((values_of_lookup h).filter p).nodup_iff.mp split.both_nodup.of_append_left
  rw [List.filter_cons_of_pos hp, List.nodup_cons] at twice
  exact twice.1 (List.mem_filter.mpr ⟨other, hp⟩)

/-- While a key waits for its index there is one left, unless there are more keys
than indices. -/
theorem left (found : t.lookup k = some v) (hp : p v = false)
    (few : t.keys.length ≤ all.length) : free ≠ [] := by
  rintro rfl
  have count := split.perm.length_eq
  rw [List.filter_nil, List.append_nil] at count
  have fewer : ((values t).filter p).length < (values t).length := by
    refine List.length_filter_lt_length_iff_exists.mpr ⟨v, mem_values_of_lookup found, ?_⟩
    rw [hp]
    decide
  rw [values_length] at fewer
  omega

omit split in
/-- What stays when the value of a key is overwritten: a key without a value of
interest has nothing to lose. -/
theorem values_erase (old : ∀ w, t.lookup k = some w → p w = false) :
    ((values (t.erase k)).filter p).Perm ((values t).filter p) := by
  cases h : t.lookup k with
  | none => rw [values_of_absent h]
  | some w =>
    have rest := (values_of_lookup h).filter p
    rw [List.filter_cons_of_neg (by simp [old w h])] at rest
    exact rest.symm

/-- Give a free index to a key that has none. -/
theorem give (old : ∀ w, t.lookup k = some w → p w = false) (taken : free.Perm (v :: free')) :
    Split p all (t.insert k v) free' where
  nodup := split.nodup
  perm := by
    refine List.Perm.trans ?_ split.perm
    rw [values_insert]
    by_cases hp : p v = true
    · rw [List.filter_cons_of_pos hp]
      have isFree := taken.filter p
      rw [List.filter_cons_of_pos hp] at isFree
      calc (v :: (values (t.erase k)).filter p) ++ free'.filter p
          = v :: ((values (t.erase k)).filter p ++ free'.filter p) := rfl
        _ ~ v :: ((values t).filter p ++ free'.filter p) :=
            ((values_erase old).append_right _).cons v
        _ ~ (values t).filter p ++ v :: free'.filter p := List.perm_middle.symm
        _ ~ (values t).filter p ++ free.filter p := isFree.symm.append_left _
    · rw [List.filter_cons_of_neg hp]
      have isFree := taken.filter p
      rw [List.filter_cons_of_neg hp] at isFree
      exact (values_erase old).append isFree.symm

/-- Write a mark to a key that has no index. -/
theorem mark (old : ∀ w, t.lookup k = some w → p w = false) (hv : p v = false) :
    Split p all (t.insert k v) free where
  nodup := split.nodup
  perm := by
    refine List.Perm.trans ?_ split.perm
    rw [values_insert, List.filter_cons_of_neg (by simp [hv])]
    exact (values_erase old).append_right _

/-- Take the index of a key back. -/
theorem takeBack (h : t.lookup k = some v) : Split p all (t.erase k) (free ++ [v]) where
  nodup := split.nodup
  perm := by
    refine List.Perm.trans ?_ split.perm
    have here := (values_of_lookup h).filter p
    rw [List.filter_append]
    by_cases hp : p v = true
    · rw [List.filter_cons_of_pos hp] at here
      rw [List.filter_cons_of_pos hp, List.filter_nil, ← List.append_assoc]
      calc ((values (t.erase k)).filter p ++ free.filter p) ++ [v]
          ~ v :: ((values (t.erase k)).filter p ++ free.filter p) := List.perm_append_singleton v _
        _ = (v :: (values (t.erase k)).filter p) ++ free.filter p := rfl
        _ ~ (values t).filter p ++ free.filter p := here.symm.append_right _
    · rw [List.filter_cons_of_neg hp] at here
      rw [List.filter_cons_of_neg hp, List.filter_nil, List.append_nil]
      exact here.symm.append_right _

/-- An index that is not taken back is lost. -/
theorem drop (h : t.lookup k = some v) : ∃ left, Split p left (t.erase k) free := by
  have whole := (((values_of_lookup h).filter p).append_right _).nodup_iff.mp split.both_nodup
  have rest : ((values (t.erase k)).filter p).Sublist ((v :: values (t.erase k)).filter p) :=
    (List.sublist_cons_self v _).filter p
  exact ⟨_, whole.sublist (rest.append_right _), List.Perm.refl _⟩

end Split

/-! ### Indices in a range -/

/-- Every value and every free index is below `n`. It asks nothing of how they are
split, and so survives when the table loses an index. -/
structure Within (n : Nat) (t : Table κ) (free : List Nat) : Prop where
  lookup : ∀ {k v}, t.lookup k = some v → v < n
  free : ∀ {v}, v ∈ free → v < n

theorem Split.within {n : Nat} {t : Table κ} {free : List Nat}
    (split : Split (fun _ => true) (List.range n) t free) : Within n t free where
  lookup found := List.mem_range.mp (split.mem_all (.inl (mem_values_of_lookup found)) rfl)
  free mem := List.mem_range.mp (split.mem_all (.inr mem) rfl)

namespace Within

variable {n : Nat} {t : Table κ} {free free' : List Nat} (h : Within n t free)
include h

theorem insert (k : κ) {v : Nat} (hv : v < n) : Within n (t.insert k v) free where
  lookup {k' w} found := by
    rw [lookup_insert_if] at found
    split at found
    · cases found
      exact hv
    · exact h.lookup found
  free := h.free

theorem give (k : κ) {v : Nat} (taken : free.Perm (v :: free')) :
    Within n (t.insert k v) free' where
  lookup := (h.insert k (h.free (taken.mem_iff.mpr List.mem_cons_self))).lookup
  free mem := h.free (taken.mem_iff.mpr (List.mem_cons_of_mem _ mem))

theorem erase (k : κ) : Within n (t.erase k) free where
  lookup {k' w} found := by
    by_cases same : k' = k
    · rw [same, AList.lookup_erase] at found
      cases found
    · rw [AList.lookup_erase_ne same] at found
      exact h.lookup found
  free := h.free

theorem takeBack (k : κ) {v : Nat} (hv : v < n) : Within n (t.erase k) (free ++ [v]) where
  lookup := (h.erase k).lookup
  free mem := by
    rcases List.mem_append.mp mem with mem | mem
    · exact h.free mem
    · rw [List.mem_singleton.mp mem]
      exact hv

end Within

end Kit.Pool
