import Mathlib.Logic.Function.Basic
import ImDsse.Kit.DenseHash
import ImDsse.Kit.Machine

/-!
A map in a hash table with open addressing.

A bucket holds a key with its value, and `layout` is the table without the values. Where an
operation goes is decided by the keys alone, so it moves the layout as `DenseHash` does
(`layout_findOrInsert`), and what is known of tables of keys holds of maps: a key is found
where it stands, and a table with room for it is searched to the end.

`Holds` says that a row of buckets holds a map from keys to values. Reading a key that is
not there inserts it with a default value. A row half empty takes every read, assignment
and erasure, and each does to the row what it does to the map (`Keeps.step`).
-/

namespace Kit.DenseMap

open DenseHash

universe u

variable {κ ν : Type u}

abbrev Row (κ ν : Type u) := List (Bucket (κ × ν))

def keyOf : Bucket (κ × ν) → Bucket κ
  | .empty => .empty
  | .deleted => .deleted
  | .full e => .full e.1

def layout (T : Row κ ν) : Layout κ := T.map keyOf

/-- The value a reference to a bucket reads. -/
def valueAt (T : Row κ ν) (b : Nat) : Option ν := (T[b]?.bind Bucket.key?).map Prod.snd

/-- What is done to a map. -/
inductive Access (κ ν : Type u) where
  | read (key : κ)
  | assign (key : κ) (value : ν)
  | erase (key : κ)
deriving DecidableEq

variable [DecidableEq κ]

section Operations

variable (S : Scheme κ) (default : ν)

def place (T : Row κ ν) (e : κ × ν) : Option (Row κ ν) :=
  (probeEmpty (layout T) T.length (S.hash e.1 % T.length) 0).map fun b => T.set b (.full e)

/-- The entries of a table in one of `n` buckets. -/
def copyFrom (T : Row κ ν) (n : Nat) : Option (Row κ ν) :=
  (keys T).foldlM (place S) (List.replicate n .empty)

def insertNoresize (T : Row κ ν) (e : κ × ν) : Option (Row κ ν × Nat) :=
  (findPosition S (layout T) e.1).map fun
    | .found b => (T, b)
    | .free b => (T.set b (.full e), b)

/-- The table with the key in it, and its bucket. -/
def findOrInsert (T : Row κ ν) (key : κ) : Option (Row κ ν × Nat) :=
  (findPosition S (layout T) key).bind fun
    | .found b => some (T, b)
    | .free b =>
      match S.resizeTo ((layout T).countP (· ≠ .empty)) ((layout T).countP (· = .deleted))
        T.length with
      | none => some (T.set b (.full (key, default)), b)
      | some n => (copyFrom S T n).bind fun T => insertNoresize S T (key, default)

def read (T : Row κ ν) (key : κ) : Option (Row κ ν × ν) := do
  let (T, b) ← findOrInsert S default T key
  let v ← valueAt T b
  pure (T, v)

def assign (T : Row κ ν) (key : κ) (value : ν) : Option (Row κ ν) := do
  let (T, b) ← findOrInsert S default T key
  pure (T.set b (.full (key, value)))

def erase (T : Row κ ν) (key : κ) : Option (Row κ ν) :=
  if keys T = [] then some T
  else (findPosition S (layout T) key).map fun
    | .found b => T.set b .deleted
    | .free _ => T

/-- A row of buckets, access after access, with what is read. -/
def rowMachine : Machine (Row κ ν) (Access κ ν) (Option ν) where
  step T
    | .read key => (read S default T key).map fun (T, v) => (T, some v)
    | .assign key value => (assign S default T key value).map fun T => (T, none)
    | .erase key => (erase S T key).map fun T => (T, none)

end Operations

/-- The map on its own. -/
def mapMachine (default : ν) : Machine (κ → Option ν) (Access κ ν) (Option ν) where
  step m
    | .read key =>
      some (Function.update m key (some ((m key).getD default)), some ((m key).getD default))
    | .assign key value => some (Function.update m key (some value), none)
    | .erase key => some (Function.update m key none, none)

/-! ### Keys without their values -/

section Layout

variable {S : Scheme κ} {default : ν} {T : Row κ ν} {key : κ} {b : Nat}

omit [DecidableEq κ] in
@[simp] theorem layout_length (T : Row κ ν) : (layout T).length = T.length := List.length_map _

omit [DecidableEq κ] in
@[simp] theorem layout_set (T : Row κ ν) (b : Nat) (s : Bucket (κ × ν)) :
    layout (T.set b s) = (layout T).set b (keyOf s) := List.map_set

omit [DecidableEq κ] in
theorem layout_replicate (n : Nat) :
    layout (List.replicate n (.empty : Bucket (κ × ν))) = List.replicate n .empty :=
  List.map_replicate

omit [DecidableEq κ] in
theorem keys_layout (T : Row κ ν) : keys (layout T) = (keys T).map Prod.fst := by
  unfold keys layout
  rw [List.filterMap_map, List.map_filterMap]
  congr 1
  funext bucket
  cases bucket <;> rfl

omit [DecidableEq κ] in
/-- A key stands in a bucket with its value. -/
theorem entry_of_key (here : (layout T)[b]? = some (.full key)) :
    ∃ v, T[b]? = some (.full (key, v)) := by
  rw [layout, List.getElem?_map] at here
  obtain ⟨bucket, at_b, same⟩ := Option.map_eq_some_iff.mp here
  cases bucket with
  | full e =>
    cases same
    exact ⟨e.2, at_b⟩
  | _ => cases same

omit [DecidableEq κ] in
theorem layout_place (T : Row κ ν) (e : κ × ν) :
    (place S T e).map layout = DenseHash.place S (layout T) e.1 := by
  unfold place DenseHash.place
  rw [Option.map_map, layout_length]
  congr 1
  funext b
  exact layout_set ..

omit [DecidableEq κ] in
theorem layout_copyFrom (T : Row κ ν) (n : Nat) :
    (copyFrom S T n).map layout = DenseHash.copyFrom S (layout T) n := by
  have each : ∀ (rest : List (κ × ν)) (T₁ : Row κ ν), (rest.foldlM (place S) T₁).map layout =
      (rest.map Prod.fst).foldlM (DenseHash.place S) (layout T₁) := by
    intro rest
    induction rest with
    | nil => exact fun _ => rfl
    | cons e rest ih =>
      intro T₁
      rw [List.foldlM_cons, List.map_cons, List.foldlM_cons, ← layout_place]
      cases place S T₁ e with
      | none => rfl
      | some T₂ => exact ih T₂
  rw [copyFrom, DenseHash.copyFrom, keys_layout, each, layout_replicate]

theorem layout_insertNoresize (T : Row κ ν) (e : κ × ν) :
    (insertNoresize S T e).map (layout ·.1) = DenseHash.insertNoresize S (layout T) e.1 := by
  unfold insertNoresize DenseHash.insertNoresize
  rw [Option.map_map]
  congr 1
  funext position
  cases position with
  | found b => rfl
  | free b => exact layout_set ..

theorem layout_findOrInsert (default : ν) (T : Row κ ν) (key : κ) :
    (findOrInsert S default T key).map (layout ·.1) = DenseHash.findOrInsert S (layout T) key := by
  unfold findOrInsert DenseHash.findOrInsert
  rw [Option.map_bind]
  congr 1
  funext position
  cases position with
  | found b => rfl
  | free b =>
    dsimp only [Function.comp]
    rw [layout_length]
    cases S.resizeTo ((layout T).countP (· ≠ .empty)) ((layout T).countP (· = .deleted))
      T.length with
    | none => exact congrArg some (layout_set ..)
    | some n =>
      dsimp only
      rw [← layout_copyFrom, Option.map_bind, Option.bind_map]
      congr 1
      funext T₁
      exact layout_insertNoresize T₁ (key, default)

theorem layout_erase (T : Row κ ν) (key : κ) :
    (erase S T key).map layout = DenseHash.erase S (layout T) key := by
  have none : keys (layout T) = [] ↔ keys T = [] := by rw [keys_layout, List.map_eq_nil_iff]
  unfold erase DenseHash.erase
  by_cases empty : keys T = []
  · rw [if_pos empty, if_pos (none.mpr empty)]
    rfl
  · rw [if_neg empty, if_neg (mt none.mp empty), Option.map_map]
    congr 1
    funext position
    cases position with
    | found b => exact layout_set ..
    | free b => rfl

end Layout

/-! ### The map a row holds -/

/-- Every key is found where it stands, and stands there with its value. -/
structure Holds (S : Scheme κ) (T : Row κ ν) (m : κ → Option ν) : Prop where
  sound : Sound S (layout T)
  values : ∀ {key : κ} {v : ν}, m key = some v ↔ ∃ b : Nat, T[b]? = some (.full (key, v))

section Holds

variable {S : Scheme κ} {default v : ν} {T T' : Row κ ν} {m : κ → Option ν} {key : κ} {b : Nat}

/-- A row of empty buckets holds nothing. -/
theorem Holds.replicate (S : Scheme κ) (n : Nat) :
    Holds S (List.replicate n (.empty : Bucket (κ × ν))) fun _ => none := by
  refine ⟨?_, fun {key v} => ⟨fun none => (by cases none), ?_⟩⟩
  · rw [layout_replicate]
    exact Sound.replicate S n
  · rintro ⟨b, here⟩
    cases List.eq_of_mem_replicate (List.mem_of_getElem? here)

omit [DecidableEq κ] in
/-- Entries after one was put where there was none. -/
theorem entry_set {old : Bucket (κ × ν)} (here : T[b]? = some old) (keyless : old.key? = none)
    {k : κ} {v' : ν} : (∃ q : Nat, (T.set b (.full (key, v)))[q]? = some (.full (k, v'))) ↔
      (k = key ∧ v' = v) ∨ ∃ q : Nat, T[q]? = some (.full (k, v')) := by
  rw [← mem_keys, ← mem_keys, mem_keys_set here keyless]
  refine or_congr_left ?_
  constructor
  · intro same
    cases same
    exact ⟨rfl, rfl⟩
  · rintro ⟨rfl, rfl⟩
    rfl

omit [DecidableEq κ] in
theorem layout_full (here : T[b]? = some (.full (key, v))) :
    (layout T)[b]? = some (.full key) := by
  rw [layout, List.getElem?_map, here]
  rfl

omit [DecidableEq κ] in
/-- A key stays where it is when it is given a value. -/
theorem layout_write {v' : ν} (here : T[b]? = some (.full (key, v'))) (v : ν) :
    layout (T.set b (.full (key, v))) = layout T := by
  obtain ⟨inside, full⟩ := List.getElem?_eq_some_iff.mp (layout_full here)
  rw [layout_set, keyOf, ← full, List.set_getElem_self inside]

omit [DecidableEq κ] in
/-- The other entries, after the bucket of a key was written. -/
theorem entry_set_of_ne {s : Bucket (κ × ν)} {k : κ} {v' : ν}
    (here : T[b]? = some (.full (key, v))) (other : k ≠ key) (written : s ≠ .full (k, v')) :
    (∃ q : Nat, (T.set b s)[q]? = some (.full (k, v'))) ↔
      ∃ q : Nat, T[q]? = some (.full (k, v')) := by
  refine exists_congr fun q => ?_
  rw [getElem?_set_some here]
  split
  · next at_b =>
    rw [at_b, here]
    simp [written, Ne.symm other]
  · rfl

namespace Holds

variable (h : Holds S T m)
include h

/-- A key stands in one bucket. -/
theorem bucket_eq {q : Nat} {v' : ν} (at_q : T[q]? = some (.full (key, v')))
    (at_b : T[b]? = some (.full (key, v))) : q = b := by
  cases (h.sound.found (layout_full at_q)).symm.trans (h.sound.found (layout_full at_b))
  rfl

theorem found (search : findPosition S (layout T) key = some (.found b)) :
    ∃ v, m key = some v ∧ T[b]? = some (.full (key, v)) := by
  obtain ⟨v, here⟩ := entry_of_key (probe_found search)
  exact ⟨v, h.values.mpr ⟨b, here⟩, here⟩

/-- A search that ends without the key means that the map does not have it, and comes to
a bucket without one. -/
theorem free (search : findPosition S (layout T) key = some (.free b)) :
    m key = none ∧ ∃ old, T[b]? = some old ∧ old.key? = none := by
  constructor
  · rw [Option.eq_none_iff_forall_ne_some]
    intro v has
    obtain ⟨q, here⟩ := h.values.mp has
    refine h.sound.absent search (mem_keys.mpr ⟨q, ?_⟩)
    rw [layout, List.getElem?_map, here]
    rfl
  · obtain ⟨bucket, at_b, keyless⟩ := findPosition_free search
    rw [layout, List.getElem?_map] at at_b
    obtain ⟨old, here, rfl⟩ := Option.map_eq_some_iff.mp at_b
    refine ⟨old, here, ?_⟩
    cases old with
    | full e => cases keyless
    | _ => rfl

/-- A new key, at the end of its search. -/
theorem insert (search : findPosition S (layout T) key = some (.free b)) (v : ν) :
    Holds S (T.set b (.full (key, v))) (Function.update m key (some v)) := by
  obtain ⟨absent, old, here, keyless⟩ := h.free search
  refine ⟨?_, fun {k v'} => ?_⟩
  · rw [layout_set]
    exact h.sound.set search
  · rw [entry_set here keyless, ← h.values]
    by_cases same : k = key
    · subst same
      rw [Function.update_self, absent]
      simp [eq_comm]
    · rw [Function.update_of_ne same]
      simp [same]

/-- A key is given a value. -/
theorem write {v' : ν} (here : T[b]? = some (.full (key, v'))) (v : ν) :
    Holds S (T.set b (.full (key, v))) (Function.update m key (some v)) := by
  refine ⟨layout_write here v ▸ h.sound, fun {k v''} => ?_⟩
  by_cases other : k = key
  · subst other
    rw [Function.update_self]
    constructor
    · intro read
      cases read
      exact ⟨b, (getElem?_set_some here).trans (if_pos rfl)⟩
    · rintro ⟨q, at_q⟩
      rw [getElem?_set_some here] at at_q
      split at at_q
      · cases at_q
        rfl
      · next apart => exact absurd (h.bucket_eq at_q here) apart
  · rw [Function.update_of_ne other, h.values, entry_set_of_ne here other]
    intro written
    cases written
    exact other rfl

/-- A resized table holds the map it held. -/
theorem copyFrom {n : Nat} (copied : DenseMap.copyFrom S T n = some T') : Holds S T' m := by
  have each : ∀ (rest : List (κ × ν)) (T₁ : Row κ ν), rest.foldlM (place S) T₁ = some T' →
      ∀ e, e ∈ keys T' ↔ e ∈ rest ∨ e ∈ keys T₁ := by
    intro rest
    induction rest with
    | nil =>
      intro T₁ done e
      cases done
      simp
    | cons e₁ rest ih =>
      intro T₁ done e
      obtain ⟨T₂, placed, done⟩ := Option.bind_eq_some_iff.mp done
      obtain ⟨b, ends, rfl⟩ := Option.map_eq_some_iff.mp placed
      have free := probeEmpty_empty ends
      rw [layout, List.getElem?_map] at free
      obtain ⟨old, here, empty⟩ := Option.map_eq_some_iff.mp free
      have keyless : old.key? = none := by cases old <;> first | rfl | cases empty
      rw [ih _ done, mem_keys_set here keyless, List.mem_cons]
      simp only [Bucket.key?, Option.some.injEq]
      tauto
  have moved : DenseHash.copyFrom S (layout T) n = some (layout T') := by
    rw [← layout_copyFrom, copied]
    rfl
  refine ⟨(h.sound.copyFrom moved).1, fun {k v} => ?_⟩
  rw [h.values, ← mem_keys, ← mem_keys, each _ _ copied]
  refine (or_iff_left fun mem => ?_).symm
  obtain ⟨b, here⟩ := mem_keys.mp mem
  cases List.eq_of_mem_replicate (List.mem_of_getElem? here)

/-- A key in its place, with the value it had or the one it is given. -/
theorem insertNoresize (done : DenseMap.insertNoresize S T (key, v) = some (T', b)) :
    T'[b]? = some (.full (key, (m key).getD v)) ∧
      Holds S T' (Function.update m key (some ((m key).getD v))) := by
  obtain ⟨position, search, same⟩ := Option.map_eq_some_iff.mp done
  cases position with
  | found b =>
    cases same
    obtain ⟨v₀, has, here⟩ := h.found search
    rw [has, Option.getD_some, ← has, Function.update_eq_self]
    exact ⟨here, h⟩
  | free b =>
    cases same
    obtain ⟨absent, old, here, -⟩ := h.free search
    rw [absent, Option.getD_none]
    exact ⟨(getElem?_set_some here).trans (if_pos rfl), h.insert search v⟩

theorem findOrInsert (done : DenseMap.findOrInsert S default T key = some (T', b)) :
    T'[b]? = some (.full (key, (m key).getD default)) ∧
      Holds S T' (Function.update m key (some ((m key).getD default))) := by
  obtain ⟨position, search, done⟩ := Option.bind_eq_some_iff.mp done
  have noresize : ∀ {T' b}, DenseMap.insertNoresize S T (key, default) = some (T', b) → _ :=
    h.insertNoresize
  rw [DenseMap.insertNoresize, search] at noresize
  cases position with
  | found b => exact noresize done
  | free b =>
    dsimp only at done
    split at done
    · exact noresize done
    · obtain ⟨T₁, copied, done⟩ := Option.bind_eq_some_iff.mp done
      exact (h.copyFrom copied).insertNoresize done

theorem assign {value : ν} (done : DenseMap.assign S default T key value = some T') :
    Holds S T' (Function.update m key (some value)) := by
  obtain ⟨⟨T₁, b⟩, inserted, done⟩ := Option.bind_eq_some_iff.mp done
  cases done
  obtain ⟨here, holds⟩ := h.findOrInsert inserted
  have written := holds.write here value
  rwa [Function.update_idem] at written

theorem erase (done : DenseMap.erase S T key = some T') :
    Holds S T' (Function.update m key none) := by
  have moved : DenseHash.erase S (layout T) key = some (layout T') := by
    rw [← layout_erase, done]
    rfl
  have absent : m key = none → Holds S T (Function.update m key none) := by
    intro none
    rw [← none, Function.update_eq_self]
    exact h
  unfold DenseMap.erase at done
  split at done
  · next empty =>
    cases done
    refine absent (Option.eq_none_iff_forall_ne_some.mpr fun v has => ?_)
    have mem := mem_keys.mpr (h.values.mp has)
    rw [empty] at mem
    cases mem
  · obtain ⟨position, search, same⟩ := Option.map_eq_some_iff.mp done
    cases position with
    | free b =>
      cases same
      exact absent (h.free search).1
    | found b =>
      cases same
      obtain ⟨v₀, has, here⟩ := h.found search
      refine ⟨(h.sound.erase moved).1, fun {k v} => ?_⟩
      by_cases other : k = key
      · subst other
        rw [Function.update_self]
        refine ⟨fun none => (by cases none), ?_⟩
        rintro ⟨q, at_q⟩
        rw [getElem?_set_some here] at at_q
        split at at_q
        · cases at_q
        · next apart => exact absurd (h.bucket_eq at_q here) apart
      · rw [Function.update_of_ne other, h.values, entry_set_of_ne here other]
        exact fun written => by cases written

end Holds

end Holds

/-! ### Accesses -/

/-- A row that holds a map, in buckets half of which are empty. -/
structure Keeps (S : Scheme κ) (T : Row κ ν) (m : κ → Option ν) : Prop where
  holds : Holds S T m
  halfEmpty : HalfEmpty (layout T)

section Accesses

variable {S : Scheme κ} {default : ν} {T : Row κ ν} {m : κ → Option ν}

/-- A key always finds its place. -/
theorem findOrInsert_ends (h : HalfEmpty (layout T)) (roomy : S.Roomy) (default : ν) (key : κ) :
    ∃ T' b, findOrInsert S default T key = some (T', b) ∧ HalfEmpty (layout T') := by
  obtain ⟨L, inserted, half⟩ := h.findOrInsert roomy key
  rw [← layout_findOrInsert default] at inserted
  obtain ⟨⟨T', b⟩, done, rfl⟩ := Option.map_eq_some_iff.mp inserted
  exact ⟨T', b, done, half⟩

theorem erase_ends (h : HalfEmpty (layout T)) (S : Scheme κ) (key : κ) :
    ∃ T', erase S T key = some T' ∧ HalfEmpty (layout T') := by
  obtain ⟨L, erased, half⟩ := h.erase S key
  rw [← layout_erase] at erased
  obtain ⟨T', done, rfl⟩ := Option.map_eq_some_iff.mp erased
  exact ⟨T', done, half⟩

/-- An access does to the row what it does to the map. -/
theorem Keeps.step (h : Keeps S T m) (roomy : S.Roomy) (access : Access κ ν) :
    Machine.Lockstep (Keeps S) Eq ((rowMachine S default).step T access)
      ((mapMachine default).step m access) := by
  cases access with
  | read key =>
    obtain ⟨T', b, inserted, half⟩ := findOrInsert_ends h.halfEmpty roomy default key
    obtain ⟨here, holds⟩ := h.holds.findOrInsert inserted
    have done : read S default T key = some (T', (m key).getD default) := by
      rw [read, inserted]
      simp [valueAt, here, Bucket.key?]
    simp only [rowMachine, done]
    exact .some ⟨⟨holds, half⟩, rfl⟩
  | assign key value =>
    obtain ⟨T', b, inserted, half⟩ := findOrInsert_ends h.halfEmpty roomy default key
    have done : assign S default T key value = some (T'.set b (.full (key, value))) := by
      rw [assign, inserted]
      rfl
    obtain ⟨here, -⟩ := h.holds.findOrInsert inserted
    simp only [rowMachine, done]
    exact .some ⟨⟨h.holds.assign done, layout_write here value ▸ half⟩, rfl⟩
  | erase key =>
    obtain ⟨T', done, half⟩ := erase_ends h.halfEmpty S key
    simp only [rowMachine, done]
    exact .some ⟨⟨h.holds.erase done, half⟩, rfl⟩

end Accesses

end Kit.DenseMap
