import Mathlib.Data.List.Pairwise
import Mathlib.Data.List.Nodup
import Mathlib.Data.Fintype.EquivFin
import Mathlib.Data.Fintype.Card
import Mathlib.Data.Nat.ModEq
import Mathlib.Data.Nat.Prime.Basic
import Mathlib.Algebra.Group.Nat.Even
import Mathlib.Tactic.Ring

/-!
A hash table with open addressing that leaves marks where keys were erased.

The table is a row of buckets. A key is looked for at its hash and from there in jumps of
1, 2, 3 and so on around the row, up to the first bucket that is empty; a new key goes to
the first bucket on the way that holds no key. An erased key leaves a mark that the search
goes past, and when the table is resized the marks are left behind.

`Sound` says that every key is found where it stands. Inserting, erasing and resizing keep
it, whatever the hash function and whenever the table is resized. In a row of `2 ^ k`
buckets the jumps go to all of them (`jumpTo_covers`), so a search ends where a bucket is
empty; a policy that leaves half of the buckets empty keeps every search ending
(`HalfEmpty`).
-/

namespace Kit.DenseHash

universe u

inductive Bucket (κ : Type u) where
  | empty
  | deleted
  | full (key : κ)
deriving DecidableEq

/-- Where the keys of a table stand. -/
abbrev Layout (κ : Type u) := List (Bucket κ)

/-- The hash function, and the number of buckets a table is given before one more key is
inserted, from its elements (marks included), its marks and its buckets. -/
structure Scheme (κ : Type u) where
  hash : κ → Nat
  resizeTo : Nat → Nat → Nat → Option Nat

/-- The bucket of a key, or the one it would go to. -/
inductive Position where
  | found (bucknum : Nat)
  | free (bucknum : Nat)
deriving DecidableEq

def Position.bucknum : Position → Nat
  | found b => b
  | free b => b

def Bucket.key? {κ : Type u} : Bucket κ → Option κ
  | full key => some key
  | _ => none

variable {κ : Type u} [DecidableEq κ]

/-- The loop of a search, with the mark it has gone past first. It fails when there is no
bucket left to look at. -/
def probe (T : Layout κ) (key : κ) : Nat → Nat → Nat → Option Nat → Option Position
  | 0, _, _, _ => none
  | left + 1, bucknum, numProbes, insertPos =>
    let next := (bucknum + (numProbes + 1)) % T.length
    match T[bucknum]? with
    | none => none
    | some .empty => some (.free (insertPos.getD bucknum))
    | some .deleted => probe T key left next (numProbes + 1) (some (insertPos.getD bucknum))
    | some (.full key') =>
      if key = key' then some (.found bucknum) else probe T key left next (numProbes + 1) insertPos

/-- The loop that places a key in a table without marks. -/
def probeEmpty (T : Layout κ) : Nat → Nat → Nat → Option Nat
  | 0, _, _ => none
  | left + 1, bucknum, numProbes =>
    match T[bucknum]? with
    | none => none
    | some .empty => some bucknum
    | some _ => probeEmpty T left ((bucknum + (numProbes + 1)) % T.length) (numProbes + 1)

omit [DecidableEq κ] in
def keys (T : Layout κ) : List κ := T.filterMap Bucket.key?

section Operations

variable (S : Scheme κ)

def findPosition (T : Layout κ) (key : κ) : Option Position :=
  probe T key T.length (S.hash key % T.length) 0 none

/-- The bucket a key is in, or what bucket it would be put in. -/
def bucket (T : Layout κ) (key : κ) : Option Nat := (findPosition S T key).map Position.bucknum

def place (T : Layout κ) (key : κ) : Option (Layout κ) :=
  (probeEmpty T T.length (S.hash key % T.length) 0).map fun b => T.set b (.full key)

/-- The keys of a table in one of `n` buckets. -/
def copyFrom (T : Layout κ) (n : Nat) : Option (Layout κ) :=
  (keys T).foldlM (place S) (List.replicate n .empty)

def insertNoresize (T : Layout κ) (key : κ) : Option (Layout κ) :=
  (findPosition S T key).map fun
    | .found _ => T
    | .free b => T.set b (.full key)

def findOrInsert (T : Layout κ) (key : κ) : Option (Layout κ) :=
  (findPosition S T key).bind fun
    | .found _ => some T
    | .free b =>
      match S.resizeTo (T.countP (· ≠ .empty)) (T.countP (· = .deleted)) T.length with
      | none => some (T.set b (.full key))
      | some n => (copyFrom S T n).bind fun T => insertNoresize S T key

def erase (T : Layout κ) (key : κ) : Option (Layout κ) :=
  if keys T = [] then some T
  else (findPosition S T key).map fun
    | .found b => T.set b .deleted
    | .free _ => T

end Operations

/-! ### Searches -/

section Probes

variable {T : Layout κ} {key : κ} {left bucknum numProbes b : Nat} {insertPos : Option Nat}

omit [DecidableEq κ] in
theorem mem_keys {k : κ} : k ∈ keys T ↔ ∃ b : Nat, T[b]? = some (.full k) := by
  rw [keys, List.mem_filterMap]
  constructor
  · rintro ⟨bucket, mem, key⟩
    obtain ⟨b, at_b⟩ := List.mem_iff_getElem?.mp mem
    cases bucket with
    | full k' =>
      cases key
      exact ⟨b, at_b⟩
    | _ => cases key
  · rintro ⟨b, at_b⟩
    exact ⟨_, List.mem_of_getElem? at_b, rfl⟩

omit [DecidableEq κ] in
/-- A bucket after another was written. -/
theorem getElem?_set_some {q : Nat} {s old : Bucket κ} (here : T[b]? = some old) :
    (T.set b s)[q]? = if q = b then some s else T[q]? := by
  obtain ⟨inside, -⟩ := List.getElem?_eq_some_iff.mp here
  by_cases same : q = b
  · rw [if_pos same, same, List.getElem?_set_self inside]
  · rw [if_neg same, List.getElem?_set_ne (Ne.symm same)]

theorem probe_found (h : probe T key left bucknum numProbes insertPos = some (.found b)) :
    T[b]? = some (.full key) := by
  induction left generalizing bucknum numProbes insertPos with
  | zero => cases h
  | succ left ih =>
    unfold probe at h
    dsimp only at h
    split at h
    · cases h
    · cases h
    · exact ih h
    · next key' here =>
      split at h
      · next same =>
        cases h
        rw [here, same]
      · exact ih h

/-- Past a mark, that is where the key would go. -/
theorem probe_free_of_mark {mark : Nat}
    (h : probe T key left bucknum numProbes (some mark) = some (.free b)) : b = mark := by
  induction left generalizing bucknum numProbes with
  | zero => cases h
  | succ left ih =>
    unfold probe at h
    dsimp only at h
    split at h
    · cases h
    · cases h
      rfl
    · exact ih h
    · split at h
      · cases h
      · exact ih h

/-- A key would go to a bucket without one. -/
theorem probe_free (h : probe T key left bucknum numProbes none = some (.free b)) :
    T[b]? = some .empty ∨ T[b]? = some .deleted := by
  induction left generalizing bucknum numProbes with
  | zero => cases h
  | succ left ih =>
    unfold probe at h
    dsimp only at h
    split at h
    · cases h
    · next here =>
      cases h
      exact .inl here
    · next here =>
      rw [probe_free_of_mark h]
      exact .inr here
    · split at h
      · cases h
      · exact ih h

/-- Where a key would go, it is found. -/
theorem probe_set_self (h : probe T key left bucknum numProbes none = some (.free b)) :
    probe (T.set b (.full key)) key left bucknum numProbes none = some (.found b) := by
  have free := probe_free h
  induction left generalizing bucknum numProbes with
  | zero => cases h
  | succ left ih =>
    have written : ∀ q, (T.set b (.full key))[q]? = if q = b then some (.full key) else T[q]? := by
      intro q
      rcases free with here | here <;> exact getElem?_set_some here
    unfold probe at h ⊢
    dsimp only at h ⊢
    rw [written, List.length_set]
    split at h
    · cases h
    · cases h
      simp only [Option.getD_none, if_true]
    · have here := probe_free_of_mark h
      rw [Option.getD_none] at here
      rw [if_pos here.symm]
      dsimp only
      rw [if_pos rfl, here]
    · next key' at_bucknum =>
      have other : bucknum ≠ b := by
        rintro rfl
        rcases free with here | here <;> cases at_bucknum.symm.trans here
      rw [if_neg other, at_bucknum]
      dsimp only
      split at h
      · cases h
      · next ne =>
        rw [if_neg ne]
        exact ih h

/-- A key is still found when another bucket is not emptied. -/
theorem probe_set_of_ne {q : Nat} {s : Bucket κ} (kept : s ≠ .empty) (other : s ≠ .full key)
    (before : T[q]? ≠ some (.full key)) {mark : Option Nat}
    (h : probe T key left bucknum numProbes insertPos = some (.found b)) :
    probe (T.set q s) key left bucknum numProbes mark = some (.found b) := by
  induction left generalizing bucknum numProbes insertPos mark with
  | zero => cases h
  | succ left ih =>
    unfold probe at h ⊢
    dsimp only at h ⊢
    rw [List.length_set]
    by_cases here : bucknum = q
    · -- the search went past the bucket, and still does
      subst here
      cases at_q : T[bucknum]? with
      | none =>
        rw [at_q] at h
        cases h
      | some old =>
        rw [getElem?_set_some at_q, if_pos rfl]
        rw [at_q] at h before
        have past : ∃ mark', probe T key left ((bucknum + (numProbes + 1)) % T.length)
            (numProbes + 1) mark' = some (.found b) := by
          cases old with
          | empty => cases h
          | deleted => exact ⟨_, h⟩
          | full key' =>
            refine ⟨_, (if_neg ?_).symm.trans h⟩
            rintro rfl
            exact before rfl
        obtain ⟨mark', past⟩ := past
        cases s with
        | empty => exact absurd rfl kept
        | deleted => exact ih past
        | full key' =>
          refine (if_neg ?_).trans (ih past)
          rintro rfl
          exact other rfl
    · rw [List.getElem?_set_ne (Ne.symm here)]
      cases there : T[bucknum]? with
      | none =>
        rw [there] at h
        cases h
      | some old =>
        rw [there] at h
        cases old with
        | empty => cases h
        | deleted => exact ih h
        | full key' =>
          dsimp only at h ⊢
          split at h
          · next same =>
            rw [if_pos same]
            exact h
          · next ne =>
            rw [if_neg ne]
            exact ih h

/-- Without marks and without the key, a search ends where the key is placed. -/
theorem probe_of_probeEmpty (unmarked : Bucket.deleted ∉ T) (absent : key ∉ keys T)
    (h : probeEmpty T left bucknum numProbes = some b) :
    probe T key left bucknum numProbes none = some (.free b) := by
  induction left generalizing bucknum numProbes with
  | zero => cases h
  | succ left ih =>
    unfold probeEmpty at h
    unfold probe
    dsimp only
    cases here : T[bucknum]? with
    | none =>
      rw [here] at h
      cases h
    | some old =>
      rw [here] at h
      cases old with
      | empty =>
        cases h
        rfl
      | deleted => exact absurd (List.mem_of_getElem? here) unmarked
      | full key' =>
        refine (if_neg ?_).trans (ih h)
        rintro rfl
        exact absent (mem_keys.mpr ⟨_, here⟩)

end Probes

/-! ### Keys where they are looked for -/

/-- Every key is found where it stands. -/
structure Sound (S : Scheme κ) (T : Layout κ) : Prop where
  found : ∀ {key : κ} {b : Nat}, T[b]? = some (.full key) → findPosition S T key = some (.found b)

section Sound

variable {S : Scheme κ} {T T' : Layout κ} {key : κ} {b : Nat}

omit [DecidableEq κ] in
theorem mem_keys_set {old s : Bucket κ} (here : T[b]? = some old) (keyless : old.key? = none)
    {k : κ} : k ∈ keys (T.set b s) ↔ s.key? = some k ∨ k ∈ keys T := by
  rw [mem_keys, mem_keys]
  constructor
  · rintro ⟨q, at_q⟩
    rw [getElem?_set_some here] at at_q
    split at at_q
    · cases at_q
      exact .inl rfl
    · exact .inr ⟨q, at_q⟩
  · rintro (new | ⟨q, at_q⟩)
    · refine ⟨b, (getElem?_set_some here).trans ((if_pos rfl).trans ?_)⟩
      cases s <;> cases new
      rfl
    · refine ⟨q, (getElem?_set_some here).trans ((if_neg ?_).trans at_q)⟩
      rintro rfl
      cases here.symm.trans at_q
      cases keyless

theorem findPosition_free (h : findPosition S T key = some (.free b)) :
    ∃ old, T[b]? = some old ∧ old.key? = none := by
  rcases probe_free h with here | here <;> exact ⟨_, here, rfl⟩

namespace Sound

variable (h : Sound S T)
include h

/-- A search that ends without the key means that it is not there. -/
theorem absent (free : findPosition S T key = some (.free b)) : key ∉ keys T := by
  intro mem
  obtain ⟨q, here⟩ := mem_keys.mp mem
  cases (h.found here).symm.trans free

/-- The bucket of a key is where it stands. -/
theorem bucket (mem : key ∈ keys T) :
    ∃ b, DenseHash.bucket S T key = some b ∧ T[b]? = some (.full key) := by
  obtain ⟨b, here⟩ := mem_keys.mp mem
  exact ⟨b, by rw [DenseHash.bucket, h.found here]; rfl, here⟩

theorem keys_nodup : (keys T).Nodup := by
  rw [keys, List.Nodup, List.pairwise_filterMap, List.pairwise_iff_getElem]
  intro i j hi hj lt k first k' second same
  subst same
  have stands : ∀ q (hq : q < T.length), T[q].key? = some k → T[q]? = some (.full k) := by
    intro q hq key
    rw [List.getElem?_eq_getElem hq]
    cases bucket : T[q] <;> rw [bucket] at key <;> cases key
    rfl
  cases (h.found (stands i hi first)).symm.trans (h.found (stands j hj second))
  exact absurd lt (Nat.lt_irrefl i)

/-- A new key, at the end of its search. -/
theorem set (free : findPosition S T key = some (.free b)) : Sound S (T.set b (.full key)) := by
  constructor
  intro k q at_q
  obtain ⟨old, here, keyless⟩ := findPosition_free free
  rw [getElem?_set_some here] at at_q
  unfold findPosition at free ⊢
  rw [List.length_set]
  split at at_q
  · next same =>
    cases at_q
    rw [same]
    exact probe_set_self free
  · have ne : key ≠ k := by
      rintro rfl
      exact h.absent free (mem_keys.mpr ⟨q, at_q⟩)
    refine probe_set_of_ne (fun empty => by cases empty) (fun same => ?_) ?_ (h.found at_q)
    · cases same
      exact ne rfl
    · intro same
      cases here.symm.trans same
      cases keyless

theorem insertNoresize (inserted : DenseHash.insertNoresize S T key = some T') :
    Sound S T' ∧ ∀ k, k ∈ keys T' ↔ k = key ∨ k ∈ keys T := by
  obtain ⟨position, search, rfl⟩ := Option.map_eq_some_iff.mp inserted
  cases position with
  | found b =>
    have mem : key ∈ keys T := mem_keys.mpr ⟨b, probe_found search⟩
    refine ⟨h, fun k => ⟨.inr, ?_⟩⟩
    rintro (rfl | old)
    · exact mem
    · exact old
  | free b =>
    obtain ⟨old, here, keyless⟩ := findPosition_free search
    refine ⟨h.set search, fun k => (mem_keys_set here keyless).trans (or_congr_left ?_)⟩
    exact ⟨fun same => (Option.some.inj same).symm, fun same => congrArg some same.symm⟩

/-- An erased key leaves its mark. -/
theorem erase (erased : DenseHash.erase S T key = some T') :
    Sound S T' ∧ ∀ k, k ∈ keys T' ↔ k ≠ key ∧ k ∈ keys T := by
  unfold DenseHash.erase at erased
  split at erased
  · next none =>
    cases erased
    refine ⟨h, fun k => ⟨fun mem => ?_, And.right⟩⟩
    rw [none] at mem
    cases mem
  · obtain ⟨position, search, rfl⟩ := Option.map_eq_some_iff.mp erased
    cases position with
    | found b =>
      have here := probe_found search
      have written : ∀ (k : κ) (q : Nat), (T.set b .deleted)[q]? = some (.full k) ↔
          k ≠ key ∧ T[q]? = some (.full k) := by
        intro k q
        rw [getElem?_set_some here]
        split
        · next same =>
          subst same
          constructor
          · intro marked
            cases marked
          · rintro ⟨ne, at_q⟩
            cases here.symm.trans at_q
            exact absurd rfl ne
        · next other =>
          refine ⟨fun at_q => ⟨?_, at_q⟩, And.right⟩
          rintro rfl
          cases (h.found at_q).symm.trans search
          exact other rfl
      refine ⟨⟨fun {k q} at_q => ?_⟩, fun k => ?_⟩
      · obtain ⟨ne, at_q⟩ := (written k q).mp at_q
        unfold findPosition
        rw [List.length_set]
        refine probe_set_of_ne (fun empty => by cases empty) (fun full => by cases full) ?_
          (h.found at_q)
        intro same
        cases here.symm.trans same
        exact ne rfl
      · rw [mem_keys, mem_keys]
        simp only [written, exists_and_left]
    | free b =>
      refine ⟨h, fun k => ⟨fun mem => ⟨?_, mem⟩, And.right⟩⟩
      rintro rfl
      exact h.absent search mem

end Sound

/-- A table of empty buckets. -/
theorem Sound.replicate (S : Scheme κ) (n : Nat) : Sound S (List.replicate n .empty) := by
  constructor
  intro key b here
  cases List.eq_of_mem_replicate (List.mem_of_getElem? here)

/-- What placing keys in a table without marks preserves. -/
theorem Sound.place (h : Sound S T) (unmarked : Bucket.deleted ∉ T) (absent : key ∉ keys T)
    (placed : DenseHash.place S T key = some T') :
    Sound S T' ∧ Bucket.deleted ∉ T' ∧ ∀ k, k ∈ keys T' ↔ k = key ∨ k ∈ keys T := by
  obtain ⟨b, free, rfl⟩ := Option.map_eq_some_iff.mp placed
  have search : findPosition S T key = some (.free b) := probe_of_probeEmpty unmarked absent free
  have inserted : DenseHash.insertNoresize S T key = some (T.set b (.full key)) := by
    rw [DenseHash.insertNoresize, search]
    rfl
  obtain ⟨sound, mem⟩ := h.insertNoresize inserted
  refine ⟨sound, fun marked => ?_, mem⟩
  rcases List.mem_or_eq_of_mem_set marked with old | new
  · exact unmarked old
  · cases new

/-- A resized table holds the keys it held. -/
theorem Sound.copyFrom (h : Sound S T) {n : Nat} (copied : DenseHash.copyFrom S T n = some T') :
    Sound S T' ∧ ∀ k, k ∈ keys T' ↔ k ∈ keys T := by
  have all : ∀ (rest : List κ) (T₁ : Layout κ), rest.Nodup → Sound S T₁ → Bucket.deleted ∉ T₁ →
      (∀ k ∈ rest, k ∉ keys T₁) → rest.foldlM (DenseHash.place S) T₁ = some T' →
      Sound S T' ∧ ∀ k, k ∈ keys T' ↔ k ∈ rest ∨ k ∈ keys T₁ := by
    intro rest
    induction rest with
    | nil =>
      intro T₁ _ sound _ _ done
      cases done
      exact ⟨sound, fun k => ⟨.inr, fun mem => mem.resolve_left (List.not_mem_nil)⟩⟩
    | cons key rest ih =>
      intro T₁ nodup sound unmarked apart done
      obtain ⟨T₂, placed, done⟩ := Option.bind_eq_some_iff.mp done
      obtain ⟨notMem, nodup⟩ := List.nodup_cons.mp nodup
      obtain ⟨apartKey, apart⟩ := List.forall_mem_cons.mp apart
      obtain ⟨sound, unmarked, mem⟩ := sound.place unmarked apartKey placed
      obtain ⟨sound, mem'⟩ := ih T₂ nodup sound unmarked (fun k inRest old => by
        rcases (mem k).mp old with rfl | old
        · exact notMem inRest
        · exact apart k inRest old) done
      refine ⟨sound, fun k => ?_⟩
      rw [mem', mem, List.mem_cons]
      constructor
      · rintro (inRest | rfl | old)
        · exact .inl (.inr inRest)
        · exact .inl (.inl rfl)
        · exact .inr old
      · rintro ((rfl | inRest) | old)
        · exact .inr (.inl rfl)
        · exact .inl inRest
        · exact .inr (.inr old)
  have none : ∀ k, k ∉ keys (List.replicate n (Bucket.empty : Bucket κ)) := by
    intro k mem
    obtain ⟨b, here⟩ := mem_keys.mp mem
    cases List.eq_of_mem_replicate (List.mem_of_getElem? here)
  obtain ⟨sound, mem⟩ := all (keys T) _ h.keys_nodup (Sound.replicate S n)
    (fun marked => by cases List.eq_of_mem_replicate marked) (fun k _ => none k) copied
  exact ⟨sound, fun k => (mem k).trans (or_iff_left (none k))⟩

/-- After `operator[]` the key is there, and the others are still found. -/
theorem Sound.findOrInsert (h : Sound S T) (inserted : DenseHash.findOrInsert S T key = some T') :
    Sound S T' ∧ ∀ k, k ∈ keys T' ↔ k = key ∨ k ∈ keys T := by
  obtain ⟨position, search, inserted⟩ := Option.bind_eq_some_iff.mp inserted
  have noresize := h.insertNoresize (congrArg (Option.map _) search)
  cases position with
  | found b =>
    cases inserted
    exact noresize
  | free b =>
    dsimp only at inserted
    split at inserted
    · cases inserted
      exact noresize
    · obtain ⟨T₁, copied, inserted⟩ := Option.bind_eq_some_iff.mp inserted
      obtain ⟨sound, same⟩ := h.copyFrom copied
      obtain ⟨sound, mem⟩ := sound.insertNoresize inserted
      exact ⟨sound, fun k => (mem k).trans (or_congr_right (same k))⟩

end Sound


/-! ### Searches that end -/

/-- Where a search is after some jumps. -/
def jumpTo (n start jumps : Nat) : Nat := (start + jumps * (jumps + 1) / 2) % n

theorem jumpTo_succ (n start i : Nat) :
    (jumpTo n start i + (i + 1)) % n = jumpTo n start (i + 1) := by
  have sum : i * (i + 1) / 2 + (i + 1) = (i + 1) * (i + 1 + 1) / 2 := by
    rw [← Nat.add_mul_div_right _ _ Nat.two_pos]
    congr 1
    ring
  rw [jumpTo, Nat.mod_add_mod, Nat.add_assoc, sum, jumpTo]

/-- In a row of `2 ^ k` buckets the first `2 ^ k` jumps go to different ones. -/
theorem jumpTo_ne {k start i j : Nat} (lt : i < j) (last : j < 2 ^ k) :
    jumpTo (2 ^ k) start i ≠ jumpTo (2 ^ k) start j := by
  intro same
  obtain ⟨d, rfl⟩ := Nat.exists_eq_add_of_lt lt
  have le : i * (i + 1) / 2 ≤ (i + d + 1) * (i + d + 1 + 1) / 2 :=
    Nat.div_le_div_right (Nat.mul_le_mul (by omega) (by omega))
  have apart : 2 ^ k ∣ (i + d + 1) * (i + d + 1 + 1) / 2 - i * (i + 1) / 2 :=
    (Nat.modEq_iff_dvd' le).mp (Nat.ModEq.add_left_cancel' start same)
  -- twice the distance is the product of a number and one of the other parity
  have doubled : 2 * ((i + d + 1) * (i + d + 1 + 1) / 2 - i * (i + 1) / 2) =
      (d + 1) * (2 * i + d + 2) := by
    rw [Nat.mul_sub, Nat.two_mul_div_two_of_even (Nat.even_mul_succ_self _),
      Nat.two_mul_div_two_of_even (Nat.even_mul_succ_self _)]
    refine Nat.sub_eq_of_eq_add ?_
    ring
  have product : 2 ^ (k + 1) ∣ (d + 1) * (2 * i + d + 2) := by
    rw [← doubled, Nat.pow_succ']
    exact Nat.mul_dvd_mul_left 2 apart
  rcases Nat.even_or_odd (d + 1) with even | odd
  · have odd : Odd (2 * i + d + 2) := by grind
    have divides := (Nat.Coprime.pow_left (k + 1) odd.coprime_two_left).dvd_of_dvd_mul_right product
    have := Nat.le_of_dvd (by omega) divides
    rw [Nat.pow_succ] at this
    omega
  · have divides := (Nat.Coprime.pow_left (k + 1) odd.coprime_two_left).dvd_of_dvd_mul_left product
    have := Nat.le_of_dvd (by omega) divides
    rw [Nat.pow_succ] at this
    omega

/-- So that they go to all of them. -/
theorem jumpTo_covers {k b : Nat} (start : Nat) (inside : b < 2 ^ k) :
    ∃ i < 2 ^ k, jumpTo (2 ^ k) start i = b := by
  let visit (i : Fin (2 ^ k)) : Fin (2 ^ k) :=
    ⟨jumpTo (2 ^ k) start i, Nat.mod_lt _ (Nat.two_pow_pos k)⟩
  have injective : Function.Injective visit := by
    intro i j same
    have same : jumpTo (2 ^ k) start i = jumpTo (2 ^ k) start j := congrArg Fin.val same
    rcases Nat.lt_trichotomy i j with lt | eq | gt
    · exact absurd same (jumpTo_ne lt j.isLt)
    · exact Fin.ext eq
    · exact absurd same.symm (jumpTo_ne gt i.isLt)
  obtain ⟨i, here⟩ := Finite.injective_iff_surjective.mp injective ⟨b, inside⟩
  exact ⟨i, i.isLt, congrArg Fin.val here⟩

section Ends

variable {S : Scheme κ} {T T' : Layout κ} {key : κ} {b left : Nat}

omit [DecidableEq κ] in
/-- A search for a place ends at the empty bucket it comes to. -/
theorem probeEmpty_ends {start i : Nat} (pos : T ≠ [])
    (empty : ∃ q, i ≤ q ∧ q < i + left ∧ T[jumpTo T.length start q]? = some .empty) :
    ∃ b, probeEmpty T left (jumpTo T.length start i) i = some b := by
  induction left generalizing i with
  | zero => 
    obtain ⟨q, le, lt, -⟩ := empty
    omega
  | succ left ih =>
    obtain ⟨q, le, lt, here⟩ := empty
    unfold probeEmpty
    rw [jumpTo_succ]
    cases at_i : T[jumpTo T.length start i]? with
    | none =>
      have inside : jumpTo T.length start i < T.length :=
        Nat.mod_lt _ (List.length_pos_iff.mpr pos)
      exact absurd (List.getElem?_eq_none_iff.mp at_i) (Nat.not_le.mpr inside)
    | some old =>
      cases old with
      | empty => exact ⟨_, rfl⟩
      | _ =>
        have later : i ≠ q := by
          rintro rfl
          cases at_i.symm.trans here
        exact ih ⟨q, by omega, by omega, here⟩

omit [DecidableEq κ] in
theorem probeEmpty_empty {bucknum numProbes : Nat}
    (h : probeEmpty T left bucknum numProbes = some b) : T[b]? = some .empty := by
  induction left generalizing bucknum numProbes with
  | zero => cases h
  | succ left ih =>
    unfold probeEmpty at h
    split at h
    · cases h
    · next here =>
      cases h
      exact here
    · exact ih h

/-- And a search for a key ends there at the latest. -/
theorem probe_ends {bucknum numProbes : Nat} {insertPos : Option Nat}
    (h : probeEmpty T left bucknum numProbes = some b) :
    ∃ p, probe T key left bucknum numProbes insertPos = some p := by
  induction left generalizing bucknum numProbes insertPos with
  | zero => cases h
  | succ left ih =>
    unfold probeEmpty at h
    unfold probe
    dsimp only
    cases here : T[bucknum]? with
    | none =>
      rw [here] at h
      cases h
    | some old =>
      rw [here] at h
      cases old with
      | empty => exact ⟨_, rfl⟩
      | deleted => exact ih h
      | full key' =>
        dsimp only
        split
        · exact ⟨_, rfl⟩
        · exact ih h

/-- Where a bucket is empty, a search for a place ends. -/
theorem probeEmpty_ends_of_room (S : Scheme κ) (key : κ) (power : ∃ k, T.length = 2 ^ k)
    (room : T.countP (· ≠ .empty) < T.length) :
    ∃ b, probeEmpty T T.length (S.hash key % T.length) 0 = some b := by
  obtain ⟨k, power⟩ := power
  have pos : T ≠ [] := by
    rintro rfl
    exact Nat.not_lt_zero _ room
  obtain ⟨old, mem, empty⟩ : ∃ old ∈ T, old = .empty := by
    by_contra used
    refine Nat.ne_of_lt room (List.countP_eq_length.mpr fun old mem => ?_)
    exact decide_eq_true fun empty => used ⟨old, mem, empty⟩
  obtain ⟨b, here⟩ := List.mem_iff_getElem?.mp mem
  obtain ⟨inside, -⟩ := List.getElem?_eq_some_iff.mp here
  obtain ⟨q, lt, at_q⟩ := jumpTo_covers (S.hash key) (power ▸ inside)
  have start : S.hash key % T.length = jumpTo T.length (S.hash key) 0 := by simp [jumpTo]
  rw [start]
  refine probeEmpty_ends pos ⟨q, Nat.zero_le q, by omega, ?_⟩
  rw [power, at_q, here, empty]

theorem findPosition_ends (S : Scheme κ) (key : κ) (power : ∃ k, T.length = 2 ^ k)
    (room : T.countP (· ≠ .empty) < T.length) : ∃ p, findPosition S T key = some p := by
  obtain ⟨b, ends⟩ := probeEmpty_ends_of_room S key power room
  exact probe_ends ends

/-- Writing a bucket takes one more at most. -/
theorem used_set (T : Layout κ) (b : Nat) (s : Bucket κ) :
    (T.set b s).countP (· ≠ .empty) ≤ T.countP (· ≠ .empty) + 1 := by
  by_cases inside : b < T.length
  · rw [List.countP_set inside]
    split <;> split <;> omega
  · rw [List.set_eq_of_length_le (Nat.not_lt.mp inside)]
    exact Nat.le_succ _

/-- And none, where it was in use. -/
theorem used_set_of_full {T : Layout κ} (here : T[b]? = some (.full key)) (s : Bucket κ) :
    (T.set b s).countP (· ≠ .empty) ≤ T.countP (· ≠ .empty) := by
  obtain ⟨inside, full⟩ := List.getElem?_eq_some_iff.mp here
  have counted : 0 < T.countP (· ≠ .empty) :=
    List.countP_pos_iff.mpr ⟨_, List.mem_of_getElem? here, by simp⟩
  rw [List.countP_set inside, full, if_pos (by simp)]
  split <;> omega

theorem keys_length (T : Layout κ) :
    (keys T).length = T.countP (· ≠ .empty) - T.countP (· = .deleted) := by
  suffices sum : (keys T).length + T.countP (· = .deleted) = T.countP (· ≠ .empty) by omega
  unfold keys
  induction T with
  | nil => rfl
  | cons bucket T ih =>
    cases bucket <;> simp [List.filterMap_cons, Bucket.key?] at ih ⊢ <;> omega

omit [DecidableEq κ] in
theorem copyFrom_length {n : Nat} (copied : copyFrom S T n = some T') : T'.length = n := by
  have each : ∀ (rest : List κ) (T₁ : Layout κ), rest.foldlM (place S) T₁ = some T' →
      T'.length = T₁.length := by
    intro rest
    induction rest with
    | nil =>
      intro T₁ done
      cases done
      rfl
    | cons key rest ih =>
      intro T₁ done
      obtain ⟨T₂, placed, done⟩ := Option.bind_eq_some_iff.mp done
      obtain ⟨b, -, rfl⟩ := Option.map_eq_some_iff.mp placed
      exact (ih _ done).trans List.length_set
  exact (each _ _ copied).trans List.length_replicate

/-- A table of `2 ^ k` buckets takes as many keys. -/
theorem copyFrom_ends (S : Scheme κ) {n : Nat} (power : ∃ k, n = 2 ^ k) (enough : (keys T).length ≤ n) :
    ∃ T', copyFrom S T n = some T' ∧ T'.length = n ∧
      T'.countP (· ≠ .empty) ≤ (keys T).length := by
  have each : ∀ (rest : List κ) (T₁ : Layout κ), T₁.length = n →
      T₁.countP (· ≠ .empty) + rest.length ≤ n →
      ∃ T', rest.foldlM (place S) T₁ = some T' ∧ T'.length = n ∧
        T'.countP (· ≠ .empty) ≤ T₁.countP (· ≠ .empty) + rest.length := by
    intro rest
    induction rest with
    | nil => exact fun T₁ length _ => ⟨T₁, rfl, length, Nat.le_refl _⟩
    | cons key rest ih =>
      intro T₁ length room
      rw [List.length_cons] at room ⊢
      obtain ⟨b, ends⟩ := probeEmpty_ends_of_room S key
        (length.symm ▸ power) (by omega)
      have used := used_set T₁ b (.full key)
      obtain ⟨T', placed, length', used'⟩ := ih (T₁.set b (.full key))
        ((List.length_set ..).trans length) (by omega)
      refine ⟨T', ?_, length', by omega⟩
      rw [List.foldlM_cons, place, ends]
      exact placed
  obtain ⟨T', copied, length, used⟩ := each (keys T) (List.replicate n .empty)
    List.length_replicate (by simpa [List.countP_replicate] using enough)
  refine ⟨T', copied, length, ?_⟩
  simpa [List.countP_replicate] using used

/-- A table keeps its buckets, or is given those of the policy. -/
theorem findOrInsert_length (inserted : findOrInsert S T key = some T') :
    T'.length = T.length ∨
      S.resizeTo (T.countP (· ≠ .empty)) (T.countP (· = .deleted)) T.length = some T'.length := by
  have noresize : ∀ {T₁ : Layout κ}, insertNoresize S T₁ key = some T' → T'.length = T₁.length := by
    intro T₁ done
    obtain ⟨position, -, rfl⟩ := Option.map_eq_some_iff.mp done
    cases position with
    | found b => rfl
    | free b => exact List.length_set
  obtain ⟨position, search, inserted⟩ := Option.bind_eq_some_iff.mp inserted
  cases position with
  | found b =>
    cases inserted
    exact .inl rfl
  | free b =>
    dsimp only at inserted
    split at inserted
    · cases inserted
      exact .inl List.length_set
    · next n resize =>
      obtain ⟨T₁, copied, inserted⟩ := Option.bind_eq_some_iff.mp inserted
      rw [noresize inserted, copyFrom_length copied]
      exact .inr resize

end Ends

/-- The policy leaves half of the buckets empty, when one more key is inserted. -/
structure Scheme.Roomy (S : Scheme κ) : Prop where
  stays : ∀ {used deleted n : Nat}, S.resizeTo used deleted n = none → 2 * (used + 1) ≤ n
  grows : ∀ {used deleted n n' : Nat}, S.resizeTo used deleted n = some n' →
    (∃ k, n' = 2 ^ k) ∧ 2 * (used - deleted + 1) ≤ n'

/-- There are `2 ^ k` buckets, and half of them are empty. -/
structure HalfEmpty (T : Layout κ) : Prop where
  power : ∃ k, T.length = 2 ^ k
  room : 2 * T.countP (· ≠ .empty) ≤ T.length

namespace HalfEmpty

variable {S : Scheme κ} {T : Layout κ} (h : HalfEmpty T)
include h

theorem lt : T.countP (· ≠ .empty) < T.length := by
  obtain ⟨k, power⟩ := h.power
  have := h.room
  have := Nat.two_pow_pos k
  omega

/-- Every search ends. -/
theorem search (S : Scheme κ) (key : κ) : ∃ p, findPosition S T key = some p :=
  findPosition_ends S key h.power h.lt

/-- An erased key leaves its bucket in use. -/
theorem erase (S : Scheme κ) (key : κ) :
    ∃ T', DenseHash.erase S T key = some T' ∧ HalfEmpty T' := by
  unfold DenseHash.erase
  split
  · exact ⟨T, rfl, h⟩
  · obtain ⟨p, search⟩ := h.search S key
    rw [search]
    cases p with
    | found b =>
      refine ⟨T.set b .deleted, rfl, (List.length_set ..).symm ▸ h.power, ?_⟩
      have used := used_set_of_full (probe_found search) .deleted
      have room := h.room
      rw [List.length_set]
      omega
    | free b => exact ⟨T, rfl, h⟩

/-- With such a policy an inserted key finds its place, and half of the buckets stay
empty. -/
theorem findOrInsert (roomy : S.Roomy) (key : κ) :
    ∃ T', DenseHash.findOrInsert S T key = some T' ∧ HalfEmpty T' := by
  obtain ⟨p, search⟩ := h.search S key
  unfold DenseHash.findOrInsert
  rw [search, Option.bind_some]
  cases p with
  | found b => exact ⟨T, rfl, h⟩
  | free b =>
    dsimp only
    split
    · next none =>
      refine ⟨T.set b (.full key), rfl, (List.length_set ..).symm ▸ h.power, ?_⟩
      have used := used_set T b (.full key)
      have room := roomy.stays none
      rw [List.length_set]
      omega
    · next n resize =>
      obtain ⟨power, room⟩ := roomy.grows resize
      rw [← keys_length] at room
      obtain ⟨T₁, copied, length, used⟩ := copyFrom_ends S power
        (show (keys T).length ≤ n by omega)
      obtain ⟨p₁, search₁⟩ := findPosition_ends S key
        (length.symm ▸ power) (by omega)
      rw [copied, Option.bind_some, insertNoresize, search₁]
      cases p₁ with
      | found b₁ => exact ⟨T₁, rfl, length.symm ▸ power, by omega⟩
      | free b₁ =>
        refine ⟨T₁.set b₁ (.full key), rfl, (List.length_set ..).symm ▸ length.symm ▸ power, ?_⟩
        have used₁ := used_set T₁ b₁ (.full key)
        rw [List.length_set]
        omega

end HalfEmpty

end Kit.DenseHash
