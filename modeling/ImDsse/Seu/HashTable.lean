import ImDsse.Kit.DenseMap
import ImDsse.Seu.Archives

/-!
The hash tables `T_W` and `T_F` of the Android client.

Elsewhere they are finite maps (`Table`). They are `dense_hash_map`s, with
`KEYWORD_LOADING_FACTOR` and `FILE_LOADING_FACTOR` both 0.5, and `fileTable` is the policy
of both: it leaves half of the buckets empty (`fileTable_roomy`). So every search ends, and
`hash_tables_agree` is that the tables of `sparsehash` give what the maps give.
-/

namespace ImDsse.Seu

open Kit Kit.DenseHash Kit.DenseMap Kit.Pool

variable {Key : Type} {σ : Type} {τ : Type} [DecidableEq τ]

/-! ### The policy -/

theorem minBucketsFrom_power {numElts minBucketsWanted fuel sz : Nat} (power : ∃ k, sz = 2 ^ k) :
    ∃ k, minBucketsFrom numElts minBucketsWanted fuel sz = 2 ^ k := by
  induction fuel generalizing sz with
  | zero => exact power
  | succ fuel ih =>
    unfold minBucketsFrom
    split
    · obtain ⟨k, rfl⟩ := power
      exact ih ⟨k + 1, (Nat.pow_succ 2 k).symm⟩
    · exact power

theorem minBuckets_power (numElts minBucketsWanted : Nat) :
    ∃ k, minBuckets numElts minBucketsWanted = 2 ^ k := minBucketsFrom_power ⟨2, rfl⟩

omit [DecidableEq τ] in
/-- `resize_delta(1)` leaves half of the buckets empty. -/
theorem fileTable_roomy (hash : τ → Nat) : (fileTable hash).Roomy where
  stays {used deleted n} none := by
    have ends := minBuckets_ends (used + 1) 0
    simp only [fileTable] at none
    split at none
    · omega
    · split at none
      · omega
      · cases none
  grows {used deleted n n'} resize := by
    simp only [fileTable] at resize
    split at resize
    · cases resize
    · split at resize
      · cases resize
      · have ends := minBuckets_ends (used - deleted) (if minBuckets (used - deleted + 1) n <
          minBuckets (used - deleted / 4 + 1) 0 then minBuckets (used - deleted + 1) n * 2
          else minBuckets (used - deleted + 1) n)
        rw [Option.some.inj resize] at ends
        refine ⟨?_, by omega⟩
        rw [← Option.some.inj resize]
        exact minBuckets_power _ _

/-- The loop ends at the first power of two that will do. -/
theorem minBucketsFrom_le {numElts minBucketsWanted fuel i k : Nat} (le : i ≤ k)
    (wanted : minBucketsWanted ≤ 2 ^ k) (enough : numElts < 2 ^ k / 2) :
    minBucketsFrom numElts minBucketsWanted fuel (2 ^ i) ≤ 2 ^ k := by
  induction fuel generalizing i with
  | zero => exact Nat.pow_le_pow_right (by decide) le
  | succ fuel ih =>
    unfold minBucketsFrom
    split
    · next grows =>
      have lt : i < k := by
        refine Nat.lt_of_le_of_ne le ?_
        rintro rfl
        omega
      exact Nat.pow_succ 2 i ▸ ih lt
    · exact Nat.pow_le_pow_right (by decide) le

theorem minBuckets_le {numElts minBucketsWanted k : Nat} (le : 2 ≤ k)
    (wanted : minBucketsWanted ≤ 2 ^ k) (enough : numElts < 2 ^ k / 2) :
    minBuckets numElts minBucketsWanted ≤ 2 ^ k :=
  minBucketsFrom_le le wanted enough

omit [DecidableEq τ] in
theorem fileTable_ge {hash : τ → Nat} {used deleted n n' : Nat}
    (resize : (fileTable hash).resizeTo used deleted n = some n') : n ≤ n' := by
  have resizeTo := (minBuckets_ends (used - deleted + 1) n).1
  simp only [fileTable] at resize
  split at resize
  · cases resize
  split at resize
  · cases resize
  cases resize
  refine Nat.le_trans ?_ (minBuckets_ends _ _).1
  split <;> omega

omit [DecidableEq τ] in
/-- A table is doubled only where it is left with few marks, if any. -/
theorem fileTable_grows {hash : τ → Nat} {used deleted k n' : Nat} (four : 2 ≤ k)
    (room : 2 * used ≤ 2 ^ k) (le : deleted ≤ used)
    (resize : (fileTable hash).resizeTo used deleted (2 ^ k) = some n') :
    n' ≤ max (2 ^ k) (4 * (used - deleted) + 28) := by
  have atLeast : 2 ^ 2 ≤ 2 ^ k := Nat.pow_le_pow_right Nat.two_pos four
  have halves : 2 ^ k = 2 * 2 ^ (k - 1) := by
    rw [← Nat.pow_succ', Nat.succ_eq_add_one, Nat.sub_add_cancel (by omega)]
  have twice : 2 ^ (k + 1) = 2 * 2 ^ k := Nat.pow_succ'
  simp only [fileTable] at resize
  split at resize
  · cases resize
  next full =>
  split at resize
  · cases resize
  cases resize
  by_cases some_left : used - deleted + 1 < 2 ^ k / 2
  · -- the marks are left behind, and the buckets are enough
    have resizeTo := minBuckets_le four (Nat.le_refl (2 ^ k)) some_left
    split
    · next marks =>
      have few : ¬ used - deleted / 4 + 1 < 2 ^ k / 2 := fun lt => by
        have := minBuckets_le four (Nat.zero_le _) lt
        have := (minBuckets_ends (used - deleted + 1) (2 ^ k)).1
        omega
      have doubled : minBuckets (used - deleted) (minBuckets (used - deleted + 1) (2 ^ k) * 2) ≤
          2 ^ (k + 1) := minBuckets_le (by omega) (by omega) (by omega)
      omega
    · have same : minBuckets (used - deleted) (minBuckets (used - deleted + 1) (2 ^ k)) ≤
          2 ^ k := minBuckets_le four resizeTo (by omega)
      omega
  · -- there are as many keys as may be
    have resizeTo : minBuckets (used - deleted + 1) (2 ^ k) ≤ 2 ^ (k + 1) :=
      minBuckets_le (by omega) (by omega) (by omega)
    have needed : minBuckets (used - deleted / 4 + 1) 0 ≤ 2 ^ (k + 1) :=
      minBuckets_le (by omega) (by omega) (by omega)
    obtain ⟨ge, more⟩ := minBuckets_ends (used - deleted + 1) (2 ^ k)
    obtain ⟨i, power⟩ := minBuckets_power (used - deleted + 1) (2 ^ k)
    have doubled : 2 ^ (k + 1) ≤ minBuckets (used - deleted + 1) (2 ^ k) := by
      rw [power] at more ge ⊢
      refine Nat.pow_le_pow_right (by decide) (Nat.lt_of_not_le fun le => ?_)
      have := Nat.pow_le_pow_right (n := 2) (by decide) le
      omega
    rw [if_neg (by omega)]
    have ends : minBuckets (used - deleted) (minBuckets (used - deleted + 1) (2 ^ k)) ≤
        2 ^ (k + 1) := minBuckets_le (by omega) resizeTo (by omega)
    omega

/-! ### Tables -/

/-- What is done to a table: `operator[]`, read or assigned to, and `erase`. -/
def tableMachine : Machine (Table τ) (Access τ Nat) (Option Nat) where
  step t
    | .read key => let (v, t) := index t key; some (t, some v)
    | .assign key value => some (t.insert key value, none)
    | .erase key => some (t.erase key, none)

/-- A table is the map of its lookups. -/
theorem table_step (t : Table τ) (access : Access τ Nat) :
    Machine.Lockstep (fun m (t : Table τ) => m = fun k => t.lookup k) Eq
      ((mapMachine 0).step (fun k => t.lookup k) access) (tableMachine.step t access) := by
  have inserted : ∀ (t : Table τ) key v, Function.update (fun k => t.lookup k) key (some v) =
      fun k => (t.insert key v).lookup k := by
    intro t key v
    funext k
    rw [lookup_insert_if, Function.update_apply]
  cases access with
  | read key =>
    cases found : t.lookup key with
    | none =>
      simp only [tableMachine, mapMachine, index_of_absent found, found]
      exact .some ⟨inserted t key 0, rfl⟩
    | some v =>
      simp only [tableMachine, mapMachine, index_of_lookup found, found]
      refine .some ⟨?_, rfl⟩
      rw [Option.getD_some, ← found]
      exact Function.update_eq_self key _
  | assign key value => exact .some ⟨inserted t key value, rfl⟩
  | erase key =>
    refine .some ⟨funext fun k => ?_, rfl⟩
    dsimp only
    rw [Function.update_apply]
    split
    · next same => rw [same, AList.lookup_erase]
    · next other => rw [AList.lookup_erase_ne other]

theorem tableMachine_step (t : Table τ) (access : Access τ Nat) :
    ∃ t' o, tableMachine.step t access = some (t', o) := by
  cases access <;> exact ⟨_, _, rfl⟩

theorem tableMachine_exec (t : Table τ) (accesses : List (Access τ Nat)) :
    ∃ t', tableMachine.exec t accesses = some t' := by
  induction accesses generalizing t with
  | nil => exact ⟨t, rfl⟩
  | cons access accesses ih =>
    obtain ⟨t', o, step⟩ := tableMachine_step t access
    rw [Machine.exec_cons_of_step accesses step]
    exact ih t'

/-- A hash table that holds a table. -/
def Backs (hash : τ → Nat) (T : Row τ Nat) (t : Table τ) : Prop :=
  ∃ m, DenseMap.Keeps (fileTable hash) T m ∧ m = fun k => t.lookup k

theorem backs_empty (hash : τ → Nat) (n : Nat) :
    Backs hash (List.replicate (2 ^ n) .empty) (∅ : Table τ) := by
  refine ⟨fun _ => none, ⟨DenseMap.Holds.replicate _ _, ⟨⟨n, by simp⟩, ?_⟩⟩, rfl⟩
  rw [layout_replicate, List.countP_replicate]
  simp

section Backs

variable {hash : τ → Nat} {T T' : Row τ Nat} {t : Table τ}

theorem Backs.step (h : Backs hash T t) (access : Access τ Nat) :
    Machine.Lockstep (Backs hash) Eq ((rowMachine (fileTable hash) 0).step T access)
      (tableMachine.step t access) := by
  obtain ⟨_, keeps, rfl⟩ := h
  exact (keeps.step (fileTable_roomy hash) access).trans (table_step t access)

theorem Backs.agree (h : Backs hash T t) (accesses : List (Access τ Nat)) :
    (rowMachine (fileTable hash) 0).outputs T accesses = tableMachine.outputs t accesses ∧
      Option.Rel (Backs hash) ((rowMachine (fileTable hash) 0).exec T accesses)
        (tableMachine.exec t accesses) :=
  Machine.simulation_eq (fun _ _ access h _ => h.step access) h
    (Machine.along_of_forall (fun _ _ => trivial) _ accesses)

/-- The table has a key with a value where the search for it ends at a bucket with both. -/
theorem Backs.lookup_iff (h : Backs hash T t) {key : τ} {v : Nat} :
    t.lookup key = some v ↔ ∃ b, bucket (fileTable hash) (layout T) key = some b ∧
      T[b]? = some (.full (key, v)) := by
  obtain ⟨_, keeps, rfl⟩ := h
  refine keeps.holds.values.trans (exists_congr fun b => ?_)
  rw [iff_and_self]
  intro here
  rw [bucket, keeps.holds.sound.found (layout_full here)]
  rfl

/-- The hash table and the table have as many keys. -/
theorem Backs.length (h : Backs hash T t) : (keys (layout T)).length = t.entries.length := by
  obtain ⟨_, keeps, rfl⟩ := h
  have same : (keys (layout T)).Perm t.keys := by
    refine (List.perm_ext_iff_of_nodup keeps.holds.sound.keys_nodup t.keys_nodup).mpr fun key => ?_
    rw [← AList.mem_keys, ← AList.lookup_isSome, Option.isSome_iff_exists, DenseHash.mem_keys]
    constructor
    · rintro ⟨b, here⟩
      obtain ⟨v, entry⟩ := entry_of_key here
      exact ⟨v, keeps.holds.values.mpr ⟨b, entry⟩⟩
    · rintro ⟨v, found⟩
      obtain ⟨b, entry⟩ := keeps.holds.values.mp found
      exact ⟨b, layout_full entry⟩
  rw [same.length_eq]
  exact List.length_map _

/-- The buckets after a key was looked up. -/
theorem Backs.grows (h : Backs hash T t) (four : 4 ≤ T.length) {key : τ} {b : Nat}
    (inserted : findOrInsert (fileTable hash) 0 T key = some (T', b)) :
    4 ≤ T'.length ∧ T'.length ≤ max T.length (4 * t.entries.length + 28) := by
  have entries := h.length
  obtain ⟨_, keeps, -⟩ := h
  obtain ⟨k, power⟩ := keeps.halfEmpty.power
  have room := keeps.halfEmpty.room
  have moved : DenseHash.findOrInsert (fileTable hash) (layout T) key = some (layout T') := by
    rw [← layout_findOrInsert 0, inserted]
    rfl
  rcases findOrInsert_length moved with same | resize
  · rw [layout_length, layout_length] at same
    omega
  · rw [layout_length, layout_length] at resize
    rw [layout_length] at power room
    have marks : (layout T).countP (· = .deleted) ≤ (layout T).countP (· ≠ .empty) := by
      refine List.countP_mono_left fun bucket _ deleted => ?_
      rw [of_decide_eq_true deleted]
      rfl
    have ge := fileTable_ge resize
    rw [power] at four room resize
    have two : 2 ^ 2 ≤ 2 ^ k := four
    have grows := fileTable_grows ((Nat.pow_le_pow_iff_right Nat.one_lt_two).mp two) room marks resize
    rw [← DenseHash.keys_length, entries, ← power] at grows
    exact ⟨by omega, grows⟩

theorem Backs.grows_step (h : Backs hash T t) (four : 4 ≤ T.length) {access : Access τ Nat}
    {o : Option Nat} (step : (rowMachine (fileTable hash) 0).step T access = some (T', o)) :
    4 ≤ T'.length ∧ T'.length ≤ max T.length (4 * t.entries.length + 28) := by
  cases access with
  | read key =>
    obtain ⟨⟨T₁, v⟩, done, same⟩ := Option.map_eq_some_iff.mp step
    cases same
    obtain ⟨⟨T₂, b⟩, inserted, done⟩ := Option.bind_eq_some_iff.mp done
    obtain ⟨v', -, same⟩ := Option.bind_eq_some_iff.mp done
    cases same
    exact h.grows four inserted
  | assign key value =>
    obtain ⟨T₁, done, same⟩ := Option.map_eq_some_iff.mp step
    cases same
    obtain ⟨⟨T₂, b⟩, inserted, done⟩ := Option.bind_eq_some_iff.mp done
    cases done
    rw [List.length_set]
    exact h.grows four inserted
  | erase key =>
    obtain ⟨T₁, done, same⟩ := Option.map_eq_some_iff.mp step
    cases same
    have kept : T'.length = T.length := by
      unfold DenseMap.erase at done
      split at done
      · cases done
        rfl
      · obtain ⟨position, -, rfl⟩ := Option.map_eq_some_iff.mp done
        cases position with
        | found b => exact List.length_set
        | free b => rfl
    omega

end Backs

/-- Over every history of a table, from `2 ^ n` empty buckets and whatever the hash function,
the hash table reads what the table reads and every search ends; then a key is in the table
with a value if and only if the search for it ends at a bucket with both, and half of the
buckets are empty. -/
theorem hash_tables_agree (hash : τ → Nat) (n : Nat) (accesses : List (Access τ Nat)) :
    (rowMachine (fileTable hash) 0).outputs (List.replicate (2 ^ n) .empty) accesses =
      tableMachine.outputs ∅ accesses ∧
    ∃ T t, (rowMachine (fileTable hash) 0).exec (List.replicate (2 ^ n) .empty) accesses = some T ∧
      tableMachine.exec ∅ accesses = some t ∧
      (∀ key v, t.lookup key = some v ↔ ∃ b, bucket (fileTable hash) (layout T) key = some b ∧
        T[b]? = some (.full (key, v))) ∧
      (∃ k, T.length = 2 ^ k) ∧ 2 * (layout T).countP (· ≠ .empty) ≤ T.length := by
  obtain ⟨same, ends⟩ := (backs_empty hash n).agree accesses
  obtain ⟨t, table⟩ := tableMachine_exec ∅ accesses
  rw [table] at ends
  generalize rows : (rowMachine (fileTable hash) 0).exec (List.replicate (2 ^ n) .empty)
    accesses = T at ends
  cases ends with
  | @some T _ backs =>
    have found : ∀ key v, t.lookup key = some v ↔ ∃ b, bucket (fileTable hash) (layout T) key = some b ∧
        T[b]? = some (.full (key, v)) := fun key v => backs.lookup_iff
    obtain ⟨_, keeps, -⟩ := backs
    exact ⟨same, T, t, rfl, table, found, layout_length T ▸ keeps.halfEmpty.power,
      layout_length T ▸ keeps.halfEmpty.room⟩

theorem Backs.bounded {hash : τ → Nat} {N m : Nat} {accesses : List (Access τ Nat)}
    {T : Row τ Nat} {t : Table τ} (h : Backs hash T t) (four : 4 ≤ T.length)
    (bound : T.length ≤ max N (4 * m + 28))
    (few : tableMachine.Along (fun t _ => t.entries.length ≤ m) t accesses) :
    ∃ T', (rowMachine (fileTable hash) 0).exec T accesses = some T' ∧
      T'.length ≤ max N (4 * m + 28) := by
  induction accesses generalizing T t with
  | nil => exact ⟨T, rfl, bound⟩
  | cons access accesses ih =>
    obtain ⟨now, later⟩ := few
    obtain ⟨t', o, step⟩ := tableMachine_step t access
    obtain ⟨T', o', row, backs, rfl⟩ := (h.step access).of_right step
    obtain ⟨four', grown⟩ := h.grows_step four row
    rw [Machine.exec_cons_of_step accesses row]
    exact ih backs four' (by omega) (later t' o' step)

/-- However many keys come and go, a table that never has more than `m` keys at once stays
within `4 * m + 28` buckets, or within those it began with. -/
theorem hash_tables_bounded (hash : τ → Nat) (n m : Nat) (four : 2 ≤ n)
    (accesses : List (Access τ Nat))
    (few : tableMachine.Along (fun t _ => t.entries.length ≤ m) ∅ accesses) :
    ∃ T, (rowMachine (fileTable hash) 0).exec (List.replicate (2 ^ n) .empty) accesses = some T ∧
      T.length ≤ max (2 ^ n) (4 * m + 28) := by
  refine (backs_empty hash n).bounded ?_ ?_ few
  · rw [List.length_replicate]
    exact Nat.pow_le_pow_right Nat.two_pos four
  · rw [List.length_replicate]
    exact Nat.le_max_left _ _

/-- "f" comes and goes. -/
def smallAccesses : List (Access Str Nat) :=
  [.assign [0x66#8] 1, .read [0x66#8], .erase [0x66#8], .assign [0x67#8] 2, .erase [0x67#8],
    .read [0x66#8]]

theorem hash_tables_bounded_small : ∃ T,
    (rowMachine smallTable 0).exec (List.replicate 4 .empty) smallAccesses = some T ∧
      T.length ≤ 32 :=
  hash_tables_bounded _ 2 1 (by decide) smallAccesses
    (Machine.along_of_check (fun _ _ h => of_decide_eq_true h)
      (show tableMachine.check (fun t _ => decide (t.entries.length ≤ 1)) ∅ smallAccesses = true by
        decide +kernel))

end ImDsse.Seu
