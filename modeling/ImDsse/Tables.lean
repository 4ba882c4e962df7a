import ImDsse.Kit.Pool
import ImDsse.Config
import ImDsse.Keyword

/-!
The hash tables of the client and their free lists.

`T_W` gives a keyword's trapdoor its row and `T_F` a path's trapdoor its column.
`operator[]` of the map inserts 0 for a missing key, and 0 is also how
`requestBlock_index`, `addToken` and `searchToken` recognise a key without an
index; the setup uses marks above the matrix instead. `assignIndex` is the
lookup all of them share, with the mark as a parameter, and `Assigned` says what
it can do.
-/

namespace ImDsse

open Kit Kit.Bits Kit.Pool

universe u

variable {τ : Type u} [DecidableEq τ]

/-- `generateTrapdoor_single_input`: the OMAC of a string under `key2`. Of a string
of length 0 it computes none and leaves the buffer, which holds `zero`, as it is. -/
structure Trapdoor (τ : Type u) where
  omac : Str → τ
  zero : τ

/-- The trapdoor in a zeroed buffer. -/
def Trapdoor.generate (td : Trapdoor τ) (s : Str) : τ := if 0 < s.length then td.omac s else td.zero

/-- `operator[]` of a `TYPE_GOOGLE_DENSE_HASH_MAP`. -/
def index (t : Table τ) (key : τ) : Nat × Table τ :=
  match t.lookup key with
  | some v => (v, t)
  | none => (0, t.insert key 0)

/-- `DSSE::pickRandom_element`. `draws` are the numbers taken from the output of
the generator, the next one first; with nothing to pick from the process ends. -/
def pickRandomElement (setIdx : List Nat) (draws : Nat → Nat) :
    Option (Nat × List Nat × (Nat → Nat)) :=
  let randomIdx := draws 0 % setIdx.length
  setIdx[randomIdx]?.map fun randomElement =>
    (randomElement, setIdx.eraseIdx randomIdx, fun n => draws (n + 1))

/-- A table, its free list and the generator. -/
structure Picks (τ : Type u) where
  table : Table τ
  free : List Nat
  draws : Nat → Nat

/-- Look a key up, and give it an index if its value is `absent`. -/
def assignIndex (absent : Nat) (s : Picks τ) (key : τ) : Option (Picks τ) :=
  let (v, table) := index s.table key
  if v = absent then
    (pickRandomElement s.free s.draws).map fun (selectedIdx, free, draws) =>
      ⟨table.insert key selectedIdx, free, draws⟩
  else some { s with table := table }

/-! ### What a lookup does -/

theorem index_of_lookup {t : Table τ} {key : τ} {v : Nat} (h : t.lookup key = some v) :
    index t key = (v, t) := by
  simp only [index, h]

theorem index_of_absent {t : Table τ} {key : τ} (h : t.lookup key = none) :
    index t key = (0, t.insert key 0) := by
  simp only [index, h]

/-- A pick takes one index out of the list. -/
theorem pickRandomElement_perm {setIdx free : List Nat} {draws draws' : Nat → Nat} {v : Nat}
    (h : pickRandomElement setIdx draws = some (v, free, draws')) : setIdx.Perm (v :: free) := by
  simp only [pickRandomElement, Option.map_eq_some_iff] at h
  obtain ⟨w, found, h⟩ := h
  cases h
  obtain ⟨bound, rfl⟩ := List.getElem?_eq_some_iff.mp found
  exact (List.getElem_cons_eraseIdx_perm bound).symm

/-- A pick goes on unless there is nothing left. -/
theorem pickRandomElement_goes_on {setIdx : List Nat} (draws : Nat → Nat) (left : setIdx ≠ []) :
    ∃ v free draws', pickRandomElement setIdx draws = some (v, free, draws') := by
  have bound : draws 0 % setIdx.length < setIdx.length :=
    Nat.mod_lt _ (List.length_pos_of_ne_nil left)
  simp only [pickRandomElement, List.getElem?_eq_getElem bound]
  exact ⟨_, _, _, rfl⟩

/-- What `assignIndex` can do with a key. -/
inductive Assigned (absent : Nat) (s : Picks τ) (key : τ) : Picks τ → Prop where
  | kept (v : Nat) (found : s.table.lookup key = some v) (ne : v ≠ absent) :
      Assigned absent s key s
  | picked (v : Nat) (free : List Nat) (draws : Nat → Nat)
      (unassigned : s.table.lookup key = none ∨ s.table.lookup key = some absent)
      (pick : pickRandomElement s.free s.draws = some (v, free, draws)) :
      Assigned absent s key ⟨s.table.insert key v, free, draws⟩

/-- A missing key reads as 0, so it counts as absent where the mark is 0; with
another mark the callers look up keys of the table only. -/
theorem assignIndex_cases {absent : Nat} {s s' : Picks τ} {key : τ}
    (known : absent = 0 ∨ key ∈ s.table) (h : assignIndex absent s key = some s') :
    Assigned absent s key s' := by
  unfold assignIndex at h
  cases found : s.table.lookup key with
  | none =>
    have zero : absent = 0 := known.resolve_right (AList.lookup_eq_none.mp found)
    rw [index_of_absent found] at h
    simp only [zero, if_true, Option.map_eq_some_iff, Prod.exists] at h
    obtain ⟨v, free, draws, pick, rfl⟩ := h
    rw [AList.insert_insert]
    exact .picked v free draws (.inl found) pick
  | some w =>
    rw [index_of_lookup found] at h
    dsimp only at h
    by_cases mark : w = absent
    · subst mark
      simp only [if_true, Option.map_eq_some_iff, Prod.exists] at h
      obtain ⟨v, free, draws, pick, rfl⟩ := h
      exact .picked v free draws (.inr found) pick
    · rw [if_neg mark] at h
      cases h
      exact .kept w found mark

/-- And what it can do, it does. -/
theorem assignIndex_of_assigned {s s' : Picks τ} {key : τ} (h : Assigned 0 s key s') :
    assignIndex 0 s key = some s' := by
  unfold assignIndex
  cases h with
  | kept v found ne =>
    rw [index_of_lookup found]
    exact if_neg ne
  | picked v free draws unassigned pick =>
    rcases unassigned with missing | zero
    · rw [index_of_absent missing]
      simp only [if_true, pick, Option.map_some, AList.insert_insert]
    · rw [index_of_lookup zero]
      simp only [if_true, pick, Option.map_some]

/-- It goes on while there is an index to pick. -/
theorem assignIndex_goes_on {absent : Nat} {s : Picks τ} {key : τ}
    (enough : s.free ≠ [] ∨ ∃ v, s.table.lookup key = some v ∧ v ≠ absent) :
    ∃ s', assignIndex absent s key = some s' := by
  unfold assignIndex
  rcases enough with left | ⟨v, found, ne⟩
  · dsimp only
    split
    · obtain ⟨v, free, draws, pick⟩ := pickRandomElement_goes_on s.draws left
      exact ⟨_, by rw [pick]; rfl⟩
    · exact ⟨_, rfl⟩
  · rw [index_of_lookup found]
    exact ⟨s, if_neg ne⟩

namespace Assigned

variable {absent : Nat} {s s' : Picks τ} {key : τ} (h : Assigned absent s key s')
include h

/-- Other keys keep their values. -/
theorem lookup_of_ne {key' : τ} (ne : key' ≠ key) :
    s'.table.lookup key' = s.table.lookup key' := by
  cases h with
  | kept => rfl
  | picked => exact AList.lookup_insert_ne ne

/-- The key has a value: the one it had, or one that was free. -/
theorem lookup_self : ∃ v, s'.table.lookup key = some v ∧
    (s.table.lookup key = some v ∧ v ≠ absent ∨ v ∈ s.free) := by
  cases h with
  | kept v found ne => exact ⟨v, found, .inl ⟨found, ne⟩⟩
  | picked v free draws _ pick =>
    refine ⟨v, AList.lookup_insert _, .inr ?_⟩
    exact (pickRandomElement_perm pick).mem_iff.mpr List.mem_cons_self

/-- A value other than the mark stays. -/
theorem lookup_kept {key' : τ} {v : Nat} (found : s.table.lookup key' = some v)
    (ne : v ≠ absent) : s'.table.lookup key' = some v := by
  by_cases same : key' = key
  · subst same
    cases h with
    | kept => exact found
    | picked _ _ _ unassigned =>
      rw [found] at unassigned
      rcases unassigned with missing | mark
      · cases missing
      · exact absurd (Option.some.inj mark) ne
  · rw [h.lookup_of_ne same, found]

theorem mem_table {key' : τ} : key' ∈ s'.table ↔ key' = key ∨ key' ∈ s.table := by
  cases h with
  | kept v found =>
    constructor
    · exact .inr
    · rintro (rfl | mem)
      · exact mem_of_lookup found
      · exact mem
  | picked => exact AList.mem_insert _

theorem free_subset : ∀ v ∈ s'.free, v ∈ s.free := by
  cases h with
  | kept => exact fun v hv => hv
  | picked v free draws _ pick =>
    exact fun w hw => (pickRandomElement_perm pick).mem_iff.mpr (List.mem_cons_of_mem _ hw)

/-- At most one index is taken. -/
theorem free_length : s.free.length ≤ s'.free.length + 1 := by
  cases h with
  | kept => exact Nat.le_succ _
  | picked v free draws _ pick => exact (pickRandomElement_perm pick).length_eq.le

/-- Indices stay split between table and free list, unless the value taken for
the mark is an index that was given out. -/
theorem split {p : Nat → Bool} {all : List Nat} (split : Split p all s.table s.free)
    (mark : s.table.lookup key = some absent → p absent = false) :
    Split p all s'.table s'.free := by
  cases h with
  | kept => exact split
  | picked v free draws unassigned pick =>
    refine split.give (fun w found => ?_) (pickRandomElement_perm pick)
    rw [found] at unassigned
    rcases unassigned with missing | same
    · cases missing
    · cases same
      exact mark found

/-- Indices stay in their range. -/
theorem within {n : Nat} (within : Within n s.table s.free) : Within n s'.table s'.free := by
  cases h with
  | kept => exact within
  | picked v free draws _ pick => exact within.give key (pickRandomElement_perm pick)

end Assigned

/-! ### The parts of the token functions that work on the tables -/

/-- `KEYWORD_NOT_EXIST` -/
def Config.keywordNotExist (cfg : Config) : Nat := cfg.maxNumKeywords + 1

/-- `FILE_NOT_EXIST` -/
def Config.fileNotExist (cfg : Config) : Nat := cfg.maxNumOfFiles + 1

/-- The members of `Client_DSSE` that assign rows and columns. -/
structure Tables (τ : Type u) where
  tW : Table τ
  tF : Table τ
  lstFreeColumnIdx : List Nat
  lstFreeRowIdx : List Nat

/-- `strlen` of a `c_str()` and the characters before it. -/
def cStr (s : Str) : Str := s.takeWhile (· ≠ 0)

section Operations

variable (cfg : Config) (td : Trapdoor τ)

/-- `DSSE::searchToken` up to the row of the keyword. -/
def searchTokenRow (tW : Table τ) (keyword : Str) : Nat × Table τ :=
  let (v, tW) := index tW (td.generate (cStr keyword))
  (if v ≠ 0 then v else cfg.keywordNotExist, tW)

/-- `DSSE::requestBlock_index` -/
def requestBlockIndex (path : Str) (T : Tables τ) (draws : Nat → Nat) :
    Option (Nat × Tables τ × (Nat → Nat)) :=
  (assignIndex 0 ⟨T.tF, T.lstFreeColumnIdx, draws⟩ (td.omac path)).bind fun s =>
    let (fileIndex, tF) := index s.table (td.omac path)
    let blockIndex := fileIndex / cfg.encryptBlockSize
    if cfg.numBlocks < blockIndex then none
    else some (blockIndex, { T with tF := tF, lstFreeColumnIdx := s.free }, s.draws)

/-- The loop of `DSSE::addToken` over the keywords, which sets their bits in `I_bar`. -/
def assignRows (s : Picks τ) (IBar : Buf) : List Str → Option (Picks τ × Buf)
  | [] => some (s, IBar)
  | word :: words =>
    (assignIndex 0 s (td.omac word)).bind fun s =>
      let (keywordIndex, tW) := index s.table (td.omac word)
      assignRows { s with table := tW } (putBitAt IBar keywordIndex true) words

/-- `DSSE::addToken` up to `file_index`: the index of the file, the bits of its
keywords. -/
def addTokenIndex (path : Str) (content : Option (List Byte)) (T : Tables τ) (draws : Nat → Nat) :
    Option (Nat × Buf × Tables τ) :=
  (assignIndex 0 ⟨T.tF, T.lstFreeColumnIdx, draws⟩ (td.omac path)).bind fun columns =>
    (assignRows td ⟨T.tW, T.lstFreeRowIdx, columns.draws⟩ zeroBuf
        (extractKeywords [] content)).bind fun (rows, IBar) =>
      let (fileIndex, tF) := index columns.table (td.omac path)
      some (fileIndex, IBar, ⟨rows.table, tF, columns.free, rows.free⟩)

/-- `DSSE::delToken` up to the removal of the file's trapdoor. -/
def delTokenIndex (path : Str) (T : Tables τ) : Nat × Tables τ :=
  let (fileIndex, tF) := index T.tF (td.omac path)
  (fileIndex, { T with
    tF := tF.erase (td.omac path)
    lstFreeColumnIdx := T.lstFreeColumnIdx ++ [fileIndex] })

end Operations

end ImDsse
