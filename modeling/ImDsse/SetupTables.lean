import ImDsse.Scan

/-!
What the two passes of the setup leave in the tables.

`Scanned` is the state after the first pass over some files, `Paired` the
invariant of the second: indices below the size of the matrix are split between
table and free list, each key of a file already seen has one, and the pairs
listed so far are those of the files seen. While a key still carries its mark the
free list cannot be empty, since there are fewer keys than indices.
-/

namespace ImDsse

open Kit Kit.Bits Kit.Pool

universe u

variable {τ : Type u} [DecidableEq τ]

theorem FileEntry.keywords_pos (f : FileEntry) {word : Str} (h : word ∈ f.keywords) :
    0 < word.length := by
  refine List.length_pos_of_ne_nil fun empty => ?_
  subst empty
  exact extractKeywords_ne_nil (fun h => by cases h) f.content h

/-- `word` is a keyword of one of the files. -/
def Extracted (fs : List FileEntry) (word : Str) : Prop := ∃ f ∈ fs, word ∈ f.keywords

section Passes

variable (cfg : Config) (td : Trapdoor τ)

/-! ### After the first pass -/

/-- Every path and every keyword is marked. The dictionary may hold more than the
keywords, from an earlier build in the process. -/
structure Scanned (fs : List FileEntry) (s : Scan τ) : Prop where
  names : s.rFileNames.length = fs.length
  paths : ∀ k v, s.tF.lookup k = some v ↔ v = cfg.fileNotExist ∧ ∃ f ∈ fs, td.omac f.path = k
  words : ∀ k v, s.tW.lookup k = some v ↔
    v = cfg.keywordNotExist ∧ ∃ w, Extracted fs w ∧ td.omac w = k
  dictionary : ∀ w, Extracted fs w → w ∈ s.rKeywordsDictionary

variable {cfg td}

variable (cfg td) in
theorem scanWords_spec {words : List Str} (pos : ∀ w ∈ words, 0 < w.length) (s : Scan τ) :
    let s' := words.foldl (scanWord cfg td) s
    s'.rFileNames = s.rFileNames ∧ s'.tF = s.tF ∧
      (∀ k v, s'.tW.lookup k = some v ↔
        (v = cfg.keywordNotExist ∧ ∃ w ∈ words, td.omac w = k) ∨
          (¬ ∃ w ∈ words, td.omac w = k) ∧ s.tW.lookup k = some v) ∧
      ∀ w, w ∈ s'.rKeywordsDictionary ↔ w ∈ words ∨ w ∈ s.rKeywordsDictionary := by
  induction words generalizing s with
  | nil => simp
  | cons word words ih =>
    have here := pos word List.mem_cons_self
    have step : scanWord cfg td s word = { s with
        rKeywordsDictionary := insertWord word s.rKeywordsDictionary
        tW := s.tW.insert (td.omac word) cfg.keywordNotExist } := if_pos here
    obtain ⟨names, columns, rows, dictionary⟩ :=
      ih (fun w hw => pos w (List.mem_cons_of_mem _ hw)) (scanWord cfg td s word)
    rw [List.foldl_cons]
    refine ⟨?_, ?_, fun k v => ?_, fun w => ?_⟩
    · rw [names, step]
    · rw [columns, step]
    · rw [rows, step, lookup_insert_if]
      by_cases later : ∃ w ∈ words, td.omac w = k
      · have : ∃ w ∈ word :: words, td.omac w = k :=
          later.imp fun w hw => ⟨List.mem_cons_of_mem _ hw.1, hw.2⟩
        simp only [later, this, and_true, not_true_eq_false, false_and, or_false]
      · by_cases first : k = td.omac word
        · have : ∃ w ∈ word :: words, td.omac w = k := ⟨word, List.mem_cons_self, first.symm⟩
          subst first
          simp only [later, this, if_true, and_true, and_false, not_true_eq_false,
            not_false_eq_true, true_and, false_and, or_false, false_or, Option.some.injEq]
          exact eq_comm
        · have : ¬ ∃ w ∈ word :: words, td.omac w = k := by
            rintro ⟨w, mem, eq⟩
            rcases List.mem_cons.mp mem with rfl | mem
            · exact first eq.symm
            · exact later ⟨w, mem, eq⟩
          simp only [later, this, first, if_false, and_false, not_false_eq_true, true_and, false_or]
    · rw [dictionary, step, mem_insertWord, List.mem_cons]
      tauto

/-- The first pass marks the path and the keywords of one more file. -/
theorem Scanned.file {fs : List FileEntry} {s : Scan τ} (h : Scanned cfg td fs s)
    (f : FileEntry) : Scanned cfg td (fs ++ [f]) (scanFile cfg td s f) := by
  obtain ⟨names, columns, rows, dictionary⟩ := scanWords_spec cfg td
    (fun w hw => f.keywords_pos hw)
    { s with
      tF := s.tF.insert (td.omac f.path) cfg.fileNotExist
      rFileNames := s.rFileNames ++ [cStr f.path] }
  have more : ∀ w, Extracted (fs ++ [f]) w ↔ Extracted fs w ∨ w ∈ f.keywords := by
    intro w
    simp only [Extracted, List.mem_append, List.mem_singleton, or_and_right, exists_or,
      exists_eq_left]
  refine ⟨?_, fun k v => ?_, fun k v => ?_, fun w hw => ?_⟩
  · rw [scanFile, names, List.length_append, List.length_append, h.names]
    rfl
  · rw [scanFile, columns, lookup_insert_if]
    by_cases same : k = td.omac f.path
    · have : ∃ f' ∈ fs ++ [f], td.omac f'.path = k := ⟨f, by simp, same.symm⟩
      rw [if_pos same]
      simp only [this, and_true, Option.some.injEq]
      exact eq_comm
    · rw [if_neg same, h.paths]
      refine and_congr_right fun _ => ⟨?_, ?_⟩
      · exact fun ⟨f', mem, eq⟩ => ⟨f', List.mem_append_left _ mem, eq⟩
      · rintro ⟨f', mem, eq⟩
        rcases List.mem_append.mp mem with mem | mem
        · exact ⟨f', mem, eq⟩
        · obtain rfl := List.mem_singleton.mp mem
          exact absurd eq.symm same
  · rw [scanFile, rows, h.words]
    simp only [more]
    constructor
    · rintro (⟨hv, w, mem, eq⟩ | ⟨-, hv, w, mem, eq⟩)
      · exact ⟨hv, w, .inr mem, eq⟩
      · exact ⟨hv, w, .inl mem, eq⟩
    · rintro ⟨hv, w, mem, eq⟩
      by_cases last : ∃ w ∈ f.keywords, td.omac w = k
      · exact .inl ⟨hv, last⟩
      · refine .inr ⟨last, hv, w, mem.resolve_right fun mem => last ⟨w, mem, eq⟩, eq⟩
  · rw [more] at hw
    rw [scanFile, dictionary]
    exact hw.symm.imp_right (h.dictionary w)

theorem scanned_files {done : List FileEntry} {s : Scan τ} (h : Scanned cfg td done s)
    (fs : List FileEntry) : Scanned cfg td (done ++ fs) (fs.foldl (scanFile cfg td) s) := by
  induction fs generalizing done s with
  | nil => rwa [List.append_nil]
  | cons f fs ih =>
    have := ih (h.file f)
    rwa [List.append_assoc] at this

/-! ### A table between the passes -/

/-- A table whose keys carry an index below `n` or the mark. -/
structure Marked (n mark : Nat) (Known : τ → Prop) (t : Table τ) (free : List Nat) : Prop where
  split : Split (· < n) (List.range n) t free
  free : ∀ v ∈ free, v < n
  keys : ∀ k, k ∈ t ↔ Known k
  values : ∀ k v, t.lookup k = some v → v < n ∨ v = mark

/-- Before any index is given out. -/
theorem Marked.start {n mark : Nat} (high : n ≤ mark) {Known : τ → Prop} {t : Table τ}
    (all : ∀ k v, t.lookup k = some v ↔ v = mark ∧ Known k) :
    Marked n mark Known t (List.range n) where
  split := by
    have none : (Pool.values t).filter (· < n) = [] := by
      refine List.filter_eq_nil_iff.mpr fun v mem => ?_
      obtain ⟨k, found⟩ := lookup_of_mem_values mem
      rw [((all k v).mp found).1, decide_eq_true_eq]
      exact Nat.not_lt.mpr high
    refine ⟨List.nodup_range, ?_⟩
    rw [none, List.nil_append, List.filter_eq_self.mpr fun v hv =>
      decide_eq_true (List.mem_range.mp hv)]
  free := fun v hv => List.mem_range.mp hv
  keys := by
    intro k
    constructor
    · intro mem
      obtain ⟨v, found⟩ := exists_lookup mem
      exact ((all k v).mp found).2
    · exact fun known => mem_of_lookup ((all k mark).mpr ⟨rfl, known⟩)
  values := fun k v found => .inr ((all k v).mp found).1

/-- Once every key has its index. -/
theorem Marked.finish {n mark : Nat} {Known : τ → Prop} {t : Table τ} {free : List Nat}
    (h : Marked n mark Known t free)
    (all : ∀ k, Known k → ∃ v, v < n ∧ t.lookup k = some v) :
    Split (fun _ => true) (List.range n) t free := by
  have low : ∀ v ∈ Pool.values t, v < n := by
    intro v mem
    obtain ⟨k, found⟩ := lookup_of_mem_values mem
    obtain ⟨w, lt, found'⟩ := all k ((h.keys k).mp (mem_of_lookup found))
    cases found.symm.trans found'
    exact lt
  have perm := h.split.perm
  rw [List.filter_eq_self.mpr fun v hv => decide_eq_true (low v hv),
    List.filter_eq_self.mpr fun v hv => decide_eq_true (h.free v hv)] at perm
  refine ⟨List.nodup_range, ?_⟩
  rwa [List.filter_true, List.filter_true]

omit [DecidableEq τ] in
/-- A table whose keys come from a list has no more keys than the list. -/
theorem keys_length_le {α : Type} {t : Table τ} {xs : List α} {key : α → τ}
    (h : ∀ k ∈ t, ∃ x ∈ xs, key x = k) : t.keys.length ≤ xs.length := by
  have sub : t.keys ⊆ xs.map key := fun k hk => List.mem_map.mpr (h k (AList.mem_keys.mpr hk))
  have le := List.Nodup.length_le_of_subset t.keys_nodup sub
  rwa [List.length_map] at le

/-- A known key gets its index, and those that have one keep it. -/
theorem Marked.assign {n mark : Nat} (high : n ≤ mark) {Known : τ → Prop} {t : Table τ}
    {free : List Nat} (h : Marked n mark Known t free) (few : t.keys.length ≤ n)
    (draws : Nat → Nat) {key : τ} (known : Known key) :
    ∃ s', assignIndex mark ⟨t, free, draws⟩ key = some s' ∧
      Marked n mark Known s'.table s'.free ∧
      (∀ k v, v < n → t.lookup k = some v → s'.table.lookup k = some v) ∧
      ∃ v, v < n ∧ s'.table.lookup key = some v := by
  have inTable := (h.keys key).mpr known
  have notIndex : decide (mark < n) = false := decide_eq_false (Nat.not_lt.mpr high)
  obtain ⟨v, found⟩ := exists_lookup inTable
  have enough : free ≠ [] ∨ ∃ v, t.lookup key = some v ∧ v ≠ mark := by
    rcases h.values _ _ found with lt | rfl
    · exact .inr ⟨v, found, by omega⟩
    · exact .inl (h.split.left found notIndex (by rwa [List.length_range]))
  obtain ⟨s', assign⟩ := assignIndex_goes_on (s := ⟨t, free, draws⟩) enough
  have assigned := assignIndex_cases (.inr inTable) assign
  have kept : ∀ k v, v < n → t.lookup k = some v → s'.table.lookup k = some v :=
    fun k v lt found => assigned.lookup_kept found (by omega)
  have here : ∃ v, v < n ∧ s'.table.lookup key = some v := by
    obtain ⟨w, found', old | isFree⟩ := assigned.lookup_self
    · exact ⟨w, (h.values _ _ old.1).resolve_right old.2, found'⟩
    · exact ⟨w, h.free w isFree, found'⟩
  refine ⟨s', assign, ?_, kept, here⟩
  exact {
    split := assigned.split h.split fun _ => notIndex
    free := fun v hv => h.free v (assigned.free_subset v hv)
    keys := by
      intro k
      rw [assigned.mem_table, h.keys]
      exact ⟨fun mem => mem.elim (fun same => same ▸ known) id, .inr⟩
    values := by
      intro k v found
      by_cases same : k = key
      · obtain ⟨w, lt, found'⟩ := here
        rw [same, found'] at found
        exact .inl (Option.some.inj found ▸ lt)
      · rw [assigned.lookup_of_ne same] at found
        exact h.values k v found }

/-! ### During the second pass -/

/-- The collection fits the matrix: the size checks of `setupData_structure`. -/
structure Fits (cfg : Config) (fs : List FileEntry) (dictionary : List Str) : Prop where
  files : fs.length < cfg.maxNumOfFiles
  words : dictionary.length < cfg.maxNumKeywords
  covers : ∀ w, Extracted fs w → w ∈ dictionary

/-- The files with a path in `paths` have their columns, and the keywords of the
pairs in `done`, path and keyword, have their rows and are listed. -/
structure Paired (cfg : Config) (td : Trapdoor τ) (fs : List FileEntry) (paths : List Str)
    (done : List (Str × Str)) (s : Pairing τ) : Prop where
  columns : Marked cfg.maxNumOfFiles cfg.fileNotExist (fun k => ∃ f ∈ fs, td.omac f.path = k)
    s.tF s.lstFreeFileIdx
  rows : Marked cfg.maxNumKeywords cfg.keywordNotExist
    (fun k => ∃ w, Extracted fs w ∧ td.omac w = k) s.tW s.lstFreeKeywordIdx
  column : ∀ p ∈ paths, ∃ j, j < cfg.maxNumOfFiles ∧ s.tF.lookup (td.omac p) = some j
  row : ∀ q ∈ done, q.1 ∈ paths ∧
    ∃ r, r < cfg.maxNumKeywords ∧ s.tW.lookup (td.omac q.2) = some r
  pairs : ∀ r j, r ∈ s.kwFilePair j ↔ ∃ q ∈ done,
    s.tF.lookup (td.omac q.1) = some j ∧ s.tW.lookup (td.omac q.2) = some r

namespace Paired

variable {fs : List FileEntry} {dictionary : List Str} (fits : Fits cfg fs dictionary)
  {paths : List Str} {done : List (Str × Str)} {s : Pairing τ}

omit fits in
/-- The pairs listed are the same in tables that keep the indices given out. -/
theorem pairs_of_kept (h : Paired cfg td fs paths done s) {tF tW : Table τ}
    (keptF : ∀ k j, j < cfg.maxNumOfFiles → s.tF.lookup k = some j → tF.lookup k = some j)
    (keptW : ∀ k r, r < cfg.maxNumKeywords → s.tW.lookup k = some r → tW.lookup k = some r)
    (r j : Nat) : r ∈ s.kwFilePair j ↔ ∃ q ∈ done,
      tF.lookup (td.omac q.1) = some j ∧ tW.lookup (td.omac q.2) = some r := by
  rw [h.pairs]
  refine exists_congr fun q => and_congr_right fun hq => ?_
  obtain ⟨path, r', hr', word⟩ := h.row q hq
  obtain ⟨j', hj', file⟩ := h.column q.1 path
  rw [file, word, keptF _ _ hj' file, keptW _ _ hr' word]

include fits

/-- The file of the next entry gets its column. -/
theorem assignColumn (h : Paired cfg td fs paths done s) {f : FileEntry} (hf : f ∈ fs) :
    ∃ columns, assignIndex cfg.fileNotExist ⟨s.tF, s.lstFreeFileIdx, s.draws⟩
        (td.omac f.path) = some columns ∧
      Paired cfg td fs (f.path :: paths) done
        { s with tF := columns.table, lstFreeFileIdx := columns.free, draws := columns.draws } := by
  have few : s.tF.keys.length ≤ cfg.maxNumOfFiles :=
    Nat.le_of_lt (Nat.lt_of_le_of_lt (keys_length_le fun k hk => (h.columns.keys k).mp hk)
      fits.files)
  obtain ⟨columns, assign, marked, kept, here⟩ := h.columns.assign
    (show _ ≤ cfg.fileNotExist from Nat.le_succ _) few s.draws ⟨f, hf, rfl⟩
  refine ⟨columns, assign, marked, h.rows, fun p hp => ?_, fun q hq => ?_, ?_⟩
  · rcases List.mem_cons.mp hp with rfl | hp
    · exact here
    · obtain ⟨j, hj, found⟩ := h.column p hp
      exact ⟨j, hj, kept _ _ hj found⟩
  · exact ⟨List.mem_cons_of_mem _ (h.row q hq).1, (h.row q hq).2⟩
  · exact h.pairs_of_kept kept fun _ _ _ found => found

/-- The keywords of a file with a column get their rows and are listed. -/
theorem pairWords (h : Paired cfg td fs paths done s) {path : Str} (hp : path ∈ paths)
    {words : List Str} (pos : ∀ w ∈ words, 0 < w.length)
    (extracted : ∀ w ∈ words, Extracted fs w) :
    ∃ s' done', ImDsse.pairWords cfg td path words s = some s' ∧
      Paired cfg td fs paths done' s' ∧
      ∀ q, q ∈ done' ↔ q ∈ done ∨ q.1 = path ∧ q.2 ∈ words := by
  induction words generalizing s done with
  | nil => exact ⟨s, done, rfl, h, fun q => by simp⟩
  | cons word words ih =>
    have few : s.tW.keys.length ≤ cfg.maxNumKeywords := by
      have covered : s.tW.keys.length ≤ dictionary.length := keys_length_le fun k hk => by
        obtain ⟨w, hw, eq⟩ := (h.rows.keys k).mp hk
        exact ⟨w, fits.covers w hw, eq⟩
      exact Nat.le_of_lt (Nat.lt_of_le_of_lt covered fits.words)
    obtain ⟨rows, assign, marked, kept, r, hr, word_row⟩ := h.rows.assign
      (show _ ≤ cfg.keywordNotExist from Nat.le_succ _) few s.draws
      ⟨word, extracted word List.mem_cons_self, rfl⟩
    obtain ⟨j, hj, file⟩ := h.column path hp
    have next : Paired cfg td fs paths ((path, word) :: done)
        { kwFilePair := Function.update s.kwFilePair j (s.kwFilePair j ++ [r])
          tW := rows.table
          tF := s.tF
          lstFreeKeywordIdx := rows.free
          lstFreeFileIdx := s.lstFreeFileIdx
          draws := rows.draws } := by
      refine ⟨h.columns, marked, h.column, fun q hq => ?_, fun r' j' => ?_⟩
      · rcases List.mem_cons.mp hq with rfl | hq
        · exact ⟨hp, r, hr, word_row⟩
        · obtain ⟨path', r', hr', found⟩ := h.row q hq
          exact ⟨path', r', hr', kept _ _ hr' found⟩
      · have old := h.pairs_of_kept (fun _ _ _ found => found) kept r' j'
        simp only [List.mem_cons, or_and_right, exists_or, exists_eq_left, ← old, file, word_row,
          Option.some.injEq]
        by_cases same : j' = j
        · subst same
          rw [Function.update_self, List.mem_append, List.mem_singleton]
          simp only [true_and]
          rw [or_comm, eq_comm]
        · rw [Function.update_of_ne same]
          simp only [Ne.symm same, false_and, false_or]
    obtain ⟨s', done', run, paired, mem⟩ := ih next
      (fun w hw => pos w (List.mem_cons_of_mem _ hw))
      fun w hw => extracted w (List.mem_cons_of_mem _ hw)
    refine ⟨s', done', ?_, paired, fun q => ?_⟩
    · rw [ImDsse.pairWords, if_pos (pos word List.mem_cons_self), assign, Option.bind_some,
        index_of_lookup word_row, index_of_lookup file]
      exact run
    · rw [mem, List.mem_cons, List.mem_cons, Prod.ext_iff]
      dsimp only
      tauto

/-- The second pass goes on to its end and has paired every file it saw. -/
theorem files (h : Paired cfg td fs paths done s) {rest : List FileEntry}
    (sub : ∀ f ∈ rest, f ∈ fs) :
    ∃ s' paths' done', rest.foldlM (pairFile cfg td) s = some s' ∧
      Paired cfg td fs paths' done' s' ∧
      (∀ p, p ∈ paths' ↔ p ∈ paths ∨ ∃ f ∈ rest, f.path = p) ∧
      ∀ q, q ∈ done' ↔ q ∈ done ∨ ∃ f ∈ rest, q.1 = f.path ∧ q.2 ∈ f.keywords := by
  induction rest generalizing s paths done with
  | nil => exact ⟨s, paths, done, rfl, h, fun p => by simp, fun q => by simp⟩
  | cons f rest ih =>
    have hf := sub f List.mem_cons_self
    obtain ⟨columns, assign, column⟩ := h.assignColumn fits hf
    obtain ⟨s₁, done₁, words, paired, mem₁⟩ := column.pairWords fits List.mem_cons_self
      (fun w hw => f.keywords_pos hw) fun w hw => ⟨f, hf, hw⟩
    obtain ⟨s', paths', done', run, all, memPaths, memDone⟩ :=
      ih paired fun f' hf' => sub f' (List.mem_cons_of_mem _ hf')
    refine ⟨s', paths', done', ?_, all, fun p => ?_, fun q => ?_⟩
    · have first : pairFile cfg td s f = some s₁ := by
        rw [pairFile, assign]
        exact words
      rw [List.foldlM_cons, first]
      exact run
    · rw [memPaths, List.mem_cons]
      simp only [List.mem_cons, or_and_right, exists_or, exists_eq_left]
      rw [eq_comm (a := p)]
      tauto
    · rw [memDone, mem₁]
      simp only [List.mem_cons, or_and_right, exists_or, exists_eq_left]
      tauto

end Paired

end Passes

end ImDsse
