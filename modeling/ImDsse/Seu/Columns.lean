import ImDsse.Seu.Atomicity

/-!
The columns of the Android client.

After a setup every column is the value of one file in `T_F` or once in the free list.
`delToken` takes the file out of the table and gives its column to nobody. What is left
of the partition is counted (`columnCount`): no call raises the count, and `Conserves`
says which calls lower it.
-/

namespace ImDsse.Seu

open Kit Kit.Bits Kit.Pool Kit.Text

variable {Key : Type} {σ : Type} {τ : Type} [DecidableEq τ]

/-! ### Counting columns -/

omit [DecidableEq τ] in
/-- The columns in the table and the free ones. -/
def Books.columnCount (b : Books τ) : Nat :=
  b.tables.tF.keys.length + b.tables.lstFreeColumnIdx.length

theorem keys_length_insert_of_absent {t : Table τ} {key : τ} (h : t.lookup key = none) (v : Nat) :
    (t.insert key v).keys.length = t.keys.length + 1 := by
  rw [← values_length, ← values_length, values_insert, values_of_absent h, List.length_cons]

theorem keys_length_insert_of_lookup {t : Table τ} {key : τ} {w : Nat} (h : t.lookup key = some w)
    (v : Nat) : (t.insert key v).keys.length = t.keys.length := by
  rw [← values_length, ← values_length, values_insert, (values_of_lookup h).length_eq,
    List.length_cons, List.length_cons]

theorem keys_length_erase {t : Table τ} {key : τ} {v : Nat} (h : t.lookup key = some v) :
    (t.erase key).keys.length + 1 = t.keys.length := by
  rw [← values_length, ← values_length, (values_of_lookup h).length_eq, List.length_cons]

/-- A lookup loses a column when it meets the value 0. -/
theorem withColumns_count {b : Books τ} {s : Picks τ} {key : τ} {draws : Nat → Nat}
    (assigned : Assigned 0 ⟨b.tables.tF, b.tables.lstFreeColumnIdx, draws⟩ key s) :
    (b.withColumns s).columnCount + (if b.tables.tF.lookup key = some 0 then 1 else 0) =
      b.columnCount := by
  cases assigned with
  | kept v found ne =>
    rw [if_neg fun zero => ne (Option.some.inj (found.symm.trans zero)), Nat.add_zero]
    rfl
  | picked v free draws unassigned pick =>
    have taken : b.tables.lstFreeColumnIdx.length = free.length + 1 :=
      (pickRandomElement_perm pick).length_eq
    change (b.tables.tF.insert key v).keys.length + free.length + _ =
      b.tables.tF.keys.length + b.tables.lstFreeColumnIdx.length
    rcases unassigned with (missing : b.tables.tF.lookup key = none) |
      (zero : b.tables.tF.lookup key = some 0)
    · rw [keys_length_insert_of_absent missing, if_neg (by rw [missing]; simp)]
      omega
    · rw [keys_length_insert_of_lookup zero, if_pos zero]
      omega

theorem withColumns_count_le {b : Books τ} {s : Picks τ} {key : τ} {draws : Nat → Nat}
    (assigned : Assigned 0 ⟨b.tables.tF, b.tables.lstFreeColumnIdx, draws⟩ key s) :
    (b.withColumns s).columnCount ≤ b.columnCount :=
  Nat.le.intro (withColumns_count assigned)

/-! ### The partition -/

omit [DecidableEq τ] in
/-- The values of `T_F` with the free columns are all columns, each once. -/
def Partitioned (cfg : Config) (b : Books τ) : Prop :=
  (values b.tables.tF ++ b.tables.lstFreeColumnIdx).Perm (List.range cfg.maxNumOfFiles)

section Partition

variable {cfg : Config} {b : Books τ}

omit [DecidableEq τ] in
theorem split_of_partitioned (h : Partitioned cfg b) : Split (fun _ => true)
    (List.range cfg.maxNumOfFiles) b.tables.tF b.tables.lstFreeColumnIdx where
  nodup := List.nodup_range
  perm := by
    rw [List.filter_true, List.filter_true]
    exact h

omit [DecidableEq τ] in
theorem Partitioned.count (h : Partitioned cfg b) : b.columnCount = cfg.maxNumOfFiles := by
  have all := h.length_eq
  rwa [List.length_append, values_length, List.length_range] at all

/-- A lookup keeps the partition unless it meets the value 0. -/
theorem withColumns_partitioned_iff {s : Picks τ} {key : τ} {draws : Nat → Nat}
    (h : Partitioned cfg b)
    (assigned : Assigned 0 ⟨b.tables.tF, b.tables.lstFreeColumnIdx, draws⟩ key s) :
    Partitioned cfg (b.withColumns s) ↔ b.tables.tF.lookup key ≠ some 0 := by
  constructor
  · intro kept zero
    have count := withColumns_count assigned
    rw [if_pos zero, kept.count, h.count] at count
    exact absurd count (Nat.succ_ne_self _)
  · intro ne
    exact (assigned.split (split_of_partitioned h) fun zero => absurd zero ne).perm_all

end Partition

/-! ### The condition -/

/-- A call on this input keeps the partition: an addition whose lookups do not meet an
assigned column 0, and a deletion that ends before the file is taken out of the table. -/
def Conserves (build : Build) (cfg : Config) (td : Trapdoor τ) (b : Books τ) : Op τ → Prop
  | .searchKeyword _ _ => True
  | .addFile path _ draws _ links => b.tables.tF.lookup (td.omac path) ≠ some 0 ∧
      (FetchFails build cfg links ∨ ColumnReads td b.tables path draws)
  | .delFile path _ links => b.dataStructureConstructed = false ∨
      b.tables.tF.lookup (td.omac path) ≠ some 0 ∧ FetchFails build cfg links

instance (build : Build) (cfg : Config) (td : Trapdoor τ) (b : Books τ) (op : Op τ) :
    Decidable (Conserves build cfg td b op) :=
  match op with
  | .searchKeyword .. => by unfold Conserves; infer_instance
  | .addFile .. => by unfold Conserves; infer_instance
  | .delFile .. => by unfold Conserves; infer_instance

section Operations

variable {build : Build} {cfg : Config} {td : Trapdoor τ} {path : Str} {draws : Nat → Nat}
  {links : Links} {b b' b₁ b₂ : Books τ} {s : Picks τ} {j : Nat} {res : Except Err (Report Key)}

/-- The column a file has after the first lookup is 0 where that lookup has drawn it. -/
theorem columnReads_iff
    (assigned : Assigned 0 ⟨b.tables.tF, b.tables.lstFreeColumnIdx, draws⟩ (td.omac path) s)
    (present : b.tables.tF.lookup (td.omac path) ≠ some 0) :
    s.table.lookup (td.omac path) ≠ some 0 ↔ ColumnReads td b.tables path draws := by
  constructor
  · intro ne
    refine ⟨present, fun missing v free draws' pick zero => ?_⟩
    cases assigned with
    | kept w found => cases missing.symm.trans found
    | picked w _ _ _ pick' =>
      cases pick.symm.trans pick'
      rw [zero] at ne
      exact ne (AList.lookup_insert _)
  · intro reads zero
    exact reads.column_ne assigned zero rfl

/-- Taking the file out of the table leaves fewer columns. -/
theorem erased_count (begun : Begun build cfg td path b draws s j b₁)
    (token : b₂ = { b₁.countedAfter cfg j with
      tables := { b₁.tables with tF := b₁.tables.tF.erase (td.omac path) } }) :
    b₂.columnCount + 1 ≤ b.columnCount := by
  have looked := withColumns_count_le begun.assigned
  have erased := keys_length_erase begun.found
  have tables := begun_tables begun
  rw [token, Books.columnCount]
  dsimp only
  rw [tables]
  change (s.table.erase (td.omac path)).keys.length + s.free.length + 1 ≤ _
  change s.table.keys.length + s.free.length ≤ _ at looked
  omega

/-- A search leaves the columns alone. -/
theorem search_columns {keyword : Str} (ends : SearchEnds build cfg td keyword b res b') :
    b'.tables.tF = b.tables.tF ∧ b'.tables.lstFreeColumnIdx = b.tables.lstFreeColumnIdx := by
  cases ends <;> exact ⟨rfl, rfl⟩

/-- A new file takes a column. -/
theorem addFile_free {content : Option (List Byte)} {buckets : τ → Nat}
    (ends : AddEnds build cfg td path content draws buckets links b res b')
    (new : b.tables.tF.lookup (td.omac path) = none) :
    b'.tables.lstFreeColumnIdx.length < b.tables.lstFreeColumnIdx.length := by
  have unknown : ¬ Known b.tables.tF (td.omac path) := by
    rintro ⟨v, found, -⟩
    rw [new] at found
    cases found
  cases ends with
  | notFetched s j _ begun _ =>
    rcases assigned_known_or_taken begun.assigned with ⟨known, -⟩ | ⟨-, taken⟩
    · exact absurd known unknown
    · rw [begun_tables begun]
      exact taken
  | tokened s j b₁ b₂ _ ret _ begun _ token rest =>
    obtain ⟨columns, again, -, free⟩ := tokened_columns token
    rw [begun_tables begun] at again
    rw [addRest_tables rest, free]
    rcases assigned_known_or_taken begun.assigned with ⟨known, -⟩ | ⟨-, taken⟩
    · exact absurd known unknown
    · exact Nat.lt_of_le_of_lt (assigned_free_le again) taken

/-- A deletion gives no column back. -/
theorem delFile_free (ends : DelEnds build cfg td path draws links b res b') :
    b'.tables.lstFreeColumnIdx.length ≤ b.tables.lstFreeColumnIdx.length := by
  cases ends with
  | notBuilt => exact Nat.le_refl _
  | noBlock s j assigned => exact assigned_free_le assigned
  | notFetched s j _ begun =>
    rw [begun_tables begun]
    exact assigned_free_le begun.assigned
  | erased s j b₁ b₂ _ _ begun _ _ _ token rest =>
    rw [delRest_tables rest, token]
    change b₁.tables.lstFreeColumnIdx.length ≤ _
    rw [begun_tables begun]
    exact assigned_free_le begun.assigned

omit [DecidableEq τ] in
theorem partitioned_congr (tF : b'.tables.tF = b.tables.tF)
    (free : b'.tables.lstFreeColumnIdx = b.tables.lstFreeColumnIdx) :
    Partitioned cfg b' ↔ Partitioned cfg b := by
  rw [Partitioned, Partitioned, tF, free]

theorem addFile_partitioned_iff {content : Option (List Byte)} {buckets : τ → Nat}
    (h : Partitioned cfg b)
    (ends : AddEnds build cfg td path content draws buckets links b res b') :
    Partitioned cfg b' ↔ Conserves build cfg td b (.addFile path content draws buckets links) := by
  cases ends with
  | notFetched s j _ begun fails =>
    have tables := begun_tables begun
    rw [partitioned_congr (congrArg Tables.tF tables) (congrArg Tables.lstFreeColumnIdx tables),
      withColumns_partitioned_iff h begun.assigned]
    exact ⟨fun present => ⟨present, .inl fails⟩, And.left⟩
  | tokened s j b₁ b₂ _ ret _ begun fetched token rest =>
    have tables := begun_tables begun
    obtain ⟨columns, again, tF, free⟩ := tokened_columns token
    rw [tables] at again
    rw [← addRest_tables rest] at tF free
    rw [partitioned_congr (b := (b.withColumns s).withColumns columns) tF free]
    by_cases present : b.tables.tF.lookup (td.omac path) = some 0
    · refine ⟨fun kept => ?_, fun both => absurd present both.1⟩
      have first := withColumns_count begun.assigned
      have second := withColumns_count_le again
      rw [if_pos present, h.count] at first
      rw [kept.count] at second
      omega
    · have kept := (withColumns_partitioned_iff h begun.assigned).mpr present
      rw [withColumns_partitioned_iff kept again]
      refine (columnReads_iff begun.assigned present).trans ?_
      exact ⟨fun reads => ⟨present, .inr reads⟩, fun both => both.2.resolve_left fetched⟩

theorem delFile_partitioned_iff (h : Partitioned cfg b)
    (ends : DelEnds build cfg td path draws links b res b') :
    Partitioned cfg b' ↔ Conserves build cfg td b (.delFile path draws links) := by
  cases ends with
  | notBuilt absent => exact ⟨fun _ => .inl absent, fun _ => h⟩
  | noBlock s j assigned found exceeds built =>
    have inRange := (assigned.within (split_of_partitioned h).within).lookup found
    exact absurd exceeds (Nat.not_lt.mpr (Nat.div_le_div_right (Nat.le_of_lt inRange)))
  | notFetched s j _ begun block fails built =>
    have tables := begun_tables begun
    rw [partitioned_congr (congrArg Tables.tF tables) (congrArg Tables.lstFreeColumnIdx tables),
      withColumns_partitioned_iff h begun.assigned]
    constructor
    · exact fun present => .inr ⟨present, fails⟩
    · rintro (absent | ⟨present, -⟩)
      · cases absent.symm.trans built
      · exact present
  | erased s j b₁ b₂ _ _ begun block fetched built token rest =>
    constructor
    · intro kept
      have count := kept.count
      have fewer := erased_count begun token
      rw [Books.columnCount, delRest_tables rest] at count
      rw [Books.columnCount, h.count] at fewer
      omega
    · rintro (absent | ⟨-, fails⟩)
      · cases absent.symm.trans built
      · exact absurd fails fetched

end Operations

/-! ### Whole runs -/

section Runs

variable (build : Build) (cfg : Config) (cr : Cipher Key) (td : Trapdoor τ)
  (srv : Machine σ (Command Key) (Response Key))

variable {build cfg cr td srv} in
theorem step_partitioned_iff {w w' : World σ τ Key} {op : Op τ} {res : Except Err (Report Key)}
    (h : Partitioned cfg w.books)
    (step : (clientMachine build cfg cr td srv).step w op = some (w', res)) :
    Partitioned cfg w'.books ↔ Conserves build cfg td w.books op := by
  cases op with
  | searchKeyword keyword links =>
    obtain ⟨tF, free⟩ := search_columns (searchKeyword_ends step)
    exact (partitioned_congr tF free).trans ⟨fun _ => trivial, fun _ => h⟩
  | addFile path content draws buckets links => exact addFile_partitioned_iff h (addFile_ends step)
  | delFile path draws links => exact delFile_partitioned_iff h (delFile_ends step)

/-- From any state whose columns are split between `T_F` and the free list, a call that
returns keeps them split if and only if its input meets the condition; so do runs of such
calls, and the free list has a column left while fewer than all are stored; but a new
file that is added and deleted again always leaves fewer free columns than before. -/
theorem columns_conserved_iff :
    (∀ (w w' : World σ τ Key) (op : Op τ) (res : Except Err (Report Key)),
      Partitioned cfg w.books →
      (clientMachine build cfg cr td srv).step w op = some (w', res) →
      (Partitioned cfg w'.books ↔ Conserves build cfg td w.books op)) ∧
    (∀ (w w' : World σ τ Key) (ops : List (Op τ)), Partitioned cfg w.books →
      (clientMachine build cfg cr td srv).Along
        (fun w op => Conserves build cfg td w.books op) w ops →
      (clientMachine build cfg cr td srv).exec w ops = some w' →
      Partitioned cfg w'.books ∧ (w'.books.tables.tF.keys.length < cfg.maxNumOfFiles →
        w'.books.tables.lstFreeColumnIdx ≠ [])) ∧
    ∀ (w w₁ w₂ : World σ τ Key) (path : Str) (content : Option (List Byte)) (draws draws' : Nat → Nat)
      (buckets : τ → Nat) (links links' : Links) (report report' : Report Key),
      w.books.tables.tF.lookup (td.omac path) = none →
      (clientMachine build cfg cr td srv).step w (.addFile path content draws buckets links) =
        some (w₁, .ok report) →
      (clientMachine build cfg cr td srv).step w₁ (.delFile path draws' links') =
        some (w₂, .ok report') →
      w₂.books.tables.lstFreeColumnIdx.length < w.books.tables.lstFreeColumnIdx.length := by
  refine ⟨fun w w' op res h step => step_partitioned_iff h step, fun w w' ops h good run => ?_,
    fun w w₁ w₂ path content draws draws' buckets links links' report report' new added deleted =>
      Nat.lt_of_le_of_lt (delFile_free (delFile_ends deleted)) (addFile_free (addFile_ends added) new)⟩
  have kept : Partitioned cfg w'.books := by
    refine Machine.invariant (fun w => Partitioned cfg w.books) ?_ h good run
    intro w op w' res h good step
    exact (step_partitioned_iff h step).mpr good
  refine ⟨kept, fun fewer none => ?_⟩
  have count := kept.count
  rw [Books.columnCount, none] at count
  exact absurd count (Nat.ne_of_lt fewer)

end Runs

/-! ### A small run -/

/-- File "h" with the words "b" and "c" is added and gets column 2. -/
def smallAdd : Op Str :=
  .addFile [0x68#8] (some [0x62#8, 0x20#8, 0x63#8]) (fun _ => 1) List.length goodLinks

/-- The machine of the small client over the server in memory. -/
def smallMachine (build : Build) (cfg : Config) :
    Machine (World RamServer Str (Option (Nat × Nat))) (Op Str)
      (Except Err (Report (Option (Nat × Nat)))) :=
  clientMachine build cfg smallCipher smallTrapdoor (ramServer cfg smallCipher)

theorem smallWorld_partitioned (B : Nat) (client : Bool) : Partitioned (smallConfig B client)
    (smallWorld (smallConfig B client) blankServer).books := by
  change ([4, 1] ++ [0, 2, 3, 5, 6, 7]).Perm (List.range 8)
  decide

/-- "a" is searched and "h" added. -/
theorem columns_conserved_small : ∃ w',
    (smallMachine smallBuild (smallConfig 1 false)).exec
      (smallWorld (smallConfig 1 false) blankServer) [.searchKeyword [0x61#8] goodLinks, smallAdd] =
        some w' ∧ Partitioned (smallConfig 1 false) w'.books := by
  have evaluated : ((smallMachine smallBuild (smallConfig 1 false)).check
      (fun w op => decide (Conserves smallBuild (smallConfig 1 false) smallTrapdoor w.books op))
      (smallWorld (smallConfig 1 false) blankServer) [.searchKeyword [0x61#8] goodLinks, smallAdd] &&
    ((smallMachine smallBuild (smallConfig 1 false)).exec
      (smallWorld (smallConfig 1 false) blankServer)
      [.searchKeyword [0x61#8] goodLinks, smallAdd]).isSome) = true := by
    decide +kernel
  obtain ⟨good, goes⟩ := Bool.and_eq_true_iff.mp evaluated
  obtain ⟨w', run⟩ := Option.isSome_iff_exists.mp goes
  exact ⟨w', run, ((columns_conserved_iff smallBuild (smallConfig 1 false) smallCipher smallTrapdoor
    (ramServer (smallConfig 1 false) smallCipher)).2.1 _ w' _ (smallWorld_partitioned 1 false)
      (Machine.along_of_check (fun _ _ h => of_decide_eq_true h) good) run).1⟩

/-- "h" is added and deleted again, and column 2 is gone. -/
theorem columns_lost : Partitioned (smallConfig 1 false)
      (smallWorld (smallConfig 1 false) blankServer).books ∧
    ∃ w', (smallMachine smallBuild (smallConfig 1 false)).exec
      (smallWorld (smallConfig 1 false) blankServer)
      [smallAdd, .delFile [0x68#8] (fun _ => 0) goodLinks] = some w' ∧
    ¬ Partitioned (smallConfig 1 false) w'.books := by
  have ran : ((smallMachine smallBuild (smallConfig 1 false)).exec
      (smallWorld (smallConfig 1 false) blankServer)
      [smallAdd, .delFile [0x68#8] (fun _ => 0) goodLinks]).map (fun w' =>
        (values w'.books.tables.tF, w'.books.tables.lstFreeColumnIdx)) =
      some ([4, 1], [0, 3, 5, 6, 7]) := by
    decide +kernel
  obtain ⟨w', run, both⟩ := Option.map_eq_some_iff.mp ran
  obtain ⟨tF, free⟩ := Prod.mk.inj both
  refine ⟨smallWorld_partitioned 1 false, w', run, ?_⟩
  rw [Partitioned, tF, free]
  decide

end ImDsse.Seu
