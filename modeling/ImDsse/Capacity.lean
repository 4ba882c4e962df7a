import ImDsse.Allocation

/-!
Drawing from the free lists (`DSSE::pickRandom_element`).

The setup compares the numbers of keywords and files with the size of the matrix. The
operations compare nothing: `requestBlock_index` and `addToken` draw an index for every
key that has none, and a draw from an empty list takes a remainder by 0. `opDraws` are
the lists an operation draws from, and `Room` says when none of them is empty.
-/

namespace ImDsse

open Kit Kit.Bits Kit.Pool

variable {Key : Type} {σ : Type} {τ : Type} [DecidableEq τ]

/-! ### The lists that are drawn from -/

/-- The list `assignIndex` draws from, where it draws. -/
def assignDraws (absent : Nat) (s : Picks τ) (key : τ) : List (List Nat) :=
  if (index s.table key).1 = absent then [s.free] else []

/-- The lists the loop over the keywords draws from, until the process ends. -/
def assignRowsDraws (td : Trapdoor τ) (s : Picks τ) : List Str → List (List Nat)
  | [] => []
  | word :: words => assignDraws 0 s (td.omac word) ++
      match assignIndex 0 s (td.omac word) with
      | none => []
      | some s =>
        assignRowsDraws td { s with table := (index s.table (td.omac word)).2 } words

/-- The lists `DSSE::addToken` draws from. -/
def addTokenDraws (td : Trapdoor τ) (path : Str) (content : Option (List Byte)) (T : Tables τ)
    (draws : Nat → Nat) : List (List Nat) :=
  let columns : Picks τ := ⟨T.tF, T.lstFreeColumnIdx, draws⟩
  assignDraws 0 columns (td.omac path) ++
    match assignIndex 0 columns (td.omac path) with
    | none => []
    | some columns =>
      assignRowsDraws td ⟨T.tW, T.lstFreeRowIdx, columns.draws⟩ (extractKeywords [] content)

/-- The lists an operation draws from. -/
def opDraws (cfg : Config) (td : Trapdoor τ) (T : Tables τ) : ClientOp → List (List Nat)
  | .searchKeyword _ => []
  | .addFile path content draws =>
    assignDraws 0 ⟨T.tF, T.lstFreeColumnIdx, draws⟩ (td.omac path) ++
      match requestBlockIndex cfg td path T draws with
      | none => []
      | some (_, T, draws) => addTokenDraws td path content T draws
  | .delFile path draws => assignDraws 0 ⟨T.tF, T.lstFreeColumnIdx, draws⟩ (td.omac path)

/-! ### Room for them -/

/-- The key is read as one without an index. -/
def Unassigned (t : Table τ) (key : τ) : Prop := t.lookup key = none ∨ t.lookup key = some 0

instance (t : Table τ) (key : τ) : Decidable (Unassigned t key) := by
  unfold Unassigned
  infer_instance

/-- The keywords that are read as ones without a row. -/
def unassignedWords (td : Trapdoor τ) (t : Table τ) (words : List Str) : List Str :=
  words.filter fun word => Unassigned t (td.omac word)

/-- A file without a column finds a free one, and an added file one beside column 0,
which it would be given twice; its keywords without a row find a free row each. -/
def Room (td : Trapdoor τ) (T : Tables τ) : ClientOp → Prop
  | .searchKeyword _ => True
  | .addFile path content _ =>
    (Unassigned T.tF (td.omac path) → T.lstFreeColumnIdx ≠ [] ∧ T.lstFreeColumnIdx ≠ [0]) ∧
      (unassignedWords td T.tW (extractKeywords [] content)).length ≤ T.lstFreeRowIdx.length
  | .delFile path _ => Unassigned T.tF (td.omac path) → T.lstFreeColumnIdx ≠ []

instance (td : Trapdoor τ) (T : Tables τ) (op : ClientOp) : Decidable (Room td T op) :=
  match op with
  | .searchKeyword .. => by unfold Room; infer_instance
  | .addFile .. => by unfold Room; infer_instance
  | .delFile .. => by unfold Room; infer_instance

/-! ### One draw -/

section Draws

variable {cfg : Config} {td : Trapdoor τ} {s : Picks τ} {key : τ}

theorem index_eq_zero {t : Table τ} : (index t key).1 = 0 ↔ Unassigned t key := by
  unfold Unassigned
  cases found : t.lookup key with
  | none => simp [index_of_absent found]
  | some v => simp [index_of_lookup found]

theorem unassigned_insert {t : Table τ} {key' : τ} {v : Nat} (ne : key' ≠ key) :
    Unassigned (t.insert key v) key' ↔ Unassigned t key' := by
  unfold Unassigned
  rw [AList.lookup_insert_ne ne]

theorem mem_assignDraws : [] ∈ assignDraws 0 s key ↔ Unassigned s.table key ∧ s.free = [] := by
  unfold assignDraws
  by_cases unassigned : Unassigned s.table key
  · rw [if_pos (index_eq_zero.mpr unassigned), List.mem_singleton]
    exact ⟨fun empty => ⟨unassigned, empty.symm⟩, fun h => h.2.symm⟩
  · rw [if_neg (mt index_eq_zero.mp unassigned)]
    exact ⟨fun mem => absurd mem List.not_mem_nil, fun h => absurd h.1 unassigned⟩

/-- A draw from an empty list ends the process. -/
theorem assignIndex_of_empty (empty : [] ∈ assignDraws 0 s key) : assignIndex 0 s key = none := by
  obtain ⟨unassigned, free⟩ := mem_assignDraws.mp empty
  unfold assignIndex
  dsimp only
  rw [if_pos (index_eq_zero.mpr unassigned), free]
  rfl

/-- Every other lookup goes on. -/
theorem assignIndex_of_room (room : [] ∉ assignDraws 0 s key) : ∃ s', assignIndex 0 s key = some s' := by
  refine assignIndex_goes_on ?_
  by_cases unassigned : Unassigned s.table key
  · exact .inl fun free => room (mem_assignDraws.mpr ⟨unassigned, free⟩)
  · refine .inr ?_
    cases found : s.table.lookup key with
    | none => exact absurd (.inl found) unassigned
    | some v => exact ⟨v, rfl, fun zero => unassigned (.inr (found.trans (congrArg some zero)))⟩

/-! ### The keywords of a file -/

theorem unassignedWords_cons {t : Table τ} {word : Str} (unassigned : Unassigned t (td.omac word))
    (words : List Str) :
    unassignedWords td t (word :: words) = word :: unassignedWords td t words :=
  List.filter_cons_of_pos (decide_eq_true unassigned)

theorem unassignedWords_cons_of_assigned {t : Table τ} {word : Str}
    (assigned : ¬ Unassigned t (td.omac word)) (words : List Str) :
    unassignedWords td t (word :: words) = unassignedWords td t words :=
  List.filter_cons_of_neg fun still => assigned (of_decide_eq_true still)

/-- A key that is given an index takes at most itself from the keys without one. -/
theorem unassignedWords_insert_le (t : Table τ) (word : Str) (v : Nat)
    (unassigned : Unassigned t (td.omac word)) (words : List Str) :
    (unassignedWords td (t.insert (td.omac word) v) words).length ≤
      (unassignedWords td t words).length := by
  refine List.Sublist.length_le (List.monotone_filter_right words fun word' still => ?_)
  have still := of_decide_eq_true still
  refine decide_eq_true ?_
  by_cases same : td.omac word' = td.omac word
  · rw [same]
    exact unassigned
  · exact (unassigned_insert same).mp still

/-- And nothing else, where other keywords have other trapdoors. -/
theorem unassignedWords_insert (t : Table τ) (word : Str) (v : Nat) {words : List Str}
    (other : td.omac word ∉ words.map td.omac) :
    unassignedWords td (t.insert (td.omac word) v) words = unassignedWords td t words := by
  refine List.filter_congr fun word' mem => decide_eq_decide.mpr (unassigned_insert fun same => ?_)
  exact other (List.mem_map.mpr ⟨word', mem, same⟩)

/-- The loop over the keywords after its first keyword. -/
theorem assignRowsDraws_cons {s' : Picks τ} {word : Str} (words : List Str)
    (assign : assignIndex 0 s (td.omac word) = some s') :
    assignRowsDraws td s (word :: words) =
      assignDraws 0 s (td.omac word) ++ assignRowsDraws td s' words := by
  obtain ⟨v, found, -⟩ := (assignIndex_cases (.inl rfl) assign).lookup_self
  simp only [assignRowsDraws, assign, index_of_lookup found]

/-- A free row for each keyword without one is enough. -/
theorem assignRowsDraws_of_room {words : List Str}
    (room : (unassignedWords td s.table words).length ≤ s.free.length) :
    [] ∉ assignRowsDraws td s words := by
  induction words generalizing s with
  | nil => exact List.not_mem_nil
  | cons word words ih =>
    have first : [] ∉ assignDraws 0 s (td.omac word) := by
      rw [mem_assignDraws]
      rintro ⟨unassigned, empty⟩
      rw [unassignedWords_cons unassigned, empty] at room
      exact absurd room (Nat.not_succ_le_zero _)
    obtain ⟨s', assign⟩ := assignIndex_of_room first
    rw [assignRowsDraws_cons words assign, List.mem_append]
    rintro (here | later)
    · exact first here
    · refine ih ?_ later
      cases assignIndex_cases (.inl rfl) assign with
      | kept v found ne =>
        refine Nat.le_trans (List.Sublist.length_le ?_) room
        exact (List.sublist_cons_self word words).filter _
      | picked v free draws unassigned pick =>
        rw [unassignedWords_cons unassigned, (pickRandomElement_perm pick).length_eq] at room
        exact Nat.le_trans (unassignedWords_insert_le s.table word v unassigned words)
          (Nat.le_of_succ_le_succ room)

/-- And necessary, where no two of them share a trapdoor. -/
theorem room_of_assignRowsDraws {words : List Str} (nodup : (words.map td.omac).Nodup)
    (draws : [] ∉ assignRowsDraws td s words) :
    (unassignedWords td s.table words).length ≤ s.free.length := by
  induction words generalizing s with
  | nil => exact Nat.zero_le _
  | cons word words ih =>
    rw [List.map_cons, List.nodup_cons] at nodup
    have first : [] ∉ assignDraws 0 s (td.omac word) := fun empty =>
      draws (List.mem_append_left _ empty)
    obtain ⟨s', assign⟩ := assignIndex_of_room first
    rw [assignRowsDraws_cons words assign, List.mem_append, not_or] at draws
    have rest := ih nodup.2 draws.2
    cases assignIndex_cases (.inl rfl) assign with
    | kept v found ne =>
      have assigned : ¬ Unassigned s.table (td.omac word) := by
        rintro (missing | zero)
        · cases found.symm.trans missing
        · exact ne (Option.some.inj (found.symm.trans zero))
      rwa [unassignedWords_cons_of_assigned assigned]
    | picked v free draws' unassigned pick =>
      rw [unassignedWords_insert s.table word v nodup.1] at rest
      rw [unassignedWords_cons unassigned, (pickRandomElement_perm pick).length_eq]
      exact Nat.succ_le_succ rest

/-- A draw from an empty list ends the loop over the keywords. -/
theorem assignRows_of_empty {words : List Str} (empty : [] ∈ assignRowsDraws td s words)
    (IBar : Buf) : assignRows td s IBar words = none := by
  induction words generalizing s IBar with
  | nil => cases empty
  | cons word words ih =>
    by_cases first : [] ∈ assignDraws 0 s (td.omac word)
    · simp only [assignRows, assignIndex_of_empty first, Option.bind_none]
    · obtain ⟨s', assign⟩ := assignIndex_of_room first
      obtain ⟨v, found, -⟩ := (assignIndex_cases (.inl rfl) assign).lookup_self
      rw [assignRowsDraws_cons words assign, List.mem_append] at empty
      simp only [assignRows, assign, Option.bind_some, index_of_lookup found]
      exact ih (empty.resolve_left first) _

/-! ### The operations -/

variable {T T' : Tables τ} {path : Str} {content : Option (List Byte)} {draws draws' : Nat → Nat}

/-- `addToken` draws a second column for a file that was given column 0. -/
theorem mem_addTokenDraws_of_picked {s : Picks τ}
    (assigned : Assigned 0 ⟨T.tF, T.lstFreeColumnIdx, draws⟩ (td.omac path) s)
    (empty : [] ∈ assignDraws 0 s (td.omac path)) :
    Unassigned T.tF (td.omac path) ∧ T.lstFreeColumnIdx = [0] := by
  obtain ⟨unassigned, free⟩ := mem_assignDraws.mp empty
  cases assigned with
  | kept v found ne =>
    rcases unassigned with missing | zero
    · cases found.symm.trans missing
    · exact absurd (Option.some.inj (found.symm.trans zero)) ne
  | picked v free' draws' before pick =>
    have perm := pickRandomElement_perm pick
    obtain rfl : free' = [] := free
    have v_eq : v = 0 := by
      rcases unassigned with missing | zero
      · cases missing.symm.trans (AList.lookup_insert _)
      · exact Option.some.inj ((AList.lookup_insert _).symm.trans zero)
    rw [v_eq] at perm
    exact ⟨before, List.perm_singleton.mp perm⟩

/-- With column 0 the only free one, it finds none. -/
theorem assignDraws_of_last {s : Picks τ}
    (assigned : Assigned 0 ⟨T.tF, [0], draws⟩ (td.omac path) s)
    (unassigned : Unassigned T.tF (td.omac path)) : [] ∈ assignDraws 0 s (td.omac path) := by
  cases assigned with
  | kept v found ne =>
    rcases unassigned with missing | zero
    · cases found.symm.trans missing
    · exact absurd (Option.some.inj (found.symm.trans zero)) ne
  | picked v free draws' _ pick =>
    have perm := (pickRandomElement_perm pick).symm
    obtain ⟨rfl, rfl⟩ := List.cons.inj (List.perm_singleton.mp perm)
    exact mem_assignDraws.mpr ⟨.inr (AList.lookup_insert _), rfl⟩

/-- With room, an operation never draws from an empty list. -/
theorem opDraws_of_room {op : ClientOp} (room : Room td T op) : [] ∉ opDraws cfg td T op := by
  cases op with
  | searchKeyword keyword => exact List.not_mem_nil
  | delFile path draws =>
    intro empty
    obtain ⟨unassigned, free⟩ := mem_assignDraws.mp empty
    exact room unassigned free
  | addFile path content draws =>
    obtain ⟨column, rows⟩ := room
    have first : [] ∉ assignDraws 0 ⟨T.tF, T.lstFreeColumnIdx, draws⟩ (td.omac path) := by
      intro empty
      obtain ⟨unassigned, free⟩ := mem_assignDraws.mp empty
      exact (column unassigned).1 free
    unfold opDraws
    rw [List.mem_append]
    rintro (empty | empty)
    · exact first empty
    · cases request : requestBlockIndex cfg td path T draws with
      | none => simp only [request, List.not_mem_nil] at empty
      | some requested =>
        obtain ⟨b, T', draws'⟩ := requested
        obtain ⟨s, j, assigned, -, -, rfl, rfl⟩ := requestBlockIndex_spec request
        simp only [request, addTokenDraws, List.mem_append] at empty
        rcases empty with empty | empty
        · obtain ⟨unassigned, last⟩ := mem_addTokenDraws_of_picked assigned empty
          exact (column unassigned).2 last
        · split at empty
          · cases empty
          · exact assignRowsDraws_of_room rows empty

/-- The words of the file an operation adds. -/
def ClientOp.words : ClientOp → List Str
  | .addFile _ content _ => extractKeywords [] content
  | _ => []

/-- And without room it does, where no two keywords of the file share a trapdoor. -/
theorem room_of_opDraws (columns : Within cfg.maxNumOfFiles T.tF T.lstFreeColumnIdx) {op : ClientOp}
    (nodup : (op.words.map td.omac).Nodup) (safe : [] ∉ opDraws cfg td T op) : Room td T op := by
  cases op with
  | searchKeyword keyword => trivial
  | delFile path draws =>
    intro unassigned free
    exact safe (mem_assignDraws.mpr ⟨unassigned, free⟩)
  | addFile path content draws =>
    unfold opDraws at safe
    rw [List.mem_append, not_or] at safe
    obtain ⟨first, later⟩ := safe
    obtain ⟨s, assign⟩ := assignIndex_of_room first
    obtain ⟨b, request⟩ := requestBlockIndex_of_assigned columns assign
    simp only [request, addTokenDraws, List.mem_append, not_or] at later
    obtain ⟨second, rows⟩ := later
    obtain ⟨s', assign'⟩ := assignIndex_of_room second
    refine ⟨fun unassigned => ⟨fun free => ?_, fun last => ?_⟩, ?_⟩
    · exact first (mem_assignDraws.mpr ⟨unassigned, free⟩)
    · have assigned := assignIndex_cases (.inl rfl) assign
      rw [last] at assigned
      exact second (assignDraws_of_last assigned unassigned)
    · simp only [assign'] at rows
      exact room_of_assignRowsDraws nodup rows

section Steps

variable {cr : Cipher Key} {srv : Machine σ (Command Key) (Response Key)} {p p' : σ × Client τ Key}
  {op : ClientOp} {report : Report}

/-- A draw from an empty list ends the process. -/
theorem clientMachine_of_empty (empty : [] ∈ opDraws cfg td p.2.tables op) :
    (clientMachine cfg cr td srv).step p op = none := by
  cases op with
  | searchKeyword keyword => cases empty
  | delFile path draws =>
    simp only [clientMachine, delFile, requestBlockIndex, assignIndex_of_empty empty,
      Option.bind_none]
  | addFile path content draws =>
    unfold opDraws at empty
    rw [List.mem_append] at empty
    simp only [clientMachine, addFile]
    rcases empty with first | later
    · simp only [requestBlockIndex, assignIndex_of_empty first, Option.bind_none]
    · cases request : requestBlockIndex cfg td path p.2.tables draws with
      | none => rfl
      | some requested =>
        obtain ⟨b, T', draws'⟩ := requested
        simp only [request, addTokenDraws, List.mem_append] at later
        simp only [Option.bind_some, addTokenIndex]
        rcases later with second | rows
        · simp only [assignIndex_of_empty second, Option.bind_none]
        · split at rows
          · cases rows
          · next columns assign =>
            simp only [assign, Option.bind_some, assignRows_of_empty rows, Option.bind_none]

/-- Columns stay columns of the matrix, whatever its size. -/
theorem clientMachine_columns
    (columns : Within cfg.maxNumOfFiles p.2.tables.tF p.2.tables.lstFreeColumnIdx)
    (h : (clientMachine cfg cr td srv).step p op = some (p', report)) :
    Within cfg.maxNumOfFiles p'.2.tables.tF p'.2.tables.lstFreeColumnIdx := by
  cases op with
  | searchKeyword keyword =>
    simp only [clientMachine, searchKeyword] at h
    split at h
    · cases h
      exact columns
    · obtain ⟨_, -, h⟩ := Option.map_eq_some_iff.mp h
      cases h
      exact columns
  | addFile path content draws =>
    simp only [clientMachine, addFile, Option.bind_eq_some_iff] at h
    obtain ⟨⟨b, T₁, draws₁⟩, request, ⟨fileIndex, IBar, T₂⟩, token, h⟩ := h
    obtain ⟨_, -, h⟩ := Option.map_eq_some_iff.mp h
    cases h
    obtain ⟨s, j, assigned, -, -, rfl, rfl⟩ := requestBlockIndex_spec request
    obtain ⟨s', rows, assigned', -, -, rfl⟩ := addTokenIndex_spec token
    exact assigned'.within (assigned.within columns)
  | delFile path draws =>
    obtain ⟨j, s, e, assigned, found, tables, -, -⟩ := delFile_cases h
    have within := assigned.within columns
    rw [tables]
    exact within.takeBack _ (within.lookup found)

end Steps

end Draws

/-- In every run of operations with room, from any setup on and against any server, no
index is drawn from an empty list. In every state such a run reaches, an operation
draws from no empty list if and only if there is room for it, as long as the keywords
of the file it adds have distinct trapdoors; and one that does ends the process. -/
theorem draws_find_indices {cfg : Config} {cr : Cipher Key} {td : Trapdoor τ} {path : Str}
    {db : Listing} {dict : List Str} {kc bc draws : Nat → Nat} {files : PieceFiles}
    {out : SetupState τ}
    (setup : setupDataStructure cfg cr td path db dict kc bc draws files = some out)
    (srv : Machine σ (Command Key) (Response Key)) (s₀ : σ) {ops : List ClientOp}
    (room : (clientMachine cfg cr td srv).Along (fun p op => Room td p.2.tables op)
      (s₀, out.client cfg cr) ops) :
    (clientMachine cfg cr td srv).Along (fun p op => [] ∉ opDraws cfg td p.2.tables op)
        (s₀, out.client cfg cr) ops ∧
      ∀ p, (clientMachine cfg cr td srv).exec (s₀, out.client cfg cr) ops = some p → ∀ op,
        ((op.words.map td.omac).Nodup →
          ([] ∉ opDraws cfg td p.2.tables op ↔ Room td p.2.tables op)) ∧
        ([] ∈ opDraws cfg td p.2.tables op → (clientMachine cfg cr td srv).step p op = none) := by
  refine ⟨room.imp fun _ _ => opDraws_of_room, fun p run op => ⟨fun nodup => ?_, ?_⟩⟩
  · have columns := Machine.invariant
      (fun p : σ × Client τ Key =>
        Within cfg.maxNumOfFiles p.2.tables.tF p.2.tables.lstFreeColumnIdx)
      (fun _ _ _ _ within _ step => clientMachine_columns within step)
      (Split.within (setup_tables setup).1) room run
    exact ⟨room_of_opDraws columns nodup, opDraws_of_room⟩
  · exact clientMachine_of_empty

/-- The client of the small collection over the server in memory. -/
def smallClient : Machine (RamServer × Client Str (Option (Nat × Nat))) ClientOp Report :=
  clientMachine (smallConfig 1 false) smallCipher smallTrapdoor
    (ramServer (smallConfig 1 false) smallCipher)

theorem draws_find_indices_small : ∃ out : SetupState Str, smallSetup = some out ∧
    smallClient.Along (fun p op => [] ∉ opDraws (smallConfig 1 false) smallTrapdoor p.2.tables op)
      (out.server (smallConfig 1 false), out.client (smallConfig 1 false) smallCipher) smallOps := by
  have evaluated : smallSetup.map (fun out =>
      smallClient.check (fun p op => decide (Room smallTrapdoor p.2.tables op))
        (out.server (smallConfig 1 false), out.client (smallConfig 1 false) smallCipher)
        smallOps) = some true := by
    decide +kernel
  obtain ⟨out, setup, good⟩ := Option.map_eq_some_iff.mp evaluated
  exact ⟨out, setup, (draws_find_indices setup (ramServer (smallConfig 1 false) smallCipher)
    (out.server (smallConfig 1 false))
    (Machine.along_of_check (fun _ _ h => of_decide_eq_true h) good)).1⟩

/-- A file with the words "d" to "i". -/
def manyWords : ClientOp :=
  .addFile [0x2f#8, 0x68#8]
    (some [0x64#8, 0x20#8, 0x65#8, 0x20#8, 0x66#8, 0x20#8, 0x67#8, 0x20#8, 0x68#8, 0x20#8, 0x69#8])
    fun n => n + 2

/-- The small collection leaves 5 of the 8 rows free. A file with 6 more keywords is not
rejected: the sixth draws from an empty list, and the process ends. -/
theorem draws_find_none : ∃ out : SetupState Str, smallSetup = some out ∧
    [] ∈ opDraws (smallConfig 1 false) smallTrapdoor
      (out.client (smallConfig 1 false) smallCipher).tables manyWords ∧
    smallClient.step
      (out.server (smallConfig 1 false), out.client (smallConfig 1 false) smallCipher) manyWords =
      none := by
  have evaluated : smallSetup.map (fun out =>
      decide ([] ∈ opDraws (smallConfig 1 false) smallTrapdoor
        (out.client (smallConfig 1 false) smallCipher).tables manyWords)) = some true := by
    decide +kernel
  obtain ⟨out, setup, empty⟩ := Option.map_eq_some_iff.mp evaluated
  exact ⟨out, setup, of_decide_eq_true empty, clientMachine_of_empty (of_decide_eq_true empty)⟩

end ImDsse
