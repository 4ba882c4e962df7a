import ImDsse.Exchange
import ImDsse.Tables

/-!
The client (`Client_DSSE::searchKeyword`, `addFile` and `delFile`), with the
choices of `main` that call them.

Each operation first finds its row or its column in the tables and then makes the
exchange with the server. The client is written over any server. Every operation
has its own generator, since it creates its own `DSSE` object: `draws` are the
numbers it takes from it.
-/

namespace ImDsse

open Kit Kit.Bits Kit.Pool

variable {Key : Type} {σ : Type} {τ : Type} [DecidableEq τ]

/-- The members of `Client_DSSE`. -/
structure Client (τ : Type) (Key : Type) where
  tables : Tables τ
  index : IndexClient Key

/-- The choices of `main`, with the content of the file at the moment it is added. -/
inductive ClientOp where
  | searchKeyword (keyword : Str)
  | addFile (path : Str) (content : Option (List Byte)) (draws : Nat → Nat)
  | delFile (path : Str) (draws : Nat → Nat)

/-- What an operation reports: the columns found, or the block that was fetched and
sent back and the column that was written. -/
inductive Report where
  | searched (fileIds : List Nat)
  | updated (blockIndex fileIndex : Nat)
deriving DecidableEq

section Operations

variable (cfg : Config) (cr : Cipher Key) (td : Trapdoor τ)
  (srv : Machine σ (Command Key) (Response Key))

/-- `Client_DSSE::searchKeyword` -/
def searchKeyword (s : σ) (c : Client τ Key) (keyword : Str) :
    Option ((σ × Client τ Key) × Report) :=
  let (rowIndex, tW) := searchTokenRow cfg td c.tables.tW keyword
  let tables := { c.tables with tW := tW }
  if rowIndex = cfg.keywordNotExist then some ((s, ⟨tables, c.index⟩), .searched [])
  else
    (searchRow cfg cr srv s c.index rowIndex).map fun ((s, index), e) =>
      ((s, ⟨tables, index⟩), .searched (e.result.getD []))

/-- `Client_DSSE::addFile` -/
def addFile (s : σ) (c : Client τ Key) (path : Str) (content : Option (List Byte))
    (draws : Nat → Nat) : Option ((σ × Client τ Key) × Report) :=
  (requestBlockIndex cfg td path c.tables draws).bind fun (blockIndex, tables, draws) =>
    (addTokenIndex td path content tables draws).bind fun (fileIndex, IBar, tables) =>
      (updateColumn cfg cr srv s c.index blockIndex fileIndex (.add IBar)).map
        fun ((s, index), _) => ((s, ⟨tables, index⟩), .updated blockIndex fileIndex)

/-- `Client_DSSE::delFile` -/
def delFile (s : σ) (c : Client τ Key) (path : Str) (draws : Nat → Nat) :
    Option ((σ × Client τ Key) × Report) :=
  (requestBlockIndex cfg td path c.tables draws).bind fun (blockIndex, tables, _) =>
    let (fileIndex, tables) := delTokenIndex td path tables
    (updateColumn cfg cr srv s c.index blockIndex fileIndex .del).map
      fun ((s, index), _) => ((s, ⟨tables, index⟩), .updated blockIndex fileIndex)

/-- Client and server. A keyword is lower-cased before it is searched. -/
def clientMachine : Machine (σ × Client τ Key) ClientOp Report where
  step p
    | .searchKeyword keyword => searchKeyword cfg cr td srv p.1 p.2 (lowerCase keyword)
    | .addFile path content draws => addFile cfg cr td srv p.1 p.2 path content draws
    | .delFile path draws => delFile cfg cr td srv p.1 p.2 path draws

end Operations

/-! ### What the operations do to the tables -/

section Tables

variable {cfg : Config} {td : Trapdoor τ} {T T' : Tables τ} {path : Str} {draws draws' : Nat → Nat}

/-- The block requested is that of the column the file has from then on. -/
theorem requestBlockIndex_spec {b : Nat}
    (h : requestBlockIndex cfg td path T draws = some (b, T', draws')) :
    ∃ s j, Assigned 0 ⟨T.tF, T.lstFreeColumnIdx, draws⟩ (td.omac path) s ∧
      s.table.lookup (td.omac path) = some j ∧ b = j / cfg.encryptBlockSize ∧
      T' = { T with tF := s.table, lstFreeColumnIdx := s.free } ∧ draws' = s.draws := by
  simp only [requestBlockIndex, Option.bind_eq_some_iff] at h
  obtain ⟨s, assign, h⟩ := h
  have assigned := assignIndex_cases (.inl rfl) assign
  obtain ⟨j, found, -⟩ := assigned.lookup_self
  rw [index_of_lookup found] at h
  dsimp only at h
  split at h
  · cases h
  · cases h
    exact ⟨s, j, assigned, found, rfl, rfl, rfl⟩

/-- The block of a column that was looked up is never too large. -/
theorem requestBlockIndex_of_assigned
    (columns : Within cfg.maxNumOfFiles T.tF T.lstFreeColumnIdx) {s : Picks τ}
    (assign : assignIndex 0 ⟨T.tF, T.lstFreeColumnIdx, draws⟩ (td.omac path) = some s) :
    ∃ b, requestBlockIndex cfg td path T draws =
      some (b, { T with tF := s.table, lstFreeColumnIdx := s.free }, s.draws) := by
  have assigned := assignIndex_cases (.inl rfl) assign
  obtain ⟨j, found, -⟩ := assigned.lookup_self
  have le : j / cfg.encryptBlockSize ≤ cfg.numBlocks :=
    Nat.div_le_div_right (Nat.le_of_lt ((assigned.within columns).lookup found))
  refine ⟨j / cfg.encryptBlockSize, ?_⟩
  simp only [requestBlockIndex, assign, Option.bind_some, index_of_lookup found]
  exact if_neg (Nat.not_lt.mpr le)

/-- What the loop over the keywords of an added file can do. -/
inductive AssignedRows (td : Trapdoor τ) : Picks τ → Buf → List Str → Picks τ → Buf → Prop where
  | nil (s : Picks τ) (IBar : Buf) : AssignedRows td s IBar [] s IBar
  | cons {s s₁ s' : Picks τ} {IBar IBar' : Buf} {word : Str} {words : List Str} {r : Nat}
      (assigned : Assigned 0 s (td.omac word) s₁)
      (found : s₁.table.lookup (td.omac word) = some r)
      (rest : AssignedRows td s₁ (putBitAt IBar r true) words s' IBar') :
      AssignedRows td s IBar (word :: words) s' IBar'

theorem assignRows_cases {words : List Str} {s s' : Picks τ} {IBar IBar' : Buf}
    (h : assignRows td s IBar words = some (s', IBar')) : AssignedRows td s IBar words s' IBar' := by
  induction words generalizing s IBar with
  | nil =>
    cases h
    exact .nil _ _
  | cons word words ih =>
    simp only [assignRows, Option.bind_eq_some_iff] at h
    obtain ⟨s₁, assign, h⟩ := h
    have assigned := assignIndex_cases (.inl rfl) assign
    obtain ⟨r, found, -⟩ := assigned.lookup_self
    rw [index_of_lookup found] at h
    exact .cons assigned found (ih h)

/-- The column of an added file and the rows of its keywords. -/
theorem addTokenIndex_spec {content : Option (List Byte)} {j : Nat} {IBar : Buf}
    (h : addTokenIndex td path content T draws = some (j, IBar, T')) :
    ∃ columns rows, Assigned 0 ⟨T.tF, T.lstFreeColumnIdx, draws⟩ (td.omac path) columns ∧
      AssignedRows td ⟨T.tW, T.lstFreeRowIdx, columns.draws⟩ zeroBuf
        (extractKeywords [] content) rows IBar ∧
      columns.table.lookup (td.omac path) = some j ∧
      T' = ⟨rows.table, columns.table, columns.free, rows.free⟩ := by
  simp only [addTokenIndex, Option.bind_eq_some_iff] at h
  obtain ⟨columns, assign, ⟨rows, IBar'⟩, words, h⟩ := h
  have assigned := assignIndex_cases (.inl rfl) assign
  obtain ⟨j', found, -⟩ := assigned.lookup_self
  dsimp only at h
  rw [index_of_lookup found] at h
  cases h
  exact ⟨columns, rows, assigned, assignRows_cases words, found, rfl⟩

theorem delTokenIndex_eq {j : Nat} (found : T.tF.lookup (td.omac path) = some j) :
    delTokenIndex td path T = (j, { T with
      tF := T.tF.erase (td.omac path)
      lstFreeColumnIdx := T.lstFreeColumnIdx ++ [j] }) := by
  simp only [delTokenIndex, index_of_lookup found]

/-- A column that is not 0 is read back as it was assigned. -/
theorem Assigned.again {s s' : Picks τ} {key : τ} {j : Nat} (h : Assigned 0 s key s')
    (found : s.table.lookup key = some j) (ne : j ≠ 0) : s' = s := by
  cases h with
  | kept => rfl
  | picked _ _ _ unassigned =>
    rw [found] at unassigned
    rcases unassigned with missing | zero
    · cases missing
    · exact absurd (Option.some.inj zero) ne

end Tables

/-! ### Rows and columns of the matrix -/

/-- The tables hold rows and columns of a matrix that has some. -/
structure Tables.InRange (cfg : Config) (T : Tables τ) : Prop where
  someRow : 0 < cfg.maxNumKeywords
  someColumn : 0 < cfg.maxNumOfFiles
  rows : Within cfg.maxNumKeywords T.tW T.lstFreeRowIdx
  columns : Within cfg.maxNumOfFiles T.tF T.lstFreeColumnIdx

section InRange

variable {cfg : Config} {td : Trapdoor τ} {T T' : Tables τ} {path : Str} {draws draws' : Nat → Nat}

/-- `operator[]` inserts 0 at most. -/
theorem index_within {n : Nat} (pos : 0 < n) {t : Table τ} {free : List Nat}
    (within : Within n t free) (key : τ) :
    (index t key).1 < n ∧ Within n (index t key).2 free := by
  cases found : t.lookup key with
  | none =>
    rw [index_of_absent found]
    exact ⟨pos, within.insert key pos⟩
  | some v =>
    rw [index_of_lookup found]
    exact ⟨within.lookup found, within⟩

theorem AssignedRows.within {n : Nat} {s s' : Picks τ} {IBar IBar' : Buf} {words : List Str}
    (h : AssignedRows td s IBar words s' IBar') (within : Within n s.table s.free) :
    Within n s'.table s'.free := by
  induction h with
  | nil => exact within
  | cons assigned _ _ ih => exact ih (assigned.within within)

variable (inRange : T.InRange cfg)
include inRange

variable (td) in
/-- A search looks a row up, or none. -/
theorem searchTokenRow_inRange (keyword : Str) :
    ({ T with tW := (searchTokenRow cfg td T.tW keyword).2 } : Tables τ).InRange cfg ∧
      ((searchTokenRow cfg td T.tW keyword).1 = cfg.keywordNotExist ∨
        (searchTokenRow cfg td T.tW keyword).1 < cfg.matrixRowSize) := by
  obtain ⟨row, within⟩ := index_within inRange.someRow inRange.rows (td.generate (cStr keyword))
  refine ⟨⟨inRange.someRow, inRange.someColumn, within, inRange.columns⟩, ?_⟩
  dsimp only [searchTokenRow]
  split
  · exact .inr row
  · exact .inl rfl

theorem requestBlockIndex_tables {b : Nat}
    (h : requestBlockIndex cfg td path T draws = some (b, T', draws')) : T'.InRange cfg := by
  obtain ⟨s, j, assigned, found, rfl, rfl, rfl⟩ := requestBlockIndex_spec h
  exact ⟨inRange.someRow, inRange.someColumn, inRange.rows, assigned.within inRange.columns⟩

/-- The block requested is one of the matrix. -/
theorem requestBlockIndex_inRange (size : cfg.Tiled) {b : Nat}
    (h : requestBlockIndex cfg td path T draws = some (b, T', draws')) :
    T'.InRange cfg ∧ b < cfg.numBlocks := by
  refine ⟨requestBlockIndex_tables inRange h, ?_⟩
  obtain ⟨s, j, assigned, found, rfl, rfl, rfl⟩ := requestBlockIndex_spec h
  exact size.block_lt ((assigned.within inRange.columns).lookup found)

theorem addTokenIndex_inRange {content : Option (List Byte)} {j : Nat} {IBar : Buf}
    (h : addTokenIndex td path content T draws = some (j, IBar, T')) : T'.InRange cfg := by
  obtain ⟨columns, rows, assigned, words, -, rfl⟩ := addTokenIndex_spec h
  exact ⟨inRange.someRow, inRange.someColumn, words.within inRange.rows,
    assigned.within inRange.columns⟩

theorem delTokenIndex_inRange : (delTokenIndex td path T).2.InRange cfg := by
  obtain ⟨column, within⟩ := index_within inRange.someColumn inRange.columns (td.omac path)
  exact ⟨inRange.someRow, inRange.someColumn, inRange.rows, within.takeBack _ column⟩

end InRange

/-! ### What a step does -/

/-- The lookups of an added file's column do not meet an assigned column 0. -/
structure ColumnReads (td : Trapdoor τ) (T : Tables τ) (path : Str) (draws : Nat → Nat) : Prop where
  present : T.tF.lookup (td.omac path) ≠ some 0
  absent : T.tF.lookup (td.omac path) = none → ∀ v free draws',
    pickRandomElement T.lstFreeColumnIdx draws = some (v, free, draws') → v ≠ 0

/-- The column of an added file is not 0. -/
theorem ColumnReads.column_ne {td : Trapdoor τ} {T : Tables τ} {path : Str} {draws : Nat → Nat}
    {s : Picks τ} {j : Nat} (reads : ColumnReads td T path draws)
    (assigned : Assigned 0 ⟨T.tF, T.lstFreeColumnIdx, draws⟩ (td.omac path) s)
    (found : s.table.lookup (td.omac path) = some j) : j ≠ 0 := by
  cases assigned with
  | kept v found' ne =>
    cases found.symm.trans found'
    exact ne
  | picked v free draws' unassigned pick =>
    cases found.symm.trans (AList.lookup_insert _)
    exact reads.absent (unassigned.resolve_right reads.present) _ free draws' pick

instance (td : Trapdoor τ) (T : Tables τ) (path : Str) (draws : Nat → Nat) :
    Decidable (ColumnReads td T path draws) :=
  decidable_of_iff (T.tF.lookup (td.omac path) ≠ some 0 ∧
    (T.tF.lookup (td.omac path) = none →
      ∀ x ∈ pickRandomElement T.lstFreeColumnIdx draws, x.1 ≠ 0))
    ⟨fun h => ⟨h.1, fun none _ _ _ pick => h.2 none _ pick⟩,
      fun h => ⟨h.present, fun none x pick => h.absent none x.1 x.2.1 x.2.2 pick⟩⟩

section Steps

variable {cfg : Config} {cr : Cipher Key} {td : Trapdoor τ}
  {srv : Machine σ (Command Key) (Response Key)} {s : σ} {c : Client τ Key}
  {p' : σ × Client τ Key} {report : Report}

/-- A search without a row leaves everything but an entry 0 in `T_W`; with a row it
is a search of that row. -/
theorem searchKeyword_cases {keyword : Str}
    (h : searchKeyword cfg cr td srv s c keyword = some (p', report)) :
    (c.tables.tW.lookup (td.generate (cStr keyword)) = none ∧ report = .searched [] ∧
      p' = (s, ⟨{ c.tables with tW := c.tables.tW.insert (td.generate (cStr keyword)) 0 },
        c.index⟩)) ∨
    (∃ v, c.tables.tW.lookup (td.generate (cStr keyword)) = some v ∧
      (v = 0 ∨ v = cfg.keywordNotExist) ∧ report = .searched [] ∧ p' = (s, c)) ∨
    ∃ row e, c.tables.tW.lookup (td.generate (cStr keyword)) = some row ∧ row ≠ 0 ∧
      (indexMachine cfg cr srv).step (s, c.index) (.search row) = some ((p'.1, p'.2.index), e) ∧
      p'.2.tables = c.tables ∧ report = .searched (e.result.getD []) := by
  unfold searchKeyword searchTokenRow at h
  cases found : c.tables.tW.lookup (td.generate (cStr keyword)) with
  | none =>
    rw [index_of_absent found] at h
    simp only [ne_eq, not_true_eq_false, if_false, if_true] at h
    cases h
    exact .inl ⟨rfl, rfl, rfl⟩
  | some v =>
    rw [index_of_lookup found] at h
    dsimp only at h
    by_cases zero : v = 0
    · subst zero
      simp only [ne_eq, not_true_eq_false, if_false, if_true] at h
      cases h
      exact .inr (.inl ⟨0, rfl, .inl rfl, rfl, rfl⟩)
    · rw [if_pos zero] at h
      split at h
      · next mark =>
        cases h
        exact .inr (.inl ⟨v, rfl, .inr mark, rfl, rfl⟩)
      · obtain ⟨⟨⟨s', index⟩, e⟩, search, h⟩ := Option.map_eq_some_iff.mp h
        cases h
        exact .inr (.inr ⟨v, e, rfl, zero, search, rfl, rfl⟩)

/-- An addition whose lookups do not meet column 0 is an update of the column the
file has from then on. -/
theorem addFile_cases {path : Str} {content : Option (List Byte)} {draws : Nat → Nat}
    (reads : ColumnReads td c.tables path draws)
    (h : addFile cfg cr td srv s c path content draws = some (p', report)) :
    ∃ j columns rows IBar e,
      Assigned 0 ⟨c.tables.tF, c.tables.lstFreeColumnIdx, draws⟩ (td.omac path) columns ∧
      columns.table.lookup (td.omac path) = some j ∧
      AssignedRows td ⟨c.tables.tW, c.tables.lstFreeRowIdx, columns.draws⟩ zeroBuf
        (extractKeywords [] content) rows IBar ∧
      p'.2.tables = ⟨rows.table, columns.table, columns.free, rows.free⟩ ∧
      (indexMachine cfg cr srv).step (s, c.index) (.update j (.add IBar)) =
        some ((p'.1, p'.2.index), e) ∧
      report = .updated (j / cfg.encryptBlockSize) j := by
  simp only [addFile, Option.bind_eq_some_iff] at h
  obtain ⟨⟨b, T₁, draws₁⟩, request, ⟨fileIndex, IBar, T₂⟩, token, h⟩ := h
  obtain ⟨columns, j, assigned, found, rfl, rfl, rfl⟩ := requestBlockIndex_spec request
  have ne := reads.column_ne assigned found
  obtain ⟨columns', rows, assigned', words, found', rfl⟩ := addTokenIndex_spec token
  -- the second lookup finds the column of the first
  cases assigned'.again found ne
  obtain rfl : fileIndex = j := Option.some.inj (found'.symm.trans found)
  obtain ⟨⟨⟨s', index⟩, e⟩, update, h⟩ := Option.map_eq_some_iff.mp h
  cases h
  exact ⟨_, columns, rows, IBar, e, assigned, found, words, rfl, update, rfl⟩

/-- A deletion is an update of the column the file had, or of one it is given for it. -/
theorem delFile_cases {path : Str} {draws : Nat → Nat}
    (h : delFile cfg cr td srv s c path draws = some (p', report)) :
    ∃ j columns e,
      Assigned 0 ⟨c.tables.tF, c.tables.lstFreeColumnIdx, draws⟩ (td.omac path) columns ∧
      columns.table.lookup (td.omac path) = some j ∧
      p'.2.tables = { c.tables with
        tF := columns.table.erase (td.omac path)
        lstFreeColumnIdx := columns.free ++ [j] } ∧
      (indexMachine cfg cr srv).step (s, c.index) (.update j .del) =
        some ((p'.1, p'.2.index), e) ∧
      report = .updated (j / cfg.encryptBlockSize) j := by
  simp only [delFile, Option.bind_eq_some_iff] at h
  obtain ⟨⟨b, T₁, draws₁⟩, request, h⟩ := h
  obtain ⟨columns, j, assigned, found, rfl, rfl, rfl⟩ := requestBlockIndex_spec request
  rw [delTokenIndex_eq found] at h
  obtain ⟨⟨⟨s', index⟩, e⟩, update, h⟩ := Option.map_eq_some_iff.mp h
  cases h
  exact ⟨j, columns, e, assigned, found, rfl, update, rfl⟩

/-- Every step keeps the tables in range, whatever the sizes of the blocks. -/
theorem clientMachine_tables {p : σ × Client τ Key} {op : ClientOp}
    (inRange : p.2.tables.InRange cfg)
    (h : (clientMachine cfg cr td srv).step p op = some (p', report)) :
    p'.2.tables.InRange cfg := by
  cases op with
  | searchKeyword keyword =>
    obtain ⟨inRange', -⟩ := searchTokenRow_inRange td inRange (lowerCase keyword)
    simp only [clientMachine, searchKeyword] at h
    split at h
    · cases h
      exact inRange'
    · obtain ⟨_, -, h⟩ := Option.map_eq_some_iff.mp h
      cases h
      exact inRange'
  | addFile path content draws =>
    simp only [clientMachine, addFile, Option.bind_eq_some_iff] at h
    obtain ⟨⟨b, T₁, draws₁⟩, request, ⟨fileIndex, IBar, T₂⟩, token, h⟩ := h
    obtain ⟨_, -, h⟩ := Option.map_eq_some_iff.mp h
    cases h
    exact addTokenIndex_inRange (requestBlockIndex_tables inRange request) token
  | delFile path draws =>
    simp only [clientMachine, delFile, Option.bind_eq_some_iff] at h
    obtain ⟨⟨b, T₁, draws₁⟩, request, h⟩ := h
    obtain ⟨_, -, h⟩ := Option.map_eq_some_iff.mp h
    cases h
    exact delTokenIndex_inRange (requestBlockIndex_tables inRange request)

/-- What any step can do: the tables stay in range, and the index is left alone,
searched in one row or updated in one block. -/
theorem clientMachine_cases (size : cfg.Tiled) {p : σ × Client τ Key} {op : ClientOp}
    (inRange : p.2.tables.InRange cfg)
    (h : (clientMachine cfg cr td srv).step p op = some (p', report)) :
    p'.2.tables.InRange cfg ∧ ((p'.1 = p.1 ∧ p'.2.index = p.2.index) ∨
      (∃ row e, row < cfg.matrixRowSize ∧
        ImDsse.searchRow cfg cr srv p.1 p.2.index row = some ((p'.1, p'.2.index), e)) ∨
      ∃ b f u e, b < cfg.numBlocks ∧
        updateColumn cfg cr srv p.1 p.2.index b f u = some ((p'.1, p'.2.index), e)) := by
  refine ⟨clientMachine_tables inRange h, ?_⟩
  cases op with
  | searchKeyword keyword =>
    obtain ⟨-, row⟩ := searchTokenRow_inRange td inRange (lowerCase keyword)
    simp only [clientMachine, searchKeyword] at h
    split at h
    · cases h
      exact .inl ⟨rfl, rfl⟩
    · next exists_ =>
      obtain ⟨⟨⟨s', index⟩, e⟩, search, h⟩ := Option.map_eq_some_iff.mp h
      cases h
      exact .inr (.inl ⟨_, e, row.resolve_left exists_, search⟩)
  | addFile path content draws =>
    simp only [clientMachine, addFile, Option.bind_eq_some_iff] at h
    obtain ⟨⟨b, T₁, draws₁⟩, request, ⟨fileIndex, IBar, T₂⟩, token, h⟩ := h
    obtain ⟨-, block⟩ := requestBlockIndex_inRange inRange size request
    obtain ⟨⟨⟨s', index⟩, e⟩, update, h⟩ := Option.map_eq_some_iff.mp h
    cases h
    exact .inr (.inr ⟨b, fileIndex, .add IBar, e, block, update⟩)
  | delFile path draws =>
    simp only [clientMachine, delFile, Option.bind_eq_some_iff] at h
    obtain ⟨⟨b, T₁, draws₁⟩, request, h⟩ := h
    obtain ⟨-, block⟩ := requestBlockIndex_inRange inRange size request
    obtain ⟨⟨⟨s', index⟩, e⟩, update, h⟩ := Option.map_eq_some_iff.mp h
    cases h
    exact .inr (.inr ⟨b, _, .del, e, block, update⟩)

end Steps

/-! ### Over servers that answer alike -/

/-- The client over one server, step by step with the client over another. -/
theorem ServerSim.clientMachine_lockstep {σ' : Type} {cfg : Config}
    {srv : Machine σ (Command Key) (Response Key)}
    {srv' : Machine σ' (Command Key) (Response Key)} (sim : ServerSim cfg srv srv')
    (cr : Cipher Key) (td : Trapdoor τ) (size : cfg.Tiled) {s : σ} {t : σ'} {c : Client τ Key}
    (rel : sim.Rel s t)
    (inRange : c.tables.InRange cfg) (op : ClientOp) :
    Machine.Lockstep (fun p q => sim.Rel p.1 q.1 ∧ p.2 = q.2) Eq
      ((clientMachine cfg cr td srv).step (s, c) op)
      ((clientMachine cfg cr td srv').step (t, c) op) := by
  cases op with
  | searchKeyword keyword =>
    have row := (searchTokenRow_inRange td inRange (lowerCase keyword)).2
    simp only [clientMachine, searchKeyword]
    split
    · exact .some ⟨⟨rel, rfl⟩, rfl⟩
    · next exists_ =>
      refine (sim.searchRow_lockstep c.index rel (row.resolve_left exists_)).map ?_
      rintro ⟨s', index⟩ ⟨t', _⟩ e _ ⟨rel', rfl⟩ rfl -
      exact ⟨⟨rel', rfl⟩, rfl⟩
  | addFile path content draws =>
    simp only [clientMachine, addFile]
    refine .bind_same _ fun ⟨b, T₁, draws₁⟩ request => .bind_same _ fun ⟨j, IBar, T₂⟩ _ => ?_
    have block := (requestBlockIndex_inRange inRange size request).2
    refine (sim.updateColumn_lockstep c.index (.add IBar) rel block size.pos).map ?_
    rintro ⟨s', index⟩ ⟨t', _⟩ e _ ⟨rel', rfl⟩ rfl -
    exact ⟨⟨rel', rfl⟩, rfl⟩
  | delFile path draws =>
    simp only [clientMachine, delFile]
    refine .bind_same _ fun ⟨b, T₁, draws₁⟩ request => ?_
    have block := (requestBlockIndex_inRange inRange size request).2
    refine (sim.updateColumn_lockstep c.index .del rel block size.pos).map ?_
    rintro ⟨s', index⟩ ⟨t', _⟩ e _ ⟨rel', rfl⟩ rfl -
    exact ⟨⟨rel', rfl⟩, rfl⟩

end ImDsse
