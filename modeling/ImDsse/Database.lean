import ImDsse.Allocation
import ImDsse.SearchCorrect
import ImDsse.DiskCorrect

/-!
Searches against the collection of files.

The collection after an operation is the one before it with a file put in, replaced
or taken out. `Indexed` ties it to the client's tables and to the plaintext index:
every path has a column, and the bit of a column is set in the row of each keyword of
its file. Row 0 is left out, since a search takes it for no row. The operations
preserve `Indexed` while `ReadsIndices` holds: no lookup may take an assigned 0 for
"no index" where a file or a keyword depends on it.
-/

namespace ImDsse

open Kit Kit.Bits Kit.Pool

variable {Key : Type} {σ : Type} {τ : Type} [DecidableEq τ]

/-! ### The collection -/

/-- The files of the collection after an operation. Adding a path that is present
replaces its file. -/
def filesAfter (fs : List FileEntry) : ClientOp → List FileEntry
  | .searchKeyword _ => fs
  | .addFile path content _ => ⟨path, content⟩ :: fs.filter (·.path ≠ path)
  | .delFile path _ => fs.filter (·.path ≠ path)

/-- Tables and plaintext index hold the collection. -/
structure Indexed (cfg : Config) (td : Trapdoor τ) (fs : List FileEntry) (T : Tables τ)
    (M : Plain) : Prop where
  columns : Split (fun _ => true) (List.range cfg.maxNumOfFiles) T.tF T.lstFreeColumnIdx
  rows : Split (· ≠ 0) ((List.range cfg.maxNumKeywords).filter (· ≠ 0)) T.tW T.lstFreeRowIdx
  paths : ∀ k, k ∈ T.tF ↔ ∃ f ∈ fs, td.omac f.path = k
  words : ∀ w, Extracted fs w → td.omac w ∈ T.tW
  cells : ∀ r j, r ≠ 0 → r < cfg.matrixRowSize → j < cfg.maxNumOfFiles →
    (M r j = true ↔ ∃ f ∈ fs, ∃ w ∈ f.keywords,
      T.tF.lookup (td.omac f.path) = some j ∧ T.tW.lookup (td.omac w) = some r)

/-- What a step asks of the tables, the collection and the numbers it draws. A keyword
searched is cut off nowhere and, if a file has it, does not have row 0; a file's
column, old or new, is not 0; no keyword of an added file has row 0 if another file
has it too. -/
def ReadsIndices (td : Trapdoor τ) (T : Tables τ) (fs : List FileEntry) : ClientOp → Prop
  | .searchKeyword keyword => 0 ∉ lowerCase keyword ∧
      (keyword = [] → T.tW.lookup td.zero = none ∨ T.tW.lookup td.zero = some 0) ∧
      ((∃ f ∈ fs, lowerCase keyword ∈ f.keywords) →
        T.tW.lookup (td.omac (lowerCase keyword)) ≠ some 0)
  | .addFile path content draws => ColumnReads td T path draws ∧
      ∀ word ∈ extractKeywords [] content, (∃ f ∈ fs, f.path ≠ path ∧ word ∈ f.keywords) →
        T.tW.lookup (td.omac word) ≠ some 0
  | .delFile path _ => T.tF.lookup (td.omac path) ≠ some 0

instance (td : Trapdoor τ) (T : Tables τ) (fs : List FileEntry) (op : ClientOp) :
    Decidable (ReadsIndices td T fs op) :=
  match op with
  | .searchKeyword .. => by unfold ReadsIndices; infer_instance
  | .addFile .. => by unfold ReadsIndices; infer_instance
  | .delFile .. => by unfold ReadsIndices; infer_instance

/-! ### The rows of an added file -/

namespace AssignedRows

variable {td : Trapdoor τ} {s s' : Picks τ} {IBar IBar' : Buf} {words : List Str}
  (h : AssignedRows td s IBar words s' IBar')
include h

theorem split_rows {all : List Nat} (split : Split (· ≠ 0) all s.table s.free) :
    Split (· ≠ 0) all s'.table s'.free := by
  induction h with
  | nil => exact split
  | cons assigned _ _ ih => exact ih (assigned.split split fun _ => rfl)

theorem mem_table {k : τ} : k ∈ s'.table ↔ k ∈ s.table ∨ ∃ w ∈ words, td.omac w = k := by
  induction h with
  | nil => simp
  | @cons _ _ _ _ _ word words _ assigned _ _ ih =>
    rw [ih, assigned.mem_table, List.exists_mem_cons_iff]
    tauto

/-- Keys of other words keep their values. -/
theorem lookup_of_ne {k : τ} (ne : ∀ w ∈ words, td.omac w ≠ k) :
    s'.table.lookup k = s.table.lookup k := by
  induction h with
  | nil => rfl
  | cons assigned _ _ ih =>
    rw [ih fun w mem => ne w (List.mem_cons_of_mem _ mem)]
    exact assigned.lookup_of_ne (Ne.symm (ne _ List.mem_cons_self))

/-- A row other than 0 stays. -/
theorem lookup_kept {k : τ} {r : Nat} (found : s.table.lookup k = some r) (ne : r ≠ 0) :
    s'.table.lookup k = some r := by
  induction h with
  | nil => exact found
  | cons assigned _ _ ih => exact ih (assigned.lookup_kept found ne)

/-- The bits set are those of the words' rows, row 0 aside. -/
theorem bit_iff {r : Nat} (ne : r ≠ 0) : bit IBar' r = true ↔
    bit IBar r = true ∨ ∃ w ∈ words, s'.table.lookup (td.omac w) = some r := by
  induction h with
  | nil => simp
  | @cons s s₁ s' IBar IBar' word words v _ found rest ih =>
    rw [ih, bit_putBitAt, List.exists_mem_cons_iff]
    constructor
    · rintro (set | later)
      · by_cases row : r = v
        · subst row
          exact .inr (.inl (rest.lookup_kept found ne))
        · rw [if_neg row] at set
          exact .inl set
      · exact .inr (.inr later)
    · rintro (set | row | later)
      · refine .inl ?_
        split
        · rfl
        · exact set
      · -- a word that comes back has the row of its last occurrence
        by_cases again : ∃ w ∈ words, td.omac w = td.omac word
        · obtain ⟨w, mem, same⟩ := again
          exact .inr ⟨w, mem, same ▸ row⟩
        · rw [rest.lookup_of_ne fun w mem same => again ⟨w, mem, same⟩, found] at row
          cases row
          exact .inl (if_pos rfl)
      · exact .inr later

end AssignedRows

/-! ### What the operations do to the collection -/

namespace Indexed

variable {cfg : Config} {td : Trapdoor τ} {fs : List FileEntry} {T : Tables τ} {M : Plain}
  (h : Indexed cfg td fs T M)
include h

/-- A search adds at most an entry 0. -/
theorem searched {k : τ} (absent : T.tW.lookup k = none) :
    Indexed cfg td fs { T with tW := T.tW.insert k 0 } M where
  columns := h.columns
  rows := h.rows.mark (fun w found => by rw [absent] at found; cases found) rfl
  paths := h.paths
  words w mem := (AList.mem_insert _).mpr (.inr (h.words w mem))
  cells r j ne hr hj := by
    have same : ∀ w, (T.tW.insert k 0).lookup (td.omac w) = some r ↔
        T.tW.lookup (td.omac w) = some r := by
      intro w
      rw [lookup_insert_if]
      split
      · next here =>
        rw [here, absent]
        constructor
        · intro zero
          exact absurd (Option.some.inj zero).symm ne
        · nofun
      · rfl
    rw [h.cells r j ne hr hj]
    simp only [same]

variable (distinct : Function.Injective td.omac) {path : Str} {columns : Picks τ}
  {draws : Nat → Nat} {j : Nat}
  (present : T.tF.lookup (td.omac path) ≠ some 0)
  (assigned : Assigned 0 ⟨T.tF, T.lstFreeColumnIdx, draws⟩ (td.omac path) columns)
  (found : columns.table.lookup (td.omac path) = some j)
include distinct present assigned found

omit h in
/-- The other columns belong to the other files, before and after. -/
theorem other_columns {f : FileEntry} {j' : Nat} (ne : j' ≠ j) :
    (f.path ≠ path ∧ columns.table.lookup (td.omac f.path) = some j') ↔
      T.tF.lookup (td.omac f.path) = some j' := by
  by_cases same : f.path = path
  · rw [same]
    constructor
    · exact fun both => absurd rfl both.1
    · intro old
      have nonzero : j' ≠ 0 := by
        rintro rfl
        exact present old
      cases found.symm.trans (assigned.lookup_kept old nonzero)
      exact absurd rfl ne
  · rw [assigned.lookup_of_ne (distinct.ne same)]
    exact ⟨And.right, fun column => ⟨same, column⟩⟩

/-- A file is added or replaced. -/
theorem added {content : Option (List Byte)} {rows : Picks τ} {IBar : Buf}
    (assignedRows : AssignedRows td ⟨T.tW, T.lstFreeRowIdx, columns.draws⟩ zeroBuf
      (extractKeywords [] content) rows IBar)
    (shared : ∀ word ∈ extractKeywords [] content,
      (∃ f ∈ fs, f.path ≠ path ∧ word ∈ f.keywords) → T.tW.lookup (td.omac word) ≠ some 0) :
    Indexed cfg td (⟨path, content⟩ :: fs.filter (·.path ≠ path))
      ⟨rows.table, columns.table, columns.free, rows.free⟩ (M.setColumn j (bit IBar)) where
  columns := assigned.split h.columns fun zero => absurd zero present
  rows := assignedRows.split_rows h.rows
  paths k := by
    rw [assigned.mem_table, h.paths, List.exists_mem_cons_iff]
    constructor
    · rintro (rfl | ⟨f, mem, rfl⟩)
      · exact .inl rfl
      · by_cases same : f.path = path
        · exact .inl (by rw [same])
        · exact .inr ⟨f, List.mem_filter.mpr ⟨mem, decide_eq_true same⟩, rfl⟩
    · rintro (rfl | ⟨f, mem, rfl⟩)
      · exact .inl rfl
      · exact .inr ⟨f, (List.mem_filter.mp mem).1, rfl⟩
  words w := by
    rintro ⟨f, mem, word⟩
    rw [assignedRows.mem_table]
    rcases List.mem_cons.mp mem with rfl | mem
    · exact .inr ⟨w, word, rfl⟩
    · exact .inl (h.words w ⟨f, (List.mem_filter.mp mem).1, word⟩)
  cells r j' ne hr hj := by
    have columns' := assigned.split h.columns fun zero => absurd zero present
    rw [Plain.setColumn, List.exists_mem_cons_iff]
    by_cases here : j' = j
    · rw [if_pos here, here, assignedRows.bit_iff ne, bit_zeroBuf]
      constructor
      · rintro (set | ⟨w, mem, row⟩)
        · cases set
        · exact .inl ⟨w, mem, found, row⟩
      · rintro (⟨w, mem, -, row⟩ | ⟨f, mem, w, -, column, -⟩)
        · exact .inr ⟨w, mem, row⟩
        · -- no other file has the column
          have other := of_decide_eq_true (List.mem_filter.mp mem).2
          exact absurd (distinct (columns'.injective column found rfl)) other
    · rw [if_neg here, h.cells r j' ne hr hj]
      have row : ∀ f ∈ fs, f.path ≠ path → ∀ w ∈ f.keywords,
          (rows.table.lookup (td.omac w) = some r ↔ T.tW.lookup (td.omac w) = some r) := by
        intro f mem other w word
        by_cases inFile : ∃ w' ∈ extractKeywords [] content, td.omac w' = td.omac w
        · obtain ⟨w', mem', same⟩ := inFile
          cases distinct same
          obtain ⟨v, old⟩ := exists_lookup (h.words w ⟨f, mem, word⟩)
          have nonzero : v ≠ 0 := by
            rintro rfl
            exact shared w mem' ⟨f, mem, other, word⟩ old
          rw [assignedRows.lookup_kept old nonzero, old]
        · rw [assignedRows.lookup_of_ne fun w' mem' same => inFile ⟨w', mem', same⟩]
      constructor
      · rintro ⟨f, mem, w, word, column, old⟩
        obtain ⟨other, column'⟩ :=
          (other_columns distinct present assigned found here).mpr column
        exact .inr ⟨f, List.mem_filter.mpr ⟨mem, decide_eq_true other⟩, w, word, column',
          (row f mem other w word).mpr old⟩
      · rintro (⟨w, -, column, -⟩ | ⟨f, mem, w, word, column, new⟩)
        · exact absurd (Option.some.inj (column.symm.trans found)) here
        · obtain ⟨mem, other⟩ := List.mem_filter.mp mem
          have other := of_decide_eq_true other
          exact ⟨f, mem, w, word,
            (other_columns distinct present assigned found here).mp ⟨other, column⟩,
            (row f mem other w word).mp new⟩

/-- A file is deleted, or was not there. -/
theorem deleted : Indexed cfg td (fs.filter (·.path ≠ path))
    { T with
      tF := columns.table.erase (td.omac path)
      lstFreeColumnIdx := columns.free ++ [j] } (M.setColumn j fun _ => false) where
  columns := (assigned.split h.columns fun zero => absurd zero present).takeBack found
  rows := h.rows
  paths k := by
    rw [AList.mem_erase, assigned.mem_table, h.paths]
    constructor
    · rintro ⟨ne, rfl | ⟨f, mem, rfl⟩⟩
      · exact absurd rfl ne
      · have other : f.path ≠ path := fun same => ne (by rw [same])
        exact ⟨f, List.mem_filter.mpr ⟨mem, decide_eq_true other⟩, rfl⟩
    · rintro ⟨f, mem, rfl⟩
      obtain ⟨mem, other⟩ := List.mem_filter.mp mem
      exact ⟨distinct.ne (of_decide_eq_true other), .inr ⟨f, mem, rfl⟩⟩
  words w := by
    rintro ⟨f, mem, word⟩
    exact h.words w ⟨f, (List.mem_filter.mp mem).1, word⟩
  cells r j' ne hr hj := by
    have columns' := assigned.split h.columns fun zero => absurd zero present
    have erased : ∀ f ∈ fs.filter (·.path ≠ path),
        (columns.table.erase (td.omac path)).lookup (td.omac f.path) =
          columns.table.lookup (td.omac f.path) := fun f mem =>
      AList.lookup_erase_ne (distinct.ne (of_decide_eq_true (List.mem_filter.mp mem).2))
    rw [Plain.setColumn]
    by_cases here : j' = j
    · rw [if_pos here, here]
      constructor
      · nofun
      · rintro ⟨f, mem, w, -, column, -⟩
        rw [erased f mem] at column
        have other := of_decide_eq_true (List.mem_filter.mp mem).2
        exact absurd (distinct (columns'.injective column found rfl)) other
    · rw [if_neg here, h.cells r j' ne hr hj]
      constructor
      · rintro ⟨f, mem, w, word, column, row⟩
        obtain ⟨other, column'⟩ :=
          (other_columns distinct present assigned found here).mpr column
        have kept : f ∈ fs.filter (·.path ≠ path) :=
          List.mem_filter.mpr ⟨mem, decide_eq_true other⟩
        exact ⟨f, kept, w, word, (erased f kept).trans column', row⟩
      · rintro ⟨f, mem, w, word, column, row⟩
        rw [erased f mem] at column
        obtain ⟨mem, other⟩ := List.mem_filter.mp mem
        exact ⟨f, mem, w, word, (other_columns distinct present assigned found here).mp
          ⟨of_decide_eq_true other, column⟩, row⟩

end Indexed

/-! ### A step of client and server -/

omit [DecidableEq τ] in
/-- A string without NUL is its own `c_str()`. -/
theorem Trapdoor.generate_cStr (td : Trapdoor τ) {w : Str} (text : 0 ∉ w) (ne : w ≠ []) :
    td.generate (cStr w) = td.omac w := by
  have whole : cStr w = w := by
    refine List.takeWhile_eq_self_iff.mpr fun c mem => decide_eq_true ?_
    rintro rfl
    exact text mem
  rw [whole, Trapdoor.generate, if_pos (List.length_pos_of_ne_nil ne)]

section Steps

variable {cfg : Config} {cr : Cipher Key} {td : Trapdoor τ}
  {srv : Machine σ (Command Key) (Response Key)} (ref : Refinement cfg cr srv)

/-- Client and server hold the collection: the tables do together with some plaintext
index, which is the one the server's cells encrypt. -/
def Holds (td : Trapdoor τ) (p : σ × Client τ Key) (fs : List FileEntry) : Prop :=
  ∃ M t, ref.Rel p.1 t ∧ Consistent cfg cr M t p.2.index ∧ Indexed cfg td fs p.2.tables M

variable {ref} (size : cfg.Sized) {p p' : σ × Client τ Key} {fs : List FileEntry}
  {report : Report}
include size

/-- A step of the index over the server, seen at the plaintext. -/
theorem Refinement.index_step {M : Plain} {s : σ} {t : CellStore} {c : IndexClient Key}
    {i : IndexStep} {q : σ × IndexClient Key} {e : Event Key} (rel : ref.Rel s t)
    (consistent : Consistent cfg cr M t c) (valid : i.Valid cfg)
    (step : (indexMachine cfg cr srv).step (s, c) i = some (q, e)) :
    ∃ M' t', (plainMachine cfg).step M i = some (M', e.result) ∧ ref.Rel q.1 t' ∧
      Consistent cfg cr M' t' q.2 := by
  have agree := ref.indexMachine_lockstep size.tiled (p := (s, c)) (q := (t, c)) ⟨rel, rfl⟩ valid
  obtain ⟨⟨t', c'⟩, e', store, ⟨rel', same⟩, rfl⟩ := agree.of_left step
  obtain ⟨M', plain, consistent'⟩ :=
    (stepped_of_step size consistent valid store).agrees size consistent valid
  obtain ⟨s', _⟩ := q
  cases same
  exact ⟨M', t', plain, rel', consistent'⟩

/-- It goes on unless a row is searched whose counter is at its limit. -/
theorem Refinement.index_goes_on {M : Plain} {s : σ} {t : CellStore} {c : IndexClient Key}
    {i : IndexStep} (rel : ref.Rel s t) (consistent : Consistent cfg cr M t c)
    (valid : i.Valid cfg) (limit : ∀ r, i.searches r = true → c.keywordCounterArr r ≠ ulongMax) :
    ∃ q, (indexMachine cfg cr srv).step (s, c) i = some q := by
  have agree := ref.indexMachine_lockstep size.tiled (p := (s, c)) (q := (t, c)) ⟨rel, rfl⟩ valid
  obtain ⟨q, store⟩ := step_goes_on size consistent limit
  obtain ⟨s', e, step, -⟩ := agree.of_right store
  exact ⟨_, step⟩

omit size in
/-- Columns of the table are columns of the matrix. -/
theorem Indexed.column_lt {T : Tables τ} {M : Plain} (h : Indexed cfg td fs T M) {k : τ} {j : Nat}
    (found : T.tF.lookup k = some j) : j < cfg.maxNumOfFiles :=
  List.mem_range.mp (h.columns.mem_all (.inl (mem_values_of_lookup found)) rfl)

omit size in
/-- Rows of the table are rows of the matrix. -/
theorem Indexed.row_lt {T : Tables τ} {M : Plain} (h : Indexed cfg td fs T M) {k : τ} {r : Nat}
    (found : T.tW.lookup k = some r) (ne : r ≠ 0) : r < cfg.maxNumKeywords := by
  have mem := h.rows.mem_all (.inl (mem_values_of_lookup found)) (decide_eq_true ne)
  exact List.mem_range.mp (List.mem_filter.mp mem).1

variable (distinct : Function.Injective td.omac)
include distinct

/-- A step that reads indices as they were assigned keeps the collection. -/
theorem Holds.step {op : ClientOp} (h : Holds ref td p fs)
    (reads : ReadsIndices td p.2.tables fs op)
    (step : (clientMachine cfg cr td srv).step p op = some (p', report)) :
    Holds ref td p' (filesAfter fs op) := by
  obtain ⟨M, t, rel, consistent, indexed⟩ := h
  cases op with
  | searchKeyword keyword =>
    rcases searchKeyword_cases step with ⟨absent, -, rfl⟩ | ⟨v, -, -, -, rfl⟩ |
      ⟨row, e, found, ne, search, tables, -⟩
    · exact ⟨M, t, rel, consistent, indexed.searched absent⟩
    · exact ⟨M, t, rel, consistent, indexed⟩
    · obtain ⟨M', t', plain, rel', consistent'⟩ :=
        ref.index_step size rel consistent (i := .search row) (indexed.row_lt found ne) search
      obtain ⟨rfl, -⟩ := Prod.mk.inj (Option.some.inj plain)
      rw [← tables] at indexed
      exact ⟨M, t', rel', consistent', indexed⟩
  | addFile path content draws =>
    obtain ⟨columnReads, shared⟩ := reads
    obtain ⟨j, columns, rows, IBar, e, assigned, found, assignedRows, tables, update, -⟩ :=
      addFile_cases columnReads step
    have added := indexed.added distinct columnReads.present assigned found assignedRows shared
    obtain ⟨M', t', plain, rel', consistent'⟩ :=
      ref.index_step size rel consistent (i := .update j (.add IBar)) (added.column_lt found) update
    obtain ⟨rfl, -⟩ := Prod.mk.inj (Option.some.inj plain)
    rw [← tables] at added
    exact ⟨_, t', rel', consistent', added⟩
  | delFile path draws =>
    obtain ⟨j, columns, e, assigned, found, tables, update, -⟩ := delFile_cases step
    have deleted := indexed.deleted distinct reads assigned found
    have split := assigned.split indexed.columns fun zero => absurd zero reads
    have column : j < cfg.maxNumOfFiles :=
      List.mem_range.mp (split.mem_all (.inl (mem_values_of_lookup found)) rfl)
    obtain ⟨M', t', plain, rel', consistent'⟩ :=
      ref.index_step size rel consistent (i := .update j .del) column update
    obtain ⟨rfl, -⟩ := Prod.mk.inj (Option.some.inj plain)
    rw [← tables] at deleted
    exact ⟨_, t', rel', consistent', deleted⟩

/-- A search reports the columns of the files that have the keyword. -/
theorem Holds.search {keyword : Str} (h : Holds ref td p fs)
    (reads : ReadsIndices td p.2.tables fs (.searchKeyword keyword))
    (step : (clientMachine cfg cr td srv).step p (.searchKeyword keyword) = some (p', report)) :
    ∃ ids, report = .searched ids ∧ ids.Pairwise (· < ·) ∧
      ∀ j, j ∈ ids ↔ ∃ f ∈ fs, lowerCase keyword ∈ f.keywords ∧
        p.2.tables.tF.lookup (td.omac f.path) = some j := by
  obtain ⟨M, t, rel, consistent, indexed⟩ := h
  obtain ⟨text, empty, first⟩ := reads
  have cases := searchKeyword_cases step
  have nothing : (∀ f ∈ fs, lowerCase keyword ∉ f.keywords) → report = .searched [] →
      ∃ ids, report = .searched ids ∧ ids.Pairwise (· < ·) ∧
        ∀ j, j ∈ ids ↔ ∃ f ∈ fs, lowerCase keyword ∈ f.keywords ∧
          p.2.tables.tF.lookup (td.omac f.path) = some j := by
    intro none isEmpty
    refine ⟨[], isEmpty, .nil, fun j => ⟨nofun, ?_⟩⟩
    rintro ⟨f, mem, word, -⟩
    exact absurd word (none f mem)
  by_cases nil : keyword = []
  · subst nil
    refine nothing (fun f _ => extractKeywords_ne_nil List.not_mem_nil f.content) ?_
    rcases cases with ⟨-, report, -⟩ | ⟨v, -, -, report, -⟩ | ⟨row, e, found, ne, -⟩
    · exact report
    · exact report
    · have unassigned : p.2.tables.tW.lookup (td.generate []) = none ∨
          p.2.tables.tW.lookup (td.generate []) = some 0 := empty rfl
      have found : p.2.tables.tW.lookup (td.generate []) = some row := found
      rw [found] at unassigned
      rcases unassigned with missing | zero
      · cases missing
      · exact absurd (Option.some.inj zero) ne
  · rw [td.generate_cStr text fun isNil => nil (List.map_eq_nil_iff.mp isNil)] at cases
    rcases cases with ⟨absent, report, -⟩ | ⟨v, found, mark, report, -⟩ |
      ⟨row, e, found, ne, search, -, report⟩
    · refine nothing (fun f mem word => ?_) report
      exact AList.lookup_eq_none.mp absent (indexed.words _ ⟨f, mem, word⟩)
    · refine nothing (fun f mem word => ?_) report
      rcases mark with rfl | rfl
      · exact first ⟨f, mem, word⟩ found
      · have row := indexed.row_lt found (Nat.succ_ne_zero _)
        exact absurd row (Nat.not_lt.mpr (Nat.le_succ _))
    · have row_lt := indexed.row_lt found ne
      obtain ⟨M', t', plain, -⟩ := ref.index_step size rel consistent (i := .search row) row_lt search
      obtain ⟨-, result⟩ := Prod.mk.inj (Option.some.inj plain)
      rw [← result] at report
      refine ⟨M.searchRow cfg row, report, List.pairwise_lt_range.filter _, fun j => ?_⟩
      rw [Plain.searchRow, List.mem_filter, List.mem_range]
      constructor
      · rintro ⟨hj, set⟩
        obtain ⟨f, mem, w, word, column, same⟩ := (indexed.cells row j ne row_lt hj).mp set
        have key := indexed.rows.injective same found (decide_eq_true ne)
        exact ⟨f, mem, distinct key ▸ word, column⟩
      · rintro ⟨f, mem, word, column⟩
        have hj := indexed.column_lt column
        exact ⟨hj, (indexed.cells row j ne row_lt hj).mpr ⟨f, mem, _, word, column, found⟩⟩

end Steps

/-! ### When an operation goes on -/

/-- What a step uses up: a row searched may be searched again; a new column is free, and
so is a row for every keyword. -/
def Suffices (td : Trapdoor τ) (c : Client τ Key) : ClientOp → Prop
  | .searchKeyword keyword => ∀ row,
      c.tables.tW.lookup (td.generate (cStr (lowerCase keyword))) = some row →
        c.index.keywordCounterArr row ≠ ulongMax
  | .addFile path content _ =>
      (c.tables.lstFreeColumnIdx ≠ [] ∨ td.omac path ∈ c.tables.tF) ∧
      (extractKeywords [] content).length ≤ c.tables.lstFreeRowIdx.length
  | .delFile path _ => c.tables.lstFreeColumnIdx ≠ [] ∨ td.omac path ∈ c.tables.tF

theorem assignRows_goes_on {td : Trapdoor τ} {words : List Str} {s : Picks τ} (IBar : Buf)
    (enough : words.length ≤ s.free.length) : ∃ out, assignRows td s IBar words = some out := by
  induction words generalizing s IBar with
  | nil => exact ⟨_, rfl⟩
  | cons word words ih =>
    have left : s.free ≠ [] :=
      List.ne_nil_of_length_pos (Nat.lt_of_lt_of_le (Nat.succ_pos _) enough)
    obtain ⟨s₁, assign⟩ : ∃ s₁, assignIndex 0 s (td.omac word) = some s₁ :=
      assignIndex_goes_on (.inl left)
    have assigned := assignIndex_cases (.inl rfl) assign
    obtain ⟨r, found, -⟩ := assigned.lookup_self
    have fewer : words.length ≤ s₁.free.length := by
      have length := assigned.free_length
      rw [List.length_cons] at enough
      omega
    simp only [assignRows, assign, Option.bind_some, index_of_lookup found]
    exact ih _ fewer

section Progress

variable {cfg : Config} {cr : Cipher Key} {td : Trapdoor τ}
  {srv : Machine σ (Command Key) (Response Key)} {ref : Refinement cfg cr srv} (size : cfg.Sized)
include size

omit size in
theorem requestBlockIndex_goes_on {fs : List FileEntry} {T : Tables τ} {M : Plain} {path : Str}
    (h : Indexed cfg td fs T M) (present : T.tF.lookup (td.omac path) ≠ some 0)
    (enough : T.lstFreeColumnIdx ≠ [] ∨ td.omac path ∈ T.tF) (draws : Nat → Nat) :
    ∃ out, requestBlockIndex cfg td path T draws = some out := by
  obtain ⟨s, assign⟩ : ∃ s, assignIndex 0 ⟨T.tF, T.lstFreeColumnIdx, draws⟩ (td.omac path) =
      some s := by
    refine assignIndex_goes_on (enough.imp_right fun mem => ?_)
    obtain ⟨j, found⟩ := exists_lookup mem
    exact ⟨j, found, fun zero => present (zero ▸ found)⟩
  obtain ⟨b, request⟩ := requestBlockIndex_of_assigned (Split.within h.columns) assign
  exact ⟨_, request⟩

/-- An operation goes on while rows, columns and searches suffice. -/
theorem Holds.goes_on {p : σ × Client τ Key} {fs : List FileEntry} {op : ClientOp}
    (h : Holds ref td p fs) (reads : ReadsIndices td p.2.tables fs op)
    (enough : Suffices td p.2 op) : ∃ out, (clientMachine cfg cr td srv).step p op = some out := by
  obtain ⟨M, t, rel, consistent, indexed⟩ := h
  have column : ∀ {path : Str} {draws : Nat → Nat} {s : Picks τ} {j : Nat},
      p.2.tables.tF.lookup (td.omac path) ≠ some 0 →
      Assigned 0 ⟨p.2.tables.tF, p.2.tables.lstFreeColumnIdx, draws⟩ (td.omac path) s →
      s.table.lookup (td.omac path) = some j → j < cfg.maxNumOfFiles := by
    intro path draws s j present assigned found
    have split := assigned.split indexed.columns fun zero => absurd zero present
    exact List.mem_range.mp (split.mem_all (.inl (mem_values_of_lookup found)) rfl)
  cases op with
  | searchKeyword keyword =>
    show ∃ out, searchKeyword cfg cr td srv p.1 p.2 (lowerCase keyword) = some out
    unfold searchKeyword searchTokenRow
    cases found : p.2.tables.tW.lookup (td.generate (cStr (lowerCase keyword))) with
    | none =>
      rw [index_of_absent found]
      simp only [ne_eq, not_true_eq_false, if_false, if_true]
      exact ⟨_, rfl⟩
    | some row =>
      rw [index_of_lookup found]
      dsimp only
      by_cases zero : row = 0
      · simp only [zero, ne_eq, not_true_eq_false, if_false, if_true]
        exact ⟨_, rfl⟩
      · rw [if_pos zero]
        split
        · exact ⟨_, rfl⟩
        · obtain ⟨q, search⟩ := ref.index_goes_on size rel consistent (i := .search row)
            (indexed.row_lt found zero) fun r same => by
              rw [← of_decide_eq_true same]
              exact enough row found
          have search : searchRow cfg cr srv p.1 p.2.index row = some q := search
          rw [search]
          exact ⟨_, rfl⟩
  | addFile path content draws =>
    obtain ⟨columnReads, -⟩ := reads
    obtain ⟨out, request⟩ :=
      requestBlockIndex_goes_on indexed columnReads.present enough.1 draws
    obtain ⟨b, T, draws'⟩ := out
    obtain ⟨s, j, assigned, found, rfl, rfl, rfl⟩ := requestBlockIndex_spec request
    obtain ⟨s', assign⟩ : ∃ s', assignIndex 0 s (td.omac path) = some s' :=
      assignIndex_goes_on (.inr ⟨j, found, columnReads.column_ne assigned found⟩)
    cases (assignIndex_cases (.inl rfl) assign).again found (columnReads.column_ne assigned found)
    obtain ⟨⟨rows, IBar⟩, words⟩ : ∃ out, assignRows td
        ⟨p.2.tables.tW, p.2.tables.lstFreeRowIdx, s.draws⟩ zeroBuf (extractKeywords [] content) =
          some out := assignRows_goes_on zeroBuf enough.2
    obtain ⟨q, update⟩ := ref.index_goes_on size rel consistent (i := .update j (.add IBar))
      (column columnReads.present assigned found) fun _ same => by cases same
    have update : updateColumn cfg cr srv p.1 p.2.index (j / cfg.encryptBlockSize) j (.add IBar) =
      some q := update
    simp only [clientMachine, addFile, request, addTokenIndex, assign, words, Option.bind_some,
      index_of_lookup found, update]
    exact ⟨_, rfl⟩
  | delFile path draws =>
    obtain ⟨out, request⟩ := requestBlockIndex_goes_on indexed reads enough draws
    obtain ⟨b, T, draws'⟩ := out
    obtain ⟨s, j, assigned, found, rfl, rfl, rfl⟩ := requestBlockIndex_spec request
    obtain ⟨q, update⟩ := ref.index_goes_on size rel consistent (i := .update j .del)
      (column reads assigned found) fun _ same => by cases same
    have update : updateColumn cfg cr srv p.1 p.2.index (j / cfg.encryptBlockSize) j .del =
      some q := update
    have token : delTokenIndex td path
      { p.2.tables with tF := s.table, lstFreeColumnIdx := s.free } = _ := delTokenIndex_eq found
    simp only [clientMachine, delFile, request, Option.bind_some, token, update]
    exact ⟨_, rfl⟩

end Progress

/-! ### From a setup on -/

section Start

variable {cfg : Config} {cr : Cipher Key} {td : Trapdoor τ} {fs : List FileEntry}
  {out : SetupState τ}

/-- The index and the tables of a setup hold the files it went through. -/
theorem SetUp.indexed (size : cfg.Sized) (setUp : SetUp cfg cr td fs out) :
    ∃ M, Consistent cfg cr M ((out.server cfg).cells cfg) (out.client cfg cr).index ∧
      Indexed cfg td fs out.tables M := by
  refine ⟨fun r j => bit (cfg.matrixGrid.matrix out.files r) j ^^ cr.ks (cr.genRowKey r 1)
    (j / cfg.encryptBlockSize) 1 (j % cfg.encryptBlockSize), ⟨?_, ?_, ?_, ?_⟩, ?_⟩
  · intro r j hr hj
    have searched : (out.client cfg cr).index.keywordCounterArr r = 1 :=
      setUp.keywordCounters r hr
    have updated : (out.client cfg cr).index.blockCounterArr (j / cfg.encryptBlockSize) = 1 :=
      setUp.blockCounters _ (size.tiled.block_lt hj)
    rw [RamServer.cells, cellsOf_cell hr hj, fetchedCounter_one _ searched, updated,
      Bool.xor_assoc, Bool.xor_self, Bool.xor_false]
    rfl
  · exact fun _ b hb => cellsOf_counter hb
  · intro r hr
    have one : (out.client cfg cr).index.keywordCounterArr r = 1 := setUp.keywordCounters r hr
    rw [one]
    exact ⟨Nat.le_refl 1, by decide⟩
  · intro _ r hr
    have one := setUp.keywordCounters r hr
    exact ⟨one, (pregenerateRowKeys_apply cfg cr _ hr).trans (by rw [one])⟩
  · refine ⟨setUp.columns, setUp.rows.restrict _, setUp.paths, fun w word => ?_,
      fun r j _ hr hj => setUp.cells r j hr ?_⟩
    · exact (setUp.keywords _).mpr ⟨w, word, rfl⟩
    · rwa [size.tiled.matrixColSize_mul]

/-- A server on the files of a setup. -/
def SetupState.disk (out : SetupState τ) (s : DiskServer) : DiskServer :=
  { s with
    files := out.files
    blockCounterArr := out.blockCounterArr }

/-- It holds the index the server in memory loads. -/
theorem SetUp.onFiles (setUp : SetUp cfg cr td fs out) (s : DiskServer) :
    OnFiles cfg (out.disk s) (out.server cfg) where
  formed := ⟨setUp.formed, fun server => (setUp.states server).1⟩
  same := SameIndex.refl cfg _

end Start

section Run

variable {cfg : Config} (size : cfg.Sized) (pieces : cfg.Pieces) {cr : Cipher Key}
  {td : Trapdoor τ} (distinct : Function.Injective td.omac)
  {srv : Machine σ (Command Key) (Response Key)} (ref : Refinement cfg cr srv)
include size pieces distinct

/-- From any setup on, over any server that behaves as a store, and along every run
whose steps read indices as they were assigned: each file of the collection has a
column, the next operation goes on while rows and columns suffice, and a search
reports exactly the columns of the files that have the keyword, each once. -/
theorem search_reports_files {path : Str} {db : Listing} {dict : List Str}
    {kc bc draws : Nat → Nat} {files : PieceFiles} {out : SetupState τ}
    (setup : setupDataStructure cfg cr td path db dict kc bc draws files = some out) {s₀ : σ}
    (rel : ref.Rel s₀ ((out.server cfg).cells cfg)) {ops : List ClientOp} {s : σ}
    {c : Client τ Key} {fs : List FileEntry}
    (reads : ((clientMachine cfg cr td srv).track filesAfter).Along
      (fun p op => ReadsIndices td p.1.2.tables p.2 op)
      ((s₀, out.client cfg cr), db.files path) ops)
    (run : ((clientMachine cfg cr td srv).track filesAfter).exec
      ((s₀, out.client cfg cr), db.files path) ops = some ((s, c), fs)) :
    (∀ f ∈ fs, ∃ j, c.tables.tF.lookup (td.omac f.path) = some j) ∧
    (∀ op, ReadsIndices td c.tables fs op → Suffices td c op →
      ∃ p' report, (clientMachine cfg cr td srv).step (s, c) op = some (p', report)) ∧
    ∀ keyword p' report, ReadsIndices td c.tables fs (.searchKeyword keyword) →
      (clientMachine cfg cr td srv).step (s, c) (.searchKeyword keyword) = some (p', report) →
      ∃ ids, report = .searched ids ∧ ids.Pairwise (· < ·) ∧
        ∀ j, j ∈ ids ↔ ∃ f ∈ fs, lowerCase keyword ∈ f.keywords ∧
          c.tables.tF.lookup (td.omac f.path) = some j := by
  have setUp := (setupDataStructure_spec size.blockSize pieces cr (sizesPass_of_setup setup)
    kc bc draws files).1 out setup
  obtain ⟨M, consistent, indexed⟩ := setUp.indexed size
  have holds := Machine.invariant (fun (p : (σ × Client τ Key) × List FileEntry) =>
      Holds ref td p.1 p.2)
    (fun p op p' report inv good step => by
      obtain ⟨step, files⟩ := Machine.track_step.mp step
      rw [files]
      exact inv.step size distinct good step)
    ⟨M, _, rel, consistent, indexed⟩ reads run
  refine ⟨fun f mem => ?_, fun op good enough => ?_, fun keyword p' report good step => ?_⟩
  · obtain ⟨M, t, -, -, indexed⟩ := holds
    exact exists_lookup ((indexed.paths _).mpr ⟨f, mem, rfl⟩)
  · obtain ⟨⟨p', report⟩, step⟩ := holds.goes_on size good enough
    exact ⟨p', report, step⟩
  · exact holds.search size distinct good step

end Run

/-- The small client over a server, with its collection. -/
def smallMachine (srv : Machine σ (Command (Option (Nat × Nat))) (Response (Option (Nat × Nat)))) :
    Machine ((σ × Client Str (Option (Nat × Nat))) × List FileEntry) ClientOp Report :=
  (clientMachine (smallConfig 1 false) smallCipher smallTrapdoor srv).track filesAfter

/-- After "A" was searched, "h" added and "f" deleted, over the server in memory and over
the server on disk. -/
theorem search_reports_files_small : ∃ out, smallSetup = some out ∧
    (∃ s c fs, (smallMachine (ramServer (smallConfig 1 false) smallCipher)).exec
        ((out.server (smallConfig 1 false), out.client (smallConfig 1 false) smallCipher),
          smallDb.files [0x2f#8]) smallOps = some ((s, c), fs) ∧
      ∀ f ∈ fs, ∃ j, c.tables.tF.lookup f.path = some j) ∧
    ∃ s c fs, (smallMachine (diskServer (smallConfig 1 false) smallCipher)).exec
        ((out.disk blankDisk, out.client (smallConfig 1 false) smallCipher),
          smallDb.files [0x2f#8]) smallOps = some ((s, c), fs) ∧
      ∀ f ∈ fs, ∃ j, c.tables.tF.lookup f.path = some j := by
  have evaluated : smallSetup.map (fun out =>
      ((smallMachine (ramServer (smallConfig 1 false) smallCipher)).check
          (fun p op => decide (ReadsIndices smallTrapdoor p.1.2.tables p.2 op))
          ((out.server (smallConfig 1 false), out.client (smallConfig 1 false) smallCipher),
            smallDb.files [0x2f#8]) smallOps &&
        ((smallMachine (ramServer (smallConfig 1 false) smallCipher)).exec
          ((out.server (smallConfig 1 false), out.client (smallConfig 1 false) smallCipher),
            smallDb.files [0x2f#8]) smallOps).isSome) &&
      ((smallMachine (diskServer (smallConfig 1 false) smallCipher)).check
          (fun p op => decide (ReadsIndices smallTrapdoor p.1.2.tables p.2 op))
          ((out.disk blankDisk, out.client (smallConfig 1 false) smallCipher),
            smallDb.files [0x2f#8]) smallOps &&
        ((smallMachine (diskServer (smallConfig 1 false) smallCipher)).exec
          ((out.disk blankDisk, out.client (smallConfig 1 false) smallCipher),
            smallDb.files [0x2f#8]) smallOps).isSome)) = some true := by
    decide +kernel
  obtain ⟨out, setup, both⟩ := Option.map_eq_some_iff.mp evaluated
  obtain ⟨memory, disk⟩ := Bool.and_eq_true_iff.mp both
  obtain ⟨goodRam, goesRam⟩ := Bool.and_eq_true_iff.mp memory
  obtain ⟨goodDisk, goesDisk⟩ := Bool.and_eq_true_iff.mp disk
  have size := smallConfig_sized false (.inl rfl) (Nat.one_dvd 8)
  have pieces := smallConfig_pieces false (Nat.one_dvd 8)
  have onDisk : (smallConfig 1 false).OnDisk := ⟨by decide, by decide, by decide, by decide⟩
  have setUp := (setupDataStructure_spec size.blockSize pieces smallCipher
    (sizesPass_of_setup setup) _ _ _ _).1 out setup
  refine ⟨out, setup, ?_, ?_⟩
  · obtain ⟨⟨⟨s, c⟩, fs⟩, run⟩ := Option.isSome_iff_exists.mp goesRam
    exact ⟨s, c, fs, run, (search_reports_files size pieces Function.injective_id
      (ramRefinement size.tiled smallCipher) setup rfl
      (Machine.along_of_check (fun _ _ h => of_decide_eq_true h) goodRam) run).1⟩
  · obtain ⟨⟨⟨s, c⟩, fs⟩, run⟩ := Option.isSome_iff_exists.mp goesDisk
    exact ⟨s, c, fs, run, (search_reports_files size pieces Function.injective_id
      (diskRefinement onDisk size smallCipher) setup ⟨_, setUp.onFiles blankDisk, rfl⟩
      (Machine.along_of_check (fun _ _ h => of_decide_eq_true h) goodDisk) run).1⟩

/-- The keyword "b" of file "f" has row 0. A search for it right after the setup reports
no column, though "f" has column 1. -/
theorem search_misses_file : ∃ out p', smallSetup = some out ∧
    (clientMachine (smallConfig 1 false) smallCipher smallTrapdoor
      (ramServer (smallConfig 1 false) smallCipher)).step
        (out.server (smallConfig 1 false), out.client (smallConfig 1 false) smallCipher)
        (.searchKeyword [0x62#8]) = some (p', .searched []) ∧
    ∃ f ∈ smallDb.files [0x2f#8], lowerCase [0x62#8] ∈ f.keywords ∧
      out.tables.tF.lookup (smallTrapdoor.omac f.path) = some 1 := by
  have evaluated : (smallSetup.bind fun out =>
      ((clientMachine (smallConfig 1 false) smallCipher smallTrapdoor
        (ramServer (smallConfig 1 false) smallCipher)).step
          (out.server (smallConfig 1 false), out.client (smallConfig 1 false) smallCipher)
          (.searchKeyword [0x62#8])).map fun p =>
        (p.2, decide (∃ f ∈ smallDb.files [0x2f#8], lowerCase [0x62#8] ∈ f.keywords ∧
          out.tables.tF.lookup (smallTrapdoor.omac f.path) = some 1))) =
      some (.searched [], true) := by
    decide +kernel
  obtain ⟨out, setup, searched⟩ := Option.bind_eq_some_iff.mp evaluated
  obtain ⟨⟨p', report⟩, step, both⟩ := Option.map_eq_some_iff.mp searched
  obtain ⟨rfl, has⟩ := Prod.mk.inj both
  exact ⟨out, p', setup, step, of_decide_eq_true has⟩

end ImDsse
