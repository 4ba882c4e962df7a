import ImDsse.Client
import ImDsse.SetupCorrect

/-!
The assignment of rows and columns.

After a setup every row and every column is either the value of one key or in its
free list. The operations keep it so unless one of their lookups reads or leaves
behind a 0 that means something else: the functions take the value 0 for "no index",
and `operator[]` inserts it, yet row 0 and column 0 are assigned like the others.
`AssignsOnce` is the condition on a step, on the tables before it and the numbers
it draws.
-/

namespace ImDsse

open Kit Kit.Bits Kit.Pool

variable {Key : Type} {σ : Type} {τ : Type} [DecidableEq τ]

/-! ### From a setup on -/

namespace SetupState

variable (cfg : Config) (out : SetupState τ)

/-- The index the server loads after a setup. -/
def server : RamServer :=
  ⟨cfg.matrixGrid.matrix out.files, cfg.stateGrid.matrix out.files, out.blockCounterArr⟩

/-- The client after a setup. The row keys are used where the client decrypts. -/
def client (cr : Cipher Key) : Client τ Key :=
  ⟨out.tables, out.keywordCounterArr, out.blockCounterArr,
    pregenerateRowKeys cfg cr out.keywordCounterArr⟩

end SetupState

/-! ### The condition on a step -/

/-- Every row and every column is assigned once or free once. -/
structure Allocated (cfg : Config) (T : Tables τ) : Prop where
  columns : Split (fun _ => true) (List.range cfg.maxNumOfFiles) T.tF T.lstFreeColumnIdx
  rows : Split (fun _ => true) (List.range cfg.maxNumKeywords) T.tW T.lstFreeRowIdx

/-- A keyword searched has an entry; a file's column, old or new, is not 0; no keyword
of an added file has row 0, and none is looked up again after it was given row 0. -/
def AssignsOnce (td : Trapdoor τ) (T : Tables τ) : ClientOp → Prop
  | .searchKeyword keyword => td.generate (cStr (lowerCase keyword)) ∈ T.tW
  | .addFile path content draws => ColumnReads td T path draws ∧
      (∀ word ∈ extractKeywords [] content, T.tW.lookup (td.omac word) ≠ some 0) ∧
      (((extractKeywords [] content).map td.omac).Nodup ∨ 0 ∉ T.lstFreeRowIdx)
  | .delFile path _ => T.tF.lookup (td.omac path) ≠ some 0

instance (td : Trapdoor τ) (T : Tables τ) (op : ClientOp) : Decidable (AssignsOnce td T op) :=
  match op with
  | .searchKeyword .. => by unfold AssignsOnce; infer_instance
  | .addFile .. => by unfold AssignsOnce; infer_instance
  | .delFile .. => by unfold AssignsOnce; infer_instance

theorem AssignedRows.split {td : Trapdoor τ} {s s' : Picks τ} {IBar IBar' : Buf}
    {words : List Str} {all : List Nat} (h : AssignedRows td s IBar words s' IBar')
    (split : Split (fun _ => true) all s.table s.free)
    (reads : ∀ word ∈ words, s.table.lookup (td.omac word) ≠ some 0)
    (once : (words.map td.omac).Nodup ∨ 0 ∉ s.free) :
    Split (fun _ => true) all s'.table s'.free := by
  induction h with
  | nil => exact split
  | @cons s s₁ s' IBar IBar' word words r assigned found rest ih =>
    refine ih (assigned.split split fun zero => ?_) (fun word' mem => ?_) ?_
    · exact absurd zero (reads word List.mem_cons_self)
    · -- a keyword looked up again has a row that is not 0
      by_cases same : td.omac word' = td.omac word
      · rw [same, found]
        intro zero
        cases zero
        obtain ⟨v, found', old | isFree⟩ := assigned.lookup_self
        · cases found.symm.trans found'
          exact reads word List.mem_cons_self old.1
        · cases found.symm.trans found'
          rcases once with nodup | used
          · rw [List.map_cons, List.nodup_cons] at nodup
            exact nodup.1 (List.mem_map.mpr ⟨word', mem, same⟩)
          · exact used isFree
      · rw [assigned.lookup_of_ne same]
        exact reads word' (List.mem_cons_of_mem _ mem)
    · rcases once with nodup | used
      · rw [List.map_cons, List.nodup_cons] at nodup
        exact .inl nodup.2
      · exact .inr fun isFree => used (assigned.free_subset 0 isFree)

section Steps

variable {cfg : Config} {cr : Cipher Key} {td : Trapdoor τ}
  {srv : Machine σ (Command Key) (Response Key)}

/-- The block fetched and sent back is the block of the column written. -/
def Report.SameBlock (cfg : Config) : Report → Prop
  | .searched _ => True
  | .updated blockIndex fileIndex => blockIndex = fileIndex / cfg.encryptBlockSize

/-- A step that meets the condition keeps the assignment and writes to the block it
fetched. -/
theorem allocated_step {p p' : σ × Client τ Key} {op : ClientOp} {report : Report}
    (h : Allocated cfg p.2.tables) (good : AssignsOnce td p.2.tables op)
    (step : (clientMachine cfg cr td srv).step p op = some (p', report)) :
    Allocated cfg p'.2.tables ∧ report.SameBlock cfg := by
  cases op with
  | searchKeyword keyword =>
    have known : td.generate (cStr (lowerCase keyword)) ∈ p.2.tables.tW := good
    rcases searchKeyword_cases step with ⟨missing, -, -⟩ | ⟨v, -, -, rfl, rfl⟩ |
      ⟨row, e, -, -, -, tables, rfl⟩
    · exact absurd known (AList.lookup_eq_none.mp missing)
    · exact ⟨h, trivial⟩
    · rw [tables]
      exact ⟨h, trivial⟩
  | addFile path content draws =>
    obtain ⟨reads, words, once⟩ := good
    obtain ⟨j, columns, rows, IBar, e, assigned, -, assignedRows, tables, -, rfl⟩ :=
      addFile_cases reads step
    rw [tables]
    refine ⟨⟨assigned.split h.columns ?_, assignedRows.split h.rows words once⟩, rfl⟩
    exact fun zero => absurd zero reads.present
  | delFile path draws =>
    have present : p.2.tables.tF.lookup (td.omac path) ≠ some 0 := good
    obtain ⟨j, columns, e, assigned, found, tables, -, rfl⟩ := delFile_cases step
    rw [tables]
    have split := assigned.split h.columns fun zero => absurd zero present
    exact ⟨⟨split.takeBack found, h.rows⟩, rfl⟩

end Steps

/-- In every run of operations that meet the condition, from any setup on and against
any server, the values of `T_F` with the free columns are a permutation of all columns,
those of `T_W` with the free rows a permutation of all rows, and every update fetched
and sent the block of the column it wrote. -/
theorem allocation_kept {cfg : Config} {cr : Cipher Key} {td : Trapdoor τ} {path : Str}
    {db : Listing} {dict : List Str} {kc bc draws : Nat → Nat} {files : PieceFiles}
    {out : SetupState τ}
    (setup : setupDataStructure cfg cr td path db dict kc bc draws files = some out)
    (srv : Machine σ (Command Key) (Response Key)) (s₀ : σ) {ops : List ClientOp} {s : σ}
    {c : Client τ Key}
    (good : (clientMachine cfg cr td srv).Along (fun p op => AssignsOnce td p.2.tables op)
      (s₀, out.client cfg cr) ops)
    (run : (clientMachine cfg cr td srv).exec (s₀, out.client cfg cr) ops = some (s, c)) :
    (values c.tables.tF ++ c.tables.lstFreeColumnIdx).Perm (List.range cfg.maxNumOfFiles) ∧
      (values c.tables.tW ++ c.tables.lstFreeRowIdx).Perm (List.range cfg.maxNumKeywords) ∧
      ∀ report ∈ (clientMachine cfg cr td srv).outputs (s₀, out.client cfg cr) ops,
        report.SameBlock cfg := by
  obtain ⟨columns, rows⟩ := setup_tables setup
  have kept := Machine.invariant_history
    (fun past (p : σ × Client τ Key) =>
      Allocated cfg p.2.tables ∧ ∀ report ∈ past, report.SameBlock cfg)
    (fun past p op p' report inv good step => ?_) []
    ⟨⟨columns, rows⟩, fun _ none => by cases none⟩ good run
  · rw [List.nil_append] at kept
    exact ⟨Split.perm_all kept.1.columns, Split.perm_all kept.1.rows, kept.2⟩
  · obtain ⟨allocated, same⟩ := allocated_step inv.1 good step
    refine ⟨allocated, fun r mem => ?_⟩
    rcases List.mem_append.mp mem with mem | mem
    · exact inv.2 r mem
    · rw [List.mem_singleton.mp mem]
      exact same

/-! ### A small run -/

/-- The setup of the small collection. Files "f" and "g" get columns 1 and 4, the
keywords "a", "b" and "c" rows 4, 0 and 2. -/
def smallSetup : Option (SetupState Str) :=
  setupDataStructure (smallConfig 1 false) smallCipher smallTrapdoor [0x2f#8] smallDb []
    (fun _ => 0) (fun _ => 0) (fun n => 3 * n + 1) fun _ => none

/-- "A" is searched, a file "h" with the words "a" and "d" added, "f" deleted. -/
def smallOps : List ClientOp :=
  [.searchKeyword [0x41#8], .addFile [0x2f#8, 0x68#8] (some [0x64#8, 0x20#8, 0x61#8]) fun n => n + 2,
    .delFile [0x2f#8, 0x66#8] fun n => n]

theorem allocation_kept_small : ∃ out p, smallSetup = some out ∧
    (clientMachine (smallConfig 1 false) smallCipher smallTrapdoor
      (ramServer (smallConfig 1 false) smallCipher)).exec
        (out.server (smallConfig 1 false), out.client (smallConfig 1 false) smallCipher) smallOps =
      some p ∧
    (values p.2.tables.tF ++ p.2.tables.lstFreeColumnIdx).Perm (List.range 8) := by
  have evaluated : smallSetup.map (fun out =>
      ((clientMachine (smallConfig 1 false) smallCipher smallTrapdoor
        (ramServer (smallConfig 1 false) smallCipher)).check
          (fun p op => decide (AssignsOnce smallTrapdoor p.2.tables op))
          (out.server (smallConfig 1 false), out.client (smallConfig 1 false) smallCipher) smallOps &&
        ((clientMachine (smallConfig 1 false) smallCipher smallTrapdoor
          (ramServer (smallConfig 1 false) smallCipher)).exec
          (out.server (smallConfig 1 false), out.client (smallConfig 1 false) smallCipher)
            smallOps).isSome)) = some true := by
    decide +kernel
  obtain ⟨out, setup, both⟩ := Option.map_eq_some_iff.mp evaluated
  obtain ⟨good, goes⟩ := Bool.and_eq_true_iff.mp both
  obtain ⟨p, run⟩ := Option.isSome_iff_exists.mp goes
  exact ⟨out, p, setup, run, (allocation_kept setup (ramServer (smallConfig 1 false) smallCipher)
    (out.server (smallConfig 1 false))
    (Machine.along_of_check (fun _ _ h => of_decide_eq_true h) good) run).1⟩

/-- A file added next picks column 0 when its block is requested. `addToken` reads the 0
as no column and picks another: column 0 is lost, and the block fetched and sent back is
not the one of the column written. -/
theorem allocation_lost : ∃ out p, smallSetup = some out ∧
    (clientMachine (smallConfig 1 false) smallCipher smallTrapdoor
      (ramServer (smallConfig 1 false) smallCipher)).exec
        (out.server (smallConfig 1 false), out.client (smallConfig 1 false) smallCipher)
        [.addFile [0x2f#8, 0x68#8] (some [0x64#8]) fun _ => 0] = some p ∧
    ¬ (values p.2.tables.tF ++ p.2.tables.lstFreeColumnIdx).Perm (List.range 8) ∧
    .updated 0 2 ∈ (clientMachine (smallConfig 1 false) smallCipher smallTrapdoor
      (ramServer (smallConfig 1 false) smallCipher)).outputs
        (out.server (smallConfig 1 false), out.client (smallConfig 1 false) smallCipher)
        [.addFile [0x2f#8, 0x68#8] (some [0x64#8]) fun _ => 0] ∧
    ¬ (Report.updated 0 2).SameBlock (smallConfig 1 false) := by
  have evaluated : (smallSetup.bind fun out =>
      ((clientMachine (smallConfig 1 false) smallCipher smallTrapdoor
        (ramServer (smallConfig 1 false) smallCipher)).exec
          (out.server (smallConfig 1 false), out.client (smallConfig 1 false) smallCipher)
          [.addFile [0x2f#8, 0x68#8] (some [0x64#8]) fun _ => 0]).map fun p =>
        (values p.2.tables.tF ++ p.2.tables.lstFreeColumnIdx,
          (clientMachine (smallConfig 1 false) smallCipher smallTrapdoor
            (ramServer (smallConfig 1 false) smallCipher)).outputs
              (out.server (smallConfig 1 false), out.client (smallConfig 1 false) smallCipher)
              [.addFile [0x2f#8, 0x68#8] (some [0x64#8]) fun _ => 0])) =
      some ([2, 4, 1, 3, 5, 6, 7], [.updated 0 2]) := by
    decide +kernel
  obtain ⟨out, setup, ran⟩ := Option.bind_eq_some_iff.mp evaluated
  obtain ⟨p, run, both⟩ := Option.map_eq_some_iff.mp ran
  obtain ⟨columns, reports⟩ := Prod.mk.inj both
  refine ⟨out, p, setup, run, ?_, ?_, show (0 : Nat) ≠ 2 / 1 by decide⟩
  · rw [columns]
    decide
  · rw [reports]
    exact List.mem_singleton_self _

end ImDsse
