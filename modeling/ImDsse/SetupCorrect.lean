import ImDsse.Setup

/-!
The setup is correct.

The two passes give every path and every keyword an index of its own, the pairs
they list are the keywords of the files, and the piece files hold the encryption
of exactly these pairs. It holds for any tree of files, any contents and any
random picks; the size checks of the setup are what keeps the free lists from
running empty.
-/

namespace ImDsse

open Kit Kit.Loop Kit.Bits Kit.Files Kit.Pool

universe u

variable {Key : Type} {τ : Type u} [DecidableEq τ]

theorem fillOnes_apply (n : Nat) (arr : Nat → Nat) (i : Nat) :
    fillOnes n arr i = if i < n then 1 else arr i := by
  unfold fillOnes
  refine forLoop_inv (P := fun m (a : Nat → Nat) => a i = if i < m then 1 else arr i) ?_ ?_
  · rw [if_neg (Nat.not_lt_zero i)]
  · intro m _ a ih
    by_cases here : i = m
    · rw [here, Function.update_self, if_pos (Nat.lt_succ_self m)]
    · rw [Function.update_of_ne here, ih]
      have same : i < m ↔ i < m + 1 := by omega
      simp only [same]

/-- What a setup leaves behind, for the files `fs`. -/
structure SetUp (cfg : Config) (cr : Cipher Key) (td : Trapdoor τ) (fs : List FileEntry)
    (out : SetupState τ) : Prop where
  paths : ∀ k, k ∈ out.tables.tF ↔ ∃ f ∈ fs, td.omac f.path = k
  keywords : ∀ k, k ∈ out.tables.tW ↔ ∃ w, Extracted fs w ∧ td.omac w = k
  columns : Split (fun _ => true) (List.range cfg.maxNumOfFiles) out.tables.tF
    out.tables.lstFreeColumnIdx
  rows : Split (fun _ => true) (List.range cfg.maxNumKeywords) out.tables.tW
    out.tables.lstFreeRowIdx
  /-- Decrypted with all counters 1, the files hold the keywords of each file. -/
  cells : ∀ r j, r < cfg.matrixRowSize → j < 8 * cfg.matrixColSize →
    ((bit (cfg.matrixGrid.matrix out.files r) j ^^ cr.ks (cr.genRowKey r 1)
        (j / cfg.encryptBlockSize) 1 (j % cfg.encryptBlockSize)) = true ↔
      ∃ f ∈ fs, ∃ w ∈ f.keywords, out.tables.tF.lookup (td.omac f.path) = some j ∧
        out.tables.tW.lookup (td.omac w) = some r)
  formed : cfg.matrixGrid.Formed out.files
  states : cfg.decryptAtClientSide = false → cfg.stateGrid.Formed out.files ∧
    ∀ r c, r < cfg.matrixRowSize → c < cfg.numBlocks / 8 →
      cfg.stateGrid.matrix out.files r c = 0
  keywordCounters : ∀ r, r < cfg.maxNumKeywords → out.keywordCounterArr r = 1
  blockCounters : ∀ b, b < cfg.numBlocks → out.blockCounterArr b = 1

/-- The size checks of the setup. -/
structure SizesPass (cfg : Config) (td : Trapdoor τ) (path : Str) (db : Listing)
    (keywordsDictionary : List Str) : Prop where
  keywords : (setupScan cfg td path db keywordsDictionary).rKeywordsDictionary.length <
    cfg.maxNumKeywords
  files : (setupScan cfg td path db keywordsDictionary).rFileNames.length < cfg.maxNumOfFiles

section Correct

variable {cfg : Config} {td : Trapdoor τ} {path : Str} {db : Listing} {dict : List Str}

theorem setupScan_scanned (cfg : Config) (td : Trapdoor τ) (path : Str) (db : Listing)
    (dict : List Str) : Scanned cfg td (db.files path) (setupScan cfg td path db dict) := by
  have nothing : Scanned cfg td [] (⟨[], dict, ∅, ∅⟩ : Scan τ) := by
    refine ⟨rfl, fun k v => ?_, fun k v => ?_, fun w => ?_⟩ <;> simp [Extracted]
  rw [setupScan, scanDatabase_eq]
  exact scanned_files nothing _

/-- The second pass, from the tables the first one leaves. -/
theorem createKeywordFilePair_spec (pass : SizesPass cfg td path db dict) (draws : Nat → Nat) :
    ∃ s, createKeywordFilePair cfg td path db
        { kwFilePair := fun _ => []
          tW := (setupScan cfg td path db dict).tW
          tF := (setupScan cfg td path db dict).tF
          lstFreeKeywordIdx := List.range cfg.maxNumKeywords
          lstFreeFileIdx := List.range cfg.maxNumOfFiles
          draws := draws } = some s ∧
      (∀ k, k ∈ s.tF ↔ ∃ f ∈ db.files path, td.omac f.path = k) ∧
      (∀ k, k ∈ s.tW ↔ ∃ w, Extracted (db.files path) w ∧ td.omac w = k) ∧
      Split (fun _ => true) (List.range cfg.maxNumOfFiles) s.tF s.lstFreeFileIdx ∧
      Split (fun _ => true) (List.range cfg.maxNumKeywords) s.tW s.lstFreeKeywordIdx ∧
      ∀ r j, r ∈ s.kwFilePair j ↔ ∃ f ∈ db.files path, ∃ w ∈ f.keywords,
        s.tF.lookup (td.omac f.path) = some j ∧ s.tW.lookup (td.omac w) = some r := by
  have scanned := setupScan_scanned cfg td path db dict
  have fits : Fits cfg (db.files path) (setupScan cfg td path db dict).rKeywordsDictionary :=
    ⟨by rw [← scanned.names]; exact pass.files, pass.keywords,
      scanned.dictionary⟩
  have start : Paired cfg td (db.files path) [] []
      { kwFilePair := fun _ => []
        tW := (setupScan cfg td path db dict).tW
        tF := (setupScan cfg td path db dict).tF
        lstFreeKeywordIdx := List.range cfg.maxNumKeywords
        lstFreeFileIdx := List.range cfg.maxNumOfFiles
        draws := draws } := by
    refine ⟨Marked.start (Nat.le_succ _) scanned.paths, Marked.start (Nat.le_succ _) scanned.words,
      nofun, nofun, fun r j => by simp⟩
  obtain ⟨s, paths, done, run, paired, memPaths, memDone⟩ := start.files fits fun f hf => hf
  refine ⟨s, ?_, paired.columns.keys, paired.rows.keys, paired.columns.finish ?_,
    paired.rows.finish ?_, fun r j => ?_⟩
  · rw [createKeywordFilePair_eq, run]
  · rintro k ⟨f, hf, rfl⟩
    exact paired.column f.path ((memPaths _).mpr (.inr ⟨f, hf, rfl⟩))
  · rintro k ⟨w, ⟨f, hf, hw⟩, rfl⟩
    exact (paired.row (f.path, w) ((memDone _).mpr (.inr ⟨f, hf, rfl, hw⟩))).2
  · rw [paired.pairs]
    constructor
    · rintro ⟨q, mem, file, word⟩
      obtain ⟨f, hf, path, hw⟩ := ((memDone q).mp mem).resolve_left (fun h => by cases h)
      exact ⟨f, hf, q.2, hw, path ▸ file, word⟩
    · rintro ⟨f, hf, w, hw, file, word⟩
      exact ⟨(f.path, w), (memDone _).mpr (.inr ⟨f, hf, rfl, hw⟩), file, word⟩

/-- A setup that goes on to its end has passed the size checks. -/
theorem sizesPass_of_setup {cr : Cipher Key} {kc bc draws : Nat → Nat} {files : PieceFiles}
    {out : SetupState τ}
    (run : setupDataStructure cfg cr td path db dict kc bc draws files = some out) :
    SizesPass cfg td path db dict := by
  simp only [setupDataStructure] at run
  split at run
  · cases run
  · next keywords =>
    split at run
    · cases run
    · next names => exact ⟨Nat.not_le.mp keywords, Nat.not_le.mp names⟩

/-- What a setup that goes on to its end has built. -/
theorem setupDataStructure_cases {cr : Cipher Key} {kc bc draws : Nat → Nat} {files : PieceFiles}
    {out : SetupState τ}
    (run : setupDataStructure cfg cr td path db dict kc bc draws files = some out) :
    ∃ s files', createKeywordFilePair cfg td path db
        { kwFilePair := fun _ => []
          tW := (setupScan cfg td path db dict).tW
          tF := (setupScan cfg td path db dict).tF
          lstFreeKeywordIdx := List.range cfg.maxNumKeywords
          lstFreeFileIdx := List.range cfg.maxNumOfFiles
          draws := draws } = some s ∧
      createEncryptedMatrixFromKwFilePair cfg cr s.kwFilePair (fillOnes cfg.maxNumKeywords kc)
        (fillOnes cfg.numBlocks bc) files = some files' ∧
      (if cfg.decryptAtClientSide then some files' else createBlockStateMatrixFiles cfg files') =
        some out.files ∧
      out.tables = ⟨s.tW, s.tF, s.lstFreeFileIdx, s.lstFreeKeywordIdx⟩ ∧
      out.keywordCounterArr = fillOnes cfg.maxNumKeywords kc ∧
      out.blockCounterArr = fillOnes cfg.numBlocks bc := by
  have pass := sizesPass_of_setup run
  simp only [setupDataStructure] at run
  rw [if_neg (Nat.not_le.mpr pass.keywords), if_neg (Nat.not_le.mpr pass.files)] at run
  obtain ⟨s, paired, run⟩ := Option.bind_eq_some_iff.mp run
  obtain ⟨files', created, run⟩ := Option.bind_eq_some_iff.mp run
  obtain ⟨files'', states, rfl⟩ := Option.map_eq_some_iff.mp run
  exact ⟨s, files', paired, created, states, rfl, rfl, rfl⟩

/-- The tables of a setup, whatever the sizes of blocks and pieces. -/
theorem setup_tables {cr : Cipher Key} {kc bc draws : Nat → Nat} {files : PieceFiles}
    {out : SetupState τ}
    (run : setupDataStructure cfg cr td path db dict kc bc draws files = some out) :
    Split (fun _ => true) (List.range cfg.maxNumOfFiles) out.tables.tF
        out.tables.lstFreeColumnIdx ∧
      Split (fun _ => true) (List.range cfg.maxNumKeywords) out.tables.tW
        out.tables.lstFreeRowIdx := by
  obtain ⟨s, paired, -, -, columns, rows, -⟩ :=
    createKeywordFilePair_spec (sizesPass_of_setup run) draws
  obtain ⟨s', files', paired', -, -, tables, -⟩ := setupDataStructure_cases run
  cases paired.symm.trans paired'
  rw [tables]
  exact ⟨columns, rows⟩

/-- A setup leaves all piece files, whether or not blocks fit in them, and no state
files of an index of less than eight blocks. -/
theorem setup_files (hB : BlockSize cfg.encryptBlockSize)
    (cols : cfg.matrixPieceColSize ∣ cfg.matrixColSize) {cr : Cipher Key}
    {kc bc draws : Nat → Nat} {files : PieceFiles} {out : SetupState τ}
    (run : setupDataStructure cfg cr td path db dict kc bc draws files = some out) :
    cfg.matrixGrid.Formed out.files ∧
      (cfg.decryptAtClientSide = false → 8 ≤ cfg.numBlocks ∧ cfg.stateGrid.Formed out.files) := by
  obtain ⟨s, files', -, created, states, -⟩ := setupDataStructure_cases run
  obtain ⟨_, created', formed, -⟩ := createEncryptedMatrixFromKwFilePair_pieces hB cols cr
    s.kwFilePair (fillOnes cfg.maxNumKeywords kc) (fillOnes cfg.numBlocks bc) files
  cases created.symm.trans created'
  cases build : cfg.decryptAtClientSide with
  | true =>
    rw [build, if_pos rfl] at states
    cases states
    exact ⟨formed, nofun⟩
  | false =>
    rw [build, if_neg (by decide)] at states
    by_cases enough : 8 ≤ cfg.numBlocks
    · obtain ⟨files'', states', formedStates, -, untouched⟩ :=
        createBlockStateMatrixFiles_spec enough files'
      cases states.symm.trans states'
      refine ⟨(formed.of_untouched (fun m n m' n' => ?_) untouched).1, fun _ => ⟨enough, formedStates⟩⟩
      exact (state_ne_matrix cfg m' n' m n).symm
    · unfold createBlockStateMatrixFiles Config.blockStatePieceColSize at states
      rw [if_pos (by omega)] at states
      cases states

variable (hB : BlockSize cfg.encryptBlockSize) (pieces : cfg.Pieces) (cr : Cipher Key)
  (pass : SizesPass cfg td path db dict) (kc bc draws : Nat → Nat) (files : PieceFiles)
include hB pieces pass

/-- The setup goes on to its end, but for the state files of an index of less than
eight blocks, and leaves everything as it should. -/
theorem setupDataStructure_spec :
    (∀ out, setupDataStructure cfg cr td path db dict kc bc draws files = some out →
      SetUp cfg cr td (db.files path) out) ∧
    (cfg.decryptAtClientSide = true ∨ 8 ≤ cfg.numBlocks →
      ∃ out, setupDataStructure cfg cr td path db dict kc bc draws files = some out) := by
  obtain ⟨s, run, keysF, keysW, columns, rows, pairs⟩ := createKeywordFilePair_spec pass draws
  obtain ⟨files', created, formed, cells⟩ := createEncryptedMatrixFromKwFilePair_spec hB pieces cr
    s.kwFilePair (fillOnes cfg.maxNumKeywords kc)
    (fillOnes (cfg.maxNumOfFiles / cfg.encryptBlockSize) bc) files
  have whole : setupDataStructure cfg cr td path db dict kc bc draws files =
      (if cfg.decryptAtClientSide then some files'
        else createBlockStateMatrixFiles cfg files').map fun files =>
        { tables := ⟨s.tW, s.tF, s.lstFreeFileIdx, s.lstFreeKeywordIdx⟩
          keywordCounterArr := fillOnes cfg.maxNumKeywords kc
          blockCounterArr := fillOnes (cfg.maxNumOfFiles / cfg.encryptBlockSize) bc
          rFileNames := (setupScan cfg td path db dict).rFileNames
          files := files } := by
    simp only [setupDataStructure]
    rw [if_neg (Nat.not_le.mpr pass.keywords), if_neg (Nat.not_le.mpr pass.files), run,
      Option.bind_some, created, Option.bind_some]
  -- the state files leave the matrix alone
  have setUp : ∀ files'', cfg.matrixGrid.Formed files'' →
      cfg.matrixGrid.matrix files'' = cfg.matrixGrid.matrix files' →
      (cfg.decryptAtClientSide = false → cfg.stateGrid.Formed files'' ∧
        ∀ r c, r < cfg.matrixRowSize → c < cfg.numBlocks / 8 →
          cfg.stateGrid.matrix files'' r c = 0) →
      SetUp cfg cr td (db.files path)
        { tables := ⟨s.tW, s.tF, s.lstFreeFileIdx, s.lstFreeKeywordIdx⟩
          keywordCounterArr := fillOnes cfg.maxNumKeywords kc
          blockCounterArr := fillOnes (cfg.maxNumOfFiles / cfg.encryptBlockSize) bc
          rFileNames := (setupScan cfg td path db dict).rFileNames
          files := files'' } := by
    intro files'' formed'' same states
    refine ⟨keysF, keysW, columns, rows, fun r j hr hj => ?_, formed'', states, fun r hr => ?_,
      fun b hb => ?_⟩
    · have block : j / cfg.encryptBlockSize < cfg.maxNumOfFiles / cfg.encryptBlockSize := by
        have divides : cfg.encryptBlockSize ∣ 8 * cfg.matrixColSize :=
          Nat.dvd_trans pieces.blocks (Nat.mul_dvd_mul_left 8 pieces.cols)
        exact Nat.lt_of_lt_of_le (Nat.div_lt_div_of_lt_of_dvd divides hj)
          (Nat.div_le_div_right (Nat.mul_div_le _ 8))
      have row : r < cfg.maxNumKeywords := hr
      rw [same, cells r j hr hj, fillOnes_apply, if_pos row, fillOnes_apply, if_pos block,
        Bool.xor_assoc, Bool.xor_self, Bool.xor_false, plainOf, decide_eq_true_eq]
      exact pairs r j
    · exact (fillOnes_apply _ _ _).trans (if_pos hr)
    · exact (fillOnes_apply _ _ _).trans (if_pos hb)
  rw [whole]
  cases hd : cfg.decryptAtClientSide with
  | true =>
    rw [if_pos rfl, Option.map_some]
    refine ⟨fun out eq => ?_, fun _ => ⟨_, rfl⟩⟩
    cases eq
    exact setUp files' formed rfl fun server => by rw [hd] at server; cases server
  | false =>
    rw [if_neg (by decide)]
    by_cases enough : 8 ≤ cfg.numBlocks
    · obtain ⟨files'', states, formedStates, zero, untouched⟩ :=
        createBlockStateMatrixFiles_spec enough files'
      obtain ⟨formed'', same⟩ := formed.of_untouched
        (fun m n m' n' => (state_ne_matrix cfg m' n' m n).symm) untouched
      rw [states, Option.map_some]
      refine ⟨fun out eq => ?_, fun _ => ⟨_, rfl⟩⟩
      cases eq
      exact setUp files'' formed'' same fun _ => ⟨formedStates, zero⟩
    · have stops : createBlockStateMatrixFiles cfg files' = none := by
        unfold createBlockStateMatrixFiles Config.blockStatePieceColSize
        rw [if_pos (by omega)]
      rw [stops]
      refine ⟨fun out eq => (by cases eq), fun goes => ?_⟩
      rcases goes with client | enough'
      · cases client
      · exact absurd enough' enough

/-- After the setup `T_F` has exactly the trapdoors of the paths and `T_W` exactly
those of the extracted keywords, no two paths share a column and no two keywords a
row, columns and rows are each split between table and free list, and the piece
files, decrypted cell by cell, hold exactly the keywords of each file. The setup
ends early only over the state files of an index of less than eight blocks. -/
theorem setup_correct (distinct : Function.Injective td.omac) :
    (∀ out, setupDataStructure cfg cr td path db dict kc bc draws files = some out →
      (∀ k, k ∈ out.tables.tF ↔ ∃ f ∈ db.files path, td.omac f.path = k) ∧
      (∀ k, k ∈ out.tables.tW ↔ ∃ w, Extracted (db.files path) w ∧ td.omac w = k) ∧
      (∀ p q j, out.tables.tF.lookup (td.omac p) = some j →
        out.tables.tF.lookup (td.omac q) = some j → p = q) ∧
      (∀ v w r, out.tables.tW.lookup (td.omac v) = some r →
        out.tables.tW.lookup (td.omac w) = some r → v = w) ∧
      (values out.tables.tF ++ out.tables.lstFreeColumnIdx).Perm
        (List.range cfg.maxNumOfFiles) ∧
      (values out.tables.tW ++ out.tables.lstFreeRowIdx).Perm (List.range cfg.maxNumKeywords) ∧
      ∀ r j, r < cfg.matrixRowSize → j < 8 * cfg.matrixColSize →
        ((bit (cfg.matrixGrid.matrix out.files r) j ^^ cr.ks (cr.genRowKey r 1)
            (j / cfg.encryptBlockSize) 1 (j % cfg.encryptBlockSize)) = true ↔
          ∃ f ∈ db.files path, ∃ w ∈ f.keywords,
            out.tables.tF.lookup (td.omac f.path) = some j ∧
            out.tables.tW.lookup (td.omac w) = some r)) ∧
    (cfg.decryptAtClientSide = true ∨ 8 ≤ cfg.numBlocks →
      ∃ out, setupDataStructure cfg cr td path db dict kc bc draws files = some out) := by
  obtain ⟨spec, goes⟩ := setupDataStructure_spec hB pieces cr pass kc bc draws files
  refine ⟨fun out run => ?_, goes⟩
  have setUp := spec out run
  refine ⟨setUp.paths, setUp.keywords, fun p q j hp hq => ?_, fun v w r hv hw => ?_,
    Split.perm_all setUp.columns, Split.perm_all setUp.rows, setUp.cells⟩
  · exact distinct (setUp.columns.injective hp hq rfl)
  · exact distinct (setUp.rows.injective hv hw rfl)

end Correct

/-! ### A small collection -/

/-- Trapdoors that are the strings themselves. -/
def smallTrapdoor : Trapdoor Str := ⟨id, []⟩

/-- A file "f" with the words "b" and "a", and a directory "d" with a file "g" with
the words "A", "c" and "a". -/
def smallDb : Listing :=
  .file [0x66#8] (some [0x62#8, 0x20#8, 0x61#8, 0x0a#8])
    (.dir [0x64#8] (.file [0x67#8] (some [0x41#8, 0x0a#8, 0x63#8, 0x2c#8, 0x61#8]) .nil) .nil)

theorem smallDb_sizes : SizesPass (smallConfig 1 false) smallTrapdoor [0x2f#8] smallDb [] :=
  ⟨by decide +kernel, by decide +kernel⟩

theorem setup_correct_small : ∃ out,
    setupDataStructure (smallConfig 1 false) smallCipher smallTrapdoor [0x2f#8] smallDb []
        (fun _ => 0) (fun _ => 0) (fun n => 3 * n + 1) (fun _ => none) = some out ∧
      (values out.tables.tF ++ out.tables.lstFreeColumnIdx).Perm (List.range 8) := by
  obtain ⟨all, goes⟩ := setup_correct (show BlockSize (smallConfig 1 false).encryptBlockSize by decide)
    ⟨by decide, by decide, by decide⟩ smallCipher smallDb_sizes (fun _ => 0) (fun _ => 0)
    (fun n => 3 * n + 1) (fun _ => none) Function.injective_id
  obtain ⟨out, run⟩ := goes (.inr (by decide))
  exact ⟨out, run, (all out run).2.2.2.2.1⟩

end ImDsse
