import ImDsse.SetupTables
import ImDsse.Encrypt
import ImDsse.DiskServer

/-!
The setup (`DSSE::setupData_structure`).

Tables and counters are built in memory, the encrypted matrix and the state
matrix in the piece files. `SetUp` says what a setup leaves behind, for any
collection of files and any random picks: the two tables assign the paths and the
keywords of the collection to columns and rows one to one, and the piece files,
decrypted cell by cell, hold exactly the keywords of each file.
-/

namespace ImDsse

open Kit Kit.Loop Kit.Bits Kit.Files Kit.Pool

universe u

variable {Key : Type} {τ : Type u} [DecidableEq τ]

/-! ### The piece files -/

section Files

variable (cfg : Config) (cr : Cipher Key)

/-- Piece `i` of the matrix, written row of pieces by row of pieces. -/
def writePiece (files : PieceFiles) (i : Nat) (I : Matrix) : PieceFiles :=
  forLoop (iterations cfg.matrixRowSize cfg.matrixPieceRowSize) (fun k files =>
    let m := k * cfg.matrixPieceRowSize
    writeMatrixToFile files (.matrix m (i * cfg.matrixPieceColSize)) I m cfg.matrixPieceRowSize
      cfg.matrixPieceColSize) files

/-- `DSSE::createEncrypted_matrix_from_kw_file_pair` -/
def createEncryptedMatrixFromKwFilePair (kwFilePair : Nat → List Nat)
    (rowCounterArr blockCounterArr : Nat → Nat) (files : PieceFiles) : Option PieceFiles :=
  (List.range (cfg.matrixColSize / cfg.matrixPieceColSize)).foldlM (fun files i =>
    (createEncryptedPiece cfg cr kwFilePair rowCounterArr blockCounterArr i).map fun (I, _) =>
      writePiece cfg files i I) files

/-- `DSSE::createBlock_state_matrix_files`. With less than eight blocks
`BLOCK_STATE_PIECE_COL_SIZE` is 0, and the division by it ends the process. -/
def createBlockStateMatrixFiles (files : PieceFiles) : Option PieceFiles :=
  if cfg.blockStatePieceColSize = 0 then none
  else some (forLoop (cfg.numBlocks / cfg.blockStatePieceColSize / 8) (fun i files =>
    forLoop (iterations cfg.blockStateRowSize cfg.blockStatePieceRowSize) (fun k files =>
      let m := k * cfg.blockStatePieceRowSize
      writeMatrixToFile files (.state m (i * cfg.blockStatePieceColSize)) (fun _ => zeroBuf) 0
        cfg.blockStatePieceRowSize cfg.blockStatePieceColSize) files) files)

end Files

/-! ### The setup -/

/-- What the setup hands to the client, and the directory of the piece files. -/
structure SetupState (τ : Type u) where
  tables : Tables τ
  keywordCounterArr : Nat → Nat
  blockCounterArr : Nat → Nat
  rFileNames : List Str
  files : PieceFiles

/-- `for (i < n) arr[i] = 1` -/
def fillOnes (n : Nat) (arr : Nat → Nat) : Nat → Nat :=
  forLoop n (fun i arr => Function.update arr i 1) arr

/-- The first pass of the setup. `keywordsDictionary` is the set an earlier build in
the process left behind. -/
def setupScan (cfg : Config) (td : Trapdoor τ) (path : Str) (db : Listing)
    (keywordsDictionary : List Str) : Scan τ :=
  scanDatabase cfg td path db ⟨[], keywordsDictionary, ∅, ∅⟩

/-- `DSSE::setupData_structure` -/
def setupDataStructure (cfg : Config) (cr : Cipher Key) (td : Trapdoor τ) (path : Str)
    (db : Listing) (keywordsDictionary : List Str) (keywordCounterArr blockCounterArr : Nat → Nat)
    (draws : Nat → Nat) (files : PieceFiles) : Option (SetupState τ) :=
  let keywordCounterArr := fillOnes cfg.maxNumKeywords keywordCounterArr
  let blockCounterArr := fillOnes (cfg.maxNumOfFiles / cfg.encryptBlockSize) blockCounterArr
  let scan := setupScan cfg td path db keywordsDictionary
  if cfg.maxNumKeywords ≤ scan.rKeywordsDictionary.length then none
  else if cfg.maxNumOfFiles ≤ scan.rFileNames.length then none
  else
    (createKeywordFilePair cfg td path db
        { kwFilePair := fun _ => []
          tW := scan.tW
          tF := scan.tF
          lstFreeKeywordIdx := List.range cfg.maxNumKeywords
          lstFreeFileIdx := List.range cfg.maxNumOfFiles
          draws := draws }).bind fun s =>
      (createEncryptedMatrixFromKwFilePair cfg cr s.kwFilePair keywordCounterArr blockCounterArr
          files).bind fun files =>
        (if cfg.decryptAtClientSide then some files
          else createBlockStateMatrixFiles cfg files).map fun files =>
          { tables := ⟨s.tW, s.tF, s.lstFreeFileIdx, s.lstFreeKeywordIdx⟩
            keywordCounterArr := keywordCounterArr
            blockCounterArr := blockCounterArr
            rFileNames := scan.rFileNames
            files := files }

/-! ### What the files hold -/

section Written

variable {cfg : Config}

/-- The setup writes every piece, encrypted by itself. -/
theorem createEncryptedMatrixFromKwFilePair_pieces (hB : BlockSize cfg.encryptBlockSize)
    (cols : cfg.matrixPieceColSize ∣ cfg.matrixColSize) (cr : Cipher Key)
    (kwFilePair : Nat → List Nat) (rowCtr blkCtr : Nat → Nat) (files : PieceFiles) :
    ∃ files', createEncryptedMatrixFromKwFilePair cfg cr kwFilePair rowCtr blkCtr files =
        some files' ∧ cfg.matrixGrid.Formed files' ∧
      ∀ r c, r < cfg.matrixRowSize → c < cfg.matrixColSize → cfg.matrixGrid.matrix files' r c =
        (encryptPiece cfg cr rowCtr blkCtr (c / cfg.matrixPieceColSize)
          (fillPiece cfg kwFilePair (c / cfg.matrixPieceColSize))).1 r (c % cfg.matrixPieceColSize) := by
  have even := Config.matrixGrid_even cols
  set piece : Nat → Matrix := fun i =>
    (encryptPiece cfg cr rowCtr blkCtr i (fillPiece cfg kwFilePair i)).1 with hpiece
  -- piece by piece, from the first on
  have upTo : ∀ n, n ≤ cfg.matrixColSize / cfg.matrixPieceColSize →
      ∃ files', (List.range n).foldlM (fun files i =>
          (createEncryptedPiece cfg cr kwFilePair rowCtr blkCtr i).map fun (I, _) =>
            writePiece cfg files i I) files = some files' ∧
        cfg.matrixGrid.Written files' piece n := by
    intro n
    induction n with
    | zero => exact fun _ => ⟨files, rfl, fun k l _ hl => absurd hl (Nat.not_lt_zero l)⟩
    | succ n ih =>
      intro hn
      obtain ⟨files', run, written⟩ := ih (Nat.le_of_succ_le hn)
      refine ⟨writePiece cfg files' n (piece n), ?_, ?_⟩
      · rw [List.range_succ, List.foldlM_append, run]
        simp only [createEncryptedPiece_eq hB]
        rfl
      · have col := even.col_lt (l := n) hn
        refine (written.succ even (by omega) (fun files' k => writeMatrixToFile files'
          (.matrix (k * cfg.matrixPieceRowSize) (n * cfg.matrixPieceColSize)) (piece n)
          (k * cfg.matrixPieceRowSize) cfg.matrixPieceRowSize cfg.matrixPieceColSize) ?_).1
        exact fun files' k _ => Grid.writeMatrixToFile_eq _ _ _ _ _ _
  obtain ⟨files', run, written⟩ := upTo _ (Nat.le_refl _)
  obtain ⟨formed, cells⟩ := written.matrix even
  exact ⟨files', run, formed, cells⟩

/-- The matrix in the piece files is the plaintext of the pairs, encrypted. -/
theorem createEncryptedMatrixFromKwFilePair_spec (hB : BlockSize cfg.encryptBlockSize)
    (pieces : cfg.Pieces) (cr : Cipher Key) (kwFilePair : Nat → List Nat)
    (rowCtr blkCtr : Nat → Nat) (files : PieceFiles) :
    ∃ files', createEncryptedMatrixFromKwFilePair cfg cr kwFilePair rowCtr blkCtr files =
        some files' ∧ cfg.matrixGrid.Formed files' ∧
      ∀ r j, r < cfg.matrixRowSize → j < 8 * cfg.matrixColSize →
        bit (cfg.matrixGrid.matrix files' r) j =
          (plainOf kwFilePair r j ^^ cr.ks (cr.genRowKey r (rowCtr r)) (j / cfg.encryptBlockSize)
            (blkCtr (j / cfg.encryptBlockSize)) (j % cfg.encryptBlockSize)) := by
  obtain ⟨files', run, formed, cells⟩ :=
    createEncryptedMatrixFromKwFilePair_pieces hB pieces.cols cr kwFilePair rowCtr blkCtr files
  refine ⟨files', run, formed, fun r j hr hj => ?_⟩
  rw [← bit_createdPiece hB pieces cr kwFilePair rowCtr blkCtr hr j,
    bit_add _ _ (Nat.mod_lt j (by decide)), bit, cells r (j / 8) hr (Nat.div_lt_of_lt_mul hj)]

/-- The files of the state matrix are all zero, and the others are left alone. -/
theorem createBlockStateMatrixFiles_spec (enough : 8 ≤ cfg.numBlocks) (files : PieceFiles) :
    ∃ files', createBlockStateMatrixFiles cfg files = some files' ∧
      cfg.stateGrid.Formed files' ∧ (∀ r c, r < cfg.matrixRowSize → c < cfg.numBlocks / 8 →
        cfg.stateGrid.matrix files' r c = 0) ∧ cfg.stateGrid.Untouched files files' := by
  have pos : cfg.blockStatePieceColSize ≠ 0 := by
    unfold Config.blockStatePieceColSize
    omega
  have once : cfg.numBlocks / cfg.blockStatePieceColSize / 8 = 1 := by
    unfold Config.blockStatePieceColSize at pos ⊢
    rw [Nat.div_div_eq_div_mul, Nat.div_eq_of_lt_le] <;> omega
  have start : cfg.stateGrid.Written files (fun _ _ => zeroBuf) 0 :=
    fun k l _ hl => absurd hl (Nat.not_lt_zero l)
  obtain ⟨written, untouched⟩ := start.succ cfg.stateGrid_even
    (by rw [Nat.zero_mul]; exact Nat.pos_of_ne_zero pos)
    (fun files' k => writeMatrixToFile files'
      (.state (k * cfg.blockStatePieceRowSize) (0 * cfg.blockStatePieceColSize)) (fun _ => zeroBuf)
      0 cfg.blockStatePieceRowSize cfg.blockStatePieceColSize)
    fun files' k _ => Grid.writeMatrixToFile_eq _ _ _ _ _ _
  have whole : cfg.stateGrid.cols / cfg.stateGrid.pieceCol = 1 :=
    Nat.div_self (Nat.pos_of_ne_zero pos)
  obtain ⟨formed, cells⟩ := Grid.Written.matrix cfg.stateGrid_even (by rw [whole]; exact written)
  refine ⟨_, ?_, formed, cells, untouched⟩
  unfold createBlockStateMatrixFiles
  rw [if_neg pos, once]
  rfl

end Written

end ImDsse
