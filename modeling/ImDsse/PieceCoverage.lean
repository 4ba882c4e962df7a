import Mathlib.Data.Nat.Prime.Basic
import ImDsse.PieceGeometry
import ImDsse.SetupCorrect

/-!
The piece files of the setup.

`Grid.CoveredOnce` says that every byte of a matrix is in the file of exactly one piece.
The setup is written a second time over buffers of the sizes they have and `int`s that
can overflow; where the sizes fit it is the setup of the model, and starts the directory
that the loads and saves go on with.
-/

namespace ImDsse

open Kit Kit.Loop Kit.Bits Kit.Arrays Kit.Files

variable {Key : Type}

/-! ### Coverage -/

namespace Grid

variable (g : Grid) (files files' : PieceFiles)

/-- Every byte is in the file of one piece. -/
def CoveredOnce : Prop :=
  ∀ r c, r < g.rows → c < g.cols → ∃! p : Nat × Nat, ∃ f, files (g.name p.1 p.2) = some f ∧
    (p.1 ≤ r ∧ r < p.1 + g.pieceRow) ∧ (p.2 ≤ c ∧ c < p.2 + g.pieceCol) ∧
    (r - p.1) * g.pieceCol + (c - p.2) < f.size

/-- Only files of pieces have been written. -/
def OnlyPieces : Prop :=
  ∀ name, files' name = files name ∨ ∃ k l, name = g.name (k * g.pieceRow) (l * g.pieceCol)

section Specs

variable {g files files'}

theorem OnlyPieces.refl : g.OnlyPieces files files := fun _ => .inl rfl

theorem OnlyPieces.trans {files'' : PieceFiles} (h : g.OnlyPieces files files')
    (h' : g.OnlyPieces files' files'') : g.OnlyPieces files files'' := by
  intro name
  rcases h' name with same | piece
  · rw [same]
    exact h name
  · exact .inr piece

theorem OnlyPieces.writeMatrix (h : g.OnlyPieces files files') (I : Matrix)
    (k l first numRow numCol : Nat) : g.OnlyPieces files (writeMatrixToFile files'
      (g.name (k * g.pieceRow) (l * g.pieceCol)) I first numRow numCol) := by
  refine h.trans fun name => ?_
  obtain ⟨f, wrote, -, -⟩ := writeMatrixToFile_eq files'
    (g.name (k * g.pieceRow) (l * g.pieceCol)) I first numRow numCol
  rw [wrote]
  by_cases here : name = g.name (k * g.pieceRow) (l * g.pieceCol)
  · exact .inr ⟨k, l, here⟩
  · exact .inl (Function.update_of_ne here _ _)

/-- Pieces that are all there, and no other file under a name of the grid. -/
theorem Formed.coveredOnce (formed : g.Formed files) (even : g.Even)
    (only : ∀ m n, files (g.name m n) ≠ none → ∃ k l, m = k * g.pieceRow ∧ n = l * g.pieceCol) :
    g.CoveredOnce files := by
  intro r c hr hc
  have row := Nat.mod_lt r (even.pieceRow_pos hr)
  have col := Nat.mod_lt c (even.pieceCol_pos hc)
  have hr' := Nat.div_add_mod' r g.pieceRow
  have hc' := Nat.div_add_mod' c g.pieceCol
  obtain ⟨f, file, size⟩ := formed (r / g.pieceRow) (c / g.pieceCol) (by omega) (by omega)
  refine ⟨(r / g.pieceRow * g.pieceRow, c / g.pieceCol * g.pieceCol),
    ⟨f, file, ⟨by omega, by omega⟩, ⟨by omega, by omega⟩, ?_⟩, ?_⟩
  · rw [size, show r - r / g.pieceRow * g.pieceRow = r % g.pieceRow by omega,
      show c - c / g.pieceCol * g.pieceCol = c % g.pieceCol by omega]
    exact tile_lt row col
  · rintro ⟨m, n⟩ ⟨f', file', hm, hn, -⟩
    obtain ⟨k, l, rfl, rfl⟩ := only m n (by rw [file']; exact Option.some_ne_none f')
    rw [(div_mod_tile hm.1 hm.2).1, (div_mod_tile hn.1 hn.2).1]

end Specs

end Grid

/-- The setup writes the pieces of the matrix and nothing else. -/
theorem createEncryptedMatrixFromKwFilePair_only {cfg : Config} {cr : Cipher Key}
    {kwFilePair : Nat → List Nat} {rowCtr blkCtr : Nat → Nat} {files files' : PieceFiles}
    (run : createEncryptedMatrixFromKwFilePair cfg cr kwFilePair rowCtr blkCtr files =
      some files') : cfg.matrixGrid.OnlyPieces files files' := by
  unfold createEncryptedMatrixFromKwFilePair at run
  rw [← checkedLoop_eq_foldlM] at run
  generalize cfg.matrixColSize / cfg.matrixPieceColSize = n at run
  induction n generalizing files' with
  | zero =>
    cases run
    exact .refl
  | succ n ih =>
    obtain ⟨before, earlier, last⟩ := Option.bind_eq_some_iff.mp run
    obtain ⟨⟨I, _⟩, -, rfl⟩ := Option.map_eq_some_iff.mp last
    refine forLoop_inv (P := fun _ files' => cfg.matrixGrid.OnlyPieces files files') (ih earlier) ?_
    exact fun k _ files' only => only.writeMatrix I k n _ _ _

/-- And the pieces of the state matrix. -/
theorem createBlockStateMatrixFiles_only {cfg : Config} {files files' : PieceFiles}
    (run : createBlockStateMatrixFiles cfg files = some files') :
    cfg.stateGrid.OnlyPieces files files' := by
  obtain ⟨-, run⟩ := Option.ite_none_left_eq_some.mp run
  cases run
  refine forLoop_inv (P := fun _ files' => cfg.stateGrid.OnlyPieces files files') .refl ?_
  intro i _ files' only
  refine forLoop_inv (P := fun _ files' => cfg.stateGrid.OnlyPieces files files') only ?_
  exact fun k _ files' only => only.writeMatrix (fun _ => zeroBuf) k i _ _ _

section Names

variable {cfg : Config} {files files' : PieceFiles}

/-- Pieces of the state matrix are not pieces of the matrix. -/
theorem Grid.OnlyPieces.matrix_same (only : cfg.stateGrid.OnlyPieces files files') (m n : Nat) :
    files' (.matrix m n) = files (.matrix m n) := by
  rcases only (.matrix m n) with same | ⟨k, l, name⟩
  · exact same
  · cases name

theorem Grid.OnlyPieces.state_same (only : cfg.matrixGrid.OnlyPieces files files') (m n : Nat) :
    files' (.state m n) = files (.state m n) := by
  rcases only (.state m n) with same | ⟨k, l, name⟩
  · exact same
  · cases name

/-- Files of the matrix, where there were none. -/
theorem Grid.OnlyPieces.matrix_name (only : cfg.matrixGrid.OnlyPieces (fun _ => none) files)
    (m n : Nat) (there : files (.matrix m n) ≠ none) :
    ∃ k l, m = k * cfg.matrixGrid.pieceRow ∧ n = l * cfg.matrixGrid.pieceCol := by
  rcases only (.matrix m n) with same | ⟨k, l, name⟩
  · exact absurd same there
  · cases name
    exact ⟨k, l, rfl, rfl⟩

theorem Grid.OnlyPieces.state_name (only : cfg.stateGrid.OnlyPieces files files')
    (nothing : ∀ m n, files (.state m n) = none) (m n : Nat) (there : files' (.state m n) ≠ none) :
    ∃ k l, m = k * cfg.stateGrid.pieceRow ∧ n = l * cfg.stateGrid.pieceCol := by
  rcases only (.state m n) with same | ⟨k, l, name⟩
  · exact absurd (same.trans (nothing m n)) there
  · cases name
    exact ⟨k, l, rfl, rfl⟩

end Names

namespace Checked

/-! ### The setup -/

section Setup

variable (cfg : Config)

/-- The bits of piece `i`. -/
def fillPiece (kwFilePair : Nat → List Nat) (i : Nat) : Option Matrix := do
  let P := cfg.matrixPieceColSize
  let curIdx ← cfg.pieceProduct P i
  let next ← cfg.pieceProduct P (i + 1)
  checkedLoop (next - curIdx) (fun col I => checkedLoop 8 (fun bitNumber I => do
    let rows ← load cfg.maxNumOfFiles kwFilePair ((curIdx + col) * 8 + bitNumber)
    rows.foldlM (fun I rowIdx => storeRow cfg.matrixRowSize I rowIdx fun b =>
      storeBit P b col bitNumber true) I) I) fun _ => zeroBuf

/-- Encrypt block `n` of a row of a piece that starts with block `first`. -/
def encryptPieceBlock (cr : Cipher Key) (blockCounterArr : Nat → Nat) (rowKey : Key)
    (first row n : Nat) (s : Matrix × List (Encryption Key)) :
    Option (Matrix × List (Encryption Key)) := do
  let B := cfg.encryptBlockSize
  let P := cfg.matrixPieceColSize
  let blockIdx := first + n
  let col := if B < 8 then n * B / 8 else n * (B / 8)
  let cells ← load cfg.matrixRowSize s.1 row
  let U ← readBlock B P cells col (n * B % 8)
  let counter ← load cfg.numBlocks blockCounterArr blockIdx
  let V := cr.aes128CtrEncdec U rowKey blockIdx counter
  let I ← storeRow cfg.matrixRowSize s.1 row fun b => writeBlock B P b col (n * B % 8) V
  some (I, s.2 ++ [⟨rowKey, blockIdx, counter⟩])

/-- Encrypt piece `i`. -/
def encryptPiece (cr : Cipher Key) (rowCounterArr blockCounterArr : Nat → Nat) (i : Nat)
    (I : Matrix) : Option (Matrix × List (Encryption Key)) := do
  let B := cfg.encryptBlockSize
  let P := cfg.matrixPieceColSize
  let bits ← cfg.pieceProduct P 8
  let first ← cfg.pieceProduct (bits / B) i
  let blocks := if B < 8 then iterations bits B else iterations P (B / 8)
  checkedLoop cfg.matrixRowSize (fun row s => do
    let rowCounter ← load cfg.matrixRowSize rowCounterArr row
    checkedLoop blocks (encryptPieceBlock cfg cr blockCounterArr (cr.genRowKey row rowCounter)
      first row) s) (I, [])

/-- One turn of the loop over the pieces. -/
def createPiece (cr : Cipher Key) (kwFilePair : Nat → List Nat)
    (rowCounterArr blockCounterArr : Nat → Nat) (i : Nat) (files : PieceFiles) :
    Option PieceFiles := do
  let I ← fillPiece cfg kwFilePair i
  let out ← encryptPiece cfg cr rowCounterArr blockCounterArr i I
  let column ← cfg.pieceProduct i cfg.matrixPieceColSize
  some (forLoop (iterations cfg.matrixRowSize cfg.matrixPieceRowSize) (fun k files =>
    let m := k * cfg.matrixPieceRowSize
    writeMatrixToFile files (.matrix m column) out.1 m cfg.matrixPieceRowSize
      cfg.matrixPieceColSize) files)

/-- The number of pieces, in an `int`. -/
def pieceCount : Option Nat := do
  let n ← quotient cfg.matrixColSize cfg.matrixPieceColSize
  if n < 2 ^ 31 then some n else none

/-- `DSSE::createEncrypted_matrix_from_kw_file_pair` -/
def createEncryptedMatrixFromKwFilePair (cr : Cipher Key) (kwFilePair : Nat → List Nat)
    (rowCounterArr blockCounterArr : Nat → Nat) (files : PieceFiles) : Option PieceFiles := do
  let n ← pieceCount cfg
  if 8 ≤ cfg.encryptBlockSize ∧ cfg.encryptBlockSize % 8 ≠ 0 ∧ 0 < n then none
  else checkedLoop n (createPiece cfg cr kwFilePair rowCounterArr blockCounterArr) files

/-- `DSSE::createBlock_state_matrix_files`, which counts the rows in an `int`. -/
def createBlockStateMatrixFiles (files : PieceFiles) : Option PieceFiles :=
  if cfg.matrixRowSize < 2 ^ 31 then ImDsse.createBlockStateMatrixFiles cfg files else none

/-- The piece files of the setup, in an empty directory. -/
def createPieceFiles (cr : Cipher Key) (kwFilePair : Nat → List Nat)
    (rowCounterArr blockCounterArr : Nat → Nat) : Option PieceFiles := do
  let files ← createEncryptedMatrixFromKwFilePair cfg cr kwFilePair rowCounterArr blockCounterArr
    fun _ => none
  if cfg.decryptAtClientSide then some files else createBlockStateMatrixFiles cfg files

end Setup

end Checked

/-- The `int`s of the setup can hold their values. -/
structure Config.IntSized (cfg : Config) : Prop where
  pieces : cfg.matrixColSize / cfg.matrixPieceColSize < 2 ^ 31
  bits : (cfg.pieceProduct cfg.matrixPieceColSize 8).isSome
  columns : ∀ i, i ≤ cfg.matrixColSize / cfg.matrixPieceColSize →
    (cfg.pieceProduct cfg.matrixPieceColSize i).isSome
  blocks : ∀ i, i < cfg.matrixColSize / cfg.matrixPieceColSize →
    (cfg.pieceProduct (cfg.matrixPieceColSize * 8 / cfg.encryptBlockSize) i).isSome
  rows : cfg.decryptAtClientSide = false → cfg.matrixRowSize < 2 ^ 31

theorem Config.pieceProduct_eq {cfg : Config} {a b : Nat} (h : (cfg.pieceProduct a b).isSome) :
    cfg.pieceProduct a b = some (a * b) := by
  obtain ⟨x, h⟩ := Option.isSome_iff_exists.mp h
  obtain ⟨-, value⟩ := Option.ite_none_right_eq_some.mp h
  rw [h, ← value]

theorem Config.pieceProduct_zero (cfg : Config) (a : Nat) : (cfg.pieceProduct a 0).isSome := by
  rw [Config.pieceProduct, Nat.mul_zero, if_pos (by split <;> decide)]
  rfl

theorem Config.pieceProduct_comm (cfg : Config) (a b : Nat) :
    cfg.pieceProduct a b = cfg.pieceProduct b a := by
  simp only [Config.pieceProduct, Nat.mul_comm]

namespace Checked

section SetupSpecs

variable {cfg : Config} (size : PieceSized cfg) (ints : cfg.IntSized) {i : Nat}
  (hi : i < cfg.matrixColSize / cfg.matrixPieceColSize)
include size ints hi

theorem fillPiece_eq {kwFilePair : Nat → List Nat}
    (rows : ∀ j, ∀ r ∈ kwFilePair j, r < cfg.matrixRowSize) :
    fillPiece cfg kwFilePair i = some (ImDsse.fillPiece cfg kwFilePair i) := by
  have column := (Config.matrixGrid_even size.cols).col_lt hi
  have bytes := size.tiled.matrixColSize_mul
  change i * cfg.matrixPieceColSize + cfg.matrixPieceColSize ≤ cfg.matrixColSize ∧ _ at column
  have width : cfg.matrixPieceColSize * (i + 1) - cfg.matrixPieceColSize * i =
      cfg.matrixPieceColSize := by
    rw [Nat.mul_succ, Nat.add_sub_cancel_left]
  simp only [fillPiece, Config.pieceProduct_eq (ints.columns i (Nat.le_of_lt hi)),
    Config.pieceProduct_eq (ints.columns (i + 1) hi), Option.bind_eq_bind, Option.bind_some, width]
  refine checkedLoop_eq (fun col hcol I => checkedLoop_eq (fun bitNumber hbit I => ?_) I) _
  have inside : (cfg.matrixPieceColSize * i + col) * 8 + bitNumber < cfg.maxNumOfFiles := by
    have := column.1
    rw [Nat.mul_comm i] at this
    omega
  rw [load_eq inside, Option.bind_some]
  exact foldlM_eq_foldl (fun rowIdx mem I => storeRow_eq (rows _ rowIdx mem)
    (fun b => storeBit_eq hcol b bitNumber true) I) I

omit ints hi in
/-- The blocks of a piece lie in its rows. -/
theorem blockInside_piece {n : Nat}
    (hn : n < 8 * cfg.matrixPieceColSize / cfg.encryptBlockSize) :
    BlockInside cfg.encryptBlockSize cfg.matrixPieceColSize
      (if cfg.encryptBlockSize < 8 then n * cfg.encryptBlockSize / 8
        else n * (cfg.encryptBlockSize / 8)) := by
  have last := Nat.mul_le_mul_right cfg.encryptBlockSize hn
  rw [Nat.div_mul_cancel size.blocks, Nat.succ_mul] at last
  have pos := size.tiled.pos
  unfold BlockInside
  split
  · omega
  · next large =>
    have aligned := size.tiled.blockSize.byte_aligned (Nat.le_of_not_lt large) n
    have bytes := size.tiled.blockSize.bytes (Nat.le_of_not_lt large)
    omega

omit ints in
/-- The blocks of a piece are blocks of the matrix. -/
theorem pieceBlock_lt {n : Nat} (hn : n < 8 * cfg.matrixPieceColSize / cfg.encryptBlockSize) :
    cfg.matrixPieceColSize * 8 / cfg.encryptBlockSize * i + n < cfg.numBlocks := by
  have pos := size.tiled.pos
  obtain ⟨block, -⟩ := piece_block ⟨size.pos, size.cols, size.blocks⟩ i (n * cfg.encryptBlockSize)
  rw [Nat.mul_div_cancel _ pos] at block
  rw [block]
  have last := Nat.mul_le_mul_right cfg.encryptBlockSize hn
  rw [Nat.div_mul_cancel size.blocks, Nat.succ_mul] at last
  have column := (Config.matrixGrid_even size.cols).col_lt hi
  change i * cfg.matrixPieceColSize + cfg.matrixPieceColSize ≤ cfg.matrixColSize ∧ _ at column
  have bytes := size.tiled.matrixColSize_mul
  refine size.tiled.block_lt ?_
  rw [Nat.mul_assoc, Nat.mul_comm cfg.matrixPieceColSize i]
  omega

theorem encryptPiece_eq (cr : Cipher Key) (rowCtr blkCtr : Nat → Nat) (I : Matrix) :
    encryptPiece cfg cr rowCtr blkCtr i I =
      some (ImDsse.encryptPiece cfg cr rowCtr blkCtr i I) := by
  have hB := size.tiled.blockSize
  simp only [encryptPiece, ImDsse.encryptPiece, Config.pieceProduct_eq ints.bits,
    Config.pieceProduct_eq (ints.blocks i hi), Option.bind_eq_bind, Option.bind_some]
  rw [pieceBlocks_eq hB ⟨size.pos, size.cols, size.blocks⟩]
  refine checkedLoop_eq (fun row hrow s => ?_) _
  rw [load_eq hrow, Option.bind_some]
  refine checkedLoop_eq (fun n hn s => ?_) s
  have inside := blockInside_piece size hn
  have block := pieceBlock_lt size hi hn
  simp only [encryptPieceBlock, load_eq hrow, readBlock_eq hB inside, load_eq block,
    storeRow_eq hrow fun b => writeBlock_eq hB inside b _ _, Option.bind_eq_bind, Option.bind_some]

end SetupSpecs

/-- With sizes that fit, the setup is that of the model. -/
theorem createEncryptedMatrix_eq {cfg : Config} (size : PieceSized cfg) (ints : cfg.IntSized)
    (cr : Cipher Key) {kwFilePair : Nat → List Nat}
    (rows : ∀ j, ∀ r ∈ kwFilePair j, r < cfg.matrixRowSize) (rowCtr blkCtr : Nat → Nat)
    (files : PieceFiles) :
    createEncryptedMatrixFromKwFilePair cfg cr kwFilePair rowCtr blkCtr files =
      ImDsse.createEncryptedMatrixFromKwFilePair cfg cr kwFilePair rowCtr blkCtr files := by
  have hB := size.tiled.blockSize
  have count : pieceCount cfg = some (cfg.matrixColSize / cfg.matrixPieceColSize) := by
    rw [pieceCount, quotient_eq size.pos, Option.bind_eq_bind, Option.bind_some,
      if_pos ints.pieces]
  have bytes : ¬ (8 ≤ cfg.encryptBlockSize ∧ cfg.encryptBlockSize % 8 ≠ 0 ∧
      0 < cfg.matrixColSize / cfg.matrixPieceColSize) := by
    rintro ⟨large, rest, -⟩
    have := hB.bytes large
    omega
  rw [createEncryptedMatrixFromKwFilePair, count, Option.bind_eq_bind, Option.bind_some,
    if_neg bytes, ImDsse.createEncryptedMatrixFromKwFilePair, ← checkedLoop_eq_foldlM]
  refine checkedLoop_congr (fun i hi files => ?_) files
  have column : cfg.pieceProduct i cfg.matrixPieceColSize =
      some (i * cfg.matrixPieceColSize) := by
    rw [Config.pieceProduct_comm, Config.pieceProduct_eq (ints.columns i (Nat.le_of_lt hi)),
      Nat.mul_comm]
  simp only [createPiece, fillPiece_eq size ints hi rows, encryptPiece_eq size ints hi, column,
    createEncryptedPiece_eq hB, Option.bind_eq_bind, Option.bind_some]
  rfl

/-- The directory that the setup leaves. -/
theorem createPieceFiles_spec {cfg : Config} (size : PieceSized cfg) (ints : cfg.IntSized)
    (enough : cfg.decryptAtClientSide = false → 8 ≤ cfg.numBlocks) (cr : Cipher Key)
    {kwFilePair : Nat → List Nat} (rows : ∀ j, ∀ r ∈ kwFilePair j, r < cfg.matrixRowSize)
    (rowCtr blkCtr : Nat → Nat) :
    ∃ files, createPieceFiles cfg cr kwFilePair rowCtr blkCtr = some files ∧ Ready cfg files ∧
      cfg.matrixGrid.CoveredOnce files ∧
      (cfg.decryptAtClientSide = false → cfg.stateGrid.CoveredOnce files) := by
  have even := Config.matrixGrid_even size.cols
  obtain ⟨files, created, formed, -⟩ := createEncryptedMatrixFromKwFilePair_pieces
    size.tiled.blockSize size.cols cr kwFilePair rowCtr blkCtr fun _ => none
  have only := createEncryptedMatrixFromKwFilePair_only created
  rw [createPieceFiles, createEncryptedMatrix_eq size ints cr rows, created, Option.bind_eq_bind,
    Option.bind_some]
  cases build : cfg.decryptAtClientSide with
  | true => exact ⟨files, rfl, ⟨formed, by simp [build]⟩, formed.coveredOnce even only.matrix_name,
      nofun⟩
  | false =>
    obtain ⟨files', states, formedStates, -, untouched⟩ :=
      createBlockStateMatrixFiles_spec (enough build) files
    have onlyStates := createBlockStateMatrixFiles_only states
    have nothing : ∀ m n, files (.state m n) = none := only.state_same
    have formed' := (formed.of_untouched (fun m n m' n' => (state_ne_matrix cfg m' n' m n).symm)
      untouched).1
    refine ⟨files', ?_, ⟨formed', fun _ => formedStates⟩, formed'.coveredOnce even ?_,
      fun _ => formedStates.coveredOnce cfg.stateGrid_even (onlyStates.state_name nothing)⟩
    · rw [if_neg (by decide), createBlockStateMatrixFiles, if_pos (ints.rows build), states]
    · intro m n there
      change files' (.matrix m n) ≠ none at there
      rw [onlyStates.matrix_same] at there
      exact only.matrix_name m n there

/-! ### What a setup that stays in its buffers has met -/

theorem readBlock_inside {B size col bitNumber : Nat} {src V : Buf} (large : 8 ≤ B)
    (h : readBlock B size src col bitNumber = some V) : col + B / 8 ≤ size := by
  rw [readBlock, if_neg (Nat.not_lt.mpr large)] at h
  have pos : 0 < B / 8 := Nat.div_pos large (by decide)
  obtain ⟨b, b', step⟩ := checkedLoop_inside h (Nat.sub_lt pos Nat.one_pos)
  obtain ⟨x, found, -⟩ := Option.bind_eq_some_iff.mp step
  have := load_inside found
  omega

/-- Strides of which the last one fits divide the whole. -/
theorem dvd_of_last_stride {bound stride : Nat} (pos : 0 < stride) (some_ : 0 < bound)
    (last : (iterations bound stride - 1) * stride + stride ≤ bound) : stride ∣ bound := by
  have up := Nat.lt_div_mul_add (a := bound + stride - 1) pos
  have one : 0 < iterations bound stride := Nat.div_pos (by omega) pos
  rw [← Nat.succ_mul, Nat.succ_eq_add_one, Nat.sub_add_cancel one] at last
  unfold iterations at last one
  exact ⟨(bound + stride - 1) / stride, by rw [Nat.mul_comm]; omega⟩

/-- The numbers of piece `i`, and the room for its blocks. -/
structure PieceFits (cfg : Config) (i : Nat) : Prop where
  column : (cfg.pieceProduct cfg.matrixPieceColSize (i + 1)).isSome
  bits : (cfg.pieceProduct cfg.matrixPieceColSize 8).isSome
  first : (cfg.pieceProduct (cfg.matrixPieceColSize * 8 / cfg.encryptBlockSize) i).isSome
  blocks : cfg.encryptBlockSize ∣ 8 * cfg.matrixPieceColSize

section Inside

variable {cfg : Config} {cr : Cipher Key} {kwFilePair : Nat → List Nat} {rowCtr blkCtr : Nat → Nat}
  {i : Nat}

theorem createPiece_inside (rows : 0 < cfg.matrixRowSize) (pos : 0 < cfg.matrixPieceColSize)
    (hB : BlockSize cfg.encryptBlockSize) {files files' : PieceFiles}
    (h : createPiece cfg cr kwFilePair rowCtr blkCtr i files = some files') : PieceFits cfg i := by
  obtain ⟨I, filled, h⟩ := Option.bind_eq_some_iff.mp h
  obtain ⟨out, encrypted, -⟩ := Option.bind_eq_some_iff.mp h
  obtain ⟨first, -, filled⟩ := Option.bind_eq_some_iff.mp filled
  obtain ⟨next, column, -⟩ := Option.bind_eq_some_iff.mp filled
  obtain ⟨bits, hbits, encrypted⟩ := Option.bind_eq_some_iff.mp encrypted
  obtain ⟨block, hblock, encrypted⟩ := Option.bind_eq_some_iff.mp encrypted
  have computed := Option.isSome_iff_exists.mpr ⟨bits, hbits⟩
  cases hbits.symm.trans (Config.pieceProduct_eq computed)
  refine ⟨Option.isSome_iff_exists.mpr ⟨next, column⟩, computed,
    Option.isSome_iff_exists.mpr ⟨block, hblock⟩, ?_⟩
  rcases Nat.lt_or_ge cfg.encryptBlockSize 8 with small | large
  · exact Nat.dvd_mul_right_of_dvd ⟨8 / cfg.encryptBlockSize, by
      rw [Nat.mul_comm, hB.per_byte small]⟩ _
  · -- the last block of the first row
    obtain ⟨s, s', row⟩ := checkedLoop_inside encrypted rows
    obtain ⟨rowCounter, -, row⟩ := Option.bind_eq_some_iff.mp row
    rw [if_neg (Nat.not_lt.mpr large)] at row
    have stride : 0 < cfg.encryptBlockSize / 8 := Nat.div_pos large (by decide)
    have one : 0 < iterations cfg.matrixPieceColSize (cfg.encryptBlockSize / 8) :=
      Nat.div_pos (by omega) stride
    obtain ⟨t, t', step⟩ := checkedLoop_inside row (Nat.sub_lt one Nat.one_pos)
    obtain ⟨cells, -, step⟩ := Option.bind_eq_some_iff.mp step
    obtain ⟨U, read, -⟩ := Option.bind_eq_some_iff.mp step
    rw [if_neg (Nat.not_lt.mpr large)] at read
    have whole := Nat.mul_dvd_mul_left 8 (dvd_of_last_stride stride pos (readBlock_inside large read))
    rwa [hB.bytes large] at whole

end Inside

end Checked

/-! ### Which sizes are sound -/

/-- What the comments of `config.h` allow, with pieces of a power of two of bytes. -/
structure Config.PiecesAllowed (cfg : Config) : Prop where
  files : ∃ n, cfg.maxNumOfFiles = 2 ^ n
  colBytes : 8 ∣ cfg.maxNumOfFiles
  keywords : 0 < cfg.maxNumKeywords
  blockSize : BlockSize cfg.encryptBlockSize
  piece : ∃ n, cfg.matrixPieceColSize = 2 ^ n

/-- The setup runs through and covers every byte of the matrices that are kept once, and
no load or save after it fails, in whatever order they come. -/
def PiecesSound (cfg : Config) (cr : Cipher Key) : Prop :=
  ∀ (kwFilePair : Nat → List Nat) (rowCounterArr blockCounterArr : Nat → Nat),
    (∀ j, ∀ r ∈ kwFilePair j, r < cfg.matrixRowSize) →
    ∃ files, Checked.createPieceFiles cfg cr kwFilePair rowCounterArr blockCounterArr =
        some files ∧
      cfg.matrixGrid.CoveredOnce files ∧
      (cfg.decryptAtClientSide = false → cfg.stateGrid.CoveredOnce files) ∧
      ∀ ts : List Checked.Transfer, (∀ t ∈ ts, t.Valid cfg) →
        ((Checked.transfers cfg).exec files ts).isSome

theorem two_pow_dvd {a b : Nat} (ha : ∃ m, a = 2 ^ m) (hb : ∃ n, b = 2 ^ n) (le : a ≤ b) :
    a ∣ b := by
  obtain ⟨m, rfl⟩ := ha
  obtain ⟨n, rfl⟩ := hb
  exact Nat.pow_dvd_pow 2 ((Nat.pow_le_pow_iff_right (by decide)).mp le)

section Sound

variable {cfg : Config} {cr : Cipher Key} (allowed : cfg.PiecesAllowed)
include allowed

theorem Config.PiecesAllowed.pos : 0 < cfg.matrixPieceColSize := by
  obtain ⟨n, piece⟩ := allowed.piece
  rw [piece]
  exact Nat.two_pow_pos n

theorem Config.PiecesAllowed.colSize_pos : 0 < cfg.matrixColSize := by
  obtain ⟨n, files⟩ := allowed.files
  have pos : 0 < cfg.maxNumOfFiles := files ▸ Nat.two_pow_pos n
  have bytes := allowed.colBytes
  unfold matrixColSize
  omega

/-- Bits of a piece. -/
theorem Config.PiecesAllowed.bits : ∃ n, 8 * cfg.matrixPieceColSize = 2 ^ n := by
  obtain ⟨n, piece⟩ := allowed.piece
  exact ⟨n + 3, by rw [piece, Nat.pow_add, Nat.mul_comm]⟩

theorem Config.PiecesAllowed.pieceSized
    (blocks : cfg.encryptBlockSize ∣ 8 * cfg.matrixPieceColSize)
    (fits : 8 * cfg.matrixPieceColSize ≤ cfg.maxNumOfFiles)
    (states : cfg.decryptAtClientSide = false → 8 * cfg.encryptBlockSize ≤ cfg.maxNumOfFiles)
    (ints : cfg.IntSized) : Checked.PieceSized cfg := by
  have whole := two_pow_dvd allowed.bits allowed.files fits
  have size : cfg.Tiled := ⟨allowed.blockSize, Nat.dvd_trans blocks whole, allowed.colBytes⟩
  refine ⟨size, ?_, blocks, allowed.pos, Config.pieceProduct_eq ints.bits, fun server => ?_⟩
  · have bytes := size.matrixColSize_mul
    rw [← bytes] at whole
    exact Nat.dvd_of_mul_dvd_mul_left (by decide) whole
  · -- the blocks are a power of two of columns, as the pieces are
    obtain ⟨n, bits⟩ := allowed.bits
    obtain ⟨m, -, block⟩ := (Nat.dvd_prime_pow Nat.prime_two).mp (bits ▸ blocks)
    have eight : ∃ n, 8 * cfg.encryptBlockSize = 2 ^ n :=
      ⟨m + 3, by rw [block, Nat.pow_add, Nat.mul_comm]⟩
    have := two_pow_dvd eight allowed.files (states server)
    rw [← size.numBlocks_mul] at this
    exact Nat.dvd_of_mul_dvd_mul_right size.pos this

/-- A sound setup writes at least one piece, also when there are no files. -/
theorem PiecesSound.created (sound : PiecesSound cfg cr) : ∃ files,
    Checked.createEncryptedMatrixFromKwFilePair cfg cr (fun _ => []) (fun _ => 0) (fun _ => 0)
        (fun _ => none) = some files ∧ 0 < cfg.matrixColSize / cfg.matrixPieceColSize ∧
      (cfg.decryptAtClientSide = false → cfg.matrixRowSize < 2 ^ 31 ∧
        cfg.blockStatePieceColSize ≠ 0) := by
  obtain ⟨files, run, covered, -⟩ := sound (fun _ => []) (fun _ => 0) (fun _ => 0) nofun
  obtain ⟨⟨m, n⟩, ⟨f, file, -⟩, -⟩ := covered 0 0 allowed.keywords allowed.colSize_pos
  obtain ⟨made, created, run⟩ := Option.bind_eq_some_iff.mp run
  -- the state matrix has files of its own
  have same : made (.matrix m n) = some f ∧ (cfg.decryptAtClientSide = false →
      cfg.matrixRowSize < 2 ^ 31 ∧ cfg.blockStatePieceColSize ≠ 0) := by
    cases build : cfg.decryptAtClientSide with
    | true =>
      rw [build, if_pos rfl] at run
      cases run
      exact ⟨file, nofun⟩
    | false =>
      rw [build, if_neg (by decide)] at run
      obtain ⟨rows, states⟩ := Option.ite_none_right_eq_some.mp run
      have only := createBlockStateMatrixFiles_only states
      obtain ⟨pieces, -⟩ := Option.ite_none_left_eq_some.mp states
      exact ⟨(only.matrix_same m n).symm.trans file, fun _ => ⟨rows, pieces⟩⟩
  refine ⟨made, created, Nat.pos_of_ne_zero fun nothing => ?_, same.2⟩
  obtain ⟨count, counted, created⟩ := Option.bind_eq_some_iff.mp created
  rw [Checked.pieceCount, Checked.quotient_eq allowed.pos, nothing] at counted
  cases counted
  obtain ⟨-, loop⟩ := Option.ite_none_left_eq_some.mp created
  cases loop
  cases same.1

/-- Of the configurations the comments allow, those are sound whose blocks divide the
pieces, whose pieces are no wider than the matrix, which have whole bytes of states where
the server decrypts, and whose numbers fit their `int`s. -/
theorem pieces_sound_iff (cr : Cipher Key) : PiecesSound cfg cr ↔
    cfg.encryptBlockSize ∣ 8 * cfg.matrixPieceColSize ∧
      8 * cfg.matrixPieceColSize ≤ cfg.maxNumOfFiles ∧
      (cfg.decryptAtClientSide = false → 8 * cfg.encryptBlockSize ≤ cfg.maxNumOfFiles) ∧
      cfg.IntSized := by
  have hB := allowed.blockSize
  constructor
  · intro sound
    obtain ⟨files, created, one, server⟩ := sound.created allowed
    obtain ⟨count, counted, created⟩ := Option.bind_eq_some_iff.mp created
    rw [Checked.pieceCount, Checked.quotient_eq allowed.pos, Option.bind_eq_bind,
      Option.bind_some] at counted
    obtain ⟨pieces, counted⟩ := Option.ite_none_right_eq_some.mp counted
    cases counted
    obtain ⟨-, loop⟩ := Option.ite_none_left_eq_some.mp created
    have piece : ∀ i, i < cfg.matrixColSize / cfg.matrixPieceColSize → Checked.PieceFits cfg i := by
      intro i hi
      obtain ⟨t, t', step⟩ := checkedLoop_inside loop hi
      exact Checked.createPiece_inside allowed.keywords allowed.pos hB step
    refine ⟨(piece 0 one).blocks, ?_, fun build => ?_, ⟨pieces, (piece 0 one).bits, ?_,
      fun i hi => (piece i hi).first, fun build => (server build).1⟩⟩
    · have wide := Nat.div_mul_le_self cfg.matrixColSize cfg.matrixPieceColSize
      have first := Nat.le_mul_of_pos_left cfg.matrixPieceColSize one
      have bytes := Nat.div_mul_le_self cfg.maxNumOfFiles 8
      change cfg.matrixColSize * 8 ≤ _ at bytes
      omega
    · have states := (server build).2
      change cfg.numBlocks / 8 ≠ 0 at states
      exact (Nat.le_div_iff_mul_le hB.pos).mp (show 8 ≤ cfg.numBlocks by omega)
    · intro i hi
      cases i with
      | zero => exact cfg.pieceProduct_zero _
      | succ i => exact (piece i hi).column
  · rintro ⟨blocks, fits, states, ints⟩ kwFilePair rowCtr blkCtr rows
    have size := allowed.pieceSized blocks fits states ints
    have enough : cfg.decryptAtClientSide = false → 8 ≤ cfg.numBlocks := fun server =>
      (Nat.le_div_iff_mul_le hB.pos).mpr (states server)
    obtain ⟨files, run, ready, covered, coveredStates⟩ :=
      Checked.createPieceFiles_spec size ints enough cr rows rowCtr blkCtr
    refine ⟨files, run, covered, coveredStates, fun ts valid => ?_⟩
    obtain ⟨files', run, -⟩ := Machine.exec_of_progress (Checked.Ready cfg)
      (Checked.transfers_progress size) ready valid
    exact Option.isSome_iff_exists.mpr ⟨files', run⟩

end Sound

/-- Two pieces side by side, in an index of 2048 files whose server decrypts. -/
def twoPieces : Config where
  maxNumOfFiles := 2048
  maxNumKeywords := 12000
  encryptBlockSize := 128
  matrixPieceColSize := 128
  decryptAtClientSide := false

theorem pieces_sound_two : PiecesSound twoPieces smallCipher := by
  have allowed : twoPieces.PiecesAllowed :=
    ⟨⟨11, by decide⟩, by decide, by decide, by decide, ⟨7, by decide⟩⟩
  have ints : twoPieces.IntSized := ⟨by decide, by decide, by decide, by decide, by decide⟩
  exact (pieces_sound_iff allowed smallCipher).mpr ⟨by decide, by decide, by decide, ints⟩

/-- The shipped sizes with half the files. -/
def halfPiece : Config where
  maxNumOfFiles := 512
  maxNumKeywords := 12000
  encryptBlockSize := 128
  matrixPieceColSize := 128
  decryptAtClientSide := true

/-- A piece is twice as wide as the matrix, and the setup writes none. -/
theorem pieces_unsound : halfPiece.PiecesAllowed ∧ ¬ PiecesSound halfPiece smallCipher := by
  have allowed : halfPiece.PiecesAllowed :=
    ⟨⟨9, by decide⟩, by decide, by decide, by decide, ⟨7, by decide⟩⟩
  refine ⟨allowed, fun sound => ?_⟩
  obtain ⟨-, -, one, -⟩ := sound.created allowed
  exact absurd one (by decide)

end ImDsse
