import ImDsse.Kit.View
import ImDsse.PieceGeometry

/-!
Rows and blocks as views of the piece files.

The loads and saves of `DSSE` are taken here over any sizes of the matrices and their
pieces, `PieceSizes`; with the sizes of `config.h` they are those of the server
(`loadEncryptedMatrixFromFiles_pieceSizes` and its likes).

A row and a block are views of one byte matrix, and so they are of the state matrix.
Where the pieces divide the matrices, every sequence of loads and saves does to the files
what getting and setting through the views does to two byte matrices (`views_coherent`).
-/

namespace ImDsse

open Kit Kit.Loop Kit.Bits Kit.Files

/-! ### Sizes -/

/-- The sizes of the two matrices and of their pieces. -/
structure PieceSizes where
  matrixRowSize : Nat
  matrixColSize : Nat
  numBlocks : Nat
  encryptBlockSize : Nat
  matrixPieceRowSize : Nat
  matrixPieceColSize : Nat
  blockStatePieceColSize : Nat

namespace PieceSizes

variable (v : PieceSizes)

/-- The encrypted matrix on disk. -/
def matrixGrid : Grid where
  rows := v.matrixRowSize
  cols := v.matrixColSize
  pieceRow := v.matrixPieceRowSize
  pieceCol := v.matrixPieceColSize
  name := .matrix

/-- The state matrix on disk. `BLOCK_STATE_ROW_SIZE` and `BLOCK_STATE_PIECE_ROW_SIZE` are
the sizes of the encrypted matrix. -/
def stateGrid : Grid where
  rows := v.matrixRowSize
  cols := v.numBlocks / 8
  pieceRow := v.matrixPieceRowSize
  pieceCol := v.blockStatePieceColSize
  name := .state

/-- `ceil(ENCRYPT_BLOCK_SIZE / BYTE_SIZE)` -/
def blockCols : Nat := (v.encryptBlockSize + 7) / 8

variable (files : PieceFiles)

/-- `DSSE::loadEncrypted_matrix_from_files` with a dimension. -/
def loadEncryptedMatrixFromFiles (I : Matrix) : Dim → Nat → Matrix
  | .col, idx =>
    let P := v.matrixPieceColSize
    let n := idx * v.encryptBlockSize / (P * 8) * P
    let c := v.blockCols
    let n1 := idx * v.encryptBlockSize % (P * 8) / 8
    v.matrixGrid.loadColumns files n c n1 (P - n1 - c) I
  | .row, idx => v.matrixGrid.loadRow files idx I

/-- `DSSE::saveEncrypted_matrix_to_files` with a dimension. -/
def saveEncryptedMatrixToFiles (I : Matrix) : Dim → Nat → PieceFiles
  | .col, idx =>
    let P := v.matrixPieceColSize
    let n := idx * v.encryptBlockSize / (P * 8) * P
    let c := v.blockCols
    let n1 := idx * v.encryptBlockSize % (P * 8) / 8
    v.matrixGrid.saveColumns files n c n1 (P - n1 - c) I
  | .row, idx => v.matrixGrid.saveRow files idx I

/-- `DSSE::loadBlock_state_matrix_from_file` with a dimension. -/
def loadBlockStateMatrixFromFile (I : Matrix) : Dim → Nat → Matrix
  | .col, idx =>
    let P := v.blockStatePieceColSize
    let n := idx / 8 / P * P
    let n1 := idx % (P * 8) / 8
    v.stateGrid.loadColumns files n 1 n1 (P - n1 - 1) I
  | .row, idx => v.stateGrid.loadRow files idx I

/-- `DSSE::saveBlock_state_matrix_to_file` with a dimension. -/
def saveBlockStateMatrixToFile (I : Matrix) : Dim → Nat → PieceFiles
  | .col, idx =>
    let P := v.blockStatePieceColSize
    let n := idx / 8 / P * P
    let n1 := idx % (P * 8) / 8
    v.stateGrid.saveColumns files n 1 n1 (P - n1 - 1) I
  | .row, idx => v.stateGrid.saveRow files idx I

/-- The pieces divide the matrices, and the blocks the pieces. -/
structure Even : Prop where
  rows : v.matrixPieceRowSize ∣ v.matrixRowSize
  cols : v.matrixPieceColSize ∣ v.matrixColSize
  blocks : v.encryptBlockSize ∣ 8 * v.matrixPieceColSize
  states : v.blockStatePieceColSize ∣ v.numBlocks / 8

end PieceSizes

/-- The sizes of `config.h`. -/
def Config.pieceSizes (cfg : Config) : PieceSizes where
  matrixRowSize := cfg.matrixRowSize
  matrixColSize := cfg.matrixColSize
  numBlocks := cfg.numBlocks
  encryptBlockSize := cfg.encryptBlockSize
  matrixPieceRowSize := cfg.matrixPieceRowSize
  matrixPieceColSize := cfg.matrixPieceColSize
  blockStatePieceColSize := cfg.blockStatePieceColSize

section Config

variable (cfg : Config) (files : PieceFiles) (I : Matrix) (dim : Dim) (idx : Nat)

theorem loadEncryptedMatrixFromFiles_pieceSizes :
    loadEncryptedMatrixFromFiles cfg files I dim idx =
      cfg.pieceSizes.loadEncryptedMatrixFromFiles files I dim idx := by
  cases dim <;> rfl

theorem saveEncryptedMatrixToFiles_pieceSizes :
    saveEncryptedMatrixToFiles cfg files I dim idx =
      cfg.pieceSizes.saveEncryptedMatrixToFiles files I dim idx := by
  cases dim <;> rfl

theorem loadBlockStateMatrixFromFile_pieceSizes :
    loadBlockStateMatrixFromFile cfg files I dim idx =
      cfg.pieceSizes.loadBlockStateMatrixFromFile files I dim idx := by
  cases dim <;> rfl

theorem saveBlockStateMatrixToFile_pieceSizes :
    saveBlockStateMatrixToFile cfg files I dim idx =
      cfg.pieceSizes.saveBlockStateMatrixToFile files I dim idx := by
  cases dim <;> rfl

end Config

/-! ### Views of a matrix -/

/-- The view of a row: row 0 of the buffer. -/
def rowView (cols idx : Nat) : PEquiv (Nat × Nat) (Nat × Nat) where
  toFun p := if p.1 = 0 ∧ p.2 < cols then some (idx, p.2) else none
  invFun p := if p.1 = idx ∧ p.2 < cols then some (0, p.2) else none
  inv := by
    rintro ⟨r, j⟩ ⟨r', c⟩
    simp only [Option.ite_none_right_eq_some, Option.some.injEq, Prod.mk.injEq]
    omega

/-- The view of some byte columns: the first columns of the buffer. -/
def columnsView (rows first width : Nat) : PEquiv (Nat × Nat) (Nat × Nat) where
  toFun p := if p.1 < rows ∧ p.2 < width then some (p.1, first + p.2) else none
  invFun p := if p.1 < rows ∧ first ≤ p.2 ∧ p.2 < first + width
    then some (p.1, p.2 - first) else none
  inv := by
    rintro ⟨r, j⟩ ⟨r', c⟩
    simp only [Option.ite_none_right_eq_some, Option.some.injEq, Prod.mk.injEq]
    omega

/-- A buffer after the view of a matrix is loaded into it. -/
def loadView (v : PEquiv (Nat × Nat) (Nat × Nat)) (M I : Matrix) : Matrix :=
  Function.curry (View.get v (Function.uncurry M) (Function.uncurry I))

/-- A matrix after the view of it is saved from a buffer. -/
def saveView (v : PEquiv (Nat × Nat) (Nat × Nat)) (M I : Matrix) : Matrix :=
  Function.curry (View.set v (Function.uncurry M) (Function.uncurry I))

section Views

variable {M I : Matrix} {rows cols idx first width r j c : Nat}

theorem loadView_row : loadView (rowView cols idx) M I r j =
    if r = 0 ∧ j < cols then M idx j else I r j := by
  by_cases inside : r = 0 ∧ j < cols
  · have place : rowView cols idx (r, j) = some (idx, j) := if_pos inside
    rw [if_pos inside]
    exact View.get_of_some place
  · have place : rowView cols idx (r, j) = none := if_neg inside
    rw [if_neg inside]
    exact View.get_of_none place

theorem saveView_row (hc : c < cols) : saveView (rowView cols idx) M I r c =
    if r = idx then I 0 c else M r c := by
  by_cases here : r = idx
  · have place : (rowView cols idx).symm (r, c) = some (0, c) := if_pos ⟨here, hc⟩
    rw [if_pos here]
    exact View.set_of_some place
  · have place : (rowView cols idx).symm (r, c) = none := if_neg fun both => here both.1
    rw [if_neg here]
    exact View.set_of_none place

theorem loadView_columns : loadView (columnsView rows first width) M I r j =
    if r < rows ∧ j < width then M r (first + j) else I r j := by
  by_cases inside : r < rows ∧ j < width
  · have place : columnsView rows first width (r, j) = some (r, first + j) := if_pos inside
    rw [if_pos inside]
    exact View.get_of_some place
  · have place : columnsView rows first width (r, j) = none := if_neg inside
    rw [if_neg inside]
    exact View.get_of_none place

theorem saveView_columns (hr : r < rows) : saveView (columnsView rows first width) M I r c =
    if first ≤ c ∧ c < first + width then I r (c - first) else M r c := by
  by_cases here : first ≤ c ∧ c < first + width
  · have place : (columnsView rows first width).symm (r, c) = some (r, c - first) :=
      if_pos ⟨hr, here⟩
    rw [if_pos here]
    exact View.set_of_some place
  · have place : (columnsView rows first width).symm (r, c) = none :=
      if_neg fun both => here both.2
    rw [if_neg here]
    exact View.set_of_none place

end Views

/-! ### What a grid of pieces holds -/

namespace Grid

variable (g : Grid)

/-- A name is that of a piece. -/
def IsPiece (name : PieceName) : Prop :=
  ∃ k l, k * g.pieceRow < g.rows ∧ l * g.pieceCol < g.cols ∧
    name = g.name (k * g.pieceRow) (l * g.pieceCol)

/-- Every piece is there, as long as it should be, and each of its bytes is that of the
matrix. -/
def Holds (files : PieceFiles) (M : Matrix) : Prop :=
  ∀ k l, k * g.pieceRow < g.rows → l * g.pieceCol < g.cols →
    ∃ f, files (g.name (k * g.pieceRow) (l * g.pieceCol)) = some f ∧
      f.size = g.pieceRow * g.pieceCol ∧ ∀ i j, i < g.pieceRow → j < g.pieceCol →
        f.data (i * g.pieceCol + j) = M (k * g.pieceRow + i) (l * g.pieceCol + j)

variable {g} {files : PieceFiles} {M : Matrix}

theorem piece_lt {k P i n : Nat} (divides : P ∣ n) (start : k * P < n) (hi : i < P) :
    k * P + i < n := by
  obtain ⟨q, rfl⟩ := divides
  rw [Nat.mul_comm P q] at start ⊢
  exact tile_lt (Nat.lt_of_mul_lt_mul_right start) hi

theorem holds_iff (even : g.Even) : g.Holds files M ↔
    g.Formed files ∧ ∀ r c, r < g.rows → c < g.cols → g.matrix files r c = M r c := by
  constructor
  · intro holds
    refine ⟨fun k l hk hl => ?_, fun r c hr hc => ?_⟩
    · obtain ⟨f, file, size, -⟩ := holds k l hk hl
      exact ⟨f, file, size⟩
    · have hr' := Nat.div_mul_le_self r g.pieceRow
      have hc' := Nat.div_mul_le_self c g.pieceCol
      have hi := Nat.mod_lt r (even.pieceRow_pos hr)
      have hj := Nat.mod_lt c (even.pieceCol_pos hc)
      obtain ⟨f, file, -, bytes⟩ := holds (r / g.pieceRow) (c / g.pieceCol)
        (Nat.lt_of_le_of_lt hr' hr) (Nat.lt_of_le_of_lt hc' hc)
      have cell := matrix_of_file file hi hj
      rwa [bytes _ _ hi hj, Nat.div_add_mod', Nat.div_add_mod'] at cell
  · rintro ⟨formed, cells⟩ k l hk hl
    obtain ⟨f, file, size⟩ := formed k l hk hl
    refine ⟨f, file, size, fun i j hi hj => ?_⟩
    exact (matrix_of_file file hi hj).symm.trans
      (cells _ _ (piece_lt even.rows hk hi) (piece_lt even.cols hl hj))

/-- Files that are the same under the names of the grid hold the same. -/
theorem Holds.of_same {files' : PieceFiles} (holds : g.Holds files M)
    (same : ∀ k l, files' (g.name k l) = files (g.name k l)) : g.Holds files' M := by
  intro k l hk hl
  rw [same]
  exact holds k l hk hl

/-! Loads and saves of a grid are loads and saves of its matrix. -/

section Transfers

variable (even : g.Even) (holds : g.Holds files M)
include even holds

theorem Holds.loadRow {idx : Nat} (hidx : idx < g.rows) (I : Matrix) :
    g.loadRow files idx I = loadView (rowView g.cols idx) M I := by
  obtain ⟨formed, cells⟩ := (holds_iff even).mp holds
  funext r j
  rw [loadRow_apply even formed hidx, loadView_row]
  by_cases inside : r = 0 ∧ j < g.cols
  · rw [if_pos inside, if_pos inside, cells idx j hidx inside.2]
  · rw [if_neg inside, if_neg inside]

theorem Holds.saveRow {idx : Nat} (hidx : idx < g.rows) (I : Matrix) :
    g.Holds (g.saveRow files idx I) (saveView (rowView g.cols idx) M I) := by
  obtain ⟨formed, cells⟩ := (holds_iff even).mp holds
  obtain ⟨formed', saved, -⟩ := saveRow_spec even formed hidx I
  refine (holds_iff even).mpr ⟨formed', fun r c hr hc => ?_⟩
  rw [saved r c hr hc, saveView_row hc, cells r c hr hc]

theorem Holds.loadColumns {l n1 width n2 : Nat} (hl : l * g.pieceCol < g.cols)
    (fits : n1 + width + n2 = g.pieceCol) (I : Matrix) :
    g.loadColumns files (l * g.pieceCol) width n1 n2 I =
      loadView (columnsView g.rows (l * g.pieceCol + n1) width) M I := by
  obtain ⟨formed, cells⟩ := (holds_iff even).mp holds
  funext r j
  rw [loadColumns_apply even formed hl fits, loadView_columns]
  by_cases inside : r < g.rows ∧ j < width
  · have col : l * g.pieceCol + (n1 + j) < g.cols := piece_lt even.cols hl (by omega)
    rw [if_pos inside, if_pos inside, cells r _ inside.1 col, Nat.add_assoc]
  · rw [if_neg inside, if_neg inside]

theorem Holds.saveColumns {l n1 width n2 : Nat} (hl : l * g.pieceCol < g.cols)
    (fits : n1 + width + n2 = g.pieceCol) (I : Matrix) :
    g.Holds (g.saveColumns files (l * g.pieceCol) width n1 n2 I)
      (saveView (columnsView g.rows (l * g.pieceCol + n1) width) M I) := by
  obtain ⟨formed, cells⟩ := (holds_iff even).mp holds
  obtain ⟨formed', saved, -⟩ := saveColumns_spec even formed hl fits I
  refine (holds_iff even).mpr ⟨formed', fun r c hr hc => ?_⟩
  rw [saved r c hr hc, saveView_columns hr, cells r c hr hc]

end Transfers

/-! Saves write no file but pieces. -/

theorem writeSingleBlock_other {name filename : PieceName} (other : name ≠ filename) (I : Matrix)
    (first numRow numCol index1 index2 : Nat) (dim : Dim) :
    writeSingleBlockToFile files filename I first numRow numCol index1 index2 dim name =
      files name := by
  have put (s : Stream) : files.put filename s name = files name := by
    unfold PieceFiles.put
    split
    · rfl
    · exact Function.update_of_ne other _ _
  cases dim <;> exact put _

theorem saveRow_other (even : g.Even) {idx : Nat} (hidx : idx < g.rows) (I : Matrix)
    {name : PieceName} (other : ¬ g.IsPiece name) : g.saveRow files idx I name = files name := by
  have row := Nat.div_mul_le_self idx g.pieceRow
  unfold saveRow
  rw [iterations_of_dvd even.cols]
  refine forLoop_inv (P := fun _ (s : PieceFiles × Matrix) => s.1 name = files name) rfl ?_
  intro k hk s same
  obtain ⟨col, pos⟩ := even.col_lt hk
  have outside : name ≠ g.name (idx / g.pieceRow * g.pieceRow) (k * g.pieceCol) := fun here =>
    other ⟨idx / g.pieceRow, k, Nat.lt_of_le_of_lt row hidx, by omega, here⟩
  exact (writeSingleBlock_other outside _ _ _ _ _ 0 .row).trans same

theorem saveColumns_other (even : g.Even) {l : Nat} (hl : l * g.pieceCol < g.cols)
    (width n1 n2 : Nat) (I : Matrix) {name : PieceName} (other : ¬ g.IsPiece name) :
    g.saveColumns files (l * g.pieceCol) width n1 n2 I name = files name := by
  unfold saveColumns
  rw [iterations_of_dvd even.rows]
  refine forLoop_inv (P := fun _ (files' : PieceFiles) => files' name = files name) rfl ?_
  intro k hk files' same
  obtain ⟨row, pos⟩ := even.row_lt hk
  have outside : name ≠ g.name (k * g.pieceRow) (l * g.pieceCol) := fun here =>
    other ⟨k, l, by omega, hl, here⟩
  exact (writeSingleBlock_other outside _ _ _ _ _ _ .col).trans same

end Grid

/-! ### Both matrices -/

/-- Two byte matrices. -/
structure ByteMatrices where
  matrix : Matrix
  states : Matrix

namespace PieceSizes

variable (v : PieceSizes)

/-- The view of a row or a block. A block is the bytes that it begins in and goes on to. -/
def matrixView : Dim → Nat → PEquiv (Nat × Nat) (Nat × Nat)
  | .row, idx => rowView v.matrixColSize idx
  | .col, idx => columnsView v.matrixRowSize (idx * v.encryptBlockSize / 8) v.blockCols

/-- The view of the states of a row or a block. -/
def stateView : Dim → Nat → PEquiv (Nat × Nat) (Nat × Nat)
  | .row, idx => rowView (v.numBlocks / 8) idx
  | .col, idx => columnsView v.matrixRowSize (idx / 8) 1

/-- The row, or the start of the block, is in the matrix. -/
def Line : Dim → Nat → Prop
  | .row, idx => idx < v.matrixRowSize
  | .col, idx => idx * v.encryptBlockSize / 8 < v.matrixColSize

/-- The row, or the state of the block, is in the state matrix. -/
def StateLine : Dim → Nat → Prop
  | .row, idx => idx < v.matrixRowSize
  | .col, idx => idx / 8 < v.numBlocks / 8

/-- With the sizes of `config.h` and whole bytes, every block is in both. -/
theorem line_pieceSizes {cfg : Config} (bytes : 8 ∣ cfg.maxNumOfFiles) (states : 8 ∣ cfg.numBlocks)
    {idx : Nat} (block : idx < cfg.numBlocks) :
    cfg.pieceSizes.Line .col idx ∧ cfg.pieceSizes.StateLine .col idx := by
  obtain ⟨n, bytes⟩ := bytes
  have pos : 0 < cfg.encryptBlockSize := by
    refine Nat.pos_of_ne_zero fun zero => ?_
    rw [Config.numBlocks, zero, Nat.div_zero] at block
    exact Nat.not_lt_zero idx block
  have inside : (idx + 1) * cfg.encryptBlockSize ≤ cfg.maxNumOfFiles :=
    (Nat.le_div_iff_mul_le pos).mp block
  rw [Nat.succ_mul] at inside
  constructor
  · change idx * cfg.encryptBlockSize / 8 < cfg.maxNumOfFiles / 8
    omega
  · change idx / 8 < cfg.numBlocks / 8
    omega

/-- A load or a save of what there is. -/
def Valid : Checked.Transfer → Prop
  | .loadMatrix _ dim idx => v.Line dim idx
  | .saveMatrix _ dim idx => v.Line dim idx
  | .loadStates _ dim idx => v.StateLine dim idx
  | .saveStates _ dim idx => v.StateLine dim idx

/-- The piece files under loads, which answer with the buffer, and saves. -/
def pieces : Machine PieceFiles Checked.Transfer Matrix where
  step files
    | .loadMatrix I dim idx => some (files, v.loadEncryptedMatrixFromFiles files I dim idx)
    | .saveMatrix I dim idx => some (v.saveEncryptedMatrixToFiles files I dim idx, I)
    | .loadStates I dim idx => some (files, v.loadBlockStateMatrixFromFile files I dim idx)
    | .saveStates I dim idx => some (v.saveBlockStateMatrixToFile files I dim idx, I)

/-- Two byte matrices that are got and set. -/
def byteMatrices : Machine ByteMatrices Checked.Transfer Matrix where
  step m
    | .loadMatrix I dim idx => some (m, loadView (v.matrixView dim idx) m.matrix I)
    | .saveMatrix I dim idx => some ({ m with matrix := saveView (v.matrixView dim idx) m.matrix I }, I)
    | .loadStates I dim idx => some (m, loadView (v.stateView dim idx) m.states I)
    | .saveStates I dim idx => some ({ m with states := saveView (v.stateView dim idx) m.states I }, I)

/-- The pieces hold two byte matrices, and the other files are as they were. -/
structure Hold (before files : PieceFiles) (m : ByteMatrices) : Prop where
  matrix : v.matrixGrid.Holds files m.matrix
  states : v.stateGrid.Holds files m.states
  others : ∀ name, ¬ v.matrixGrid.IsPiece name → ¬ v.stateGrid.IsPiece name →
    files name = before name

variable {v}

theorem matrixGrid_even (even : v.Even) : v.matrixGrid.Even where
  rows := even.rows
  cols := even.cols
  name := by
    rintro m n m' n' ⟨⟩
    exact ⟨rfl, rfl⟩

theorem stateGrid_even (even : v.Even) : v.stateGrid.Even where
  rows := even.rows
  cols := even.states
  name := by
    rintro m n m' n' ⟨⟩
    exact ⟨rfl, rfl⟩

/-- A position counted in bits, in a piece and in the matrix. -/
theorem place_eq (a P : Nat) : a / (P * 8) * P + a % (P * 8) / 8 = a / 8 := by
  rw [Nat.mul_comm P 8, Nat.mod_mul_right_div_self, ← Nat.div_div_eq_div_mul]
  exact Nat.div_add_mod' (a / 8) P

theorem state_place_eq (idx P : Nat) : idx / 8 / P * P + idx % (P * 8) / 8 = idx / 8 := by
  rw [Nat.div_div_eq_div_mul, Nat.mul_comm 8 P]
  exact place_eq idx P

/-- The bytes of a block are in one piece. -/
theorem block_in_piece (even : v.Even) {idx : Nat} (line : v.Line .col idx) :
    idx * v.encryptBlockSize / (v.matrixPieceColSize * 8) * v.matrixPieceColSize < v.matrixColSize ∧
      idx * v.encryptBlockSize % (v.matrixPieceColSize * 8) / 8 + v.blockCols ≤
        v.matrixPieceColSize := by
  have start : idx * v.encryptBlockSize / 8 < v.matrixColSize := line
  have place := place_eq (idx * v.encryptBlockSize) v.matrixPieceColSize
  refine ⟨by omega, ?_⟩
  have pos : 0 < v.matrixPieceColSize := Nat.pos_of_dvd_of_pos even.cols (Nat.zero_lt_of_lt start)
  obtain ⟨u, bits⟩ := even.blocks
  rw [Nat.mul_comm 8] at bits
  -- within the piece the block is again a whole number of blocks from the start
  obtain ⟨t, rest⟩ : v.encryptBlockSize ∣
      idx * v.encryptBlockSize % (v.matrixPieceColSize * 8) := by
    refine (Nat.dvd_mod_iff ⟨u, bits⟩).mpr ⟨idx, Nat.mul_comm _ _⟩
  have inside := Nat.mod_lt (idx * v.encryptBlockSize) (Nat.mul_pos pos (show 0 < 8 by decide))
  rw [rest, bits] at inside
  have room : v.encryptBlockSize * t + v.encryptBlockSize ≤ v.matrixPieceColSize * 8 := by
    rw [bits, ← Nat.mul_succ]
    exact Nat.mul_le_mul_left _ (Nat.lt_of_mul_lt_mul_left inside)
  rw [rest, blockCols]
  omega

/-- The state of a block is in one piece. -/
theorem state_in_piece (even : v.Even) {idx : Nat} (line : v.StateLine .col idx) :
    idx / 8 / v.blockStatePieceColSize * v.blockStatePieceColSize < v.numBlocks / 8 ∧
      idx % (v.blockStatePieceColSize * 8) / 8 + 1 ≤ v.blockStatePieceColSize := by
  have start : idx / 8 < v.numBlocks / 8 := line
  have pos : 0 < v.blockStatePieceColSize :=
    Nat.pos_of_dvd_of_pos even.states (Nat.zero_lt_of_lt start)
  have inside := Nat.mod_lt idx (Nat.mul_pos pos (show 0 < 8 by decide))
  have before := Nat.div_mul_le_self (idx / 8) v.blockStatePieceColSize
  constructor <;> omega

/-- What is left of a record behind a part of it. -/
theorem record_eq {P n1 c : Nat} (room : n1 + c ≤ P) : n1 + c + (P - n1 - c) = P := by
  rw [Nat.sub_sub]
  exact Nat.add_sub_of_le room

section Steps

variable {before files : PieceFiles} {M : Matrix} {dim : Dim} {idx : Nat} (even : v.Even)
include even

theorem load_matrix_eq (holds : v.matrixGrid.Holds files M) (line : v.Line dim idx) (I : Matrix) :
    v.loadEncryptedMatrixFromFiles files I dim idx = loadView (v.matrixView dim idx) M I := by
  cases dim with
  | row => exact holds.loadRow (matrixGrid_even even) line I
  | col =>
    obtain ⟨piece, room⟩ := block_in_piece even line
    have place := place_eq (idx * v.encryptBlockSize) v.matrixPieceColSize
    refine (holds.loadColumns (matrixGrid_even even) piece (record_eq room) I).trans ?_
    exact congrArg (fun first => loadView (columnsView v.matrixRowSize first v.blockCols) M I) place

theorem save_matrix_holds (holds : v.matrixGrid.Holds files M) (line : v.Line dim idx)
    (I : Matrix) : v.matrixGrid.Holds (v.saveEncryptedMatrixToFiles files I dim idx)
      (saveView (v.matrixView dim idx) M I) := by
  cases dim with
  | row => exact holds.saveRow (matrixGrid_even even) line I
  | col =>
    obtain ⟨piece, room⟩ := block_in_piece even line
    have place := place_eq (idx * v.encryptBlockSize) v.matrixPieceColSize
    have saved := holds.saveColumns (matrixGrid_even even) piece (record_eq room) I
    rw [matrixView, ← place]
    exact saved

theorem save_matrix_other (line : v.Line dim idx) (I : Matrix) {name : PieceName}
    (other : ¬ v.matrixGrid.IsPiece name) :
    v.saveEncryptedMatrixToFiles files I dim idx name = files name := by
  cases dim with
  | row => exact Grid.saveRow_other (matrixGrid_even even) line I other
  | col =>
    obtain ⟨piece, -⟩ := block_in_piece even line
    exact Grid.saveColumns_other (matrixGrid_even even) piece _ _ _ I other

theorem load_states_eq (holds : v.stateGrid.Holds files M) (line : v.StateLine dim idx)
    (I : Matrix) :
    v.loadBlockStateMatrixFromFile files I dim idx = loadView (v.stateView dim idx) M I := by
  cases dim with
  | row => exact holds.loadRow (stateGrid_even even) line I
  | col =>
    obtain ⟨piece, room⟩ := state_in_piece even line
    have place := state_place_eq idx v.blockStatePieceColSize
    refine (holds.loadColumns (stateGrid_even even) piece (record_eq room) I).trans ?_
    exact congrArg (fun first => loadView (columnsView v.matrixRowSize first 1) M I) place

theorem save_states_holds (holds : v.stateGrid.Holds files M) (line : v.StateLine dim idx)
    (I : Matrix) : v.stateGrid.Holds (v.saveBlockStateMatrixToFile files I dim idx)
      (saveView (v.stateView dim idx) M I) := by
  cases dim with
  | row => exact holds.saveRow (stateGrid_even even) line I
  | col =>
    obtain ⟨piece, room⟩ := state_in_piece even line
    have place := state_place_eq idx v.blockStatePieceColSize
    have saved := holds.saveColumns (stateGrid_even even) piece (record_eq room) I
    rw [stateView, ← place]
    exact saved

theorem save_states_other (line : v.StateLine dim idx) (I : Matrix) {name : PieceName}
    (other : ¬ v.stateGrid.IsPiece name) :
    v.saveBlockStateMatrixToFile files I dim idx name = files name := by
  cases dim with
  | row => exact Grid.saveRow_other (stateGrid_even even) line I other
  | col =>
    obtain ⟨piece, -⟩ := state_in_piece even line
    exact Grid.saveColumns_other (stateGrid_even even) piece _ _ _ I other

/-- A step does to the files what it does to the byte matrices. -/
theorem pieces_step {m : ByteMatrices} {t : Checked.Transfer} (hold : v.Hold before files m)
    (valid : v.Valid t) :
    Machine.Lockstep (v.Hold before) Eq (v.pieces.step files t) (v.byteMatrices.step m t) := by
  cases t with
  | loadMatrix I dim idx => exact .some ⟨hold, load_matrix_eq even hold.matrix valid I⟩
  | loadStates I dim idx => exact .some ⟨hold, load_states_eq even hold.states valid I⟩
  | saveMatrix I dim idx =>
    refine .some ⟨⟨save_matrix_holds even hold.matrix valid I, ?_, ?_⟩, rfl⟩
    · exact hold.states.of_same fun k l =>
        save_matrix_other even valid I fun ⟨_, _, _, _, same⟩ => by cases same
    · exact fun name other other' =>
        (save_matrix_other even valid I other).trans (hold.others name other other')
  | saveStates I dim idx =>
    refine .some ⟨⟨?_, save_states_holds even hold.states valid I, ?_⟩, rfl⟩
    · exact hold.matrix.of_same fun k l =>
        save_states_other even valid I fun ⟨_, _, _, _, same⟩ => by cases same
    · exact fun name other other' =>
        (save_states_other even valid I other').trans (hold.others name other other')

end Steps

/-! ### What was saved last -/

/-- What a call saves in the encrypted matrix. -/
def matrixSave (v : PieceSizes) :
    Checked.Transfer → Option (PEquiv (Nat × Nat) (Nat × Nat) × (Nat × Nat → Byte))
  | .saveMatrix I dim idx => some (v.matrixView dim idx, Function.uncurry I)
  | _ => none

/-- What a call saves in the state matrix. -/
def stateSave (v : PieceSizes) :
    Checked.Transfer → Option (PEquiv (Nat × Nat) (Nat × Nat) × (Nat × Nat → Byte))
  | .saveStates I dim idx => some (v.stateView dim idx, Function.uncurry I)
  | _ => none

/-- A byte matrix after some saves. -/
def saved (saves : List (PEquiv (Nat × Nat) (Nat × Nat) × (Nat × Nat → Byte))) (M : Matrix) :
    Matrix :=
  Function.curry
    (saves.foldl (fun store save => View.set save.1 store save.2) (Function.uncurry M))

theorem exec_byteMatrices (calls : List Checked.Transfer) (m : ByteMatrices) :
    v.byteMatrices.exec m calls = some ⟨saved (calls.filterMap v.matrixSave) m.matrix,
      saved (calls.filterMap v.stateSave) m.states⟩ := by
  induction calls generalizing m with
  | nil => rfl
  | cons t calls ih =>
    cases t with
    | loadMatrix I dim idx => exact (Machine.exec_cons_of_step calls rfl).trans (ih m)
    | saveMatrix I dim idx => exact (Machine.exec_cons_of_step calls rfl).trans (ih _)
    | loadStates I dim idx => exact (Machine.exec_cons_of_step calls rfl).trans (ih m)
    | saveStates I dim idx => exact (Machine.exec_cons_of_step calls rfl).trans (ih _)

/-- Every order of loads and saves does to the piece files what it does to two byte
matrices: it answers the same, and leaves in the files, byte for byte, what was saved
last in either view, and no other byte changed. -/
theorem views_coherent (v : PieceSizes) (even : v.Even) (files : PieceFiles)
    (formed : v.matrixGrid.Formed files) (formed' : v.stateGrid.Formed files)
    (calls : List Checked.Transfer) (valid : ∀ t ∈ calls, v.Valid t) :
    v.pieces.outputs files calls =
        v.byteMatrices.outputs ⟨v.matrixGrid.matrix files, v.stateGrid.matrix files⟩ calls ∧
      ∃ files' m, v.pieces.exec files calls = some files' ∧
        v.byteMatrices.exec ⟨v.matrixGrid.matrix files, v.stateGrid.matrix files⟩ calls = some m ∧
        v.Hold files files' m ∧ ∀ r c,
          m.matrix r c = (View.lastSaved (r, c) (calls.filterMap v.matrixSave)).getD
            (v.matrixGrid.matrix files r c) ∧
          m.states r c = (View.lastSaved (r, c) (calls.filterMap v.stateSave)).getD
            (v.stateGrid.matrix files r c) := by
  have start : v.Hold files files ⟨v.matrixGrid.matrix files, v.stateGrid.matrix files⟩ :=
    ⟨(Grid.holds_iff (matrixGrid_even even)).mpr ⟨formed, fun _ _ _ _ => rfl⟩,
      (Grid.holds_iff (stateGrid_even even)).mpr ⟨formed', fun _ _ _ _ => rfl⟩,
      fun _ _ _ => rfl⟩
  obtain ⟨outputs, ends⟩ := Machine.simulation_eq (fun _ _ _ hold valid => pieces_step even hold valid)
    start (Machine.along_of_inputs valid files)
  have run := exec_byteMatrices (v := v) calls ⟨v.matrixGrid.matrix files, v.stateGrid.matrix files⟩
  rw [run] at ends
  obtain ⟨files', run', hold⟩ : ∃ files', v.pieces.exec files calls = some files' ∧
      v.Hold files files' ⟨saved (calls.filterMap v.matrixSave) (v.matrixGrid.matrix files),
        saved (calls.filterMap v.stateSave) (v.stateGrid.matrix files)⟩ := by
    generalize v.pieces.exec files calls = done at ends
    cases ends with
    | some hold => exact ⟨_, rfl, hold⟩
  refine ⟨outputs, files', _, run', run, hold, fun r c => ⟨?_, ?_⟩⟩
  · exact View.foldl_set (calls.filterMap v.matrixSave) _ (r, c)
  · exact View.foldl_set (calls.filterMap v.stateSave) _ (r, c)

/-- Two rows of two bytes, each byte in a piece of its own, and blocks of four bits. -/
def smallPieces : PieceSizes where
  matrixRowSize := 2
  matrixColSize := 2
  numBlocks := 16
  encryptBlockSize := 4
  matrixPieceRowSize := 1
  matrixPieceColSize := 1
  blockStatePieceColSize := 1

theorem views_coherent_small :
    ∃ files' m, smallPieces.pieces.exec (fun _ => some ⟨1, zeroBuf⟩)
        [.saveMatrix (fun _ _ => 5) .row 1, .saveMatrix (fun _ _ => 9) .col 2,
          .loadMatrix (fun _ _ => 0) .row 1, .saveStates (fun _ _ => 3) .col 9,
          .loadStates (fun _ _ => 0) .row 0] = some files' ∧
      smallPieces.Hold (fun _ => some ⟨1, zeroBuf⟩) files' m ∧
      m.matrix 1 0 = 5 ∧ m.matrix 1 1 = 9 ∧ m.states 0 1 = 3 := by
  obtain ⟨-, files', m, run, -, hold, last⟩ := views_coherent smallPieces
    ⟨by decide, by decide, by decide, by decide⟩ (fun _ => some ⟨1, zeroBuf⟩)
    (fun _ _ _ _ => ⟨_, rfl, rfl⟩) (fun _ _ _ _ => ⟨_, rfl, rfl⟩)
    [.saveMatrix (fun _ _ => 5) .row 1, .saveMatrix (fun _ _ => 9) .col 2,
      .loadMatrix (fun _ _ => 0) .row 1, .saveStates (fun _ _ => 3) .col 9,
      .loadStates (fun _ _ => 0) .row 0]
    (by simp [Valid, Line, StateLine, smallPieces])
  exact ⟨files', m, run, hold, (last 1 0).1, (last 1 1).1, (last 0 1).2⟩

end PieceSizes

end ImDsse
