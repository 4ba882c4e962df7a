import ImDsse.DiskServer

/-!
Whole matrices in the piece files (`loadEncrypted_matrix_from_files`,
`saveEncrypted_matrix_to_files` and their twins for the state matrix, without a
dimension).

Both directions go through a buffer of one column of pieces. A matrix saved is the
matrix the files then hold, and the matrix the files hold is the one that is loaded.
-/

namespace ImDsse

open Kit.Loop Kit.Bits Kit.Files

/-- Copy byte columns between matrices, column by column: the loops over `col` and
`row` on both ways through `I_piece`. -/
def copyColumns (rows cols : Nat) (dst : Matrix) (dcol : Nat) (src : Matrix) (scol : Nat) :
    Matrix :=
  forLoop cols (fun col dst => forLoop rows (fun row dst =>
    onRow dst row fun b => putByte b (dcol + col) (src row (scol + col))) dst) dst

theorem copyColumns_apply (rows cols : Nat) (dst : Matrix) (dcol : Nat) (src : Matrix)
    (scol r c : Nat) : copyColumns rows cols dst dcol src scol r c =
      if r < rows ∧ dcol ≤ c ∧ c < dcol + cols then src r (scol + (c - dcol)) else dst r c := by
  unfold copyColumns
  refine forLoop_inv (P := fun m (t : Matrix) => t r c =
    if r < rows ∧ dcol ≤ c ∧ c < dcol + m then src r (scol + (c - dcol)) else dst r c) ?_ ?_
  · rw [if_neg (by omega)]
  · intro m _ t ih
    rw [forLoop_rows rows fun row b => putByte b (dcol + m) (src row (scol + m))]
    by_cases hr : r < rows
    · rw [if_pos hr, putByte]
      by_cases hc : c = dcol + m
      · subst hc
        rw [Function.update_self, if_pos ⟨hr, by omega⟩, Nat.add_sub_cancel_left]
      · have same : c < dcol + m ↔ c < dcol + (m + 1) := by omega
        rw [Function.update_of_ne hc, ih]
        simp only [same]
    · rw [if_neg hr, ih, if_neg fun h => hr h.1, if_neg fun h => hr h.1]

/-- `Miscellaneous::read_matrix_from_file`, into the rows of `I` from `first` on. -/
def readMatrixFromFile (files : PieceFiles) (filename : PieceName) (I : Matrix)
    (first numRow numCol : Nat) : Matrix :=
  (readRows 0 numCol 0 numRow (Stream.openFile (files filename)) I first).2

namespace Grid

variable (g : Grid) (files : PieceFiles)

/-- Save a matrix, one column of pieces after the other. -/
def saveMatrix (I : Matrix) : PieceFiles :=
  (forLoop (g.cols / g.pieceCol) (fun i s =>
    let IPiece := copyColumns g.rows g.pieceCol s.2 0 I (i * g.pieceCol)
    (forLoop (iterations g.rows g.pieceRow) (fun k files =>
      let m := k * g.pieceRow
      writeMatrixToFile files (g.name m (i * g.pieceCol)) IPiece m g.pieceRow g.pieceCol) s.1,
      IPiece)) (files, fun _ => zeroBuf)).1

/-- Load a matrix. Memory just allocated for `I_piece` reads as zero. -/
def loadMatrix (I : Matrix) : Matrix :=
  (forLoop (g.cols / g.pieceCol) (fun i s =>
    let IPiece := forLoop (iterations g.rows g.pieceRow) (fun k IPiece =>
      let m := k * g.pieceRow
      readMatrixFromFile files (g.name m (i * g.pieceCol)) IPiece m g.pieceRow g.pieceCol) s.2
    (copyColumns g.rows g.pieceCol s.1 (i * g.pieceCol) IPiece 0, IPiece))
    (I, fun _ => zeroBuf)).1

/-- Every file that a load opens is there. -/
def Present : Prop :=
  ∀ i, i < g.cols / g.pieceCol → ∀ k, k < iterations g.rows g.pieceRow →
    (files (g.name (k * g.pieceRow) (i * g.pieceCol))).isSome

instance : Decidable (g.Present files) := by unfold Present; infer_instance

/-- Every piece has the same length and the same bytes in both directories. -/
def SamePieces (files files' : PieceFiles) : Prop :=
  ∀ k l, k * g.pieceRow < g.rows → l * g.pieceCol < g.cols →
    ∀ f, files (g.name (k * g.pieceRow) (l * g.pieceCol)) = some f →
      ∃ f', files' (g.name (k * g.pieceRow) (l * g.pieceCol)) = some f' ∧ f'.size = f.size ∧
        ∀ i, i < f.size → f'.data i = f.data i

section Specs

variable {g files}

theorem SamePieces.refl : g.SamePieces files files :=
  fun _ _ _ _ f file => ⟨f, file, rfl, fun _ _ => rfl⟩

/-- A directory with the same pieces holds the same matrix. -/
theorem SamePieces.formed {files' : PieceFiles} (same : g.SamePieces files files')
    (formed : g.Formed files) : g.Formed files' := by
  intro k l hk hl
  obtain ⟨f, file, size⟩ := formed k l hk hl
  obtain ⟨f', file', size', -⟩ := same k l hk hl f file
  exact ⟨f', file', size'.trans size⟩

variable (even : g.Even)
include even

theorem SamePieces.matrix {files' : PieceFiles} (same : g.SamePieces files files')
    (formed : g.Formed files) {r c : Nat} (hr : r < g.rows) (hc : c < g.cols) :
    g.matrix files' r c = g.matrix files r c := by
  have hr' := Nat.div_mul_le_self r g.pieceRow
  have hc' := Nat.div_mul_le_self c g.pieceCol
  have index := tile_lt (Nat.mod_lt r (even.pieceRow_pos hr)) (Nat.mod_lt c (even.pieceCol_pos hc))
  obtain ⟨f, file, size⟩ := formed (r / g.pieceRow) (c / g.pieceCol) (by omega) (by omega)
  obtain ⟨f', file', -, bytes⟩ := same _ _ (by omega) (by omega) f file
  simp only [Grid.matrix, file, file']
  exact bytes _ (by rw [size]; exact index)

/-- The files of a grid are the ones a load opens. -/
theorem Formed.present (formed : g.Formed files) : g.Present files := by
  intro i hi k hk
  rw [iterations_of_dvd even.rows] at hk
  obtain ⟨row, rowPos⟩ := even.row_lt hk
  obtain ⟨col, colPos⟩ := even.col_lt hi
  obtain ⟨f, file, -⟩ := formed k i (by omega) (by omega)
  rw [file]
  rfl

variable (files) in
/-- A matrix saved is the matrix the files hold. -/
theorem saveMatrix_spec (I : Matrix) :
    g.Formed (g.saveMatrix files I) ∧
      (∀ r c, r < g.rows → c < g.cols → g.matrix (g.saveMatrix files I) r c = I r c) ∧
      g.Untouched files (g.saveMatrix files I) := by
  have saved : g.Written (g.saveMatrix files I) (fun l r j => I r (l * g.pieceCol + j))
        (g.cols / g.pieceCol) ∧ g.Untouched files (g.saveMatrix files I) := by
    unfold saveMatrix
    refine forLoop_inv (P := fun n (s : PieceFiles × Matrix) =>
      g.Written s.1 (fun l r j => I r (l * g.pieceCol + j)) n ∧ g.Untouched files s.1) ?_ ?_
    · exact ⟨fun k l _ hl => absurd hl (Nat.not_lt_zero l), fun _ _ => rfl⟩
    · rintro n hn ⟨files', IPiece⟩ ⟨written, untouched⟩
      obtain ⟨col, colPos⟩ := even.col_lt hn
      set piece := copyColumns g.rows g.pieceCol IPiece 0 I (n * g.pieceCol) with hpiece
      have wrote : ∀ files' k, k * g.pieceRow < g.rows → ∃ f,
          writeMatrixToFile files' (g.name (k * g.pieceRow) (n * g.pieceCol)) piece
              (k * g.pieceRow) g.pieceRow g.pieceCol =
            Function.update files' (g.name (k * g.pieceRow) (n * g.pieceCol)) (some f) ∧
          f.size = g.pieceRow * g.pieceCol ∧ ∀ i j, i < g.pieceRow → j < g.pieceCol →
            f.data (i * g.pieceCol + j) = I (k * g.pieceRow + i) (n * g.pieceCol + j) := by
        intro files' k hk
        obtain ⟨f, wrote, size, bytes⟩ := writeMatrixToFile_eq files'
          (g.name (k * g.pieceRow) (n * g.pieceCol)) piece (k * g.pieceRow) g.pieceRow g.pieceCol
        refine ⟨f, wrote, size, fun i j hi hj => ?_⟩
        have hk' : k < g.rows / g.pieceRow :=
          (Nat.lt_div_iff_mul_lt' even.rows k).mpr (by rwa [Nat.mul_comm])
        have row := (even.row_lt hk').1
        rw [bytes i j hi hj, hpiece, copyColumns_apply, if_pos (by omega), Nat.sub_zero]
      obtain ⟨written', untouched'⟩ := written.succ even (by omega) _ wrote
      exact ⟨written', fun name other => (untouched' name other).trans (untouched name other)⟩
  obtain ⟨formed, cells⟩ := saved.1.matrix even
  refine ⟨formed, fun r c hr hc => ?_, saved.2⟩
  rw [cells r c hr hc, Nat.div_add_mod']

/-- The matrix the files hold is the one that is loaded. -/
theorem loadMatrix_apply (formed : g.Formed files) (I : Matrix) (r c : Nat) :
    g.loadMatrix files I r c = if r < g.rows ∧ c < g.cols then g.matrix files r c else I r c := by
  have loaded : g.loadMatrix files I r c = if r < g.rows ∧ c < g.cols / g.pieceCol * g.pieceCol
      then g.matrix files r c else I r c := by
    unfold loadMatrix
    refine forLoop_inv (P := fun n (s : Matrix × Matrix) => s.1 r c =
      if r < g.rows ∧ c < n * g.pieceCol then g.matrix files r c else I r c) ?_ ?_
    · rw [if_neg (by omega)]
    · rintro n hn ⟨I', IPiece⟩ ih
      change I' r c = _ at ih
      obtain ⟨col, colPos⟩ := even.col_lt hn
      -- reading whole pieces is reading all their byte columns
      have piece := loadColumns_apply even formed (l := n) (by omega)
        (show 0 + g.pieceCol + 0 = g.pieceCol from Nat.zero_add _) IPiece r (c - n * g.pieceCol)
      change copyColumns g.rows g.pieceCol I' (n * g.pieceCol)
        (g.loadColumns files (n * g.pieceCol) g.pieceCol 0 0 IPiece) 0 r c = _
      rw [copyColumns_apply, ih, Nat.succ_mul]
      by_cases hin : r < g.rows ∧ n * g.pieceCol ≤ c ∧ c < n * g.pieceCol + g.pieceCol
      · rw [if_pos hin, Nat.zero_add, piece, if_pos (by omega), if_pos (by omega), Nat.zero_add,
          Nat.add_sub_cancel' hin.2.1]
      · rw [if_neg hin]
        congr 1
        simp only [eq_iff_iff]
        omega
  rwa [Nat.div_mul_cancel even.cols] at loaded

end Specs

end Grid

/-! ### The functions of `DSSE` -/

section Functions

variable (cfg : Config) (files : PieceFiles)

/-- The size of `I_piece`, `MATRIX_PIECE_COL_SIZE*MATRIX_ROW_SIZE`. -/
def Config.pieceBytes : Option Nat := product cfg.matrixPieceColSize cfg.matrixRowSize

/-- `DSSE::saveEncrypted_matrix_to_files` -/
def saveEncryptedMatrix (I : Matrix) : Option PieceFiles :=
  cfg.pieceBytes.map fun _ => cfg.matrixGrid.saveMatrix files I

/-- `DSSE::loadEncrypted_matrix_from_files`. Reading a file that is missing ends the
process. -/
def loadEncryptedMatrix (I : Matrix) : Option Matrix :=
  cfg.pieceBytes.bind fun _ =>
    if cfg.matrixGrid.Present files then some (cfg.matrixGrid.loadMatrix files I) else none

/-- `DSSE::saveBlock_state_matrix_to_file`, which divides by
`BLOCK_STATE_PIECE_COL_SIZE`. -/
def saveBlockStateMatrix (I : Matrix) : Option PieceFiles :=
  if cfg.blockStatePieceColSize = 0 then none else some (cfg.stateGrid.saveMatrix files I)

/-- `DSSE::loadBlock_state_matrix_from_file`. A file that is missing leaves the
buffer as it was. -/
def loadBlockStateMatrix (I : Matrix) : Option Matrix :=
  if cfg.blockStatePieceColSize = 0 then none else some (cfg.stateGrid.loadMatrix files I)

end Functions

end ImDsse
