import ImDsse.Kit.Files
import ImDsse.Server

/-!
The piece files of the index on disk (`read_single_block_from_file` and
`write_single_block_to_file` of `Miscellaneous`, and the functions of `DSSE` that
load and save one row or one block).

A `Grid` is a matrix cut into files of `pieceRow` rows by `pieceCol` bytes.
`Grid.matrix` reads the files back as the matrix they hold, and each function
gets one lemma in its terms, whatever the pieces. The encrypted matrix and the
state matrix are two grids in one directory.
-/

namespace ImDsse

open Kit.Loop Kit.Bits Kit.Files

/-- The names of the files in `gcsMatrixPiecePath`: `m_n`, and `b_m_n` for the
state matrix. -/
inductive PieceName where
  | matrix (m n : Nat)
  | state (m n : Nat)
deriving DecidableEq, Repr

/-- The directory. -/
abbrev PieceFiles := PieceName → Option File

/-- Close a stream that was opened for writing. -/
def PieceFiles.put (files : PieceFiles) (name : PieceName) (s : Stream) : PieceFiles :=
  if s.fail then files else Function.update files name (some s.file)

/-- `Miscellaneous::read_single_block_from_file`, into the rows of `I` from
`first` on. By rows it seeks once and reads on. -/
def readSingleBlockFromFile (files : PieceFiles) (filename : PieceName) (I : Matrix) (first : Nat)
    (numRow numCol index1 index2 : Nat) : Dim → Matrix
  | .col => (readRows index1 numCol index2 numRow (Stream.openFile (files filename)) I first).2
  | .row => (readRows 0 numCol 0 numRow
      ((Stream.openFile (files filename)).seekBeg (index1 * numCol)) I first).2

/-- `Miscellaneous::write_single_block_to_file`, from the rows of `I` from
`first` on. -/
def writeSingleBlockToFile (files : PieceFiles) (filename : PieceName) (I : Matrix) (first : Nat)
    (numRow numCol index1 index2 : Nat) : Dim → PieceFiles
  | .col => files.put filename
      (writeRows index1 numCol index2 numRow (Stream.openFile (files filename)) I first)
  | .row => files.put filename (writeRows 0 numCol 0 numRow
      ((Stream.openFile (files filename)).seekBeg (index1 * numCol)) I first)

/-- `Miscellaneous::write_matrix_to_file`, from the rows of `I` from `first` on,
into a file created or truncated for it. -/
def writeMatrixToFile (files : PieceFiles) (filename : PieceName) (I : Matrix) (first : Nat)
    (numRow numCol : Nat) : PieceFiles :=
  files.put filename (writeRows 0 numCol 0 numRow ⟨.empty, 0, false⟩ I first)

/-! ### Grids of pieces -/

/-- A matrix of `rows` rows of `cols` bytes, cut into files. -/
structure Grid where
  rows : Nat
  cols : Nat
  pieceRow : Nat
  pieceCol : Nat
  name : Nat → Nat → PieceName

namespace Grid

variable (g : Grid) (files : PieceFiles)

/-- Load `width` byte columns from column `n1` of the pieces at column `n` on. -/
def loadColumns (n width n1 n2 : Nat) (I : Matrix) : Matrix :=
  forLoop (iterations g.rows g.pieceRow) (fun k I =>
    let m := k * g.pieceRow
    readSingleBlockFromFile files (g.name m n) I m g.pieceRow width n1 n2 .col) I

/-- Save them. -/
def saveColumns (n width n1 n2 : Nat) (I : Matrix) : PieceFiles :=
  forLoop (iterations g.rows g.pieceRow) (fun k files =>
    let m := k * g.pieceRow
    writeSingleBlockToFile files (g.name m n) I m g.pieceRow width n1 n2 .col) files

/-- Load row `idx` into row 0, piece by piece through `I_tmp`. -/
def loadRow (idx : Nat) (I : Matrix) : Matrix :=
  let m := idx / g.pieceRow * g.pieceRow
  let m1 := idx % g.pieceRow
  (forLoop (iterations g.cols g.pieceCol) (fun k s =>
    let n := k * g.pieceCol
    let tmp := readSingleBlockFromFile files (g.name m n) s.2 0 1 g.pieceCol m1 0 .row
    (onRow s.1 0 fun b => copyBytes g.pieceCol b n (tmp 0) 0, tmp)) (I, fun _ => zeroBuf)).1

/-- Save row 0 as row `idx`. -/
def saveRow (idx : Nat) (I : Matrix) : PieceFiles :=
  let m := idx / g.pieceRow * g.pieceRow
  let m1 := idx % g.pieceRow
  (forLoop (iterations g.cols g.pieceCol) (fun k s =>
    let n := k * g.pieceCol
    let tmp : Matrix := onRow s.2 0 fun b => copyBytes g.pieceCol b 0 (I 0) n
    (writeSingleBlockToFile s.1 (g.name m n) tmp 0 1 g.pieceCol m1 0 .row, tmp))
    (files, fun _ => zeroBuf)).1

/-- The pieces cover the matrix, each under its own name. -/
structure Even : Prop where
  rows : g.pieceRow ∣ g.rows
  cols : g.pieceCol ∣ g.cols
  name : ∀ {m n m' n'}, g.name m n = g.name m' n' → m = m' ∧ n = n'

/-- Every piece is there, and as long as it should be. -/
def Formed : Prop :=
  ∀ k l, k * g.pieceRow < g.rows → l * g.pieceCol < g.cols →
    ∃ f, files (g.name (k * g.pieceRow) (l * g.pieceCol)) = some f ∧
      f.size = g.pieceRow * g.pieceCol

/-- The matrix the files hold. -/
def matrix : Matrix := fun r c =>
  match files (g.name (r / g.pieceRow * g.pieceRow) (c / g.pieceCol * g.pieceCol)) with
  | some f => f.data (r % g.pieceRow * g.pieceCol + c % g.pieceCol)
  | none => 0

/-- Files that no piece of the grid is named after are the same. -/
def Untouched (files' : PieceFiles) : Prop :=
  ∀ name, (∀ m n, name ≠ g.name m n) → files' name = files name

/-- The pieces of the first `n` columns of pieces are in their files, piece `l`
being the byte columns of `piece l`. -/
def Written (piece : Nat → Matrix) (n : Nat) : Prop :=
  ∀ k l, k * g.pieceRow < g.rows → l < n →
    ∃ f, files (g.name (k * g.pieceRow) (l * g.pieceCol)) = some f ∧
      f.size = g.pieceRow * g.pieceCol ∧ ∀ i j, i < g.pieceRow → j < g.pieceCol →
        f.data (i * g.pieceCol + j) = piece l (k * g.pieceRow + i) j

section Specs

variable {g files}

theorem matrix_of_file {k l i j : Nat} {f : File}
    (h : files (g.name (k * g.pieceRow) (l * g.pieceCol)) = some f) (hi : i < g.pieceRow)
    (hj : j < g.pieceCol) :
    g.matrix files (k * g.pieceRow + i) (l * g.pieceCol + j) = f.data (i * g.pieceCol + j) := by
  simp only [matrix, tile_div hi, tile_div hj, tile_mod hi, tile_mod hj, h]

/-- A grid whose files are untouched holds what it held. -/
theorem Formed.of_untouched {g' : Grid} {files' : PieceFiles}
    (other : ∀ m n m' n', g.name m n ≠ g'.name m' n') (untouched : g'.Untouched files files')
    (formed : g.Formed files) : g.Formed files' ∧ g.matrix files' = g.matrix files := by
  have same : ∀ m n, files' (g.name m n) = files (g.name m n) := fun m n =>
    untouched _ fun m' n' => other m n m' n'
  refine ⟨fun k l hk hl => ?_, ?_⟩
  · rw [same]
    exact formed k l hk hl
  · funext r c
    simp only [matrix, same]

/-- `writeMatrixToFile` leaves one file of the size of the matrix. -/
theorem writeMatrixToFile_eq (files : PieceFiles) (filename : PieceName) (I : Matrix)
    (first numRow numCol : Nat) :
    ∃ f, writeMatrixToFile files filename I first numRow numCol =
        Function.update files filename (some f) ∧ f.size = numRow * numCol ∧
      ∀ i j, i < numRow → j < numCol → f.data (i * numCol + j) = I (first + i) j := by
  obtain ⟨f, wrote, size, bytes⟩ := writeRows_new numRow numCol I first
  refine ⟨f, ?_, size, fun i j hi hj => ?_⟩
  · rw [writeMatrixToFile, wrote]
    rfl
  · rw [bytes _ (tile_lt hi hj), tile_div hj, tile_mod hj]

variable (even : g.Even)
include even

theorem Even.pieceRow_pos {r : Nat} (hr : r < g.rows) : 0 < g.pieceRow :=
  Nat.pos_of_dvd_of_pos even.rows (Nat.zero_lt_of_lt hr)

theorem Even.pieceCol_pos {c : Nat} (hc : c < g.cols) : 0 < g.pieceCol :=
  Nat.pos_of_dvd_of_pos even.cols (Nat.zero_lt_of_lt hc)

/-- Piece rows below their number are rows of the matrix. -/
theorem Even.row_lt {k : Nat} (hk : k < g.rows / g.pieceRow) :
    k * g.pieceRow + g.pieceRow ≤ g.rows ∧ 0 < g.pieceRow := by
  have le := Nat.mul_le_mul_right g.pieceRow hk
  rw [Nat.div_mul_cancel even.rows, Nat.succ_mul] at le
  refine ⟨le, Nat.pos_of_ne_zero fun zero => ?_⟩
  rw [zero, Nat.div_zero] at hk
  exact Nat.not_lt_zero k hk

theorem Even.col_lt {l : Nat} (hl : l < g.cols / g.pieceCol) :
    l * g.pieceCol + g.pieceCol ≤ g.cols ∧ 0 < g.pieceCol := by
  have le := Nat.mul_le_mul_right g.pieceCol hl
  rw [Nat.div_mul_cancel even.cols, Nat.succ_mul] at le
  refine ⟨le, Nat.pos_of_ne_zero fun zero => ?_⟩
  rw [zero, Nat.div_zero] at hl
  exact Nat.not_lt_zero l hl

/-- One more column of pieces, each file written anew. -/
theorem Written.succ {piece : Nat → Matrix} {n : Nat} (done : g.Written files piece n)
    (hn : n * g.pieceCol < g.cols) (write : PieceFiles → Nat → PieceFiles)
    (wrote : ∀ files' k, k * g.pieceRow < g.rows → ∃ f, write files' k =
        Function.update files' (g.name (k * g.pieceRow) (n * g.pieceCol)) (some f) ∧
      f.size = g.pieceRow * g.pieceCol ∧ ∀ i j, i < g.pieceRow → j < g.pieceCol →
        f.data (i * g.pieceCol + j) = piece n (k * g.pieceRow + i) j) :
    g.Written (forLoop (iterations g.rows g.pieceRow) (fun k files => write files k) files)
        piece (n + 1) ∧
      g.Untouched files
        (forLoop (iterations g.rows g.pieceRow) (fun k files => write files k) files) := by
  rw [iterations_of_dvd even.rows]
  have inv : (∀ k l, k * g.pieceRow < g.rows → (l < n ∨ l = n ∧ k < g.rows / g.pieceRow) →
        ∃ f, forLoop (g.rows / g.pieceRow) (fun k files => write files k) files
            (g.name (k * g.pieceRow) (l * g.pieceCol)) = some f ∧
          f.size = g.pieceRow * g.pieceCol ∧ ∀ i j, i < g.pieceRow → j < g.pieceCol →
            f.data (i * g.pieceCol + j) = piece l (k * g.pieceRow + i) j) ∧
      g.Untouched files (forLoop (g.rows / g.pieceRow) (fun k files => write files k) files) := by
    refine forLoop_inv (P := fun m (files' : PieceFiles) =>
      (∀ k l, k * g.pieceRow < g.rows → (l < n ∨ l = n ∧ k < m) →
        ∃ f, files' (g.name (k * g.pieceRow) (l * g.pieceCol)) = some f ∧
          f.size = g.pieceRow * g.pieceCol ∧ ∀ i j, i < g.pieceRow → j < g.pieceCol →
            f.data (i * g.pieceCol + j) = piece l (k * g.pieceRow + i) j) ∧
      g.Untouched files files') ?_ ?_
    · refine ⟨fun k l hk hl => done k l hk ?_, fun _ _ => rfl⟩
      omega
    · rintro m hm files' ⟨there, untouched⟩
      obtain ⟨row, rowPos⟩ := even.row_lt hm
      have colPos := even.pieceCol_pos hn
      obtain ⟨f, wrote, size, bytes⟩ := wrote files' m (by omega)
      rw [wrote]
      refine ⟨fun k l hk hl => ?_, fun name other => ?_⟩
      · by_cases same : k = m ∧ l = n
        · obtain ⟨rfl, rfl⟩ := same
          exact ⟨f, Function.update_self _ _ _, size, bytes⟩
        · have other : g.name (k * g.pieceRow) (l * g.pieceCol) ≠
              g.name (m * g.pieceRow) (n * g.pieceCol) := by
            intro h
            obtain ⟨h1, h2⟩ := even.name h
            exact same ⟨Nat.eq_of_mul_eq_mul_right rowPos h1,
              Nat.eq_of_mul_eq_mul_right colPos h2⟩
          rw [Function.update_of_ne other]
          exact there k l hk (by omega)
      · rw [Function.update_of_ne (other _ _)]
        exact untouched name other
  refine ⟨fun k l hk hl => inv.1 k l hk ?_, inv.2⟩
  have := Nat.div_lt_div_of_lt_of_dvd even.rows hk
  have pos := even.pieceRow_pos hk
  rw [Nat.mul_div_cancel _ pos] at this
  omega

/-- Files that hold every piece hold the matrix. -/
theorem Written.matrix {piece : Nat → Matrix}
    (done : g.Written files piece (g.cols / g.pieceCol)) :
    g.Formed files ∧ ∀ r c, r < g.rows → c < g.cols →
      g.matrix files r c = piece (c / g.pieceCol) r (c % g.pieceCol) := by
  have column : ∀ l, l * g.pieceCol < g.cols → l < g.cols / g.pieceCol := by
    intro l hl
    have := Nat.div_lt_div_of_lt_of_dvd even.cols hl
    rwa [Nat.mul_div_cancel _ (even.pieceCol_pos hl)] at this
  refine ⟨fun k l hk hl => ?_, fun r c hr hc => ?_⟩
  · obtain ⟨f, file, size, -⟩ := done k l hk (column l hl)
    exact ⟨f, file, size⟩
  · have hr' := Nat.div_mul_le_self r g.pieceRow
    have hc' := Nat.div_mul_le_self c g.pieceCol
    have hi := Nat.mod_lt r (even.pieceRow_pos hr)
    have hj := Nat.mod_lt c (even.pieceCol_pos hc)
    obtain ⟨f, file, -, bytes⟩ := done (r / g.pieceRow) (c / g.pieceCol) (by omega)
      (column _ (by omega))
    have cell := matrix_of_file file hi hj
    rwa [Nat.div_add_mod', Nat.div_add_mod', bytes _ _ hi hj, Nat.div_add_mod'] at cell

/-- The name of the piece a byte lies in tells the piece. -/
theorem Even.name_eq_iff {r c k l : Nat} (hr : r < g.rows) (hc : c < g.cols) :
    g.name (r / g.pieceRow * g.pieceRow) (c / g.pieceCol * g.pieceCol) =
        g.name (k * g.pieceRow) (l * g.pieceCol) ↔
      r / g.pieceRow = k ∧ c / g.pieceCol = l := by
  constructor
  · intro h
    obtain ⟨row, col⟩ := even.name h
    exact ⟨Nat.eq_of_mul_eq_mul_right (even.pieceRow_pos hr) row,
      Nat.eq_of_mul_eq_mul_right (even.pieceCol_pos hc) col⟩
  · rintro ⟨rfl, rfl⟩
    rfl

/-- Replacing one piece by a file of the same length. -/
theorem put_piece (formed : g.Formed files) (k l pos : Nat) {f : File}
    (size : f.size = g.pieceRow * g.pieceCol) :
    g.Formed (files.put (g.name (k * g.pieceRow) (l * g.pieceCol)) ⟨f, pos, false⟩) ∧
      (∀ r c, r < g.rows → c < g.cols →
        g.matrix (files.put (g.name (k * g.pieceRow) (l * g.pieceCol)) ⟨f, pos, false⟩) r c =
          if r / g.pieceRow = k ∧ c / g.pieceCol = l
          then f.data (r % g.pieceRow * g.pieceCol + c % g.pieceCol) else g.matrix files r c) ∧
      g.Untouched files
        (files.put (g.name (k * g.pieceRow) (l * g.pieceCol)) ⟨f, pos, false⟩) := by
  simp only [PieceFiles.put, Bool.false_eq_true, if_false]
  refine ⟨?formed, ?matrix, ?untouched⟩
  case formed =>
    intro k' l' hk hl
    by_cases same : g.name (k' * g.pieceRow) (l' * g.pieceCol) =
        g.name (k * g.pieceRow) (l * g.pieceCol)
    · rw [same, Function.update_self]
      exact ⟨f, rfl, size⟩
    · rw [Function.update_of_ne same]
      exact formed k' l' hk hl
  case matrix =>
    intro r c hr hc
    by_cases same : r / g.pieceRow = k ∧ c / g.pieceCol = l
    · rw [if_pos same, matrix, (even.name_eq_iff hr hc).mpr same, Function.update_self]
    · rw [if_neg same, matrix, Function.update_of_ne (mt (even.name_eq_iff hr hc).mp same)]
      rfl
  case untouched => exact fun name other => Function.update_of_ne (other _ _) _ _

variable (formed : g.Formed files)
include formed

/-- Byte columns of one column of pieces, loaded. -/
theorem loadColumns_apply {l n1 width n2 : Nat} (hl : l * g.pieceCol < g.cols)
    (fits : n1 + width + n2 = g.pieceCol) (I : Matrix) (r j : Nat) :
    g.loadColumns files (l * g.pieceCol) width n1 n2 I r j =
      if r < g.rows ∧ j < width then g.matrix files r (l * g.pieceCol + (n1 + j)) else I r j := by
  have loaded : g.loadColumns files (l * g.pieceCol) width n1 n2 I r j =
      if r < g.rows / g.pieceRow * g.pieceRow ∧ j < width
      then g.matrix files r (l * g.pieceCol + (n1 + j)) else I r j := by
    unfold loadColumns
    rw [iterations_of_dvd even.rows]
    refine forLoop_inv (P := fun k (I' : Matrix) => I' r j = if r < k * g.pieceRow ∧ j < width
      then g.matrix files r (l * g.pieceCol + (n1 + j)) else I r j) ?_ ?_
    · rw [if_neg (by omega)]
    · intro k hk I' ih
      obtain ⟨hrow, pos⟩ := even.row_lt hk
      obtain ⟨f, file, size⟩ := formed k l (by omega) hl
      simp only [readSingleBlockFromFile]
      rw [file, Stream.openFile_some,
        readRows_apply (Nat.le_of_eq (by rw [fits, size, Nat.zero_add])), ih, Nat.succ_mul, fits]
      by_cases hin : k * g.pieceRow ≤ r ∧ r < k * g.pieceRow + g.pieceRow ∧ j < width
      · have byte := matrix_of_file file (i := r - k * g.pieceRow) (j := n1 + j) (by omega)
          (by omega)
        rw [Nat.add_sub_cancel' hin.1] at byte
        rw [if_pos hin, if_pos ⟨hin.2.1, hin.2.2⟩, byte, Nat.zero_add, Nat.add_assoc]
      · rw [if_neg hin]
        congr 1
        simp only [eq_iff_iff]
        omega
  rwa [Nat.div_mul_cancel even.rows] at loaded

/-- Byte columns of one piece, saved. -/
theorem saveColumns_piece {k l n1 width n2 : Nat} (hk : k * g.pieceRow < g.rows)
    (hl : l * g.pieceCol < g.cols) (fits : n1 + width + n2 = g.pieceCol) (I : Matrix)
    {files' : PieceFiles} (saved : writeSingleBlockToFile files
      (g.name (k * g.pieceRow) (l * g.pieceCol)) I (k * g.pieceRow) g.pieceRow width n1 n2 .col =
        files') :
    g.Formed files' ∧
      (∀ r c, r < g.rows → c < g.cols → g.matrix files' r c =
        if r / g.pieceRow = k ∧ l * g.pieceCol + n1 ≤ c ∧ c < l * g.pieceCol + n1 + width
        then I r (c - (l * g.pieceCol + n1)) else g.matrix files r c) ∧
      g.Untouched files files' := by
  obtain ⟨f, file, size⟩ := formed k l hk hl
  have room : 0 + g.pieceRow * (n1 + width + n2) ≤ f.size :=
    Nat.le_of_eq (by rw [fits, size, Nat.zero_add])
  obtain ⟨f', wrote, size', bytes⟩ := writeRows_spec room I (k * g.pieceRow)
  simp only [writeSingleBlockToFile] at saved
  rw [file, Stream.openFile_some, wrote] at saved
  subst saved
  obtain ⟨formed', matrix, rest⟩ := put_piece even formed k l
    (0 + g.pieceRow * (n1 + width + n2)) (size'.trans size)
  refine ⟨formed', fun r c hr hc => ?_, rest⟩
  rw [matrix r c hr hc]
  have hmodr := Nat.mod_lt r (even.pieceRow_pos hr)
  have hmodc := Nat.mod_lt c (even.pieceCol_pos hc)
  have hdivr := Nat.div_add_mod' r g.pieceRow
  have hdivc := Nat.div_add_mod' c g.pieceCol
  by_cases hin : r / g.pieceRow = k ∧ c / g.pieceCol = l
  · obtain ⟨rfl, rfl⟩ := hin
    have index := tile_lt hmodr hmodc
    have old := matrix_of_file file hmodr hmodc
    rw [hdivr, hdivc] at old
    rw [if_pos ⟨rfl, rfl⟩, bytes _ (by rw [size]; exact index), fits, Nat.sub_zero,
      tile_mod hmodc, tile_div hmodc, hdivr, ← old]
    by_cases hcol : n1 ≤ c % g.pieceCol ∧ c % g.pieceCol < n1 + width
    · rw [if_pos (by omega), if_pos (by omega)]
      congr 1
      omega
    · rw [if_neg (by omega), if_neg (by omega)]
  · rw [if_neg hin, if_neg]
    rintro ⟨hrow, lo, hi⟩
    exact hin ⟨hrow, (div_mod_tile (by omega) (by omega)).1⟩

/-- Byte columns of one column of pieces, saved. -/
theorem saveColumns_spec {l n1 width n2 : Nat} (hl : l * g.pieceCol < g.cols)
    (fits : n1 + width + n2 = g.pieceCol) (I : Matrix) :
    g.Formed (g.saveColumns files (l * g.pieceCol) width n1 n2 I) ∧
      (∀ r c, r < g.rows → c < g.cols →
        g.matrix (g.saveColumns files (l * g.pieceCol) width n1 n2 I) r c =
          if l * g.pieceCol + n1 ≤ c ∧ c < l * g.pieceCol + n1 + width
          then I r (c - (l * g.pieceCol + n1)) else g.matrix files r c) ∧
      g.Untouched files (g.saveColumns files (l * g.pieceCol) width n1 n2 I) := by
  -- after `k` pieces the columns are saved in the rows of these
  have saved : g.Formed (g.saveColumns files (l * g.pieceCol) width n1 n2 I) ∧
      (∀ r c, r < g.rows → c < g.cols →
        g.matrix (g.saveColumns files (l * g.pieceCol) width n1 n2 I) r c =
          if r / g.pieceRow < g.rows / g.pieceRow ∧
              l * g.pieceCol + n1 ≤ c ∧ c < l * g.pieceCol + n1 + width
          then I r (c - (l * g.pieceCol + n1)) else g.matrix files r c) ∧
      g.Untouched files (g.saveColumns files (l * g.pieceCol) width n1 n2 I) := by
    unfold saveColumns
    rw [iterations_of_dvd even.rows]
    refine forLoop_inv (P := fun k files' => g.Formed files' ∧
      (∀ r c, r < g.rows → c < g.cols → g.matrix files' r c =
        if r / g.pieceRow < k ∧ l * g.pieceCol + n1 ≤ c ∧ c < l * g.pieceCol + n1 + width
        then I r (c - (l * g.pieceCol + n1)) else g.matrix files r c) ∧
      g.Untouched files files') ?_ ?_
    · exact ⟨formed, fun r c _ _ => by simp only [Nat.not_lt_zero, false_and, if_false],
        fun _ _ => rfl⟩
    · rintro k hk files' ⟨formed', cells, untouched⟩
      obtain ⟨hrow, pos⟩ := even.row_lt hk
      obtain ⟨formed'', piece, rest⟩ :=
        saveColumns_piece even formed' (by omega : k * g.pieceRow < g.rows) hl fits I rfl
      refine ⟨formed'', fun r c hr hc => ?_,
        fun name other => (rest name other).trans (untouched name other)⟩
      rw [piece r c hr hc, cells r c hr hc]
      by_cases here : r / g.pieceRow = k
      · simp only [here, Nat.lt_irrefl, Nat.lt_succ_self, true_and, false_and, if_false]
      · have before : r / g.pieceRow < k ↔ r / g.pieceRow < k + 1 := by omega
        simp only [here, before, false_and, if_false]
  obtain ⟨formed', matrix, untouched⟩ := saved
  refine ⟨formed', fun r c hr hc => ?_, untouched⟩
  rw [matrix r c hr hc]
  exact if_congr (and_iff_right (Nat.div_lt_div_of_lt_of_dvd even.rows hr)) rfl rfl

/-- A row, loaded into row 0. -/
theorem loadRow_apply {idx : Nat} (hidx : idx < g.rows) (I : Matrix) (r j : Nat) :
    g.loadRow files idx I r j =
      if r = 0 ∧ j < g.cols then g.matrix files idx j else I r j := by
  have loaded : g.loadRow files idx I r j =
      if r = 0 ∧ j < g.cols / g.pieceCol * g.pieceCol then g.matrix files idx j else I r j := by
    unfold loadRow
    rw [iterations_of_dvd even.cols]
    refine forLoop_inv (P := fun k (s : Matrix × Matrix) => s.1 r j =
      if r = 0 ∧ j < k * g.pieceCol then g.matrix files idx j else I r j) ?_ ?_
    · rw [if_neg (by omega)]
    · rintro k hk ⟨I', tmp⟩ ih
      change I' r j = _ at ih
      obtain ⟨hcol, pos⟩ := even.col_lt hk
      have hmod := Nat.mod_lt idx (even.pieceRow_pos hidx)
      have hdiv := Nat.div_add_mod' idx g.pieceRow
      obtain ⟨f, file, size⟩ := formed (idx / g.pieceRow) k (by omega) (by omega)
      have fits : idx % g.pieceRow * g.pieceCol + 1 * (0 + g.pieceCol + 0) ≤ f.size := by
        have := tile_lt hmod (Nat.sub_lt pos Nat.one_pos)
        omega
      simp only [readSingleBlockFromFile]
      rw [file, Stream.openFile_some, Stream.seekBeg_ok, onRow_apply]
      by_cases hr : r = 0
      · subst hr
        rw [if_pos rfl, copyBytes_apply, Nat.succ_mul]
        by_cases hin : k * g.pieceCol ≤ j ∧ j < k * g.pieceCol + g.pieceCol
        · have byte := matrix_of_file file hmod (j := j - k * g.pieceCol) (by omega)
          rw [hdiv, Nat.add_sub_cancel' hin.1] at byte
          rw [if_pos hin, readRows_apply fits, if_pos (by omega), if_pos ⟨rfl, hin.2⟩, byte]
          simp only [Nat.sub_self, Nat.zero_mul, Nat.add_zero, Nat.zero_add]
        · rw [if_neg hin, ih]
          have same : j < k * g.pieceCol ↔ j < k * g.pieceCol + g.pieceCol := by omega
          simp only [same]
      · rw [if_neg hr, ih, if_neg fun h => hr h.1, if_neg fun h => hr h.1]
  rwa [Nat.div_mul_cancel even.cols] at loaded

/-- Row 0 of a buffer, saved as a row of one piece. -/
theorem saveRow_piece {idx k : Nat} (hidx : idx < g.rows) (hk : k * g.pieceCol < g.cols)
    (tmp : Matrix) {files' : PieceFiles} (saved : writeSingleBlockToFile files
      (g.name (idx / g.pieceRow * g.pieceRow) (k * g.pieceCol)) tmp 0 1 g.pieceCol
        (idx % g.pieceRow) 0 .row = files') :
    g.Formed files' ∧
      (∀ r c, r < g.rows → c < g.cols → g.matrix files' r c =
        if r = idx ∧ c / g.pieceCol = k then tmp 0 (c % g.pieceCol) else g.matrix files r c) ∧
      g.Untouched files files' := by
  have hmod := Nat.mod_lt idx (even.pieceRow_pos hidx)
  obtain ⟨f, file, size⟩ := formed (idx / g.pieceRow) k
    (Nat.lt_of_le_of_lt (Nat.div_mul_le_self idx g.pieceRow) hidx) hk
  have fits : idx % g.pieceRow * g.pieceCol + 1 * (0 + g.pieceCol + 0) ≤ f.size := by
    have := tile_lt hmod (Nat.sub_lt (even.pieceCol_pos hk) Nat.one_pos)
    omega
  obtain ⟨f', wrote, size', bytes⟩ := writeRows_spec fits tmp 0
  simp only [writeSingleBlockToFile] at saved
  rw [file, Stream.openFile_some, Stream.seekBeg_ok, wrote] at saved
  subst saved
  obtain ⟨formed', matrix, rest⟩ := put_piece even formed (idx / g.pieceRow) k
    (idx % g.pieceRow * g.pieceCol + 1 * (0 + g.pieceCol + 0)) (size'.trans size)
  refine ⟨formed', fun r c hr hc => ?_, rest⟩
  rw [matrix r c hr hc]
  have hmodr := Nat.mod_lt r (even.pieceRow_pos hr)
  have hmodc := Nat.mod_lt c (even.pieceCol_pos hc)
  by_cases hin : r / g.pieceRow = idx / g.pieceRow ∧ c / g.pieceCol = k
  · obtain ⟨hpiece, rfl⟩ := hin
    have index := tile_lt hmodr hmodc
    have old := matrix_of_file (hpiece ▸ file) hmodr hmodc
    rw [Nat.div_add_mod' r, Nat.div_add_mod' c] at old
    rw [if_pos ⟨hpiece, rfl⟩, bytes _ (by rw [size]; exact index), ← old]
    by_cases hrow : r = idx
    · subst hrow
      simp only [Nat.zero_add, Nat.add_zero, Nat.one_mul, Nat.add_sub_cancel_left,
        Nat.mod_eq_of_lt hmodc, Nat.div_eq_of_lt hmodc, Nat.sub_zero]
      rw [if_pos ⟨Nat.le_add_right _ _, Nat.add_lt_add_left hmodc _, Nat.zero_le _, hmodc⟩,
        if_pos ⟨trivial, trivial⟩]
    · -- another row of the same piece is outside the bytes written
      have outside : ¬ (idx % g.pieceRow * g.pieceCol ≤ r % g.pieceRow * g.pieceCol +
          c % g.pieceCol ∧ r % g.pieceRow * g.pieceCol + c % g.pieceCol <
            idx % g.pieceRow * g.pieceCol + g.pieceCol) := fun h =>
        hrow (Nat.ext_div_mod hpiece (by rw [← (div_mod_tile h.1 h.2).1, tile_div hmodc]))
      rw [if_neg fun h => outside ⟨h.1, by omega⟩, if_neg fun h => hrow h.1]
  · rw [if_neg hin, if_neg]
    rintro ⟨rfl, hcol⟩
    exact hin ⟨rfl, hcol⟩

/-- Row 0, saved as a row. -/
theorem saveRow_spec {idx : Nat} (hidx : idx < g.rows) (I : Matrix) :
    g.Formed (g.saveRow files idx I) ∧
      (∀ r c, r < g.rows → c < g.cols → g.matrix (g.saveRow files idx I) r c =
        if r = idx then I 0 c else g.matrix files r c) ∧
      g.Untouched files (g.saveRow files idx I) := by
  -- after `k` pieces the row is saved in the columns of these
  have saved : g.Formed (g.saveRow files idx I) ∧
      (∀ r c, r < g.rows → c < g.cols → g.matrix (g.saveRow files idx I) r c =
        if r = idx ∧ c / g.pieceCol < g.cols / g.pieceCol then I 0 c else g.matrix files r c) ∧
      g.Untouched files (g.saveRow files idx I) := by
    unfold saveRow
    rw [iterations_of_dvd even.cols]
    refine forLoop_inv (P := fun k (s : PieceFiles × Matrix) => g.Formed s.1 ∧
      (∀ r c, r < g.rows → c < g.cols → g.matrix s.1 r c =
        if r = idx ∧ c / g.pieceCol < k then I 0 c else g.matrix files r c) ∧
      g.Untouched files s.1) ?_ ?_
    · exact ⟨formed, fun r c _ _ => by simp only [Nat.not_lt_zero, and_false, if_false],
        fun _ _ => rfl⟩
    · rintro k hk ⟨files', tmp⟩ ⟨formed', cells, untouched⟩
      dsimp only at formed' cells untouched
      obtain ⟨hcol, pos⟩ := even.col_lt hk
      obtain ⟨formed'', piece, rest⟩ := saveRow_piece even formed' hidx
        (by omega : k * g.pieceCol < g.cols)
        (onRow tmp 0 fun b => copyBytes g.pieceCol b 0 (I 0) (k * g.pieceCol)) rfl
      refine ⟨formed'', fun r c hr hc => ?_,
        fun name other => (rest name other).trans (untouched name other)⟩
      have hmodc := Nat.mod_lt c pos
      have buffer : onRow tmp 0 (fun b => copyBytes g.pieceCol b 0 (I 0) (k * g.pieceCol)) 0
          (c % g.pieceCol) = I 0 (k * g.pieceCol + c % g.pieceCol) := by
        rw [onRow_apply, if_pos rfl, copyBytes_apply, if_pos (by omega), Nat.sub_zero]
      rw [piece r c hr hc, cells r c hr hc, buffer]
      by_cases here : c / g.pieceCol = k
      · simp only [here, Nat.lt_irrefl, Nat.lt_succ_self, and_true, and_false, if_false]
        rw [← here, Nat.div_add_mod']
      · have before : c / g.pieceCol < k ↔ c / g.pieceCol < k + 1 := by omega
        simp only [here, before, and_false, if_false]
  obtain ⟨formed', matrix, untouched⟩ := saved
  refine ⟨formed', fun r c hr hc => ?_, untouched⟩
  rw [matrix r c hr hc]
  exact if_congr (and_iff_left (Nat.div_lt_div_of_lt_of_dvd even.cols hc)) rfl rfl

/-! The same as copies between the buffer and the matrix the files hold. -/

theorem loadColumns_eq {n n1 width lo : Nat} (piece : g.pieceCol ∣ n) (hn : n < g.cols)
    (room : n1 + width ≤ g.pieceCol) (start : n + n1 = lo) (I : Matrix) {r : Nat}
    (hr : r < g.rows) : g.loadColumns files n width n1 (g.pieceCol - n1 - width) I r =
      copyBytes width (I r) 0 (g.matrix files r) lo := by
  obtain ⟨l, hl⟩ := piece
  rw [Nat.mul_comm] at hl
  subst hl
  funext j
  rw [copyBytes_apply, loadColumns_apply even formed hn (by omega)]
  by_cases hj : j < width
  · rw [if_pos ⟨hr, hj⟩, if_pos (by omega), ← start, Nat.add_assoc, Nat.sub_zero]
  · rw [if_neg fun c => hj c.2, if_neg (by omega)]

theorem saveColumns_eq {n n1 width lo : Nat} (piece : g.pieceCol ∣ n) (hn : n < g.cols)
    (room : n1 + width ≤ g.pieceCol) (start : n + n1 = lo) (I : Matrix) :
    g.Formed (g.saveColumns files n width n1 (g.pieceCol - n1 - width) I) ∧
      (∀ r c, r < g.rows → c < g.cols →
        g.matrix (g.saveColumns files n width n1 (g.pieceCol - n1 - width) I) r c =
          copyBytes width (g.matrix files r) lo (I r) 0 c) ∧
      g.Untouched files (g.saveColumns files n width n1 (g.pieceCol - n1 - width) I) := by
  obtain ⟨l, hl⟩ := piece
  rw [Nat.mul_comm] at hl
  subst hl
  have fits : n1 + width + (g.pieceCol - n1 - width) = g.pieceCol := by omega
  obtain ⟨formed', cells, untouched⟩ := saveColumns_spec even formed hn fits I
  refine ⟨formed', fun r c hr hc => ?_, untouched⟩
  rw [cells r c hr hc, copyBytes_apply, start, Nat.zero_add]

theorem loadRow_eq {idx : Nat} (hidx : idx < g.rows) (I : Matrix) :
    g.loadRow files idx I 0 = copyBytes g.cols (I 0) 0 (g.matrix files idx) 0 := by
  funext j
  rw [copyBytes_apply, loadRow_apply even formed hidx]
  simp

end Specs

end Grid

end ImDsse
