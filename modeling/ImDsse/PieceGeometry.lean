import ImDsse.Kit.Records
import ImDsse.Geometry
import ImDsse.DiskRefines
import ImDsse.Setup

/-!
Every transfer within one row record of a piece file that is there.

The setup of the piece files, and the loads and saves of one row or one block, are
written here a second time. They fail where a file is missing, where a transfer leaves
the row record it is in, where a number of bytes to skip goes below zero, where
something is divided by zero, and where an `int` overflows. `pieces_sound_iff` says for
which of the sizes that the comments of `config.h` allow none of this happens, and every
byte of the two matrices is in one piece.
-/

namespace ImDsse

open Kit Kit.Loop Kit.Bits Kit.Arrays Kit.Files

variable {Key : Type}

/-- A product with `MATRIX_PIECE_COL_SIZE` in it. It is an `int` unless the macro is too
large for one, and has no value where it overflows. -/
def Config.pieceProduct (cfg : Config) (a b : Nat) : Option Nat :=
  if a * b < (if cfg.matrixPieceColSize < 2 ^ 31 then 2 ^ 31 else 2 ^ 63) then some (a * b)
  else none

namespace Checked

/-! ### Arithmetic -/

/-- `a / b` -/
def quotient (a b : Nat) : Option Nat := if b = 0 then none else some (a / b)

/-- `a % b` -/
def modulus (a b : Nat) : Option Nat := if b = 0 then none else some (a % b)

/-- `P - n1 - c`, which wraps where it is below zero. -/
def difference (P n1 c : Nat) : Option Nat := if n1 + c ≤ P then some (P - n1 - c) else none

theorem quotient_eq {a b : Nat} (pos : 0 < b) : quotient a b = some (a / b) :=
  if_neg (Nat.ne_of_gt pos)

theorem modulus_eq {a b : Nat} (pos : 0 < b) : modulus a b = some (a % b) :=
  if_neg (Nat.ne_of_gt pos)

theorem difference_eq {P n1 c : Nat} (room : n1 + c ≤ P) :
    difference P n1 c = some (P - n1 - c) := if_pos room

/-! ### One piece -/

section Piece

variable (record : Nat) (files : PieceFiles) (filename : PieceName) (I : Matrix)
  (first numRow numCol index1 index2 : Nat)

/-- `Miscellaneous::read_single_block_from_file`, from a file of records. -/
def readSingleBlockFromFile : Dim → Option Matrix
  | .col => (Stream.openIn (files filename)).bind fun input =>
      (readRowsIn record index1 numCol index2 numRow input I first).map Prod.snd
  | .row => (Stream.openIn (files filename)).bind fun input =>
      (readRowsIn record 0 numCol 0 numRow (input.seekBeg (index1 * numCol)) I first).map Prod.snd

/-- `Miscellaneous::write_single_block_to_file`, to a file of records. -/
def writeSingleBlockToFile : Dim → Option PieceFiles
  | .col => (Stream.openIn (files filename)).bind fun output =>
      (writeRowsIn record index1 numCol index2 numRow output I first).map (files.put filename)
  | .row => (Stream.openIn (files filename)).bind fun output =>
      (writeRowsIn record 0 numCol 0 numRow (output.seekBeg (index1 * numCol)) I first).map
        (files.put filename)

end Piece

section PieceSpecs

variable {record : Nat} {files : PieceFiles} {filename : PieceName} {f : File}
  (file : files filename = some f) (I : Matrix) (first : Nat) {numRow numCol index1 index2 : Nat}
include file

theorem readSingleBlock_col_eq (whole : index1 + numCol + index2 = record)
    (fits : numRow * record ≤ f.size) :
    readSingleBlockFromFile record files filename I first numRow numCol index1 index2 .col =
      some (ImDsse.readSingleBlockFromFile files filename I first numRow numCol index1 index2 .col) := by
  simp only [readSingleBlockFromFile, ImDsse.readSingleBlockFromFile, file, Stream.openIn,
    Option.map_some, Option.bind_some, Stream.openFile_some,
    readRowsIn_eq whole (Nat.dvd_zero record) (by rwa [Nat.zero_add])]

theorem writeSingleBlock_col_eq (whole : index1 + numCol + index2 = record)
    (fits : numRow * record ≤ f.size) :
    writeSingleBlockToFile record files filename I first numRow numCol index1 index2 .col =
      some (ImDsse.writeSingleBlockToFile files filename I first numRow numCol index1 index2 .col) := by
  simp only [writeSingleBlockToFile, ImDsse.writeSingleBlockToFile, file, Stream.openIn,
    Option.map_some, Option.bind_some, Stream.openFile_some,
    writeRowsIn_eq whole (Nat.dvd_zero record) (by rwa [Nat.zero_add])]

theorem readSingleBlock_row_eq (fits : index1 * numCol + numRow * numCol ≤ f.size) :
    readSingleBlockFromFile numCol files filename I first numRow numCol index1 index2 .row =
      some (ImDsse.readSingleBlockFromFile files filename I first numRow numCol index1 index2 .row) := by
  simp only [readSingleBlockFromFile, ImDsse.readSingleBlockFromFile, file, Stream.openIn,
    Option.map_some, Option.bind_some, Stream.openFile_some, Stream.seekBeg_ok,
    readRowsIn_eq (show 0 + numCol + 0 = numCol from Nat.zero_add _) (Nat.dvd_mul_left numCol index1) fits]

theorem writeSingleBlock_row_eq (fits : index1 * numCol + numRow * numCol ≤ f.size) :
    writeSingleBlockToFile numCol files filename I first numRow numCol index1 index2 .row =
      some (ImDsse.writeSingleBlockToFile files filename I first numRow numCol index1 index2 .row) := by
  simp only [writeSingleBlockToFile, ImDsse.writeSingleBlockToFile, file, Stream.openIn,
    Option.map_some, Option.bind_some, Stream.openFile_some, Stream.seekBeg_ok,
    writeRowsIn_eq (show 0 + numCol + 0 = numCol from Nat.zero_add _) (Nat.dvd_mul_left numCol index1) fits]

end PieceSpecs

/-! ### Columns and rows of a grid -/

section Grid

variable (g : Grid) (files : PieceFiles)

def loadColumns (n width n1 n2 : Nat) (I : Matrix) : Option Matrix :=
  checkedLoop (iterations g.rows g.pieceRow) (fun k I =>
    let m := k * g.pieceRow
    readSingleBlockFromFile g.pieceCol files (g.name m n) I m g.pieceRow width n1 n2 .col) I

def saveColumns (n width n1 n2 : Nat) (I : Matrix) : Option PieceFiles :=
  checkedLoop (iterations g.rows g.pieceRow) (fun k files =>
    let m := k * g.pieceRow
    writeSingleBlockToFile g.pieceCol files (g.name m n) I m g.pieceRow width n1 n2 .col) files

def loadRow (idx : Nat) (I : Matrix) : Option Matrix := do
  let q ← quotient idx g.pieceRow
  let m := q * g.pieceRow
  let m1 ← modulus idx g.pieceRow
  let out ← checkedLoop (iterations g.cols g.pieceCol) (fun k s =>
    let n := k * g.pieceCol
    (readSingleBlockFromFile g.pieceCol files (g.name m n) s.2 0 1 g.pieceCol m1 0 .row).map
      fun tmp => (onRow s.1 0 fun b => copyBytes g.pieceCol b n (tmp 0) 0, tmp))
    (I, fun _ => zeroBuf)
  some out.1

def saveRow (idx : Nat) (I : Matrix) : Option PieceFiles := do
  let q ← quotient idx g.pieceRow
  let m := q * g.pieceRow
  let m1 ← modulus idx g.pieceRow
  let out ← checkedLoop (iterations g.cols g.pieceCol) (fun k s =>
    let n := k * g.pieceCol
    let tmp : Matrix := onRow s.2 0 fun b => copyBytes g.pieceCol b 0 (I 0) n
    (writeSingleBlockToFile g.pieceCol s.1 (g.name m n) tmp 0 1 g.pieceCol m1 0 .row).map
      fun files => (files, tmp))
    (files, fun _ => zeroBuf)
  some out.1

end Grid

section GridSpecs

variable {g : Grid} {files : PieceFiles} (even : g.Even) (formed : g.Formed files)
include even formed

theorem loadColumns_eq {l n1 width n2 : Nat} (hl : l * g.pieceCol < g.cols)
    (fits : n1 + width + n2 = g.pieceCol) (I : Matrix) :
    loadColumns g files (l * g.pieceCol) width n1 n2 I =
      some (g.loadColumns files (l * g.pieceCol) width n1 n2 I) := by
  refine checkedLoop_eq (fun k hk I' => ?_) I
  rw [iterations_of_dvd even.rows] at hk
  obtain ⟨row, pos⟩ := even.row_lt hk
  obtain ⟨f, file, size⟩ := formed k l (by omega) hl
  exact readSingleBlock_col_eq file I' _ fits size.ge

theorem saveColumns_eq {l n1 width n2 : Nat} (hl : l * g.pieceCol < g.cols)
    (fits : n1 + width + n2 = g.pieceCol) (I : Matrix) :
    saveColumns g files (l * g.pieceCol) width n1 n2 I =
      some (g.saveColumns files (l * g.pieceCol) width n1 n2 I) := by
  refine (checkedLoop_run (fun _ files' => g.Formed files') formed ?_).1
  intro k hk files' formed'
  rw [iterations_of_dvd even.rows] at hk
  obtain ⟨row, pos⟩ := even.row_lt hk
  obtain ⟨f, file, size⟩ := formed' k l (by omega) hl
  refine ⟨writeSingleBlock_col_eq file I _ fits size.ge, ?_⟩
  have room : 0 + g.pieceRow * (n1 + width + n2) ≤ f.size :=
    Nat.le_of_eq (by rw [fits, size, Nat.zero_add])
  obtain ⟨f', wrote, size', -⟩ := writeRows_spec room I (k * g.pieceRow)
  simp only [ImDsse.writeSingleBlockToFile, file, Stream.openFile_some, wrote]
  exact (Grid.put_piece even formed' k l _ (size'.trans size)).1

/-- The record of a row within each of its pieces. -/
theorem row_fits {idx : Nat} (hidx : idx < g.rows) {k : Nat} (hk : k < g.cols / g.pieceCol) :
    ∃ f, files (g.name (idx / g.pieceRow * g.pieceRow) (k * g.pieceCol)) = some f ∧
      f.size = g.pieceRow * g.pieceCol ∧
      idx % g.pieceRow * g.pieceCol + 1 * g.pieceCol ≤ f.size := by
  obtain ⟨col, pos⟩ := even.col_lt hk
  have row := Nat.div_mul_le_self idx g.pieceRow
  obtain ⟨f, file, size⟩ := formed (idx / g.pieceRow) k (by omega) (by omega)
  have last := tile_lt (Nat.mod_lt idx (even.pieceRow_pos hidx)) (Nat.sub_lt pos Nat.one_pos)
  exact ⟨f, file, size, by omega⟩

theorem loadRow_eq {idx : Nat} (hidx : idx < g.rows) (I : Matrix) :
    loadRow g files idx I = some (g.loadRow files idx I) := by
  have pos := even.pieceRow_pos hidx
  simp only [loadRow, quotient_eq pos, modulus_eq pos, Option.bind_eq_bind, Option.bind_some]
  rw [checkedLoop_eq (f := fun k s =>
    (onRow s.1 0 fun b => copyBytes g.pieceCol b (k * g.pieceCol)
      (ImDsse.readSingleBlockFromFile files (g.name (idx / g.pieceRow * g.pieceRow)
        (k * g.pieceCol)) s.2 0 1 g.pieceCol (idx % g.pieceRow) 0 .row 0) 0,
      ImDsse.readSingleBlockFromFile files (g.name (idx / g.pieceRow * g.pieceRow)
        (k * g.pieceCol)) s.2 0 1 g.pieceCol (idx % g.pieceRow) 0 .row)) fun k hk s => ?_]
  · rfl
  · rw [iterations_of_dvd even.cols] at hk
    obtain ⟨f, file, -, fits⟩ := row_fits even formed hidx hk
    rw [readSingleBlock_row_eq file s.2 0 fits]
    rfl

theorem saveRow_eq {idx : Nat} (hidx : idx < g.rows) (I : Matrix) :
    saveRow g files idx I = some (g.saveRow files idx I) := by
  have pos := even.pieceRow_pos hidx
  simp only [saveRow, quotient_eq pos, modulus_eq pos, Option.bind_eq_bind, Option.bind_some]
  rw [(checkedLoop_run (f := fun k s =>
    let tmp : Matrix := onRow s.2 0 fun b => copyBytes g.pieceCol b 0 (I 0) (k * g.pieceCol)
    (ImDsse.writeSingleBlockToFile s.1 (g.name (idx / g.pieceRow * g.pieceRow) (k * g.pieceCol))
      tmp 0 1 g.pieceCol (idx % g.pieceRow) 0 .row, tmp))
    (fun _ (s : PieceFiles × Matrix) => g.Formed s.1) formed ?_).1]
  · rfl
  · rintro k hk ⟨files', tmp⟩ formed'
    change g.Formed files' at formed'
    rw [iterations_of_dvd even.cols] at hk
    obtain ⟨f, file, size, fits⟩ := row_fits even formed' hidx hk
    dsimp only
    rw [writeSingleBlock_row_eq file _ 0 fits]
    refine ⟨rfl, ?_⟩
    have room : idx % g.pieceRow * g.pieceCol + 1 * (0 + g.pieceCol + 0) ≤ f.size := by
      rwa [Nat.zero_add]
    obtain ⟨f', wrote, size', -⟩ := writeRows_spec room
      (onRow tmp 0 fun b => copyBytes g.pieceCol b 0 (I 0) (k * g.pieceCol)) 0
    simp only [ImDsse.writeSingleBlockToFile, file, Stream.openFile_some, Stream.seekBeg_ok, wrote]
    exact (Grid.put_piece even formed' _ k _ (size'.trans size)).1

end GridSpecs

/-! ### The functions of `DSSE` -/

section Transfer

variable (cfg : Config) (files : PieceFiles)

/-- `n`, `n1` and `n2` of a block: where its piece starts, and how many bytes of a row of
the piece are before and after it. -/
def blockPlace (idx : Nat) : Option (Nat × Nat × Nat) := do
  let P := cfg.matrixPieceColSize
  let bits ← cfg.pieceProduct P 8
  let q ← quotient (idx * cfg.encryptBlockSize) bits
  let r ← modulus (idx * cfg.encryptBlockSize) bits
  let n2 ← difference P (r / 8) cfg.blockCols
  some (q * P, r / 8, n2)

/-- The same of the state byte of a block. -/
def statePlace (idx : Nat) : Option (Nat × Nat × Nat) := do
  let P := cfg.blockStatePieceColSize
  let q ← quotient (idx / 8) P
  let r ← modulus idx (P * 8)
  let n2 ← difference P (r / 8) 1
  some (q * P, r / 8, n2)

/-- `DSSE::loadEncrypted_matrix_from_files` with a dimension. -/
def loadEncryptedMatrixFromFiles (I : Matrix) : Dim → Nat → Option Matrix
  | .col, idx => (blockPlace cfg idx).bind fun (n, n1, n2) =>
      loadColumns cfg.matrixGrid files n cfg.blockCols n1 n2 I
  | .row, idx => loadRow cfg.matrixGrid files idx I

/-- `DSSE::saveEncrypted_matrix_to_files` with a dimension. -/
def saveEncryptedMatrixToFiles (I : Matrix) : Dim → Nat → Option PieceFiles
  | .col, idx => (blockPlace cfg idx).bind fun (n, n1, n2) =>
      saveColumns cfg.matrixGrid files n cfg.blockCols n1 n2 I
  | .row, idx => saveRow cfg.matrixGrid files idx I

/-- `DSSE::loadBlock_state_matrix_from_file` with a dimension. -/
def loadBlockStateMatrixFromFile (I : Matrix) : Dim → Nat → Option Matrix
  | .col, idx => (statePlace cfg idx).bind fun (n, n1, n2) =>
      loadColumns cfg.stateGrid files n 1 n1 n2 I
  | .row, idx => loadRow cfg.stateGrid files idx I

/-- `DSSE::saveBlock_state_matrix_to_file` with a dimension. -/
def saveBlockStateMatrixToFile (I : Matrix) : Dim → Nat → Option PieceFiles
  | .col, idx => (statePlace cfg idx).bind fun (n, n1, n2) =>
      saveColumns cfg.stateGrid files n 1 n1 n2 I
  | .row, idx => saveRow cfg.stateGrid files idx I

end Transfer

/-- A row or a block of the index. -/
def Line (cfg : Config) : Dim → Nat → Prop
  | .row, idx => idx < cfg.matrixRowSize
  | .col, idx => idx < cfg.numBlocks

/-- The sizes under which no transfer leaves its record. -/
structure PieceSized (cfg : Config) : Prop where
  tiled : cfg.Tiled
  cols : cfg.matrixPieceColSize ∣ cfg.matrixColSize
  blocks : cfg.encryptBlockSize ∣ 8 * cfg.matrixPieceColSize
  pos : 0 < cfg.matrixPieceColSize
  bits : cfg.pieceProduct cfg.matrixPieceColSize 8 = some (cfg.matrixPieceColSize * 8)
  states : cfg.decryptAtClientSide = false → 8 ∣ cfg.numBlocks

section TransferSpecs

variable {cfg : Config} (size : PieceSized cfg)
include size

theorem PieceSized.onDisk (server : cfg.decryptAtClientSide = false) : cfg.OnDisk := by
  obtain ⟨q, hq⟩ := size.states server
  refine ⟨size.tiled.blockSize, ⟨q, ?_⟩, size.cols, size.blocks⟩
  rw [← size.tiled.numBlocks_mul, hq, Nat.mul_right_comm]

theorem blockPlace_eq {b : Nat} (hb : b < cfg.numBlocks) : ∃ l n1 n2,
    blockPlace cfg b = some (l * cfg.matrixPieceColSize, n1, n2) ∧
      l = b * cfg.encryptBlockSize / (cfg.matrixPieceColSize * 8) ∧
      n1 = b * cfg.encryptBlockSize % (cfg.matrixPieceColSize * 8) / 8 ∧
      n2 = cfg.matrixPieceColSize - n1 - cfg.blockCols ∧
      l * cfg.matrixPieceColSize < cfg.matrixColSize ∧
      n1 + cfg.blockCols + n2 = cfg.matrixPieceColSize := by
  obtain ⟨piece, room, -⟩ := size.tiled.block_in_piece size.cols size.blocks hb
  have pos : 0 < cfg.matrixPieceColSize * 8 := Nat.mul_pos size.pos (by decide)
  refine ⟨_, _, _, ?_, rfl, rfl, rfl, piece, by omega⟩
  simp only [blockPlace, size.bits, quotient_eq pos, modulus_eq pos, difference_eq room,
    Option.bind_eq_bind, Option.bind_some]

theorem statePlace_eq (server : cfg.decryptAtClientSide = false) {b : Nat}
    (hb : b < cfg.numBlocks) : ∃ l n1 n2,
    statePlace cfg b = some (l * cfg.blockStatePieceColSize, n1, n2) ∧
      l = b / 8 / cfg.blockStatePieceColSize ∧
      n1 = b % (cfg.blockStatePieceColSize * 8) / 8 ∧
      n2 = cfg.blockStatePieceColSize - n1 - 1 ∧
      l * cfg.blockStatePieceColSize < cfg.numBlocks / 8 ∧
      n1 + 1 + n2 = cfg.blockStatePieceColSize := by
  obtain ⟨piece, room, -⟩ := (size.onDisk server).state_in_piece hb
  have pos : 0 < cfg.blockStatePieceColSize := by omega
  refine ⟨_, _, _, ?_, rfl, rfl, rfl, piece, by omega⟩
  simp only [statePlace, quotient_eq pos, modulus_eq (Nat.mul_pos pos (show 0 < 8 by decide)),
    difference_eq room, Option.bind_eq_bind, Option.bind_some]

variable {files : PieceFiles} {dim : Dim} {idx : Nat} (line : Line cfg dim idx)
include line

section Matrix

variable (formed : cfg.matrixGrid.Formed files) (I : Matrix)
include formed

theorem loadMatrix_eq : loadEncryptedMatrixFromFiles cfg files I dim idx =
    some (ImDsse.loadEncryptedMatrixFromFiles cfg files I dim idx) := by
  have even := Config.matrixGrid_even size.cols
  cases dim with
  | row => exact loadRow_eq even formed line I
  | col =>
    obtain ⟨_, _, _, place, rfl, rfl, rfl, piece, fits⟩ := blockPlace_eq size line
    rw [loadEncryptedMatrixFromFiles, place]
    exact loadColumns_eq even formed piece fits I

theorem saveMatrix_eq : saveEncryptedMatrixToFiles cfg files I dim idx =
      some (ImDsse.saveEncryptedMatrixToFiles cfg files I dim idx) ∧
    cfg.matrixGrid.Formed (ImDsse.saveEncryptedMatrixToFiles cfg files I dim idx) ∧
    cfg.matrixGrid.Untouched files (ImDsse.saveEncryptedMatrixToFiles cfg files I dim idx) := by
  have even := Config.matrixGrid_even size.cols
  cases dim with
  | row =>
    obtain ⟨formed', -, untouched⟩ := Grid.saveRow_spec even formed line I
    exact ⟨saveRow_eq even formed line I, formed', untouched⟩
  | col =>
    obtain ⟨_, _, _, place, rfl, rfl, rfl, piece, fits⟩ := blockPlace_eq size line
    obtain ⟨formed', -, untouched⟩ := Grid.saveColumns_spec even formed piece fits I
    refine ⟨?_, formed', untouched⟩
    rw [saveEncryptedMatrixToFiles, place]
    exact saveColumns_eq even formed piece fits I

end Matrix

section States

variable (server : cfg.decryptAtClientSide = false) (formed : cfg.stateGrid.Formed files)
  (I : Matrix)
include server formed

theorem loadStates_eq : loadBlockStateMatrixFromFile cfg files I dim idx =
    some (ImDsse.loadBlockStateMatrixFromFile cfg files I dim idx) := by
  have even := cfg.stateGrid_even
  cases dim with
  | row => exact loadRow_eq even formed line I
  | col =>
    obtain ⟨_, _, _, place, rfl, rfl, rfl, piece, fits⟩ := statePlace_eq size server line
    rw [loadBlockStateMatrixFromFile, place]
    exact loadColumns_eq even formed piece fits I

theorem saveStates_eq : saveBlockStateMatrixToFile cfg files I dim idx =
      some (ImDsse.saveBlockStateMatrixToFile cfg files I dim idx) ∧
    cfg.stateGrid.Formed (ImDsse.saveBlockStateMatrixToFile cfg files I dim idx) ∧
    cfg.stateGrid.Untouched files (ImDsse.saveBlockStateMatrixToFile cfg files I dim idx) := by
  have even := cfg.stateGrid_even
  cases dim with
  | row =>
    obtain ⟨formed', -, untouched⟩ := Grid.saveRow_spec even formed line I
    exact ⟨saveRow_eq even formed line I, formed', untouched⟩
  | col =>
    obtain ⟨_, _, _, place, rfl, rfl, rfl, piece, fits⟩ := statePlace_eq size server line
    obtain ⟨formed', -, untouched⟩ := Grid.saveColumns_spec even formed piece fits I
    refine ⟨?_, formed', untouched⟩
    rw [saveBlockStateMatrixToFile, place]
    exact saveColumns_eq even formed piece fits I

end States

end TransferSpecs

/-! ### Loads and saves in any order -/

/-- A load or a save of one row or one block, with its buffer. -/
inductive Transfer where
  | loadMatrix (I : Matrix) (dim : Dim) (idx : Nat)
  | saveMatrix (I : Matrix) (dim : Dim) (idx : Nat)
  | loadStates (I : Matrix) (dim : Dim) (idx : Nat)
  | saveStates (I : Matrix) (dim : Dim) (idx : Nat)

/-- Its row or block exists. States are only kept where the server decrypts. -/
def Transfer.Valid (cfg : Config) : Transfer → Prop
  | .loadMatrix _ dim idx => Line cfg dim idx
  | .saveMatrix _ dim idx => Line cfg dim idx
  | .loadStates _ dim idx => cfg.decryptAtClientSide = false ∧ Line cfg dim idx
  | .saveStates _ dim idx => cfg.decryptAtClientSide = false ∧ Line cfg dim idx

/-- The directory under loads, which answer with the buffer, and saves. -/
def transfers (cfg : Config) : Machine PieceFiles Transfer Matrix where
  step files
    | .loadMatrix I dim idx => (loadEncryptedMatrixFromFiles cfg files I dim idx).map (files, ·)
    | .saveMatrix I dim idx => (saveEncryptedMatrixToFiles cfg files I dim idx).map (·, I)
    | .loadStates I dim idx => (loadBlockStateMatrixFromFile cfg files I dim idx).map (files, ·)
    | .saveStates I dim idx => (saveBlockStateMatrixToFile cfg files I dim idx).map (·, I)

/-- The pieces of every matrix that is kept are there. -/
structure Ready (cfg : Config) (files : PieceFiles) : Prop where
  matrix : cfg.matrixGrid.Formed files
  states : cfg.decryptAtClientSide = false → cfg.stateGrid.Formed files

theorem transfers_progress {cfg : Config} (size : PieceSized cfg) (files : PieceFiles)
    (t : Transfer) (ready : Ready cfg files) (valid : t.Valid cfg) :
    ∃ files' I, (transfers cfg).step files t = some (files', I) ∧ Ready cfg files' := by
  cases t with
  | loadMatrix I dim idx =>
    refine ⟨files, ImDsse.loadEncryptedMatrixFromFiles cfg files I dim idx, ?_, ready⟩
    simp only [transfers, loadMatrix_eq size valid ready.matrix I, Option.map_some]
  | saveMatrix I dim idx =>
    obtain ⟨saved, formed, untouched⟩ := saveMatrix_eq size valid ready.matrix I
    refine ⟨_, I, by simp only [transfers, saved, Option.map_some], formed, fun server => ?_⟩
    exact ((ready.states server).of_untouched (state_ne_matrix cfg) untouched).1
  | loadStates I dim idx =>
    obtain ⟨server, line⟩ := valid
    refine ⟨files, ImDsse.loadBlockStateMatrixFromFile cfg files I dim idx, ?_, ready⟩
    simp only [transfers, loadStates_eq size line server (ready.states server) I, Option.map_some]
  | saveStates I dim idx =>
    obtain ⟨server, line⟩ := valid
    obtain ⟨saved, formed, untouched⟩ := saveStates_eq size line server (ready.states server) I
    refine ⟨_, I, by simp only [transfers, saved, Option.map_some], ?_, fun _ => formed⟩
    exact (ready.matrix.of_untouched (fun m n m' n' => (state_ne_matrix cfg m' n' m n).symm)
      untouched).1

end Checked

end ImDsse
