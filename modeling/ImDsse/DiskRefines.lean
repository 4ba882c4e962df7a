import ImDsse.DiskServer
import ImDsse.Exchange

/-!
The server on disk against the server in memory.

`SameIndex` compares the two: the matrices that the piece files hold, and the
counters, are those in memory. Searches and requests keep it from any contents
of the buffers. An update keeps it when the buffers agree with the files outside
the block (`Current`), which loading the block gives; when blocks are single
columns the update itself loads it.
-/

namespace ImDsse

open Kit Kit.Loop Kit.Bits Kit.Files

variable {Key : Type}

/-! ### Positions on disk -/

/-- What `config.h` and the setup ask of the sizes on disk: a permitted block size,
whole state bytes, and pieces that cover the matrix without cutting a block. -/
structure Config.OnDisk (cfg : Config) : Prop where
  blockSize : BlockSize cfg.encryptBlockSize
  whole : 8 * cfg.encryptBlockSize ∣ cfg.maxNumOfFiles
  cols : cfg.matrixPieceColSize ∣ cfg.matrixColSize
  blocks : cfg.encryptBlockSize ∣ 8 * cfg.matrixPieceColSize

/-- The byte column a block starts in. -/
def Config.blockCol (cfg : Config) (b : Nat) : Nat := b * cfg.encryptBlockSize / 8

namespace Config

variable {cfg : Config}

theorem blockCols_of_lt (hB : cfg.encryptBlockSize < 8) (pos : 0 < cfg.encryptBlockSize) :
    cfg.blockCols = 1 := by
  unfold blockCols
  omega

theorem blockCols_of_le (size : BlockSize cfg.encryptBlockSize) (hB : 8 ≤ cfg.encryptBlockSize) :
    8 * cfg.blockCols = cfg.encryptBlockSize := by
  have bytes := size.bytes hB
  unfold blockCols
  omega

/-- Where the piece of a block starts, and the block within it. -/
theorem Tiled.block_in_piece (size : cfg.Tiled) (cols : cfg.matrixPieceColSize ∣ cfg.matrixColSize)
    (blocks : cfg.encryptBlockSize ∣ 8 * cfg.matrixPieceColSize) {b : Nat}
    (hb : b < cfg.numBlocks) :
    b * cfg.encryptBlockSize / (cfg.matrixPieceColSize * 8) * cfg.matrixPieceColSize <
        cfg.matrixColSize ∧
      b * cfg.encryptBlockSize % (cfg.matrixPieceColSize * 8) / 8 + cfg.blockCols ≤
        cfg.matrixPieceColSize ∧
      b * cfg.encryptBlockSize / (cfg.matrixPieceColSize * 8) * cfg.matrixPieceColSize +
        b * cfg.encryptBlockSize % (cfg.matrixPieceColSize * 8) / 8 = cfg.blockCol b := by
  set B := cfg.encryptBlockSize with hBdef
  set P := cfg.matrixPieceColSize with hPdef
  have pos := size.pos
  have bits := size.matrixColSize_mul
  have last : b * B < cfg.maxNumOfFiles := size.col_lt hb pos
  have hP : 0 < P := Nat.pos_of_dvd_of_pos cols (by omega)
  obtain ⟨q, hq⟩ := blocks
  have hqpos : 0 < q := by
    rcases Nat.eq_zero_or_pos q with rfl | hqpos
    · omega
    · exact hqpos
  -- the blocks of a piece are numbered below `q`
  have place : b * B % (P * 8) = b % q * B := by
    rw [Nat.mul_comm P 8, hq, Nat.mul_comm (cfg.encryptBlockSize) q, Nat.mul_mod_mul_right]
  have room : b % q * B + B ≤ P * 8 := by
    have := Nat.mul_le_mul_right B (Nat.mod_lt b hqpos)
    rw [Nat.succ_mul] at this
    calc b % q * B + B ≤ q * B := this
      _ = P * 8 := by rw [Nat.mul_comm P 8, hq, Nat.mul_comm]
  have split := Nat.div_add_mod (b * B) (P * 8)
  rw [Nat.mul_comm (P * 8), Nat.mul_comm P 8, ← Nat.mul_assoc, Nat.mul_right_comm,
    Nat.mul_comm 8 P] at split
  refine ⟨by omega, ?_, ?_⟩
  · rw [place]
    rcases Nat.lt_or_ge B 8 with hlt | hge
    · rw [blockCols_of_lt hlt pos]
      omega
    · have bytes := blockCols_of_le size.blockSize hge
      have aligned := size.blockSize.byte_aligned hge (b % q)
      omega
  · change _ = b * B / 8
    omega

end Config

namespace Config.OnDisk

variable {cfg : Config} (h : cfg.OnDisk)
include h

theorem tiled : cfg.Tiled :=
  ⟨h.blockSize, Nat.dvd_trans (Nat.dvd_mul_left _ _) h.whole,
    Nat.dvd_trans (Nat.dvd_mul_right _ _) h.whole⟩

theorem matrixColSize_mul : 8 * cfg.matrixColSize = cfg.maxNumOfFiles := h.tiled.matrixColSize_mul

theorem stateCols_mul : 8 * (cfg.numBlocks / 8) = cfg.numBlocks := by
  obtain ⟨q, hq⟩ := h.whole
  have blocks : cfg.numBlocks = 8 * q := by
    unfold numBlocks
    rw [hq, Nat.mul_right_comm, Nat.mul_div_cancel _ h.blockSize.pos]
  omega

/-- A block keeps its place within the byte when it is addressed in a buffer. -/
theorem localIndex_mul (b : Nat) :
    DiskServer.localIndex cfg b * cfg.encryptBlockSize + 8 * cfg.blockCol b =
      b * cfg.encryptBlockSize := by
  unfold DiskServer.localIndex blockCol
  split
  · next hlt =>
    have per := h.blockSize.per_byte hlt
    have place : b % (8 / cfg.encryptBlockSize) * cfg.encryptBlockSize =
        b * cfg.encryptBlockSize % 8 := by
      rw [← Nat.mul_mod_mul_right, per]
    omega
  · next hge =>
    have aligned := h.blockSize.byte_aligned (Nat.le_of_not_lt hge) b
    omega

/-- A block in a buffer is inside it. -/
theorem localIndex_room (b : Nat) :
    DiskServer.localIndex cfg b * cfg.encryptBlockSize + cfg.encryptBlockSize ≤
      8 * cfg.blockCols := by
  unfold DiskServer.localIndex
  split
  · next hlt =>
    have within := h.blockSize.within_byte hlt b
    have per := h.blockSize.per_byte hlt
    rw [← Nat.mul_mod_mul_right, per, Config.blockCols_of_lt hlt h.blockSize.pos]
    exact within
  · next hge =>
    have bytes := Config.blockCols_of_le h.blockSize (Nat.le_of_not_lt hge)
    omega

/-- The state byte of a block within its piece. -/
theorem state_in_piece {b : Nat} (hb : b < cfg.numBlocks) :
    b / 8 / cfg.blockStatePieceColSize * cfg.blockStatePieceColSize < cfg.numBlocks / 8 ∧
      b % (cfg.blockStatePieceColSize * 8) / 8 + 1 ≤ cfg.blockStatePieceColSize ∧
      b / 8 / cfg.blockStatePieceColSize * cfg.blockStatePieceColSize +
        b % (cfg.blockStatePieceColSize * 8) / 8 = b / 8 := by
  have whole := h.stateCols_mul
  have piece : cfg.blockStatePieceColSize = cfg.numBlocks / 8 := rfl
  rw [piece, Nat.div_eq_of_lt (a := b / 8) (by omega), Nat.mod_eq_of_lt (by omega)]
  omega

end Config.OnDisk

/-! ### Transfers as copies -/

section Transfer

variable {cfg : Config} (h : cfg.OnDisk) {files : PieceFiles}
include h

section Matrix

variable (formed : cfg.matrixGrid.Formed files)
include formed

theorem loadMatrix_col {b : Nat} (hb : b < cfg.numBlocks) (I : Matrix) {r : Nat}
    (hr : r < cfg.matrixRowSize) : loadEncryptedMatrixFromFiles cfg files I .col b r =
      copyBytes cfg.blockCols (I r) 0 (cfg.matrixGrid.matrix files r) (cfg.blockCol b) := by
  obtain ⟨piece, room, start⟩ := h.tiled.block_in_piece h.cols h.blocks hb
  exact Grid.loadColumns_eq (Config.matrixGrid_even h.cols) formed (Nat.dvd_mul_left _ _) piece room
    start I hr

theorem saveMatrix_col {b : Nat} (hb : b < cfg.numBlocks) (I : Matrix) :
    cfg.matrixGrid.Formed (saveEncryptedMatrixToFiles cfg files I .col b) ∧
      (∀ r j, r < cfg.matrixRowSize → j < cfg.matrixColSize →
        cfg.matrixGrid.matrix (saveEncryptedMatrixToFiles cfg files I .col b) r j =
          copyBytes cfg.blockCols (cfg.matrixGrid.matrix files r) (cfg.blockCol b) (I r) 0 j) ∧
      cfg.matrixGrid.Untouched files (saveEncryptedMatrixToFiles cfg files I .col b) := by
  obtain ⟨piece, room, start⟩ := h.tiled.block_in_piece h.cols h.blocks hb
  exact Grid.saveColumns_eq (Config.matrixGrid_even h.cols) formed (Nat.dvd_mul_left _ _) piece room
    start I

theorem loadMatrix_row {row : Nat} (hrow : row < cfg.matrixRowSize) (I : Matrix) :
    loadEncryptedMatrixFromFiles cfg files I .row row 0 =
      copyBytes cfg.matrixColSize (I 0) 0 (cfg.matrixGrid.matrix files row) 0 :=
  Grid.loadRow_eq (Config.matrixGrid_even h.cols) formed hrow I

theorem saveMatrix_row {row : Nat} (hrow : row < cfg.matrixRowSize) (I : Matrix) :
    cfg.matrixGrid.Formed (saveEncryptedMatrixToFiles cfg files I .row row) ∧
      (∀ r j, r < cfg.matrixRowSize → j < cfg.matrixColSize →
        cfg.matrixGrid.matrix (saveEncryptedMatrixToFiles cfg files I .row row) r j =
          if r = row then I 0 j else cfg.matrixGrid.matrix files r j) ∧
      cfg.matrixGrid.Untouched files (saveEncryptedMatrixToFiles cfg files I .row row) :=
  Grid.saveRow_spec (Config.matrixGrid_even h.cols) formed hrow I

end Matrix

section State

variable (formed : cfg.stateGrid.Formed files)
include formed

theorem loadState_col {b : Nat} (hb : b < cfg.numBlocks) (st : Matrix) {r : Nat}
    (hr : r < cfg.matrixRowSize) : loadBlockStateMatrixFromFile cfg files st .col b r =
      copyBytes 1 (st r) 0 (cfg.stateGrid.matrix files r) (b / 8) := by
  obtain ⟨piece, room, start⟩ := h.state_in_piece hb
  exact Grid.loadColumns_eq cfg.stateGrid_even formed (Nat.dvd_mul_left _ _) piece room
    start st hr

theorem saveState_col {b : Nat} (hb : b < cfg.numBlocks) (st : Matrix) :
    cfg.stateGrid.Formed (saveBlockStateMatrixToFile cfg files st .col b) ∧
      (∀ r j, r < cfg.matrixRowSize → j < cfg.numBlocks / 8 →
        cfg.stateGrid.matrix (saveBlockStateMatrixToFile cfg files st .col b) r j =
          copyBytes 1 (cfg.stateGrid.matrix files r) (b / 8) (st r) 0 j) ∧
      cfg.stateGrid.Untouched files (saveBlockStateMatrixToFile cfg files st .col b) := by
  obtain ⟨piece, room, start⟩ := h.state_in_piece hb
  exact Grid.saveColumns_eq cfg.stateGrid_even formed (Nat.dvd_mul_left _ _) piece room
    start st

omit h in
theorem loadState_row {row : Nat} (hrow : row < cfg.matrixRowSize) (st : Matrix) :
    loadBlockStateMatrixFromFile cfg files st .row row 0 =
      copyBytes (cfg.numBlocks / 8) (st 0) 0 (cfg.stateGrid.matrix files row) 0 :=
  Grid.loadRow_eq cfg.stateGrid_even formed hrow st

omit h in
theorem saveState_row {row : Nat} (hrow : row < cfg.matrixRowSize) (st : Matrix) :
    cfg.stateGrid.Formed (saveBlockStateMatrixToFile cfg files st .row row) ∧
      (∀ r j, r < cfg.matrixRowSize → j < cfg.numBlocks / 8 →
        cfg.stateGrid.matrix (saveBlockStateMatrixToFile cfg files st .row row) r j =
          if r = row then st 0 j else cfg.stateGrid.matrix files r j) ∧
      cfg.stateGrid.Untouched files (saveBlockStateMatrixToFile cfg files st .row row) :=
  Grid.saveRow_spec cfg.stateGrid_even formed hrow st

end State

end Transfer

/-! ### The index a disk server holds -/

/-- The encrypted matrix in the files. -/
def DiskServer.I (cfg : Config) (s : DiskServer) : Matrix := cfg.matrixGrid.matrix s.files

/-- The state matrix in the files. -/
def DiskServer.blockStateMat (cfg : Config) (s : DiskServer) : Matrix :=
  cfg.stateGrid.matrix s.files

/-- The files of the server are there, with their lengths. -/
structure DiskServer.Formed (cfg : Config) (s : DiskServer) : Prop where
  matrix : cfg.matrixGrid.Formed s.files
  state : cfg.decryptAtClientSide = false → cfg.stateGrid.Formed s.files

section Save

variable {cfg : Config} (h : cfg.OnDisk) {s : DiskServer} (formed : s.Formed cfg)
include formed

/-- Saving the matrix and then, where the build has them, the states: neither
touches the files of the other. -/
theorem saved_index {s' : DiskServer} {saved : PieceFiles} {F : PieceFiles → PieceFiles}
    {I T : Matrix}
    (matrix : cfg.matrixGrid.Formed saved ∧ (∀ r j, r < cfg.matrixRowSize →
      j < cfg.matrixColSize → cfg.matrixGrid.matrix saved r j = I r j) ∧
      cfg.matrixGrid.Untouched s.files saved)
    (state : cfg.stateGrid.Formed saved → cfg.stateGrid.matrix saved = s.blockStateMat cfg →
      cfg.stateGrid.Formed (F saved) ∧ (∀ r j, r < cfg.matrixRowSize →
      j < cfg.numBlocks / 8 → cfg.stateGrid.matrix (F saved) r j = T r j) ∧
      cfg.stateGrid.Untouched saved (F saved))
    (files : s'.files = if cfg.decryptAtClientSide then saved else F saved) :
    s'.Formed cfg ∧
      (∀ r j, r < cfg.matrixRowSize → j < cfg.matrixColSize → s'.I cfg r j = I r j) ∧
      (cfg.decryptAtClientSide = false → ∀ r j, r < cfg.matrixRowSize → j < cfg.numBlocks / 8 →
        s'.blockStateMat cfg r j = T r j) := by
  obtain ⟨formed', cells, untouched⟩ := matrix
  cases hd : cfg.decryptAtClientSide with
  | true =>
    rw [hd, if_pos rfl] at files
    refine ⟨⟨by rw [files]; exact formed', fun server => ?_⟩, ?_, fun server => ?_⟩
    · cases hd.symm.trans server
    · rw [DiskServer.I, files]
      exact cells
    · cases server
  | false =>
    rw [hd, if_neg (by decide)] at files
    obtain ⟨kept, same⟩ := (formed.state hd).of_untouched (state_ne_matrix cfg) untouched
    obtain ⟨state', states, untouched'⟩ := state kept same
    obtain ⟨matrix', same'⟩ := formed'.of_untouched
      (fun m n m' n' => (state_ne_matrix cfg m' n' m n).symm) untouched'
    refine ⟨⟨by rw [files]; exact matrix', fun _ => by rw [files]; exact state'⟩, ?_, fun _ => ?_⟩
    · rw [DiskServer.I, files, same']
      exact cells
    · rw [DiskServer.blockStateMat, files]
      exact states

include h

/-- Saving a block replaces its bytes and its state byte. -/
theorem saveDataToFile_col {b : Nat} (hb : b < cfg.numBlocks) :
    (s.saveDataToFile cfg .col b).Formed cfg ∧
      (∀ r j, r < cfg.matrixRowSize → j < cfg.matrixColSize →
        (s.saveDataToFile cfg .col b).I cfg r j =
          copyBytes cfg.blockCols (s.I cfg r) (cfg.blockCol b) (s.IUpdate r) 0 j) ∧
      (cfg.decryptAtClientSide = false → ∀ r j, r < cfg.matrixRowSize → j < cfg.numBlocks / 8 →
        (s.saveDataToFile cfg .col b).blockStateMat cfg r j =
          copyBytes 1 (s.blockStateMat cfg r) (b / 8) (s.blockStateMatUpdate r) 0 j) := by
  refine saved_index formed (saveMatrix_col h formed.matrix hb s.IUpdate)
    (F := fun files => saveBlockStateMatrixToFile cfg files s.blockStateMatUpdate .col b)
    (fun kept same => ?_) rfl
  rw [← same]
  exact saveState_col h kept hb s.blockStateMatUpdate

/-- Saving a row replaces it and its states. -/
theorem saveDataToFile_row {row : Nat} (hrow : row < cfg.matrixRowSize) :
    (s.saveDataToFile cfg .row row).Formed cfg ∧
      (∀ r j, r < cfg.matrixRowSize → j < cfg.matrixColSize →
        (s.saveDataToFile cfg .row row).I cfg r j =
          if r = row then s.ISearch 0 j else s.I cfg r j) ∧
      (cfg.decryptAtClientSide = false → ∀ r j, r < cfg.matrixRowSize → j < cfg.numBlocks / 8 →
        (s.saveDataToFile cfg .row row).blockStateMat cfg r j =
          if r = row then s.blockStateMatSearch 0 j else s.blockStateMat cfg r j) := by
  refine saved_index formed
    (I := fun r j => if r = row then s.ISearch 0 j else s.I cfg r j)
    (T := fun r j => if r = row then s.blockStateMatSearch 0 j else s.blockStateMat cfg r j)
    (saveMatrix_row h formed.matrix hrow s.ISearch)
    (F := fun files => saveBlockStateMatrixToFile cfg files s.blockStateMatSearch .row row)
    (fun kept same => ?_) rfl
  rw [← same]
  exact saveState_row kept hrow s.blockStateMatSearch

end Save

/-! ### The operations -/

/-- The index in the files, as the server in memory holds it. -/
def DiskServer.index (cfg : Config) (s : DiskServer) : RamServer :=
  ⟨s.I cfg, s.blockStateMat cfg, s.blockCounterArr⟩

/-- Two indexes agree: on the bytes of the matrix and, where the server decrypts,
on those of the state matrix and on the block counters. -/
structure SameIndex (cfg : Config) (s t : RamServer) : Prop where
  I : ∀ r j, r < cfg.matrixRowSize → j < cfg.matrixColSize → s.I r j = t.I r j
  blockStateMat : cfg.decryptAtClientSide = false → ∀ r j, r < cfg.matrixRowSize →
    j < cfg.numBlocks / 8 → s.blockStateMat r j = t.blockStateMat r j
  blockCounterArr : cfg.decryptAtClientSide = false → ∀ b, b < cfg.numBlocks →
    s.blockCounterArr b = t.blockCounterArr b

section Bits

variable {cfg : Config} (h : cfg.OnDisk) {s t : RamServer}
include h

theorem SameIndex.bit_I (same : SameIndex cfg s t) {r j : Nat} (hr : r < cfg.matrixRowSize)
    (hj : j < cfg.maxNumOfFiles) : bit (s.I r) j = bit (t.I r) j := by
  have whole := h.matrixColSize_mul
  rw [bit, same.I r _ hr (by omega), bit]

theorem SameIndex.bit_state (same : SameIndex cfg s t) (server : cfg.decryptAtClientSide = false)
    {r b : Nat} (hr : r < cfg.matrixRowSize) (hb : b < cfg.numBlocks) :
    bit (s.blockStateMat r) b = bit (t.blockStateMat r) b := by
  have whole := h.stateCols_mul
  rw [bit, same.blockStateMat server r _ hr (by omega), bit]

/-- Indexes agree when their bits do. -/
theorem sameIndex_of_bits
    (cells : ∀ r j, r < cfg.matrixRowSize → j < cfg.maxNumOfFiles → bit (s.I r) j = bit (t.I r) j)
    (states : cfg.decryptAtClientSide = false → ∀ r b, r < cfg.matrixRowSize →
      b < cfg.numBlocks → bit (s.blockStateMat r) b = bit (t.blockStateMat r) b)
    (counters : cfg.decryptAtClientSide = false → ∀ b, b < cfg.numBlocks →
      s.blockCounterArr b = t.blockCounterArr b) : SameIndex cfg s t where
  I r j hr hj := by
    have whole := h.matrixColSize_mul
    exact byte_eq_of_bit fun p hp => cells r _ hr (by omega)
  blockStateMat server r j hr hj := by
    have whole := h.stateCols_mul
    exact byte_eq_of_bit fun p hp => states server r _ hr (by omega)
  blockCounterArr := counters

end Bits

/-- The buffers agree with the files on the other blocks that share a byte with
block `b`. -/
structure DiskServer.Current (cfg : Config) (s : DiskServer) (b : Nat) : Prop where
  cells : ∀ r j, r < cfg.matrixRowSize → j < cfg.maxNumOfFiles → j / cfg.encryptBlockSize ≠ b →
    cfg.blockCol b ≤ j / 8 → j / 8 < cfg.blockCol b + cfg.blockCols →
      bit (s.IUpdate r) (j - 8 * cfg.blockCol b) = bit (s.I cfg r) j
  states : cfg.decryptAtClientSide = false → ∀ r b', r < cfg.matrixRowSize → b' / 8 = b / 8 →
    b' ≠ b → bit (s.blockStateMatUpdate r) (b' % 8) = bit (s.blockStateMat cfg r) b'

/-- The buffers after a block and its state are put in place, and its counter. -/
def DiskServer.withBlock (cfg : Config) (s : DiskServer) (b : Nat) (data : Buf) : DiskServer :=
  { s with
    IUpdate := updateMatrix cfg data (localIndex cfg b) s.IUpdate
    blockCounterArr := if cfg.decryptAtClientSide then s.blockCounterArr
      else Function.update s.blockCounterArr b (nextCounter (s.blockCounterArr b))
    blockStateMatUpdate := if cfg.decryptAtClientSide then s.blockStateMatUpdate
      else forLoop cfg.matrixRowSize (fun row st =>
        onRow st row fun x => putBit x 0 (b % 8) true) s.blockStateMatUpdate }

theorem storeBlockData_eq (cfg : Config) (s : DiskServer) (b : Nat) (data : Buf) :
    s.storeBlockData cfg b data = (s.withBlock cfg b data).saveDataToFile cfg .col b := by
  unfold DiskServer.storeBlockData DiskServer.withBlock update
  cases cfg.decryptAtClientSide <;> rfl

section Operations

variable {cfg : Config} (h : cfg.OnDisk) {s : DiskServer} (formed : s.Formed cfg)
include h formed

/-- A block just loaded, bit by bit. -/
theorem bit_loaded_col {b : Nat} (hb : b < cfg.numBlocks) {r : Nat} (hr : r < cfg.matrixRowSize) :
    (∀ k, k < 8 * cfg.blockCols → bit ((s.loadDataFromFile cfg .col b).IUpdate r) k =
      bit (s.I cfg r) (8 * cfg.blockCol b + k)) ∧
    (cfg.decryptAtClientSide = false → ∀ k, k < 8 →
      bit ((s.loadDataFromFile cfg .col b).blockStateMatUpdate r) k =
        bit (s.blockStateMat cfg r) (8 * (b / 8) + k)) := by
  constructor
  · intro k hk
    simp only [DiskServer.loadDataFromFile]
    rw [loadMatrix_col h formed.matrix hb s.IUpdate hr, bit_copyBytes, if_pos (by omega),
      Nat.mul_zero, Nat.sub_zero]
    rfl
  · intro server k hk
    simp only [DiskServer.loadDataFromFile, server, Bool.false_eq_true, if_false]
    rw [loadState_col h (formed.state server) hb s.blockStateMatUpdate hr, bit_copyBytes,
      if_pos (by omega), Nat.mul_zero, Nat.sub_zero]
    rfl

/-- Loading a block makes the buffers current for it. -/
theorem current_loaded {b : Nat} (hb : b < cfg.numBlocks) :
    (s.loadDataFromFile cfg .col b).Current cfg b where
  cells r j hr hj _ lo hi := by
    obtain ⟨cells, -⟩ := bit_loaded_col h formed hb hr
    rw [cells _ (by omega), Nat.add_sub_cancel' (by omega)]
    rfl
  states server r b' hr hbyte _ := by
    obtain ⟨-, states⟩ := bit_loaded_col h formed hb hr
    rw [states server _ (Nat.mod_lt b' (by decide)), ← hbyte, Nat.div_add_mod]
    rfl

/-- What storing a block makes of the index, whatever is in the buffers. -/
theorem storeBlockData_index {b : Nat} (hb : b < cfg.numBlocks) (data : Buf) :
    (s.storeBlockData cfg b data).Formed cfg ∧
      (∀ r j, r < cfg.matrixRowSize → j < cfg.maxNumOfFiles →
        bit ((s.storeBlockData cfg b data).I cfg r) j =
          if j / cfg.encryptBlockSize = b
          then bit data (r * cfg.encryptBlockSize + j % cfg.encryptBlockSize)
          else if cfg.blockCol b ≤ j / 8 ∧ j / 8 < cfg.blockCol b + cfg.blockCols
          then bit (s.IUpdate r) (j - 8 * cfg.blockCol b) else bit (s.I cfg r) j) ∧
      (cfg.decryptAtClientSide = false → ∀ r b', r < cfg.matrixRowSize → b' < cfg.numBlocks →
        bit ((s.storeBlockData cfg b data).blockStateMat cfg r) b' =
          if b' = b then true
          else if b' / 8 = b / 8 then bit (s.blockStateMatUpdate r) (b' % 8)
          else bit (s.blockStateMat cfg r) b') ∧
      (s.storeBlockData cfg b data).blockCounterArr =
        if cfg.decryptAtClientSide then s.blockCounterArr
        else Function.update s.blockCounterArr b (nextCounter (s.blockCounterArr b)) := by
  rw [storeBlockData_eq]
  have whole := h.matrixColSize_mul
  have states := h.stateCols_mul
  obtain ⟨formed', cells, states'⟩ :=
    saveDataToFile_col h (s := s.withBlock cfg b data) ⟨formed.matrix, formed.state⟩ hb
  refine ⟨formed', fun r j hr hj => ?_, fun server r b' hr hb' => ?_, rfl⟩
  · have place := h.localIndex_mul b
    have room := h.localIndex_room b
    have tile := in_tile_iff h.blockSize.pos b j
    rw [bit, cells r _ hr (by omega), ← bit, bit_copyBytes, Nat.mul_zero, Nat.zero_add]
    simp only [DiskServer.withBlock]
    rw [bit_updateMatrix h.blockSize]
    by_cases hin : j / cfg.encryptBlockSize = b
    · obtain ⟨lo, hi⟩ := tile.mpr hin
      obtain ⟨-, hmod⟩ := div_mod_tile lo hi
      rw [if_pos hin, if_pos (by omega), if_pos ⟨hr, by omega, by omega⟩, hmod]
      congr 1
      omega
    · have out := mt tile.mp hin
      rw [if_neg hin]
      by_cases hbyte : cfg.blockCol b ≤ j / 8 ∧ j / 8 < cfg.blockCol b + cfg.blockCols
      · rw [if_pos (by omega), if_neg fun c => out ⟨by omega, by omega⟩, if_pos hbyte]
      · rw [if_neg (by omega), if_neg hbyte]
        rfl
  · rw [bit, states' server r _ hr (by omega), ← bit, bit_copyBytes, Nat.mul_zero, Nat.zero_add]
    simp only [DiskServer.withBlock, server, Bool.false_eq_true, if_false]
    rw [forLoop_rows cfg.matrixRowSize fun _ x => putBit x 0 (b % 8) true, if_pos hr,
      bit_putBit _ _ _ (Nat.mod_lt b (by decide)), Nat.mul_zero, Nat.zero_add]
    by_cases hbyte : b' / 8 = b / 8
    · rw [if_pos (by omega), show b' - 8 * (b / 8) = b' % 8 by omega, if_pos hbyte]
      have same : b' % 8 = b % 8 ↔ b' = b := by omega
      simp only [same]
    · rw [if_neg (by omega), if_neg (by rintro rfl; exact hbyte rfl), if_neg hbyte]
      rfl

end Operations

/-! ### Updates -/

/-- An update of block `b` and of nothing else: its cells are the data, its state
bits are set, its counter advances, and the rest of the index stays. -/
structure Isolated (cfg : Config) (b : Nat) (data : Buf) (before after : RamServer) : Prop where
  block : ∀ r i, r < cfg.matrixRowSize → i < cfg.encryptBlockSize →
    bit (after.I r) (b * cfg.encryptBlockSize + i) = bit data (r * cfg.encryptBlockSize + i)
  cells : ∀ r j, r < cfg.matrixRowSize → j < cfg.maxNumOfFiles → j / cfg.encryptBlockSize ≠ b →
    bit (after.I r) j = bit (before.I r) j
  state : cfg.decryptAtClientSide = false → ∀ r, r < cfg.matrixRowSize →
    bit (after.blockStateMat r) b = true
  states : cfg.decryptAtClientSide = false → ∀ r b', r < cfg.matrixRowSize →
    b' < cfg.numBlocks → b' ≠ b → bit (after.blockStateMat r) b' = bit (before.blockStateMat r) b'
  counter : cfg.decryptAtClientSide = false →
    after.blockCounterArr b = nextCounter (before.blockCounterArr b)
  counters : cfg.decryptAtClientSide = false → ∀ b', b' ≠ b →
    after.blockCounterArr b' = before.blockCounterArr b'

/-- In memory every update is isolated. -/
theorem updateBlockData_isolated {cfg : Config} (hB : BlockSize cfg.encryptBlockSize)
    (t : RamServer) (b : Nat) (data : List Byte) :
    Isolated cfg b (ofBytes data cfg.blockBytes zeroBuf) t (t.updateBlockData cfg b data) := by
  rw [updateBlockData_eq]
  refine ⟨?block, ?cells, ?state, ?states, ?counter, ?counters⟩
  case block =>
    intro r i hr hi
    rw [bit_updateMatrix hB, if_pos ⟨hr, by omega, by omega⟩, Nat.add_sub_cancel_left]
  case cells =>
    intro r j hr hj other
    rw [bit_updateMatrix hB, if_neg fun c => other ((in_tile_iff hB.pos b j).mp c.2)]
  case state =>
    intro server r hr
    simp only [server, Bool.false_eq_true, if_false]
    rw [bit_setStates, if_pos ⟨hr, rfl⟩]
  case states =>
    intro server r b' hr hb' other
    simp only [server, Bool.false_eq_true, if_false]
    rw [bit_setStates, if_neg fun c => other c.2]
  case counter =>
    intro server
    simp only [server, Bool.false_eq_true, if_false, Function.update_self]
  case counters =>
    intro server b' other
    simp only [server, Bool.false_eq_true, if_false, Function.update_of_ne other]

section Updates

variable {cfg : Config} (h : cfg.OnDisk)
include h

/-- Isolated updates of indexes that agree leave indexes that agree. -/
theorem Isolated.same {b : Nat} {data : Buf} {s s' t t' : RamServer}
    (disk : Isolated cfg b data s s') (ram : Isolated cfg b data t t') (same : SameIndex cfg s t) :
    SameIndex cfg s' t' := by
  refine sameIndex_of_bits h (fun r j hr hj => ?_) (fun server r b' hr hb' => ?_)
    (fun server b' hb' => ?_)
  · by_cases hin : j / cfg.encryptBlockSize = b
    · have hmod := Nat.mod_lt j h.blockSize.pos
      have cell := (disk.block r _ hr hmod).trans (ram.block r _ hr hmod).symm
      rwa [← hin, Nat.div_add_mod'] at cell
    · rw [disk.cells r j hr hj hin, ram.cells r j hr hj hin, same.bit_I h hr hj]
  · by_cases hin : b' = b
    · rw [hin, disk.state server r hr, ram.state server r hr]
    · rw [disk.states server r b' hr hb' hin, ram.states server r b' hr hb' hin,
        same.bit_state h server hr hb']
  · by_cases hin : b' = b
    · subst hin
      rw [disk.counter server, ram.counter server, same.blockCounterArr server b' hb']
    · rw [disk.counters server b' hin, ram.counters server b' hin,
        same.blockCounterArr server b' hb']

variable {s : DiskServer} (formed : s.Formed cfg)
include formed

/-- Storing a block is isolated exactly when the buffers are current. -/
theorem storeBlockData_isolated_iff {b : Nat} (hb : b < cfg.numBlocks) (data : Buf) :
    Isolated cfg b data (s.index cfg) ((s.storeBlockData cfg b data).index cfg) ↔
      s.Current cfg b := by
  obtain ⟨-, cells, states, counters⟩ := storeBlockData_index h formed hb data
  constructor
  · intro isolated
    refine ⟨fun r j hr hj other lo hi => ?_, fun server r b' hr hbyte other => ?_⟩
    · have kept : bit ((s.storeBlockData cfg b data).I cfg r) j = bit (s.I cfg r) j :=
        isolated.cells r j hr hj other
      rwa [cells r j hr hj, if_neg other, if_pos ⟨lo, hi⟩] at kept
    · have whole := h.stateCols_mul
      have hb' : b' < cfg.numBlocks := by omega
      have kept : bit ((s.storeBlockData cfg b data).blockStateMat cfg r) b' =
          bit (s.blockStateMat cfg r) b' := isolated.states server r b' hr hb' other
      rwa [states server r b' hr hb', if_neg other, if_pos hbyte] at kept
  · intro current
    refine ⟨?block, ?cells, ?state, ?states, ?counter, ?counters⟩
    case block =>
      intro r i hr hi
      have hj := tile_lt hb hi
      rw [h.tiled.numBlocks_mul] at hj
      exact (cells r _ hr hj).trans (by rw [tile_div hi, tile_mod hi, if_pos rfl])
    case cells =>
      intro r j hr hj other
      refine (cells r j hr hj).trans ?_
      rw [if_neg other]
      split
      · next inside => exact current.cells r j hr hj other inside.1 inside.2
      · rfl
    case state =>
      intro server r hr
      exact (states server r b hr hb).trans (if_pos rfl)
    case states =>
      intro server r b' hr hb' other
      refine (states server r b' hr hb').trans ?_
      rw [if_neg other]
      split
      · next hbyte => exact current.states server r b' hr hbyte other
      · rfl
    case counter =>
      intro server
      simp only [DiskServer.index, counters, server, Bool.false_eq_true, if_false,
        Function.update_self]
    case counters =>
      intro server b' other
      simp only [DiskServer.index, counters, server, Bool.false_eq_true, if_false,
        Function.update_of_ne other]

/-- On disk an update is isolated exactly when its block is a single column, which
is read again first, or the buffers are current. -/
theorem updateBlockData_isolated_iff {b : Nat} (hb : b < cfg.numBlocks) (data : List Byte) :
    Isolated cfg b (ofBytes data cfg.blockBytes zeroBuf) (s.index cfg)
        ((s.updateBlockData cfg b data).index cfg) ↔
      cfg.encryptBlockSize = 1 ∨ s.Current cfg b := by
  unfold DiskServer.updateBlockData
  by_cases h1 : cfg.encryptBlockSize = 1
  · have loaded := (storeBlockData_isolated_iff h
      (s := s.loadDataFromFile cfg .col b) ⟨formed.matrix, formed.state⟩ hb
      (ofBytes data cfg.blockBytes zeroBuf)).mpr (current_loaded h formed hb)
    simp only [h1, if_true, true_or, iff_true]
    exact loaded
  · simp only [h1, if_false, false_or]
    exact storeBlockData_isolated_iff h formed hb _

theorem updateBlockData_formed {b : Nat} (hb : b < cfg.numBlocks) (data : List Byte) :
    (s.updateBlockData cfg b data).Formed cfg := by
  unfold DiskServer.updateBlockData
  split
  · exact (storeBlockData_index h (s := s.loadDataFromFile cfg .col b)
      ⟨formed.matrix, formed.state⟩ hb _).1
  · exact (storeBlockData_index h formed hb _).1

end Updates

/-! ### Requests and searches -/

/-- The piece files of the disk server are there and hold the index of the server
in memory. -/
structure OnFiles (cfg : Config) (s : DiskServer) (t : RamServer) : Prop where
  formed : s.Formed cfg
  same : SameIndex cfg (s.index cfg) t

section Requests

variable {cfg : Config} (h : cfg.OnDisk) {s : DiskServer} {t : RamServer}
  (rel : OnFiles cfg s t)
include h rel

/-- A row just loaded is that of the server in memory. -/
theorem bit_loaded_row {row : Nat} (hrow : row < cfg.matrixRowSize) :
    (∀ j, j < cfg.maxNumOfFiles →
      bit ((s.loadDataFromFile cfg .row row).ISearch 0) j = bit (t.I row) j) ∧
    (cfg.decryptAtClientSide = false → ∀ b, b < cfg.numBlocks →
      bit ((s.loadDataFromFile cfg .row row).blockStateMatSearch 0) b =
        bit (t.blockStateMat row) b) := by
  constructor
  · intro j hj
    have whole := h.matrixColSize_mul
    simp only [DiskServer.loadDataFromFile]
    rw [loadMatrix_row h rel.formed.matrix hrow, bit_copyBytes, if_pos (by omega), Nat.mul_zero,
      Nat.sub_zero, Nat.zero_add]
    exact rel.same.bit_I h hrow hj
  · intro server b hb
    have whole := h.stateCols_mul
    simp only [DiskServer.loadDataFromFile, server, Bool.false_eq_true, if_false]
    rw [loadState_row (rel.formed.state server) hrow, bit_copyBytes, if_pos (by omega),
      Nat.mul_zero, Nat.sub_zero, Nat.zero_add]
    exact rel.same.bit_state h server hrow hb

theorem getBlockData_row_reply {row : Nat} (hrow : row < cfg.matrixRowSize) :
    (s.getBlockData cfg row .row).2 = t.getBlockData cfg row .row := by
  have whole := h.matrixColSize_mul
  refine toBytes_congr_bit fun k hk => ?_
  rw [bit_getBlock_row, bit_getBlock_row, if_pos hk, if_pos hk]
  exact (bit_loaded_row h rel hrow).1 k (by omega)

theorem getBlockData_col_reply {b : Nat} (hb : b < cfg.numBlocks) :
    (s.getBlockData cfg b .col).2 = t.getBlockData cfg b .col := by
  have place := h.localIndex_mul b
  have room := h.localIndex_room b
  have cells : ∀ k, bit (getBlock cfg (DiskServer.localIndex cfg b) .col
      (s.loadDataFromFile cfg .col b).IUpdate zeroBuf) k =
      bit (getBlock cfg b .col t.I zeroBuf) k := by
    intro k
    rw [bit_getBlock_col h.blockSize, bit_getBlock_col h.blockSize]
    by_cases hk : k < cfg.matrixRowSize * cfg.encryptBlockSize
    · have hmod := Nat.mod_lt k h.blockSize.pos
      have hrow : k / cfg.encryptBlockSize < cfg.matrixRowSize :=
        Nat.div_lt_of_lt_mul (by rwa [Nat.mul_comm] at hk)
      have hj := tile_lt hb hmod
      rw [h.tiled.numBlocks_mul] at hj
      rw [if_pos hk, if_pos hk, (bit_loaded_col h rel.formed hb hrow).1 _ (by omega),
        show 8 * cfg.blockCol b + (DiskServer.localIndex cfg b * cfg.encryptBlockSize +
          k % cfg.encryptBlockSize) = b * cfg.encryptBlockSize + k % cfg.encryptBlockSize by omega]
      exact rel.same.bit_I h hrow hj
    · rw [if_neg hk, if_neg hk]
  refine toBytes_congr_bit fun k _ => ?_
  cases hd : cfg.decryptAtClientSide with
  | true => exact cells k
  | false =>
    simp only [Bool.false_eq_true, if_false]
    rw [bit_serializeStates, bit_serializeStates]
    by_cases hk : cfg.matrixRowSize * cfg.encryptBlockSize ≤ k ∧
        k < cfg.matrixRowSize * cfg.encryptBlockSize + cfg.matrixRowSize
    · have hrow : k - cfg.matrixRowSize * cfg.encryptBlockSize < cfg.matrixRowSize := by omega
      have state := (bit_loaded_col h rel.formed hb hrow).2 hd (b % 8) (Nat.mod_lt b (by decide))
      rw [Nat.div_add_mod, bit, Nat.div_eq_of_lt (Nat.mod_lt b (by decide)),
        Nat.mod_mod] at state
      rw [if_pos hk, if_pos hk, state]
      exact rel.same.bit_state h hd hrow hb
    · rw [if_neg hk, if_neg hk]
      exact cells k

theorem searchKeyword_onFiles (cr : Cipher Key) (tau : SearchToken Key)
    (server : cfg.decryptAtClientSide = false) (hrow : tau.rowIndex < cfg.matrixRowSize) :
    OnFiles cfg (s.searchKeyword cfg cr tau).1 (t.searchKeyword cfg cr tau).1 ∧
      (s.searchKeyword cfg cr tau).2 = (t.searchKeyword cfg cr tau).2 := by
  have blocks : cfg.encryptBlockSize ∣ cfg.maxNumOfFiles :=
    Nat.dvd_trans (Nat.dvd_mul_left _ _) h.whole
  have whole := h.matrixColSize_mul
  have stateCols := h.stateCols_mul
  obtain ⟨cells, states⟩ := bit_loaded_row h rel hrow
  obtain ⟨found, encryptions, cells', states'⟩ := search_congr cr tau 0 h.blockSize blocks cells
    (states server) (fun b hb => rel.same.blockCounterArr server b hb)
  have spec := search_spec cr tau t.I t.blockCounterArr t.blockStateMat h.blockSize blocks
  obtain ⟨formed', saved, savedStates⟩ := saveDataToFile_row h
    (s := { s.loadDataFromFile cfg .row tau.rowIndex with
      ISearch := (search cfg cr { tau with rowIndex := 0 }
        (s.loadDataFromFile cfg .row tau.rowIndex).ISearch s.blockCounterArr
        (s.loadDataFromFile cfg .row tau.rowIndex).blockStateMatSearch).I
      blockStateMatSearch := (search cfg cr { tau with rowIndex := 0 }
        (s.loadDataFromFile cfg .row tau.rowIndex).ISearch s.blockCounterArr
        (s.loadDataFromFile cfg .row tau.rowIndex).blockStateMatSearch).blockStateMatrix })
    ⟨rel.formed.matrix, rel.formed.state⟩ hrow
  refine ⟨⟨formed', sameIndex_of_bits h (fun r j hr hj => ?_) (fun _ r b hr hb => ?_)
    rel.same.blockCounterArr⟩, Prod.ext found encryptions⟩
  · refine (congrArg (bitCheck · (j % 8)) (saved r (j / 8) hr (by omega))).trans ?_
    by_cases hrow' : r = tau.rowIndex
    · rw [if_pos hrow']
      exact (cells' j hj).trans (by rw [hrow']; rfl)
    · rw [if_neg hrow']
      refine (rel.same.bit_I h hr hj).trans ?_
      simp only [RamServer.searchKeyword]
      rw [spec.cells, if_neg fun c => hrow' c.1]
  · refine (congrArg (bitCheck · (b % 8)) (savedStates server r (b / 8) hr (by omega))).trans ?_
    by_cases hrow' : r = tau.rowIndex
    · rw [if_pos hrow']
      exact (states' b hb).trans (by rw [hrow']; rfl)
    · rw [if_neg hrow']
      refine (rel.same.bit_state h server hr hb).trans ?_
      simp only [RamServer.searchKeyword]
      rw [spec.states, if_neg fun c => hrow' c.1]

/-- On a valid request that finds current buffers if it updates, both servers stop,
or both give the same reply and stay in step. -/
theorem diskServer_lockstep (cr : Cipher Key) {c : Command Key} (valid : c.Valid cfg)
    (current : ∀ b data, c = .updateBlockData b data →
      cfg.encryptBlockSize = 1 ∨ s.Current cfg b) :
    Machine.Lockstep (OnFiles cfg) Eq ((diskServer cfg cr).step s c)
      ((ramServer cfg cr).step t c) := by
  cases c with
  | searchOperation tau =>
    simp only [diskServer, ramServer]
    cases hd : cfg.decryptAtClientSide with
    | true => exact .none
    | false =>
      obtain ⟨rel', reply⟩ := searchKeyword_onFiles h rel cr tau hd valid
      simp only [Bool.false_eq_true, if_false]
      rw [reply]
      exact .some ⟨rel', rfl⟩
  | requestSearchData row =>
    simp only [diskServer, ramServer]
    rw [getBlockData_row_reply h rel valid]
    exact .some ⟨⟨⟨rel.formed.matrix, rel.formed.state⟩, rel.same⟩, rfl⟩
  | requestBlockData b =>
    simp only [diskServer, ramServer]
    rw [getBlockData_col_reply h rel valid]
    exact .some ⟨⟨⟨rel.formed.matrix, rel.formed.state⟩, rel.same⟩, rfl⟩
  | updateBlockData b data =>
    have disk := (updateBlockData_isolated_iff h rel.formed valid data).mpr (current b data rfl)
    have ram := updateBlockData_isolated h.blockSize t b data
    exact .some ⟨⟨updateBlockData_formed h rel.formed valid data, disk.same h ram rel.same⟩, rfl⟩

end Requests

end ImDsse
