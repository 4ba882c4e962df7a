import ImDsse.Pieces

/-!
The server with the index on disk (`Server_DSSE` with `DISK_STORAGE_MODE`).

It holds one row for searches and one block for updates, with their state bits,
and moves them between memory and the piece files. Within these buffers a row has
index 0 and a block its place within the byte. A block is written back from the
buffer that an earlier request filled: only blocks of one column are read again
first.
-/

namespace ImDsse

open Kit Kit.Loop Kit.Bits Kit.Files

variable {Key : Type}

/-! ### One row or one block of the index -/

namespace Config

variable (cfg : Config)

/-- The encrypted matrix on disk. -/
def matrixGrid : Grid where
  rows := cfg.matrixRowSize
  cols := cfg.matrixColSize
  pieceRow := cfg.matrixPieceRowSize
  pieceCol := cfg.matrixPieceColSize
  name := .matrix

/-- The state matrix on disk. -/
def stateGrid : Grid where
  rows := cfg.blockStateRowSize
  cols := cfg.numBlocks / 8
  pieceRow := cfg.blockStatePieceRowSize
  pieceCol := cfg.blockStatePieceColSize
  name := .state

variable {cfg} in
theorem matrixGrid_even (cols : cfg.matrixPieceColSize ∣ cfg.matrixColSize) :
    cfg.matrixGrid.Even where
  rows := Nat.dvd_refl _
  cols := cols
  name := by
    rintro m n m' n' ⟨⟩
    exact ⟨rfl, rfl⟩

theorem stateGrid_even : cfg.stateGrid.Even where
  rows := Nat.dvd_refl _
  cols := Nat.dvd_refl _
  name := by
    rintro m n m' n' ⟨⟩
    exact ⟨rfl, rfl⟩

/-- The bytes a block takes in a row, `ceil(ENCRYPT_BLOCK_SIZE / BYTE_SIZE)`. -/
def blockCols : Nat := (cfg.encryptBlockSize + 7) / 8

end Config

/-- The files of the two matrices are different ones. -/
theorem state_ne_matrix (cfg : Config) (m n m' n' : Nat) :
    cfg.stateGrid.name m n ≠ cfg.matrixGrid.name m' n' := by
  rintro ⟨⟩

section Transfer

variable (cfg : Config) (files : PieceFiles)

/-- `DSSE::loadEncrypted_matrix_from_files` with a dimension. -/
def loadEncryptedMatrixFromFiles (I : Matrix) : Dim → Nat → Matrix
  | .col, idx =>
    let P := cfg.matrixPieceColSize
    let n := idx * cfg.encryptBlockSize / (P * 8) * P
    let c := cfg.blockCols
    let n1 := idx * cfg.encryptBlockSize % (P * 8) / 8
    cfg.matrixGrid.loadColumns files n c n1 (P - n1 - c) I
  | .row, idx => cfg.matrixGrid.loadRow files idx I

/-- `DSSE::saveEncrypted_matrix_to_files` with a dimension. -/
def saveEncryptedMatrixToFiles (I : Matrix) : Dim → Nat → PieceFiles
  | .col, idx =>
    let P := cfg.matrixPieceColSize
    let n := idx * cfg.encryptBlockSize / (P * 8) * P
    let c := cfg.blockCols
    let n1 := idx * cfg.encryptBlockSize % (P * 8) / 8
    cfg.matrixGrid.saveColumns files n c n1 (P - n1 - c) I
  | .row, idx => cfg.matrixGrid.saveRow files idx I

/-- `DSSE::loadBlock_state_matrix_from_file` with a dimension. -/
def loadBlockStateMatrixFromFile (I : Matrix) : Dim → Nat → Matrix
  | .col, idx =>
    let P := cfg.blockStatePieceColSize
    let n := idx / 8 / P * P
    let n1 := idx % (P * 8) / 8
    cfg.stateGrid.loadColumns files n 1 n1 (P - n1 - 1) I
  | .row, idx => cfg.stateGrid.loadRow files idx I

/-- `DSSE::saveBlock_state_matrix_to_file` with a dimension. -/
def saveBlockStateMatrixToFile (I : Matrix) : Dim → Nat → PieceFiles
  | .col, idx =>
    let P := cfg.blockStatePieceColSize
    let n := idx / 8 / P * P
    let n1 := idx % (P * 8) / 8
    cfg.stateGrid.saveColumns files n 1 n1 (P - n1 - 1) I
  | .row, idx => cfg.stateGrid.saveRow files idx I

end Transfer

/-! ### The machine -/

/-- The members of `Server_DSSE` in disk mode, and the directory it works in. -/
structure DiskServer where
  files : PieceFiles
  ISearch : Matrix
  IUpdate : Matrix
  blockStateMatSearch : Matrix
  blockStateMatUpdate : Matrix
  blockCounterArr : Nat → Nat

namespace DiskServer

variable (cfg : Config) (cr : Cipher Key) (s : DiskServer)

/-- `Server_DSSE::loadData_from_file` -/
def loadDataFromFile : Dim → Nat → DiskServer
  | .row, idx =>
    { s with
      ISearch := loadEncryptedMatrixFromFiles cfg s.files s.ISearch .row idx
      blockStateMatSearch :=
        if cfg.decryptAtClientSide then s.blockStateMatSearch
        else loadBlockStateMatrixFromFile cfg s.files s.blockStateMatSearch .row idx }
  | .col, idx =>
    { s with
      IUpdate := loadEncryptedMatrixFromFiles cfg s.files s.IUpdate .col idx
      blockStateMatUpdate :=
        if cfg.decryptAtClientSide then s.blockStateMatUpdate
        else loadBlockStateMatrixFromFile cfg s.files s.blockStateMatUpdate .col idx }

/-- `Server_DSSE::saveData_to_file` -/
def saveDataToFile : Dim → Nat → DiskServer
  | .row, idx =>
    let files := saveEncryptedMatrixToFiles cfg s.files s.ISearch .row idx
    { s with
      files := if cfg.decryptAtClientSide then files
        else saveBlockStateMatrixToFile cfg files s.blockStateMatSearch .row idx }
  | .col, idx =>
    let files := saveEncryptedMatrixToFiles cfg s.files s.IUpdate .col idx
    { s with
      files := if cfg.decryptAtClientSide then files
        else saveBlockStateMatrixToFile cfg files s.blockStateMatUpdate .col idx }

/-- The index of a block within the buffers. -/
def localIndex (blockIndex : Nat) : Nat :=
  if cfg.encryptBlockSize < 8 then blockIndex % (8 / cfg.encryptBlockSize) else 0

/-- `Server_DSSE::getBlock_data` -/
def getBlockData (blockIndex : Nat) : Dim → DiskServer × List Byte
  | .row =>
    let s := s.loadDataFromFile cfg .row blockIndex
    (s, toBytes (getBlock cfg 0 .row s.ISearch zeroBuf) cfg.matrixColSize)
  | .col =>
    let s := s.loadDataFromFile cfg .col blockIndex
    let buffer := getBlock cfg (localIndex cfg blockIndex) .col s.IUpdate zeroBuf
    let buffer := if cfg.decryptAtClientSide then buffer
      else serializeStates cfg (fun row =>
        bitCheck (s.blockStateMatUpdate row 0) (blockIndex % 8)) buffer
    (s, toBytes buffer cfg.blockMessageLen)

/-- `Server_DSSE::updateBlock_data` from the buffers on. Counter and state bit are
set here, the state bit in its buffer. -/
def storeBlockData (blockIndex : Nat) (serializedBuffer : Buf) : DiskServer :=
  let s := { s with
    IUpdate := (update cfg serializedBuffer (localIndex cfg blockIndex) s.IUpdate none none).1 }
  let s := if cfg.decryptAtClientSide then s
    else { s with
      blockCounterArr := Function.update s.blockCounterArr blockIndex
        (nextCounter (s.blockCounterArr blockIndex))
      blockStateMatUpdate := forLoop cfg.matrixRowSize (fun row st =>
        onRow st row fun b => putBit b 0 (blockIndex % 8) true) s.blockStateMatUpdate }
  s.saveDataToFile cfg .col blockIndex

/-- `Server_DSSE::updateBlock_data` -/
def updateBlockData (blockIndex : Nat) (data : List Byte) : DiskServer :=
  let s := if cfg.encryptBlockSize = 1 then s.loadDataFromFile cfg .col blockIndex else s
  s.storeBlockData cfg blockIndex (ofBytes data cfg.blockBytes zeroBuf)

/-- `Server_DSSE::searchKeyword` -/
def searchKeyword (tau : SearchToken Key) : DiskServer × List Nat × List (Encryption Key) :=
  let s := s.loadDataFromFile cfg .row tau.rowIndex
  let out := search cfg cr { tau with rowIndex := 0 } s.ISearch s.blockCounterArr
    s.blockStateMatSearch
  let s := { s with ISearch := out.I, blockStateMatSearch := out.blockStateMatrix }
  (s.saveDataToFile cfg .row tau.rowIndex, out.rFileIDs, out.encryptions)

end DiskServer

/-- One turn of `Server_DSSE::start`, with the index on disk. -/
def diskServer (cfg : Config) (cr : Cipher Key) :
    Machine DiskServer (Command Key) (Response Key) where
  step s
    | .searchOperation tau =>
      if cfg.decryptAtClientSide then none
      else
        let out := s.searchKeyword cfg cr tau
        some (out.1, ⟨.found out.2.1, out.2.2⟩)
    | .requestSearchData row =>
      let out := s.getBlockData cfg row .row
      some (out.1, ⟨.data out.2, []⟩)
    | .requestBlockData b =>
      let out := s.getBlockData cfg b .col
      some (out.1, ⟨.data out.2, []⟩)
    | .updateBlockData b data => some (s.updateBlockData cfg b data, ⟨.success, []⟩)

end ImDsse
