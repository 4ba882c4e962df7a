import ImDsse.Index

/-!
The encrypted matrix of the setup
(`DSSE::createEncrypted_matrix_from_kw_file_pair`).

The matrix is built piece by piece, `MATRIX_PIECE_COL_SIZE` byte columns at a
time: the bits of the keyword-file pairs are set in a buffer with re-based
columns, and the buffer is encrypted row by row, block by block. `Encrypted` is
what the whole comes to, cell by cell; `createEncryptedMatrix_encrypted` shows
that the pieces side by side meet it.
-/

namespace ImDsse

open Kit Kit.Loop Kit.Bits

variable {Key : Type}

/-- The plaintext index of a list of keyword-file pairs: the rows of each column. -/
def plainOf (kwFilePair : Nat → List Nat) : Plain := fun r j => decide (r ∈ kwFilePair j)

/-- The bits of piece `i`, before encryption. -/
def fillPiece (cfg : Config) (kwFilePair : Nat → List Nat) (i : Nat) : Matrix :=
  forLoop cfg.matrixPieceColSize (fun col I => forLoop 8 (fun bitNumber I =>
    (kwFilePair ((cfg.matrixPieceColSize * i + col) * 8 + bitNumber)).foldl
      (fun I rowIdx => onRow I rowIdx fun b => putBit b col bitNumber true) I) I)
    fun _ => zeroBuf

/-- Encrypt piece `i`, whose first block is block
`(MATRIX_PIECE_COL_SIZE*BYTE_SIZE/ENCRYPT_BLOCK_SIZE)*i` of the matrix. -/
def encryptPiece (cfg : Config) (cr : Cipher Key) (rowCounterArr blockCounterArr : Nat → Nat)
    (i : Nat) (I : Matrix) : Matrix × List (Encryption Key) :=
  let B := cfg.encryptBlockSize
  let pieceCols := cfg.matrixPieceColSize
  let blocks := if B < 8 then iterations (pieceCols * 8) B else iterations pieceCols (B / 8)
  forLoop cfg.matrixRowSize (fun row s =>
    let rowKey := cr.genRowKey row (rowCounterArr row)
    forLoop blocks (fun n s =>
      let blockIdx := pieceCols * 8 / B * i + n
      let col := if B < 8 then n * B / 8 else n * (B / 8)
      let bitNumber := n * B % 8
      let V := cr.aes128CtrEncdec (readBlock B (s.1 row) col bitNumber) rowKey blockIdx
        (blockCounterArr blockIdx)
      (onRow s.1 row fun b => writeBlock B b col bitNumber V,
        s.2 ++ [⟨rowKey, blockIdx, blockCounterArr blockIdx⟩])) s) (I, [])

/-- One piece of `DSSE::createEncrypted_matrix_from_kw_file_pair`. A block size
of a byte or more that is not in whole bytes ends the process. -/
def createEncryptedPiece (cfg : Config) (cr : Cipher Key) (kwFilePair : Nat → List Nat)
    (rowCounterArr blockCounterArr : Nat → Nat) (i : Nat) :
    Option (Matrix × List (Encryption Key)) :=
  if 8 ≤ cfg.encryptBlockSize ∧ cfg.encryptBlockSize % 8 ≠ 0 then none
  else some (encryptPiece cfg cr rowCounterArr blockCounterArr i (fillPiece cfg kwFilePair i))

/-- Cell by cell: every row under its key, every block under its counter. -/
def Encrypted (cfg : Config) (cr : Cipher Key) (rowCounterArr blockCounterArr : Nat → Nat)
    (M : Plain) (I : Matrix) : Prop :=
  ∀ r j, r < cfg.matrixRowSize → j < cfg.maxNumOfFiles → bit (I r) j =
    (M r j ^^ cr.ks (cr.genRowKey r (rowCounterArr r)) (j / cfg.encryptBlockSize)
      (blockCounterArr (j / cfg.encryptBlockSize)) (j % cfg.encryptBlockSize))

/-- The piece widths that divide the matrix into whole blocks. -/
structure Config.Pieces (cfg : Config) : Prop where
  pos : 0 < cfg.matrixPieceColSize
  cols : cfg.matrixPieceColSize ∣ cfg.matrixColSize
  blocks : cfg.encryptBlockSize ∣ 8 * cfg.matrixPieceColSize

/-! ### One piece -/

theorem bit_setRows (l : List Nat) (I : Matrix) (col : Nat) {bitNumber : Nat}
    (hb : bitNumber < 8) (r k : Nat) :
    bit (l.foldl (fun I rowIdx => onRow I rowIdx fun b => putBit b col bitNumber true) I r) k =
      if k = 8 * col + bitNumber ∧ r ∈ l then true else bit (I r) k := by
  induction l generalizing I with
  | nil => simp
  | cons a l ih =>
    rw [List.foldl_cons, ih, onRow_apply]
    by_cases hk : k = 8 * col + bitNumber
    · by_cases hr : r = a
      · simp [hk, hr, bit_putBit _ _ _ hb]
      · simp [hk, hr]
    · simp only [hk, false_and, if_false]
      split
      · rw [bit_putBit _ _ _ hb, if_neg hk]
      · rfl

/-- A piece holds the columns from its first one on. -/
theorem bit_fillPiece (cfg : Config) (kwFilePair : Nat → List Nat) (i r k : Nat) :
    bit (fillPiece cfg kwFilePair i r) k =
      (decide (k < 8 * cfg.matrixPieceColSize) &&
        plainOf kwFilePair r (8 * cfg.matrixPieceColSize * i + k)) := by
  set P := cfg.matrixPieceColSize with hP
  -- before bit `n` of the piece the bits below `n` are set
  let Filled (n : Nat) (I : Matrix) : Prop := ∀ k,
    bit (I r) k = (decide (k < n) && plainOf kwFilePair r (8 * P * i + k))
  suffices h : Filled (8 * P) (fillPiece cfg kwFilePair i) from h k
  unfold fillPiece
  rw [← hP]
  refine forLoop_inv (P := fun col I => Filled (8 * col) I) ?_ ?_
  · intro k
    simp
  · intro col _ I hI
    have bits := forLoop_inv (n := 8) (s := I) (f := fun bitNumber I =>
      (kwFilePair ((P * i + col) * 8 + bitNumber)).foldl
        (fun I rowIdx => onRow I rowIdx fun b => putBit b col bitNumber true) I)
      (fun m I => Filled (8 * col + m) I) hI (by
        intro m hm I ih k
        rw [bit_setRows _ _ _ hm, ih k]
        have index : (P * i + col) * 8 + m = 8 * P * i + (8 * col + m) := by
          rw [Nat.add_mul, Nat.mul_comm (P * i) 8, Nat.mul_assoc 8 P i, Nat.mul_comm col 8,
            Nat.add_assoc]
        by_cases hk : k = 8 * col + m
        · subst hk
          rw [index]
          simp [plainOf]
        · rw [if_neg fun h => hk h.1]
          have same : k < 8 * col + m ↔ k < 8 * col + (m + 1) := by omega
          simp only [same])
    exact bits

section Piece

variable {cfg : Config} (hB : BlockSize cfg.encryptBlockSize) (pieces : cfg.Pieces)
  (cr : Cipher Key) (rowCtr blkCtr : Nat → Nat) (i : Nat)
include hB pieces

/-- The blocks of one row of a piece. -/
theorem pieceBlocks_eq :
    (if cfg.encryptBlockSize < 8 then
        iterations (cfg.matrixPieceColSize * 8) cfg.encryptBlockSize
      else iterations cfg.matrixPieceColSize (cfg.encryptBlockSize / 8)) =
      8 * cfg.matrixPieceColSize / cfg.encryptBlockSize := by
  obtain ⟨q, hq⟩ := pieces.blocks
  have hpos := hB.pos
  split
  · rw [Nat.mul_comm cfg.matrixPieceColSize 8, hq, Nat.mul_div_cancel_left _ hpos, Nat.mul_comm,
      iterations_mul _ hpos]
  · have bytes := hB.bytes (by omega)
    have hcols : cfg.matrixPieceColSize = q * (cfg.encryptBlockSize / 8) := by
      have h8 : 8 * cfg.matrixPieceColSize = 8 * (q * (cfg.encryptBlockSize / 8)) := by
        rw [hq, Nat.mul_left_comm, bytes, Nat.mul_comm]
      exact Nat.eq_of_mul_eq_mul_left (by decide) h8
    rw [hq, Nat.mul_div_cancel_left _ hpos, hcols, iterations_mul _ (by omega)]

/-- Every bit of an encrypted piece. -/
theorem bit_encryptPiece (I : Matrix) {r k : Nat} (hr : r < cfg.matrixRowSize)
    (hk : k < 8 * cfg.matrixPieceColSize) :
    bit ((encryptPiece cfg cr rowCtr blkCtr i I).1 r) k =
      (bit (I r) k ^^ cr.ks (cr.genRowKey r (rowCtr r))
        (cfg.matrixPieceColSize * 8 / cfg.encryptBlockSize * i + k / cfg.encryptBlockSize)
        (blkCtr (cfg.matrixPieceColSize * 8 / cfg.encryptBlockSize * i +
          k / cfg.encryptBlockSize))
        (k % cfg.encryptBlockSize)) := by
  have hle := hB.le
  set B := cfg.encryptBlockSize with hBdef
  set first := cfg.matrixPieceColSize * 8 / B * i with hfirst
  simp only [encryptPiece, ← hBdef, ← hfirst]
  rw [pieceBlocks_eq hB pieces, ← hBdef]
  -- the loop over a row writes within that row only
  let encryptBlock (row n : Nat) (b : Buf) : Buf :=
    writeBlock B b (n * B / 8) (n * B % 8) (cr.aes128CtrEncdec
      (readBlock B b (n * B / 8) (n * B % 8)) (cr.genRowKey row (rowCtr row)) (first + n)
      (blkCtr (first + n)))
  have hcol : ∀ n, (if B < 8 then n * B / 8 else n * (B / 8)) = n * B / 8 := by
    intro n
    split
    · rfl
    · rw [hB.byte_aligned (by omega), Nat.mul_div_cancel_left _ (by decide)]
  simp only [hcol]
  rw [forLoop_fst (fun row I => onRow I row
    (forLoop (8 * cfg.matrixPieceColSize / B) (encryptBlock row))) (I, []) ?rows]
  case rows =>
    intro row s
    rw [forLoop_fst (fun n I => onRow I row (encryptBlock row n)) s fun _ _ => rfl,
      forLoop_onRow]
  rw [forLoop_rows cfg.matrixRowSize fun row =>
    forLoop (8 * cfg.matrixPieceColSize / B) (encryptBlock row), if_pos hr,
    bit_tiles (fun n i old => old ^^ cr.ks (cr.genRowKey r (rowCtr r)) (first + n)
      (blkCtr (first + n)) i) ?tiles, if_pos ?inside]
  case inside => rwa [Nat.div_mul_cancel pieces.blocks]
  case tiles =>
    intro n _ b k
    rw [bit_writeBlock hB]
    by_cases hin : n * B ≤ k ∧ k < n * B + B
    · rw [if_pos hin, if_pos hin, cr.bit_aes128CtrEncdec _ _ _ _ (by omega),
        bit_readBlock hB _ _ (by omega), Nat.add_sub_cancel' hin.1]
    · rw [if_neg hin, if_neg hin]

/-- The encryptions of a piece: every row, block by block. -/
theorem encryptPiece_encryptions (I : Matrix) :
    (encryptPiece cfg cr rowCtr blkCtr i I).2 =
      (List.range cfg.matrixRowSize).flatMap fun r =>
        (List.range (8 * cfg.matrixPieceColSize / cfg.encryptBlockSize)).map fun n =>
          ⟨cr.genRowKey r (rowCtr r),
            cfg.matrixPieceColSize * 8 / cfg.encryptBlockSize * i + n,
            blkCtr (cfg.matrixPieceColSize * 8 / cfg.encryptBlockSize * i + n)⟩ := by
  simp only [encryptPiece]
  rw [pieceBlocks_eq hB pieces]
  refine forLoop_log _ _ fun row _ s => ?_
  rw [List.map_eq_flatMap]
  exact forLoop_log _ _ fun n _ s => rfl

omit hB in
/-- Block and place of a column, counted from the first block of its piece. -/
theorem piece_block (k : Nat) :
    cfg.matrixPieceColSize * 8 / cfg.encryptBlockSize * i + k / cfg.encryptBlockSize =
        (8 * cfg.matrixPieceColSize * i + k) / cfg.encryptBlockSize ∧
      k % cfg.encryptBlockSize = (8 * cfg.matrixPieceColSize * i + k) % cfg.encryptBlockSize := by
  obtain ⟨q, hq⟩ := pieces.blocks
  rcases Nat.eq_zero_or_pos cfg.encryptBlockSize with h0 | hpos
  · rw [h0, Nat.zero_mul] at hq
    have := pieces.pos
    omega
  · rw [Nat.mul_comm cfg.matrixPieceColSize 8, hq, Nat.mul_div_cancel_left _ hpos, Nat.mul_assoc,
      Nat.mul_add_div hpos, Nat.mul_add_mod]
    exact ⟨rfl, rfl⟩

end Piece

/-- A column in its piece, filled and encrypted. -/
theorem bit_createdPiece {cfg : Config} (hB : BlockSize cfg.encryptBlockSize)
    (pieces : cfg.Pieces) (cr : Cipher Key) (kwFilePair : Nat → List Nat)
    (rowCtr blkCtr : Nat → Nat) {r : Nat} (hr : r < cfg.matrixRowSize) (j : Nat) :
    bit ((encryptPiece cfg cr rowCtr blkCtr (j / 8 / cfg.matrixPieceColSize)
        (fillPiece cfg kwFilePair (j / 8 / cfg.matrixPieceColSize))).1 r)
        (8 * (j / 8 % cfg.matrixPieceColSize) + j % 8) =
      (plainOf kwFilePair r j ^^ cr.ks (cr.genRowKey r (rowCtr r)) (j / cfg.encryptBlockSize)
        (blkCtr (j / cfg.encryptBlockSize)) (j % cfg.encryptBlockSize)) := by
  set i := j / 8 / cfg.matrixPieceColSize with hi
  set k := 8 * (j / 8 % cfg.matrixPieceColSize) + j % 8 with hk
  have hmod := Nat.mod_lt (j / 8) pieces.pos
  have hkP : k < 8 * cfg.matrixPieceColSize := by omega
  have hji : 8 * cfg.matrixPieceColSize * i + k = j := by
    have hdiv := Nat.div_add_mod (j / 8) cfg.matrixPieceColSize
    rw [← hi] at hdiv
    rw [Nat.mul_assoc]
    omega
  obtain ⟨block, place⟩ := piece_block pieces i k
  rw [bit_encryptPiece hB pieces cr rowCtr blkCtr i _ hr hkP, bit_fillPiece, decide_eq_true hkP,
    Bool.true_and, block, place, hji]

/-! ### The pieces side by side -/

/-- The matrix whose byte column `x` is byte column `x % P` of piece `x / P`. -/
def sideBySide (cfg : Config) (piece : Nat → Matrix) : Matrix := fun r x =>
  if x < cfg.matrixColSize then piece (x / cfg.matrixPieceColSize) r (x % cfg.matrixPieceColSize)
  else 0

/-- The whole of `DSSE::createEncrypted_matrix_from_kw_file_pair`, its pieces side
by side instead of in their files. -/
def createEncryptedMatrix (cfg : Config) (cr : Cipher Key) (kwFilePair : Nat → List Nat)
    (rowCounterArr blockCounterArr : Nat → Nat) : Option (Matrix × List (Encryption Key)) :=
  ((List.range (cfg.matrixColSize / cfg.matrixPieceColSize)).mapM
    (createEncryptedPiece cfg cr kwFilePair rowCounterArr blockCounterArr)).map fun pieces =>
    (sideBySide cfg fun i => (pieces.getD i (fun _ => zeroBuf, [])).1, pieces.flatMap Prod.snd)

theorem bit_sideBySide {cfg : Config} (piece : Nat → Matrix) (r : Nat) {j : Nat}
    (hj : j < 8 * cfg.matrixColSize) :
    bit (sideBySide cfg piece r) j = bit (piece (j / 8 / cfg.matrixPieceColSize) r)
      (8 * (j / 8 % cfg.matrixPieceColSize) + j % 8) := by
  rw [bit_add _ _ (Nat.mod_lt j (by decide)), bit, sideBySide, if_pos (by omega)]

theorem createEncryptedPiece_eq {cfg : Config} (hB : BlockSize cfg.encryptBlockSize)
    (cr : Cipher Key) (kwFilePair : Nat → List Nat) (rowCtr blkCtr : Nat → Nat) (i : Nat) :
    createEncryptedPiece cfg cr kwFilePair rowCtr blkCtr i =
      some (encryptPiece cfg cr rowCtr blkCtr i (fillPiece cfg kwFilePair i)) := by
  unfold createEncryptedPiece
  rw [if_neg]
  rintro ⟨h8, hmod⟩
  have := hB.bytes h8
  omega

section SideBySide

variable {cfg : Config} (size : cfg.Sized) (pieces : cfg.Pieces) (cr : Cipher Key)
  (kwFilePair : Nat → List Nat) (rowCtr blkCtr : Nat → Nat)
include size

include pieces

/-- A matrix whose pieces are the encrypted pieces is the plaintext, encrypted. -/
theorem sideBySide_encrypted {piece : Nat → Matrix}
    (created : ∀ i, i < cfg.matrixColSize / cfg.matrixPieceColSize → piece i =
      (encryptPiece cfg cr rowCtr blkCtr i (fillPiece cfg kwFilePair i)).1) :
    Encrypted cfg cr rowCtr blkCtr (plainOf kwFilePair) (sideBySide cfg piece) := by
  intro r j hr hj
  have hj8 : j < 8 * cfg.matrixColSize := by rwa [size.tiled.matrixColSize_mul]
  have hin : j / 8 / cfg.matrixPieceColSize < cfg.matrixColSize / cfg.matrixPieceColSize :=
    Nat.div_lt_div_of_lt_of_dvd pieces.cols (by omega)
  rw [bit_sideBySide piece r hj8, created _ hin]
  exact bit_createdPiece size.blockSize pieces cr kwFilePair rowCtr blkCtr hr j

omit pieces in
/-- The pieces of the matrix and the encryptions made for them. -/
theorem createEncryptedMatrix_eq :
    ∃ piece : Nat → Matrix,
      (∀ i, i < cfg.matrixColSize / cfg.matrixPieceColSize → piece i =
        (encryptPiece cfg cr rowCtr blkCtr i (fillPiece cfg kwFilePair i)).1) ∧
      createEncryptedMatrix cfg cr kwFilePair rowCtr blkCtr = some (sideBySide cfg piece,
        (List.range (cfg.matrixColSize / cfg.matrixPieceColSize)).flatMap fun i =>
          (encryptPiece cfg cr rowCtr blkCtr i (fillPiece cfg kwFilePair i)).2) := by
  have all : (List.range (cfg.matrixColSize / cfg.matrixPieceColSize)).mapM
      (createEncryptedPiece cfg cr kwFilePair rowCtr blkCtr) =
      some ((List.range (cfg.matrixColSize / cfg.matrixPieceColSize)).map fun i =>
        encryptPiece cfg cr rowCtr blkCtr i (fillPiece cfg kwFilePair i)) := by
    rw [funext (createEncryptedPiece_eq size.blockSize cr kwFilePair rowCtr blkCtr)]
    exact List.mapM_pure
  rw [createEncryptedMatrix, all, Option.map_some, List.flatMap_map]
  refine ⟨_, fun i hi => ?_, rfl⟩
  simp [List.getD_eq_getElem?_getD, hi]

/-- The setup encrypts the plaintext of its keyword-file pairs. -/
theorem createEncryptedMatrix_encrypted :
    ∃ I encryptions, createEncryptedMatrix cfg cr kwFilePair rowCtr blkCtr = some (I, encryptions) ∧
      Encrypted cfg cr rowCtr blkCtr (plainOf kwFilePair) I := by
  obtain ⟨piece, created, eq⟩ := createEncryptedMatrix_eq size cr kwFilePair rowCtr blkCtr
  exact ⟨_, _, eq, sideBySide_encrypted size pieces cr kwFilePair rowCtr blkCtr created⟩

end SideBySide

end ImDsse
