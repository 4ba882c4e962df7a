import ImDsse.Kit.Arrays
import ImDsse.Tables
import ImDsse.Token
import ImDsse.Server

/-!
Every index in its array, with the index in memory.

The functions that move blocks are written here a second time over arrays that have
the sizes they are allocated with; they fail where they index outside of one. In
`Tiled` and `Sized` configurations they are the functions of the model. The last
section says for which of the configurations that `config.h` allows this is so.
-/

namespace ImDsse

open Kit Kit.Loop Kit.Bits Kit.Arrays

variable {Key : Type}

/-- `MATRIX_ROW_SIZE*ENCRYPT_BLOCK_SIZE/BYTE_SIZE`, as it is computed. -/
def Config.allocatedBytes (cfg : Config) : Option Nat :=
  (product cfg.matrixRowSize cfg.encryptBlockSize).map (· / 8)

namespace Checked

/-! ### One block of one row -/

/-- Fill `V` with a block of an array of `size` bytes. -/
def readBlock (B size : Nat) (src : Buf) (col bitNumber : Nat) : Option Buf :=
  if B < 8 then copyBitsIn B blockCipherSize zeroBuf 0 0 size src col bitNumber
  else copyBytesIn (B / 8) blockCipherSize zeroBuf 0 size src col

/-- Put `V` back. -/
def writeBlock (B size : Nat) (dst : Buf) (col bitNumber : Nat) (V : Buf) : Option Buf :=
  if B < 8 then copyBitsIn B size dst col bitNumber blockCipherSize V 0 0
  else copyBytesIn (B / 8) size dst col blockCipherSize V 0

/-- The bytes of a block that starts in byte `col` are bytes of the array. -/
def BlockInside (B size col : Nat) : Prop := if B < 8 then col < size else col + B / 8 ≤ size

section OneBlock

variable {B size col : Nat} (hB : BlockSize B) (inside : BlockInside B size col)
include hB inside

theorem readBlock_eq (src : Buf) (bitNumber : Nat) :
    readBlock B size src col bitNumber = some (ImDsse.readBlock B src col bitNumber) := by
  have le := hB.le
  unfold readBlock ImDsse.readBlock
  unfold BlockInside at inside
  split
  · next small =>
    rw [if_pos small] at inside
    exact copyBitsIn_eq (show 0 < 16 by decide) inside ..
  · next large =>
    rw [if_neg large] at inside
    exact copyBytesIn_eq (show 0 + B / 8 ≤ 16 by omega) inside ..

theorem writeBlock_eq (dst : Buf) (bitNumber : Nat) (V : Buf) :
    writeBlock B size dst col bitNumber V = some (ImDsse.writeBlock B dst col bitNumber V) := by
  have le := hB.le
  unfold writeBlock ImDsse.writeBlock
  unfold BlockInside at inside
  split
  · next small =>
    rw [if_pos small] at inside
    exact copyBitsIn_eq inside (show 0 < 16 by decide) ..
  · next large =>
    rw [if_neg large] at inside
    exact copyBytesIn_eq inside (show 0 + B / 8 ≤ 16 by omega) ..

end OneBlock

/-! ### Searching -/

/-- `jj` in `DSSE::search`: an `int`, counted up from what `col` is in one. -/
def intIndex (col ii : Nat) : Option Nat :=
  let jj := Int.bmod col (2 ^ 32) + ii
  if 0 ≤ jj ∧ jj < 2 ^ 31 then some jj.toNat else none

/-- `readBlock` in `DSSE::search`, from a row of `size` bytes. -/
def readRowBlock (B size : Nat) (src : Buf) (col bitNumber : Nat) : Option Buf :=
  if B < 8 then readBlock B size src col bitNumber
  else checkedLoop (B / 8) (fun ii V => do
    let jj ← intIndex col ii
    let x ← load size src jj
    store blockCipherSize V ii x) zeroBuf

/-- `writeBlock` in `DSSE::search`, to a row of `size` bytes. -/
def writeRowBlock (B size : Nat) (dst : Buf) (col bitNumber : Nat) (V : Buf) : Option Buf :=
  if B < 8 then writeBlock B size dst col bitNumber V
  else checkedLoop (B / 8) (fun ii b => do
    let jj ← intIndex col ii
    let x ← load blockCipherSize V ii
    store size b jj x) dst

theorem bmod_of_lt {col : Nat} (h : col < 2 ^ 31) : Int.bmod col (2 ^ 32) = col := by
  apply Int.bmod_eq_of_le <;> omega

theorem intIndex_eq {col ii : Nat} (fits : col + ii < 2 ^ 31) : intIndex col ii = some (col + ii) := by
  have inside : 0 ≤ (col : Int) + ii ∧ (col : Int) + ii < 2 ^ 31 := by omega
  have same : ((col : Int) + ii).toNat = col + ii := by omega
  unfold intIndex
  rw [bmod_of_lt (Nat.lt_of_le_of_lt (Nat.le_add_right _ _) fits)]
  dsimp only
  rw [if_pos inside, same]

/-- The first index that an `int` does not have, wherever it was counted from. -/
theorem intIndex_none {col ii : Nat} (past : col + ii = 2 ^ 31) : intIndex col ii = none := by
  unfold intIndex
  rcases Nat.eq_zero_or_pos ii with rfl | later
  · rw [Nat.add_zero] at past
    rw [past]
    exact if_neg (by decide)
  · have outside : ¬ (0 ≤ (col : Int) + ii ∧ (col : Int) + ii < 2 ^ 31) := by omega
    rw [bmod_of_lt (by omega)]
    exact if_neg outside

section RowBlock

variable {B size col : Nat} (ints : 8 ≤ B → col + B / 8 ≤ 2 ^ 31)
include ints

theorem readRowBlock_eq (src : Buf) (bitNumber : Nat) :
    readRowBlock B size src col bitNumber = readBlock B size src col bitNumber := by
  unfold readRowBlock readBlock
  split
  · rfl
  · next large =>
    refine checkedLoop_congr (fun ii hii V => ?_) _
    have fits := ints (Nat.le_of_not_lt large)
    rw [intIndex_eq (by omega), Option.bind_eq_bind, Option.bind_some, Nat.zero_add]
    rfl

theorem writeRowBlock_eq (dst : Buf) (bitNumber : Nat) (V : Buf) :
    writeRowBlock B size dst col bitNumber V = writeBlock B size dst col bitNumber V := by
  unfold writeRowBlock writeBlock
  split
  · rfl
  · next large =>
    refine checkedLoop_congr (fun ii hii b => ?_) _
    have fits := ints (Nat.le_of_not_lt large)
    rw [intIndex_eq (by omega), Option.bind_eq_bind, Option.bind_some, Nat.zero_add]
    rfl

end RowBlock

/-- The condition under which `DSSE::search` decrypts with the token's newest key. -/
def underNewKey (cfg : Config) (tau : SearchToken Key) (blockStateMatrix : Matrix)
    (blockIdx : Nat) : Option Bool :=
  if tau.hasRowKey then do
    let states ← load cfg.matrixRowSize blockStateMatrix tau.rowIndex
    let x ← load (cfg.numBlocks / 8) states (blockIdx / 8)
    some (bitCheck x (blockIdx % 8))
  else some true

/-- Append the columns whose bits are set in `U`. -/
def pushFileIDs (B : Nat) (U : Buf) (index : Nat) (rFileIDs : List Nat) : Option (List Nat) :=
  if B < 8 then
    checkedLoop B (fun ii ids => (load blockCipherSize U 0).map fun x =>
      if bitCheck x ii then ids ++ [index + ii] else ids) rFileIDs
  else scanBytesIn (B / 8) blockCipherSize U index rFileIDs

/-- Put the block back that was re-encrypted. -/
def putBlock (cfg : Config) (row index : Nat) (V : Buf) (I : Matrix) : Option Matrix :=
  storeRow cfg.matrixRowSize I row fun b =>
    writeRowBlock cfg.encryptBlockSize cfg.matrixColSize b (index / 8) (index % 8) V

/-- The loop body of `DSSE::search`. -/
def searchBlock (cfg : Config) (cr : Cipher Key) (tau : SearchToken Key)
    (blockCounterArr : Nat → Nat) (blockIdx : Nat) (s : SearchState Key) :
    Option (SearchState Key) := do
  let B := cfg.encryptBlockSize
  let row := tau.rowIndex
  let index := blockIdx * B
  let cells ← load cfg.matrixRowSize s.I row
  let V ← readRowBlock B cfg.matrixColSize cells (index / 8) (index % 8)
  let counter ← load cfg.numBlocks blockCounterArr blockIdx
  let newKey ← underNewKey cfg tau s.blockStateMatrix blockIdx
  let U := cr.aes128CtrEncdec V (if newKey then tau.rowKey else tau.rowOldKey) blockIdx counter
  let rFileIDs ← pushFileIDs B U index s.rFileIDs
  let blockStateMatrix ← storeRow cfg.matrixRowSize s.blockStateMatrix row fun b =>
    storeBit (cfg.numBlocks / 8) b (blockIdx / 8) (blockIdx % 8) false
  if newKey then some ⟨rFileIDs, s.I, blockStateMatrix, s.encryptions⟩
  else do
    let V := cr.aes128CtrEncdec U tau.rowKey blockIdx counter
    let I ← putBlock cfg row index V s.I
    some ⟨rFileIDs, I, blockStateMatrix, s.encryptions ++ [⟨tau.rowKey, blockIdx, counter⟩]⟩

/-- `DSSE::search` -/
def search (cfg : Config) (cr : Cipher Key) (tau : SearchToken Key) (I : Matrix)
    (blockCounterArr : Nat → Nat) (blockStateMatrix : Matrix) : Option (SearchState Key) :=
  checkedLoop (iterations cfg.maxNumOfFiles cfg.encryptBlockSize)
    (searchBlock cfg cr tau blockCounterArr) ⟨[], I, blockStateMatrix, []⟩

section Search

variable {cfg : Config} (size : cfg.Tiled)
include size

/-- The blocks of the matrix lie in its rows. -/
theorem blockInside_row {b : Nat} (hb : b < cfg.numBlocks) :
    BlockInside cfg.encryptBlockSize cfg.matrixColSize (b * cfg.encryptBlockSize / 8) := by
  have last := size.col_lt hb (Nat.sub_lt size.pos Nat.one_pos)
  have cols := size.matrixColSize_mul
  have pos := size.pos
  unfold BlockInside
  split
  · omega
  · next large =>
    have aligned := size.blockSize.byte_aligned (Nat.le_of_not_lt large) b
    have bytes := size.blockSize.bytes (Nat.le_of_not_lt large)
    omega

theorem pushFileIDs_eq (U : Buf) (index : Nat) (ids : List Nat) :
    pushFileIDs cfg.encryptBlockSize U index ids = some
      (if cfg.encryptBlockSize < 8 then
        forLoop cfg.encryptBlockSize (fun ii ids =>
          if bitCheck (U 0) ii then ids ++ [index + ii] else ids) ids
      else scanBytes (cfg.encryptBlockSize / 8) U index ids) := by
  have le := size.blockSize.le
  unfold pushFileIDs
  split
  · exact checkedLoop_eq
      (fun _ _ _ => by rw [load_eq (show 0 < blockCipherSize by decide), Option.map_some]) ids
  · exact scanBytesIn_eq (show cfg.encryptBlockSize / 8 ≤ 16 by omega) ..

omit size in
theorem underNewKey_eq {tau : SearchToken Key} (row : tau.rowIndex < cfg.matrixRowSize) {b : Nat}
    (state : b / 8 < cfg.numBlocks / 8) (st : Matrix) :
    underNewKey cfg tau st b = some (ImDsse.underNewKey tau st b) := by
  unfold underNewKey ImDsse.underNewKey
  cases tau.hasRowKey with
  | false => rfl
  | true =>
    simp only [if_true, load_eq row, load_eq state, Option.bind_eq_bind, Option.bind_some,
      Bool.not_true, Bool.false_or, bit]

/-- Where the last byte of a row has an `int` index, so has every block of it. -/
theorem intsInside (ints : cfg.encryptBlockSize < 8 ∨ cfg.matrixColSize ≤ 2 ^ 31) {b : Nat}
    (hb : b < cfg.numBlocks) (large : 8 ≤ cfg.encryptBlockSize) :
    b * cfg.encryptBlockSize / 8 + cfg.encryptBlockSize / 8 ≤ 2 ^ 31 := by
  have block := blockInside_row size hb
  unfold BlockInside at block
  rw [if_neg (Nat.not_lt.mpr large)] at block
  omega

/-- Searches stay in their arrays where the state bits of a row are whole bytes and its
bytes have an `int` index. -/
theorem search_eq (states : 8 ∣ cfg.numBlocks)
    (ints : cfg.encryptBlockSize < 8 ∨ cfg.matrixColSize ≤ 2 ^ 31) (cr : Cipher Key) {tau : SearchToken Key}
    (row : tau.rowIndex < cfg.matrixRowSize) (I : Matrix) (ctr : Nat → Nat) (st : Matrix) :
    search cfg cr tau I ctr st = some (ImDsse.search cfg cr tau I ctr st) := by
  unfold search ImDsse.search
  refine checkedLoop_eq (fun b hb s => ?_) _
  rw [iterations_of_dvd size.blocks] at hb
  have block := blockInside_row size hb
  have state : b / 8 < cfg.numBlocks / 8 := by
    have hb : b < cfg.numBlocks := hb
    omega
  have state' := storeRow_eq row fun b' => storeBit_eq state b' (b % 8) false
  have counter : load cfg.numBlocks ctr b = some (ctr b) := load_eq hb ctr
  have inInts := intsInside size ints hb
  have back := fun V => storeRow_eq row fun b' => (writeRowBlock_eq inInts b' _ V).trans
    (writeBlock_eq size.blockSize block b' (b * cfg.encryptBlockSize % 8) V)
  simp only [searchBlock, ImDsse.searchBlock, ImDsse.decryptBlock, load_eq row, counter,
    readRowBlock_eq inInts, readBlock_eq size.blockSize block, underNewKey_eq row state,
    pushFileIDs_eq size, state', putBlock, back, Option.bind_eq_bind, Option.bind_some]
  by_cases newKey : ImDsse.underNewKey tau s.blockStateMatrix b = true
  · simp only [newKey, if_true, Bool.not_true, Bool.false_eq_true, if_false]
  · simp only [newKey, Bool.false_eq_true, if_false, Bool.not_false, if_true]

/-- A search reads each block it goes over, and sets its state bit. -/
theorem search_inside {cr : Cipher Key} {tau : SearchToken Key} {I st : Matrix} {ctr : Nat → Nat}
    {out : SearchState Key} (h : search cfg cr tau I ctr st = some out) {b : Nat}
    (hb : b < cfg.numBlocks) : b / 8 < cfg.numBlocks / 8 ∧ ∃ cells V,
      readRowBlock cfg.encryptBlockSize cfg.matrixColSize cells (b * cfg.encryptBlockSize / 8)
        (b * cfg.encryptBlockSize % 8) = some V := by
  have run : b < iterations cfg.maxNumOfFiles cfg.encryptBlockSize := by
    rw [iterations_of_dvd size.blocks]
    exact hb
  obtain ⟨t, t', body⟩ := checkedLoop_inside h run
  simp only [searchBlock, Option.bind_eq_bind, Option.bind_eq_some_iff] at body
  obtain ⟨cells, -, V, read, counter, -, newKey, -, ids, -, states, marked, -⟩ := body
  obtain ⟨_, stored⟩ := storeRow_inside marked
  exact ⟨storeBit_inside stored, cells, V, read⟩

/-- A search that stays in a row has an `int` index for each of its bytes. -/
theorem search_ints {cr : Cipher Key} {tau : SearchToken Key} {I st : Matrix} {ctr : Nat → Nat}
    {out : SearchState Key} (h : search cfg cr tau I ctr st = some out) :
    cfg.encryptBlockSize < 8 ∨ cfg.matrixColSize ≤ 2 ^ 31 := by
  by_contra both
  obtain ⟨large, wide⟩ := not_or.mp both
  have large := Nat.le_of_not_lt large
  have width := size.matrixColSize_mul
  have bytes := size.blockSize.bytes large
  -- the block with the first byte that an `int` does not have
  set b := 2 ^ 31 / (cfg.encryptBlockSize / 8)
  have place : b * (cfg.encryptBlockSize / 8) + 2 ^ 31 % (cfg.encryptBlockSize / 8) = 2 ^ 31 :=
    Nat.div_add_mod' _ _
  have inBlock := Nat.mod_lt (2 ^ 31) (show 0 < cfg.encryptBlockSize / 8 by omega)
  have col := size.blockSize.byte_aligned large b
  have hb : b < cfg.numBlocks := by
    refine Nat.lt_of_mul_lt_mul_right (a := cfg.encryptBlockSize) ?_
    rw [size.numBlocks_mul]
    omega
  obtain ⟨-, cells, V, read⟩ := search_inside size h hb
  unfold readRowBlock at read
  rw [if_neg (Nat.not_lt.mpr large)] at read
  obtain ⟨t, t', body⟩ := checkedLoop_inside read inBlock
  rw [intIndex_none (by omega)] at body
  cases body

end Search

/-! ### Fetching a block -/

/-- `DSSE::getBlock`, into a buffer of `size` bytes. -/
def getBlock (cfg : Config) (size index : Nat) (dim : Dim) (I : Matrix) (IPrime : Buf) :
    Option Buf :=
  let B := cfg.encryptBlockSize
  match dim with
  | .row => (load cfg.matrixRowSize I index).bind fun cells =>
      copyBytesIn cfg.matrixColSize size IPrime 0 cfg.matrixColSize cells 0
  | .col =>
    if 8 ≤ B then
      let first := index * (B / 8)
      (checkedLoop cfg.matrixRowSize (fun row s => checkedLoop (B / 8) (fun ii s => do
        let cells ← load cfg.matrixRowSize I row
        let x ← load cfg.matrixColSize cells (first + ii)
        let IPrime ← store size s.1 s.2 x
        some (IPrime, s.2 + 1)) s) (IPrime, 0)).map Prod.fst
    else
      let col := index * B / 8
      let first := index * B % 8
      (checkedLoop cfg.matrixRowSize (fun row s => checkedLoop B (fun ii s => do
        let cells ← load cfg.matrixRowSize I row
        let x ← load cfg.matrixColSize cells col
        let IPrime ← storeBit size s.1 (s.2 / 8) (s.2 % 8) (bitCheck x (first + ii))
        some (IPrime, s.2 + 1)) s) (IPrime, 0)).map Prod.fst

/-- Append the state bits of a block behind its data, in a buffer of `size` bytes. -/
def serializeStates (cfg : Config) (size blockIndex : Nat) (blockStateMat : Matrix) (buffer : Buf) :
    Option Buf :=
  checkedLoop cfg.matrixRowSize (fun row b => do
    let states ← load cfg.matrixRowSize blockStateMat row
    let x ← load (cfg.numBlocks / 8) states (blockIndex / 8)
    let ii := cfg.matrixRowSize * cfg.encryptBlockSize + row
    storeBit size b (ii / 8) (ii % 8) (bitCheck x (blockIndex % 8))) buffer

/-! ### Replacing a block -/

/-- The matrix part of `DSSE::update`, from a buffer of `size` bytes. -/
def updateMatrix (cfg : Config) (size : Nat) (IPrime : Buf) (blockIdx : Nat) (I : Matrix) :
    Option Matrix :=
  let B := cfg.encryptBlockSize
  if 1 < B then
    if 8 < B then
      let first := blockIdx * B / 8
      (checkedLoop cfg.matrixRowSize (fun row s => checkedLoop (B / 8) (fun ii s => do
        let x ← load size IPrime s.2
        let I ← storeRow cfg.matrixRowSize s.1 row fun b =>
          store cfg.matrixColSize b (first + ii) x
        some (I, s.2 + 1)) s) (I, 0)).map Prod.fst
    else
      let col := blockIdx * B / 8
      let bitPosition := blockIdx * B % 8
      (checkedLoop cfg.matrixRowSize (fun row s => checkedLoop B (fun ii s => do
        let x ← load size IPrime (s.2 / 8)
        let I ← storeRow cfg.matrixRowSize s.1 row fun b =>
          storeBit cfg.matrixColSize b col (bitPosition + ii) (bitCheck x (s.2 % 8))
        some (I, s.2 + 1)) s) (I, 0)).map Prod.fst
  else
    let col := blockIdx / 8
    let bitPosition := blockIdx % 8
    checkedLoop cfg.matrixRowSize (fun row I => do
      let x ← load size IPrime (row / 8)
      storeRow cfg.matrixRowSize I row fun b =>
        storeBit cfg.matrixColSize b col bitPosition (bitCheck x (row % 8))) I

/-- The state part of `DSSE::update`. -/
def setStates (cfg : Config) (blockIdx : Nat) (blockStateMatrix : Matrix) : Option Matrix :=
  checkedLoop cfg.matrixRowSize (fun row st => storeRow cfg.matrixRowSize st row fun b =>
    storeBit (cfg.numBlocks / 8) b (blockIdx / 8) (blockIdx % 8) true) blockStateMatrix

/-- `DSSE::update` on the members of the server. -/
def update (cfg : Config) (size : Nat) (IPrime : Buf) (blockIdx : Nat) (I : Matrix)
    (blockCounterArr : Nat → Nat) (blockStateMatrix : Matrix) :
    Option (Matrix × Option (Nat → Nat) × Option Matrix) := do
  let I ← updateMatrix cfg size IPrime blockIdx I
  if cfg.decryptAtClientSide then some (I, some blockCounterArr, some blockStateMatrix)
  else do
    let counter ← load cfg.numBlocks blockCounterArr blockIdx
    let states ← setStates cfg blockIdx blockStateMatrix
    some (I, some (Function.update blockCounterArr blockIdx (nextCounter counter)), some states)

section Blocks

variable {cfg : Config} (size : cfg.Tiled) {len b : Nat}
  (whole : cfg.matrixRowSize * cfg.encryptBlockSize ≤ 8 * len) (hb : b < cfg.numBlocks)
include size

/-- The bytes of a block in transit. -/
theorem byte_lt (large : 8 ≤ cfg.encryptBlockSize)
    (whole : cfg.matrixRowSize * cfg.encryptBlockSize ≤ 8 * len) {row ii : Nat}
    (hrow : row < cfg.matrixRowSize) (hii : ii < cfg.encryptBlockSize / 8) :
    row * (cfg.encryptBlockSize / 8) + ii < len := by
  have lt := tile_lt hrow hii
  have aligned := size.blockSize.byte_aligned large cfg.matrixRowSize
  omega

omit size in
/-- And its bits. -/
theorem bit_lt (whole : cfg.matrixRowSize * cfg.encryptBlockSize ≤ 8 * len) {row ii : Nat}
    (hrow : row < cfg.matrixRowSize) (hii : ii < cfg.encryptBlockSize) :
    (row * cfg.encryptBlockSize + ii) / 8 < len := by
  have lt := tile_lt hrow hii
  omega

include whole hb

theorem getBlock_col_eq (I : Matrix) (IPrime : Buf) :
    getBlock cfg len b .col I IPrime = some (ImDsse.getBlock cfg b .col I IPrime) := by
  have block := blockInside_row size hb
  unfold BlockInside at block
  simp only [getBlock, ImDsse.getBlock]
  split
  · next large =>
    have aligned := size.blockSize.byte_aligned large b
    rw [if_neg (Nat.not_lt.mpr large)] at block
    rw [checkedLoop_counter₂ (f := fun row ii pos t =>
      putByte t pos (I row (b * (cfg.encryptBlockSize / 8) + ii))) ?_ IPrime]
    · rfl
    · intro row hrow ii hii t
      have cell : b * (cfg.encryptBlockSize / 8) + ii < cfg.matrixColSize := by omega
      rw [load_eq hrow, Option.bind_eq_bind, Option.bind_some, load_eq cell]
      rw [Option.bind_eq_bind, Option.bind_some, store_eq (byte_lt size large whole hrow hii)]
      rfl
  · next small =>
    rw [if_pos (Nat.lt_of_not_le small)] at block
    rw [checkedLoop_counter₂ (f := fun row ii pos t => putBitAt t pos
      (bitCheck (I row (b * cfg.encryptBlockSize / 8)) (b * cfg.encryptBlockSize % 8 + ii))) ?_ IPrime]
    · rfl
    · intro row hrow ii hii t
      rw [load_eq hrow, Option.bind_eq_bind, Option.bind_some, load_eq block]
      rw [Option.bind_eq_bind, Option.bind_some, storeBit_eq (bit_lt whole hrow hii)]
      rfl

theorem updateMatrix_eq (IPrime : Buf) (I : Matrix) :
    updateMatrix cfg len IPrime b I = some (ImDsse.updateMatrix cfg IPrime b I) := by
  have block := blockInside_row size hb
  unfold BlockInside at block
  simp only [updateMatrix, ImDsse.updateMatrix]
  split
  · split
    · next large =>
      rw [if_neg (by omega)] at block
      rw [checkedLoop_counter₂ (f := fun row ii pos t => onRow t row fun b' =>
        putByte b' (b * cfg.encryptBlockSize / 8 + ii) (IPrime pos)) ?_ I]
      · rfl
      · intro row hrow ii hii t
        have cell : b * cfg.encryptBlockSize / 8 + ii < cfg.matrixColSize := by omega
        rw [load_eq (byte_lt size (Nat.le_of_lt large) whole hrow hii), Option.bind_eq_bind,
          Option.bind_some, storeRow_eq hrow fun b' => store_eq cell b' _]
        rfl
    · next small =>
      have cell : b * cfg.encryptBlockSize / 8 < cfg.matrixColSize := by
        split at block
        · exact block
        · omega
      rw [checkedLoop_counter₂ (f := fun row ii pos t => onRow t row fun b' =>
        putBit b' (b * cfg.encryptBlockSize / 8) (b * cfg.encryptBlockSize % 8 + ii)
          (bit IPrime pos)) ?_ I]
      · rfl
      · intro row hrow ii hii t
        rw [load_eq (bit_lt whole hrow hii), Option.bind_eq_bind, Option.bind_some,
          storeRow_eq hrow fun b' => storeBit_eq cell b' _ _]
        rfl
  · have one : cfg.encryptBlockSize = 1 := by
      have pos := size.pos
      omega
    rw [one, if_pos (by decide), Nat.mul_one] at block
    rw [one, Nat.mul_one] at whole
    refine checkedLoop_eq (fun row hrow t => ?_) I
    rw [load_eq (show row / 8 < len by omega), Option.bind_eq_bind, Option.bind_some,
      storeRow_eq hrow fun b' => storeBit_eq block b' _ _]
    rfl

omit size whole in
theorem setStates_eq (states : 8 ∣ cfg.numBlocks) (st : Matrix) :
    setStates cfg b st = some (ImDsse.setStates cfg b st) := by
  have state : b / 8 < cfg.numBlocks / 8 := by omega
  exact checkedLoop_eq (fun _ hrow t => storeRow_eq hrow (fun b' => storeBit_eq state b' _ _) t) st

theorem update_eq (states : cfg.decryptAtClientSide = false → 8 ∣ cfg.numBlocks) (IPrime : Buf)
    (I : Matrix) (ctr : Nat → Nat) (st : Matrix) :
    update cfg len IPrime b I ctr st = some (ImDsse.update cfg IPrime b I (some ctr) (some st)) := by
  simp only [update, ImDsse.update, updateMatrix_eq size whole hb, Option.bind_eq_bind,
    Option.bind_some]
  split
  · rfl
  · next server =>
    rw [load_eq hb, Option.bind_some, setStates_eq hb (states (Bool.not_eq_true _ ▸ server))]
    rfl

omit size whole in
theorem serializeStates_eq (states : 8 ∣ cfg.numBlocks)
    (behind : cfg.matrixRowSize * cfg.encryptBlockSize + cfg.matrixRowSize ≤ 8 * len)
    (st : Matrix) (buffer : Buf) :
    serializeStates cfg len b st buffer =
      some (ImDsse.serializeStates cfg (fun row => bitCheck (st row (b / 8)) (b % 8)) buffer) := by
  have state : b / 8 < cfg.numBlocks / 8 := by omega
  refine checkedLoop_eq (fun row hrow t => ?_) buffer
  rw [load_eq hrow, Option.bind_eq_bind, Option.bind_some, load_eq state, Option.bind_eq_bind,
    Option.bind_some]
  exact storeBit_eq (by omega) t _ _

omit size whole hb in
theorem getBlock_row_eq {row : Nat} (hrow : row < cfg.matrixRowSize) (I : Matrix) (IPrime : Buf) :
    getBlock cfg cfg.matrixColSize row .row I IPrime =
      some (ImDsse.getBlock cfg row .row I IPrime) := by
  simp only [getBlock, load_eq hrow, Option.bind_some]
  exact copyBytesIn_eq (Nat.zero_add _).le (Nat.zero_add _).le IPrime (I row)

end Blocks

/-! ### The server -/

/-- `Server_DSSE::getBlock_data` -/
def getBlockData (cfg : Config) (s : RamServer) (index : Nat) : Dim → Option (List Byte)
  | .row => (getBlock cfg cfg.matrixColSize index .row s.I zeroBuf).map fun buffer =>
      toBytes buffer cfg.matrixColSize
  | .col => do
    let bytes ← cfg.allocatedBytes
    if cfg.decryptAtClientSide then do
      let buffer ← getBlock cfg bytes index .col s.I zeroBuf
      some (toBytes buffer bytes)
    else do
      let len := bytes + cfg.matrixRowSize / 8
      let buffer ← getBlock cfg len index .col s.I zeroBuf
      let buffer ← serializeStates cfg len index s.blockStateMat buffer
      some (toBytes buffer len)

/-- `Server_DSSE::updateBlock_data` -/
def updateBlockData (cfg : Config) (s : RamServer) (blockIndex : Nat) (data : List Byte) :
    Option RamServer := do
  let bytes ← cfg.allocatedBytes
  let serializedBuffer := ofBytes data bytes zeroBuf
  let (I, ctr, st) ← update cfg bytes serializedBuffer blockIndex s.I s.blockCounterArr
    s.blockStateMat
  some ⟨I, st.getD s.blockStateMat, ctr.getD s.blockCounterArr⟩

/-- One turn of `Server_DSSE::start`. -/
def ramServer (cfg : Config) (cr : Cipher Key) (s : RamServer) :
    Command Key → Option (RamServer × Response Key)
  | .searchOperation tau =>
    if cfg.decryptAtClientSide then none
    else (search cfg cr tau s.I s.blockCounterArr s.blockStateMat).map fun out =>
      ({ s with I := out.I, blockStateMat := out.blockStateMatrix },
        ⟨.found out.rFileIDs, out.encryptions⟩)
  | .requestSearchData row => (getBlockData cfg s row .row).map fun data => (s, ⟨.data data, []⟩)
  | .requestBlockData b => (getBlockData cfg s b .col).map fun data => (s, ⟨.data data, []⟩)
  | .updateBlockData b data => (updateBlockData cfg s b data).map fun s => (s, ⟨.success, []⟩)

section Server

variable {cfg : Config} (size : cfg.Sized) (bytes : cfg.allocatedBytes = some cfg.blockBytes)
  (states : cfg.decryptAtClientSide = false → 8 ∣ cfg.numBlocks)
  (ints : cfg.decryptAtClientSide = false →
    cfg.encryptBlockSize < 8 ∨ cfg.matrixColSize ≤ 2 ^ 31)
include size bytes states ints

/-- With sizes that fit, the server never leaves its arrays. -/
theorem ramServer_eq (cr : Cipher Key) (s : RamServer) {c : Command Key} (valid : c.Valid cfg) :
    ramServer cfg cr s c = (ImDsse.ramServer cfg cr).step s c := by
  have blockBytes := size.blockBytes_mul
  have rowBytes := size.rowBytes_mul
  cases c with
  | searchOperation tau =>
    simp only [ramServer, ImDsse.ramServer]
    split
    · rfl
    · next server =>
      rw [search_eq size.tiled (states (Bool.not_eq_true _ ▸ server))
        (ints (Bool.not_eq_true _ ▸ server)) cr valid]
      rfl
  | requestSearchData row =>
    simp only [ramServer, getBlockData, getBlock_row_eq valid]
    rfl
  | requestBlockData b =>
    simp only [ramServer, ImDsse.ramServer, getBlockData, RamServer.getBlockData, bytes,
      Option.bind_eq_bind, Option.bind_some, Config.blockMessageLen]
    split
    · rw [getBlock_col_eq size.tiled blockBytes.ge valid]
      rfl
    · next server =>
      have behind : cfg.matrixRowSize * cfg.encryptBlockSize + cfg.matrixRowSize ≤
          8 * (cfg.blockBytes + cfg.matrixRowSize / 8) := by omega
      rw [getBlock_col_eq size.tiled (Nat.le_trans (Nat.le_add_right _ _) behind) valid,
        Option.bind_some,
        serializeStates_eq valid (states (Bool.not_eq_true _ ▸ server)) behind]
      rfl
  | updateBlockData b data =>
    simp only [ramServer, updateBlockData, bytes, Option.bind_eq_bind, Option.bind_some]
    rw [update_eq size.tiled blockBytes.ge valid states]
    rfl

end Server

end Checked

end ImDsse
