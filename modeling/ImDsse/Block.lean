import ImDsse.Config

/-!
Moving blocks of the encrypted matrix (`DSSE::getBlock`, `DSSE::update`,
`DSSE::updateBlock`, and the block reads and writes that `search`, `addToken`,
`delToken` and the setup share).

A block is `ENCRYPT_BLOCK_SIZE` consecutive bits of a row. The code treats
blocks below, equal to and above a byte by separate loops; each operation gets
one lemma that says which bits it moves, the same for every permitted size.
-/

namespace ImDsse

open Kit.Loop Kit.Bits

/-- `COL` and `ROW` of `config.h`. -/
inductive Dim where
  | col
  | row
deriving DecidableEq, Repr

/-! ### One block of one row -/

/-- Fill `V` with the block that starts in byte `col`, at bit `bitNumber` of it
when blocks are narrower than a byte. Of `V[0]` only the low
`ENCRYPT_BLOCK_SIZE` bits are ever read, so it starts from zero here. -/
def readBlock (B : Nat) (src : Buf) (col bitNumber : Nat) : Buf :=
  if B < 8 then copyBits B zeroBuf 0 0 src col bitNumber
  else copyBytes (B / 8) zeroBuf 0 src col

/-- Put `V` back where `readBlock` took it from. -/
def writeBlock (B : Nat) (dst : Buf) (col bitNumber : Nat) (V : Buf) : Buf :=
  if B < 8 then copyBits B dst col bitNumber V 0 0
  else copyBytes (B / 8) dst col V 0

section OneBlock

variable {B : Nat} (hB : BlockSize B)
include hB

theorem bit_readBlock (src : Buf) (b : Nat) {k : Nat} (hk : k < B) :
    bit (readBlock B src (b * B / 8) (b * B % 8)) k = bit src (b * B + k) := by
  unfold readBlock
  by_cases hlt : B < 8
  · have within := hB.within_byte hlt b
    rw [if_pos hlt, bit_copyBits _ _ _ _ (by omega) within, if_pos (by omega), Nat.div_add_mod]
    congr 1
  · have bytes := hB.bytes (by omega)
    have aligned := hB.byte_aligned (by omega) b
    rw [if_neg hlt, bit_copyBytes, if_pos (by omega), aligned, Nat.mul_div_cancel_left _ (by decide)]
    congr 1

theorem bit_writeBlock (dst : Buf) (b : Nat) (V : Buf) (k : Nat) :
    bit (writeBlock B dst (b * B / 8) (b * B % 8) V) k =
      if b * B ≤ k ∧ k < b * B + B then bit V (k - b * B) else bit dst k := by
  unfold writeBlock
  by_cases hlt : B < 8
  · have within := hB.within_byte hlt b
    rw [if_pos hlt, bit_copyBits _ _ _ _ within (by omega), Nat.div_add_mod]
    simp only [Nat.mul_zero, Nat.zero_add]
  · have bytes := hB.bytes (by omega)
    have aligned := hB.byte_aligned (by omega) b
    rw [if_neg hlt, bit_copyBytes, bytes]
    simp only [aligned, Nat.mul_div_cancel_left _ (show 0 < 8 by decide), Nat.mul_zero,
      Nat.zero_add]

end OneBlock

/-! ### One block of every row -/

/-- `DSSE::getBlock`. A column block is packed row after row at the running
position `I_prime_idx`, by bytes or by bits. -/
def getBlock (cfg : Config) (index : Nat) (dim : Dim) (I : Matrix) (IPrime : Buf) : Buf :=
  let B := cfg.encryptBlockSize
  match dim with
  | .row => copyBytes cfg.matrixColSize IPrime 0 (I index) 0
  | .col =>
    if 8 ≤ B then
      let first := index * (B / 8)
      (forLoop cfg.matrixRowSize (fun row s => forLoop (B / 8) (fun ii s =>
        (putByte s.1 s.2 (I row (first + ii)), s.2 + 1)) s) (IPrime, 0)).1
    else
      let col := index * B / 8
      let first := index * B % 8
      (forLoop cfg.matrixRowSize (fun row s => forLoop B (fun ii s =>
        (putBitAt s.1 s.2 (bitCheck (I row col) (first + ii)), s.2 + 1)) s) (IPrime, 0)).1

/-- The matrix part of `DSSE::update`, again at a running position of `I_prime`.
A block of exactly one byte takes the bit branch here and the byte branch in
`getBlock`. -/
def updateMatrix (cfg : Config) (IPrime : Buf) (blockIdx : Nat) (I : Matrix) : Matrix :=
  let B := cfg.encryptBlockSize
  if 1 < B then
    if 8 < B then
      let first := blockIdx * B / 8
      (forLoop cfg.matrixRowSize (fun row s => forLoop (B / 8) (fun ii s =>
        (onRow s.1 row fun b => putByte b (first + ii) (IPrime s.2), s.2 + 1)) s) (I, 0)).1
    else
      let col := blockIdx * B / 8
      let bitPosition := blockIdx * B % 8
      (forLoop cfg.matrixRowSize (fun row s => forLoop B (fun ii s =>
        (onRow s.1 row fun b => putBit b col (bitPosition + ii) (bit IPrime s.2), s.2 + 1)) s)
        (I, 0)).1
  else
    let col := blockIdx / 8
    let bitPosition := blockIdx % 8
    forLoop cfg.matrixRowSize (fun row I =>
      onRow I row fun b => putBit b col bitPosition (bit IPrime row)) I

/-- The state part of `DSSE::update`: set the bit of the block in every row. -/
def setStates (cfg : Config) (blockIdx : Nat) (blockStateMatrix : Matrix) : Matrix :=
  forLoop cfg.matrixRowSize (fun row st =>
    onRow st row fun b => putBit b (blockIdx / 8) (blockIdx % 8) true) blockStateMatrix

/-- `DSSE::update`. The counter and the state bits are touched only when the
block is decrypted at the server, and only through pointers that are not `NULL`. -/
def update (cfg : Config) (IPrime : Buf) (blockIdx : Nat) (I : Matrix)
    (blockCounterArr : Option (Nat → Nat)) (blockStateMatrix : Option Matrix) :
    Matrix × Option (Nat → Nat) × Option Matrix :=
  let I' := updateMatrix cfg IPrime blockIdx I
  if cfg.decryptAtClientSide then (I', blockCounterArr, blockStateMatrix)
  else
    (I', blockCounterArr.map fun ctr => Function.update ctr blockIdx (nextCounter (ctr blockIdx)),
      blockStateMatrix.map (setStates cfg blockIdx))

/-- `DSSE::updateBlock`: replace one column of a decrypted block by `updatingBlock`. -/
def updateBlock (cfg : Config) (updatingBlock inputBlock : Buf) (updateIdx : Nat) : Buf :=
  let B := cfg.encryptBlockSize
  if 1 < B then
    forLoop (iterations (cfg.matrixRowSize * B) B) (fun iBarIdx b =>
      let idx := iBarIdx * B
      let row := idx / B
      let v := bit updatingBlock iBarIdx
      if B < 8 then putBit b (idx / 8) (idx % 8 + updateIdx % B) v
      else putBit b (row * (B / 8) + updateIdx % B / 8) (updateIdx % 8) v) inputBlock
  else copyBytes (cfg.matrixRowSize / 8) inputBlock 0 updatingBlock 0

section Specs

variable {cfg : Config} (hB : BlockSize cfg.encryptBlockSize)
include hB

/-- Bit `row * B + i` of a fetched block is bit `i` of the block in row `row`. -/
theorem bit_getBlock_col (I : Matrix) (b : Nat) (IPrime : Buf) (k : Nat) :
    bit (getBlock cfg b .col I IPrime) k =
      if k < cfg.matrixRowSize * cfg.encryptBlockSize
      then bit (I (k / cfg.encryptBlockSize))
        (b * cfg.encryptBlockSize + k % cfg.encryptBlockSize)
      else bit IPrime k := by
  set B := cfg.encryptBlockSize with hBdef
  simp only [getBlock, ← hBdef]
  by_cases h8 : 8 ≤ B
  · rw [if_pos h8, forLoop_counter₂ _ _ fun row ii pos b => putByte b pos (I row _)]
    refine bit_tiles (fun r i _ => bit (I r) (b * B + i)) ?_ IPrime k
    intro r _ t k
    have tile := bit_copyBytes (B / 8) t (r * (B / 8)) (I r) (b * (B / 8)) k
    rwa [← hB.byte_aligned h8, ← hB.byte_aligned h8, hB.bytes h8] at tile
  · have within := hB.within_byte (Nat.lt_of_not_le h8) b
    rw [if_neg h8, forLoop_counter₂ _ _ fun row ii pos b => putBitAt b pos (bitCheck (I row _) _)]
    refine bit_tiles (fun r i _ => bit (I r) (b * B + i)) ?_ IPrime k
    intro r _ t k
    rw [← bit_copyRun B t (r * B) (I r) (b * B) k, copyRun]
    congr 1
    refine forLoop_congr t fun ii hii t => ?_
    rw [← bit_add (I r) _ (by omega), ← Nat.add_assoc, Nat.div_add_mod]

omit hB in
theorem bit_getBlock_row (I : Matrix) (r : Nat) (IPrime : Buf) (k : Nat) :
    bit (getBlock cfg r .row I IPrime) k =
      if k < 8 * cfg.matrixColSize then bit (I r) k else bit IPrime k := by
  simp only [getBlock]
  rw [bit_copyBytes]
  simp

/-- `update` replaces the block in every row and no other bit. -/
theorem bit_updateMatrix (IPrime : Buf) (b : Nat) (I : Matrix) (r j : Nat) :
    bit (updateMatrix cfg IPrime b I r) j =
      if r < cfg.matrixRowSize ∧ b * cfg.encryptBlockSize ≤ j ∧
          j < b * cfg.encryptBlockSize + cfg.encryptBlockSize
      then bit IPrime (r * cfg.encryptBlockSize + (j - b * cfg.encryptBlockSize))
      else bit (I r) j := by
  set B := cfg.encryptBlockSize with hBdef
  have rows : ∀ f : Nat → Buf → Buf,
      (∀ r t, bit (f r t) j = if b * B ≤ j ∧ j < b * B + B
        then bit IPrime (r * B + (j - b * B)) else bit t j) →
      bit (forLoop cfg.matrixRowSize (fun r I => onRow I r (f r)) I r) j =
        if r < cfg.matrixRowSize ∧ b * B ≤ j ∧ j < b * B + B
        then bit IPrime (r * B + (j - b * B)) else bit (I r) j := by
    intro f hf
    rw [forLoop_rows]
    by_cases hr : r < cfg.matrixRowSize
    · rw [if_pos hr, hf]; simp [hr]
    · rw [if_neg hr, if_neg (by omega)]
  simp only [updateMatrix, ← hBdef]
  by_cases h1 : 1 < B
  · rw [if_pos h1]
    by_cases h8 : 8 < B
    · rw [if_pos h8,
        forLoop_counter₂ _ _ fun row ii pos I => onRow I row fun t => putByte t _ (IPrime pos)]
      simp only [forLoop_onRow]
      refine rows (fun r => forLoop (B / 8) fun ii t =>
        putByte t (b * B / 8 + ii) (IPrime (r * (B / 8) + ii))) fun r t => ?_
      have tile := bit_copyBytes (B / 8) t (b * (B / 8)) IPrime (r * (B / 8)) j
      have aligned := hB.byte_aligned (Nat.le_of_lt h8) b
      have start : b * B / 8 = b * (B / 8) := by
        rw [aligned, Nat.mul_div_cancel_left _ (by decide)]
      simp only [← hB.byte_aligned (Nat.le_of_lt h8), hB.bytes (Nat.le_of_lt h8)] at tile
      rw [start]
      exact tile
    · rw [if_neg h8,
        forLoop_counter₂ _ _ fun row ii pos I => onRow I row fun t => putBit t _ _ (bit IPrime pos)]
      simp only [forLoop_onRow]
      refine rows (fun r => forLoop B fun ii t =>
        putBit t (b * B / 8) (b * B % 8 + ii) (bit IPrime (r * B + ii))) fun r t => ?_
      rw [← bit_copyRun B t (b * B) IPrime (r * B) j, copyRun]
      congr 1
      refine forLoop_congr t fun ii hii t => ?_
      have within : b * B % 8 + B ≤ 8 := by
        by_cases h : B < 8
        · exact hB.within_byte h b
        · rw [show B = 8 by omega]
          omega
      rw [putBit_eq_putBitAt _ _ _ (by omega), ← Nat.add_assoc, Nat.div_add_mod]
  · have hone : B = 1 := by have := hB.pos; omega
    rw [if_neg h1]
    refine rows (fun r t => putBit t (b / 8) (b % 8) (bit IPrime r)) fun r t => ?_
    rw [bit_putBit _ _ _ (Nat.mod_lt b (by decide)), Nat.div_add_mod, hone]
    by_cases hj : j = b
    · subst hj; simp
    · rw [if_neg hj, if_neg (by omega)]

omit hB in
/-- `update` sets the state bit of its block in every row and no other. -/
theorem bit_setStates (b : Nat) (st : Matrix) (r b' : Nat) :
    bit (setStates cfg b st r) b' =
      if r < cfg.matrixRowSize ∧ b' = b then true else bit (st r) b' := by
  unfold setStates
  rw [forLoop_rows cfg.matrixRowSize fun _ t => putBit t (b / 8) (b % 8) true]
  by_cases hr : r < cfg.matrixRowSize
  · rw [if_pos hr, bit_putBit _ _ _ (Nat.mod_lt b (by decide)), Nat.div_add_mod]
    simp [hr]
  · simp [hr]

/-- `updateBlock` replaces bit `updateIdx % B` of every row of the block. -/
theorem bit_updateBlock (updatingBlock inputBlock : Buf) (f : Nat) {k : Nat}
    (h8 : 8 ∣ cfg.matrixRowSize) (hk : k < cfg.matrixRowSize * cfg.encryptBlockSize) :
    bit (updateBlock cfg updatingBlock inputBlock f) k =
      if k % cfg.encryptBlockSize = f % cfg.encryptBlockSize
      then bit updatingBlock (k / cfg.encryptBlockSize) else bit inputBlock k := by
  set B := cfg.encryptBlockSize with hBdef
  have hpos := hB.pos
  simp only [updateBlock, ← hBdef]
  by_cases h1 : 1 < B
  · rw [if_pos h1, iterations_mul _ hpos]
    have hfB : f % B < B := Nat.mod_lt f hpos
    have body : ∀ r t, (if B < 8
        then putBit t (r * B / 8) (r * B % 8 + f % B) (bit updatingBlock r)
        else putBit t (r * B / B * (B / 8) + f % B / 8) (f % 8) (bit updatingBlock r)) =
        putBitAt t (r * B + f % B) (bit updatingBlock r) := by
      intro r t
      by_cases h : B < 8
      · have within := hB.within_byte h r
        rw [if_pos h, putBit_eq_putBitAt _ _ _ (by omega), ← Nat.add_assoc, Nat.div_add_mod]
      · have aligned := hB.byte_aligned (Nat.le_of_not_lt h) r
        have bytes := hB.bytes (Nat.le_of_not_lt h)
        have hmod : f % 8 = f % B % 8 :=
          (Nat.mod_mod_of_dvd f ⟨B / 8, bytes.symm⟩).symm
        rw [if_neg h, Nat.mul_div_cancel _ hpos, hmod,
          putBit_eq_putBitAt _ _ _ (Nat.mod_lt _ (by decide)), aligned]
        congr 1
        omega
    simp only [body]
    rw [bit_tiles (fun r i old => if i = f % B then bit updatingBlock r else old) ?_, if_pos hk]
    intro r _ t k
    rw [bit_putBitAt]
    by_cases hin : r * B ≤ k ∧ k < r * B + B
    · rw [if_pos hin]
      by_cases hkf : k = r * B + f % B
      · rw [if_pos hkf, if_pos (by omega)]
      · rw [if_neg hkf, if_neg (by omega)]
    · rw [if_neg hin, if_neg (by omega)]
  · have hone : B = 1 := by omega
    rw [if_neg h1, bit_copyBytes]
    obtain ⟨q, hq⟩ := h8
    rw [hone] at hk ⊢
    rw [if_pos (by omega), if_pos (by omega)]
    simp

/-- A bit of a row is a bit of the update exactly in the columns of its block. -/
theorem bit_updateMatrix_of_notMem (IPrime : Buf) (b : Nat) (I : Matrix) {r j : Nat}
    (outside : r < cfg.matrixRowSize → j < b * cfg.encryptBlockSize ∨
      b * cfg.encryptBlockSize + cfg.encryptBlockSize ≤ j) :
    bit (updateMatrix cfg IPrime b I r) j = bit (I r) j := by
  rw [bit_updateMatrix hB, if_neg]
  rintro ⟨hr, lo, hi⟩
  rcases outside hr with below | above
  · exact absurd lo (Nat.not_le.mpr below)
  · exact absurd hi (Nat.not_lt.mpr above)

/-- A block that was written is read back. -/
theorem bit_getBlock_updateMatrix (x : Buf) (b : Nat) (I : Matrix) (IPrime : Buf) {k : Nat}
    (hk : k < cfg.matrixRowSize * cfg.encryptBlockSize) :
    bit (getBlock cfg b .col (updateMatrix cfg x b I) IPrime) k = bit x k := by
  have place := Nat.mod_lt k hB.pos
  have row : k / cfg.encryptBlockSize < cfg.matrixRowSize :=
    Nat.div_lt_of_lt_mul (by rwa [Nat.mul_comm] at hk)
  rw [bit_getBlock_col hB, if_pos hk, bit_updateMatrix hB, if_pos (by omega),
    Nat.add_sub_cancel_left, Nat.div_add_mod']

/-- A block that was read can be written back. -/
theorem updateMatrix_getBlock (b : Nat) (I : Matrix) (IPrime : Buf) :
    updateMatrix cfg (getBlock cfg b .col I IPrime) b I = I := by
  funext r i
  refine byte_eq_of_bit fun p _ => ?_
  rw [bit_updateMatrix hB]
  split
  · next inside =>
    obtain ⟨hr, lo, hi⟩ := inside
    have place : 8 * i + p - b * cfg.encryptBlockSize < cfg.encryptBlockSize := by omega
    rw [bit_getBlock_col hB, if_pos (tile_lt hr place), tile_div place, tile_mod place,
      Nat.add_sub_cancel' lo]
  · rfl

end Specs

/-- `getBlock` and `update` are inverse to each other and move nothing but the block: a
block written is read back, a block read can be written back, other columns stay, and
where the server decrypts the state of the block is set in every row and its counter is
counted, and nothing else of either is touched. -/
theorem getBlock_update {cfg : Config} (hB : BlockSize cfg.encryptBlockSize) (b : Nat) (I : Matrix)
    (x IPrime : Buf) (ctr : Nat → Nat) (st : Matrix) :
    (∀ k, k < cfg.matrixRowSize * cfg.encryptBlockSize →
      bit (getBlock cfg b .col (update cfg x b I (some ctr) (some st)).1 IPrime) k = bit x k) ∧
    (update cfg (getBlock cfg b .col I IPrime) b I (some ctr) (some st)).1 = I ∧
    (∀ r j, j < b * cfg.encryptBlockSize ∨ b * cfg.encryptBlockSize + cfg.encryptBlockSize ≤ j →
      bit ((update cfg x b I (some ctr) (some st)).1 r) j = bit (I r) j) ∧
    (cfg.decryptAtClientSide = false → ∃ ctr' st',
      (update cfg x b I (some ctr) (some st)).2 = (some ctr', some st') ∧
      ctr' b = nextCounter (ctr b) ∧ (∀ b', b' ≠ b → ctr' b' = ctr b') ∧
      (∀ r, r < cfg.matrixRowSize → bit (st' r) b = true) ∧
      ∀ r b', b' ≠ b → bit (st' r) b' = bit (st r) b') := by
  have matrix : ∀ data, (update cfg data b I (some ctr) (some st)).1 = updateMatrix cfg data b I := by
    intro data
    unfold update
    split <;> rfl
  refine ⟨fun k hk => ?_, ?_, fun r j outside => ?_, fun server => ?_⟩
  · rw [matrix]
    exact bit_getBlock_updateMatrix hB x b I IPrime hk
  · rw [matrix]
    exact updateMatrix_getBlock hB b I IPrime
  · rw [matrix]
    exact bit_updateMatrix_of_notMem hB x b I fun _ => outside
  · refine ⟨Function.update ctr b (nextCounter (ctr b)), setStates cfg b st, ?_, ?_, ?_, ?_, ?_⟩
    · simp only [update, server, Bool.false_eq_true, if_false, Option.map_some]
    · exact Function.update_self ..
    · exact fun b' other => Function.update_of_ne other ..
    · intro r hr
      rw [bit_setStates, if_pos ⟨hr, rfl⟩]
    · intro r b' other
      rw [bit_setStates, if_neg fun same => other same.2]

/-- Every third bit of a row is set. -/
def stripes : Matrix := fun r => packBuf fun j => (j + r) % 3 == 0

/-- Blocks of one byte: the third of four is read and written back, then replaced. -/
theorem getBlock_update_byte :
    (update (wideConfig 8 false) (getBlock (wideConfig 8 false) 2 .col stripes zeroBuf) 2 stripes
      (some fun _ => 1) (some fun _ => zeroBuf)).1 = stripes ∧
    bit (getBlock (wideConfig 8 false) 2 .col stripes zeroBuf) 9 = true ∧
    ∀ k, k < 64 → bit (getBlock (wideConfig 8 false) 2 .col
      (update (wideConfig 8 false) (packBuf (· % 2 == 0)) 2 stripes (some fun _ => 1)
        (some fun _ => zeroBuf)).1 zeroBuf) k = (k % 2 == 0) := by
  obtain ⟨replaced, restored, -⟩ :=
    getBlock_update (show BlockSize (wideConfig 8 false).encryptBlockSize by decide) 2 stripes
      (packBuf (· % 2 == 0)) zeroBuf (fun _ => 1) fun _ => zeroBuf
  refine ⟨restored, by decide +kernel, fun k hk => ?_⟩
  rw [replaced k hk, bit_packBuf]

end ImDsse
