import ImDsse.KeyGen

/-!
Re-encryption of a fetched block by the client (`DSSE::addToken` and
`DSSE::delToken` from the column index on, and their overloads with precomputed
keys).

The server-decrypting variants decrypt and re-encrypt row by row and choose the
key of each row from its keyword counter and the state bit the server sent. The
client-decrypting variants prepare two key buffers (`precomputeAESCTRKeys`) and
add them to the whole block. Both come to the same thing, `recodedBit`: the bit
of the updated column is replaced, every other bit is decrypted, and the result
is under the new keystream.
-/

namespace ImDsse

open Kit.Loop Kit.Bits

variable {Key : Type}

/-- Bit `k` of a block whose column `fileIndex` has become `newCol`, which was
under the keystream `dec` and is now under `re`. -/
def recodedBit (B fileIndex : Nat) (newCol old dec re : Nat → Bool) (k : Nat) : Bool :=
  (if k % B = fileIndex % B then newCol (k / B) else old k ^^ dec k) ^^ re k

/-! ### Row by row -/

/-- The row has been searched and the block not been updated since, so that
the server's copy is under the key before the current one. -/
def stale (keywordCounterArr : Nat → Nat) (blockStateArr : Nat → Bool) (row : Nat) : Bool :=
  decide (1 < keywordCounterArr row) && !blockStateArr row

/-- The keyword counter of the key a fetched row is under. -/
def fetchedCounter (keywordCounterArr : Nat → Nat) (blockStateArr : Nat → Bool)
    (row : Nat) : Nat :=
  if stale keywordCounterArr blockStateArr row then keywordCounterArr row - 1
  else keywordCounterArr row

/-- One row of the block: decrypt, replace the bit of the updated column by `v`,
encrypt under the current row key and the next block counter. -/
def tokenRow (cfg : Config) (cr : Cipher Key) (keywordCounterArr blockCounterArr : Nat → Nat)
    (blockStateArr : Nat → Bool) (fileIndex row : Nat) (v : Bool) (IPrime : Buf) :
    Buf × Encryption Key :=
  let B := cfg.encryptBlockSize
  let blockIndex := fileIndex / B
  let next := nextCounter (blockCounterArr blockIndex)
  let idx := row * B
  let col := if B < 8 then idx / 8 else row * (B / 8)
  let decryptKey := cr.genRowKey row (fetchedCounter keywordCounterArr blockStateArr row)
  let V := cr.aes128CtrEncdec (readBlock B IPrime col (idx % 8)) decryptKey blockIndex
    (blockCounterArr blockIndex)
  let V := if B < 8 then putBit V 0 (fileIndex % B) v
    else putBit V (fileIndex % B / 8) (fileIndex % 8) v
  -- the key is derived again only when the one used to decrypt was the old one
  let rowKey := if stale keywordCounterArr blockStateArr row
    then cr.genRowKey row (keywordCounterArr row) else decryptKey
  (writeBlock B IPrime col (idx % 8) (cr.aes128CtrEncdec V rowKey blockIndex next),
    ⟨rowKey, blockIndex, next⟩)

/-- The part of `addToken` and `delToken` after the column index is known.
`newBit IBar row` is the test that decides the new bit of a row. A block of one
column is not decrypted: the column is encrypted in `I_bar` and copied over. -/
def tokenBlock (cfg : Config) (cr : Cipher Key) (keywordCounterArr blockCounterArr : Nat → Nat)
    (blockStateArr : Nat → Bool) (fileIndex : Nat) (newBit : Buf → Nat → Bool)
    (IBar IPrime : Buf) : Buf × List (Encryption Key) :=
  let B := cfg.encryptBlockSize
  if 1 < B then
    forLoop (iterations (cfg.matrixRowSize * B) B) (fun row s =>
      let out := tokenRow cfg cr keywordCounterArr blockCounterArr blockStateArr fileIndex row
        (newBit IBar row) s.1
      (out.1, s.2 ++ [out.2])) (IPrime, [])
  else
    let blockIndex := fileIndex / B
    let next := nextCounter (blockCounterArr blockIndex)
    let filled := forLoop cfg.matrixRowSize (fun row s =>
      let rowKey := cr.genRowKey row (keywordCounterArr row)
      let V := cr.aes128CtrEncdec (putBit zeroBuf 0 0 (newBit s.1 row)) rowKey blockIndex next
      (putBit s.1 (row / 8) (row % 8) (bitCheck (V 0) 0), s.2 ++ [⟨rowKey, blockIndex, next⟩]))
      (IBar, [])
    (copyBytes (cfg.matrixRowSize / 8) IPrime 0 filled.1 0, filled.2)

/-- `DSSE::addToken` from the column index on: the new column is `I_bar`. -/
def addTokenBlock (cfg : Config) (cr : Cipher Key) (keywordCounterArr blockCounterArr : Nat → Nat)
    (blockStateArr : Nat → Bool) (fileIndex : Nat) (IBar IPrime : Buf) :
    Buf × List (Encryption Key) :=
  tokenBlock cfg cr keywordCounterArr blockCounterArr blockStateArr fileIndex bit IBar IPrime

/-- `DSSE::delToken` from the column index on: the new column is zero. -/
def delTokenBlock (cfg : Config) (cr : Cipher Key) (keywordCounterArr blockCounterArr : Nat → Nat)
    (blockStateArr : Nat → Bool) (fileIndex : Nat) (IPrime : Buf) :
    Buf × List (Encryption Key) :=
  tokenBlock cfg cr keywordCounterArr blockCounterArr blockStateArr fileIndex
    (fun _ _ => false) zeroBuf IPrime

theorem rowKey_eq (cr : Cipher Key) (kc : Nat → Nat) (st : Nat → Bool) (row : Nat) :
    (if stale kc st row then cr.genRowKey row (kc row)
      else cr.genRowKey row (fetchedCounter kc st row)) = cr.genRowKey row (kc row) := by
  unfold fetchedCounter
  cases stale kc st row <;> rfl

section Rows

variable {cfg : Config} (hB : BlockSize cfg.encryptBlockSize) (cr : Cipher Key)
  (kc bc : Nat → Nat) (st : Nat → Bool) (f : Nat)
include hB

/-- One row replaces the bits of its tile and no other. -/
theorem bit_tokenRow (row : Nat) (v : Bool) (IPrime : Buf) (k : Nat) :
    bit (tokenRow cfg cr kc bc st f row v IPrime).1 k =
      if row * cfg.encryptBlockSize ≤ k ∧
          k < row * cfg.encryptBlockSize + cfg.encryptBlockSize
      then (if k - row * cfg.encryptBlockSize = f % cfg.encryptBlockSize then v
          else bit IPrime k ^^ cr.ks (cr.genRowKey row (fetchedCounter kc st row))
            (f / cfg.encryptBlockSize) (bc (f / cfg.encryptBlockSize))
            (k - row * cfg.encryptBlockSize)) ^^
        cr.ks (cr.genRowKey row (kc row)) (f / cfg.encryptBlockSize)
          (nextCounter (bc (f / cfg.encryptBlockSize))) (k - row * cfg.encryptBlockSize)
      else bit IPrime k := by
  have hle := hB.le
  set B := cfg.encryptBlockSize with hBdef
  have hfB : f % B < B := Nat.mod_lt f hB.pos
  -- both branches address bit `row * B` of the block and bit `f % B` of its tile
  have hcol : (if B < 8 then row * B / 8 else row * (B / 8)) = row * B / 8 := by
    split
    · rfl
    · rw [hB.byte_aligned (by omega), Nat.mul_div_cancel_left _ (by decide)]
  have hput : ∀ V : Buf, (if B < 8 then putBit V 0 (f % B) v
      else putBit V (f % B / 8) (f % 8) v) = putBitAt V (f % B) v := by
    intro V
    split
    · rw [putBit_eq_putBitAt _ _ _ (by omega), Nat.mul_zero, Nat.zero_add]
    · have bytes := hB.bytes (by omega)
      have hmod : f % 8 = f % B % 8 := (Nat.mod_mod_of_dvd f ⟨B / 8, bytes.symm⟩).symm
      rw [hmod]
      rfl
  simp only [tokenRow, ← hBdef, hcol, hput, rowKey_eq]
  rw [bit_writeBlock hB]
  by_cases hin : row * B ≤ k ∧ k < row * B + B
  · rw [if_pos hin, if_pos hin, cr.bit_aes128CtrEncdec _ _ _ _ (by omega), bit_putBitAt]
    congr 1
    split
    · rfl
    · rw [cr.bit_aes128CtrEncdec _ _ _ _ (by omega), bit_readBlock hB _ _ (by omega),
        Nat.add_sub_cancel' hin.1]
  · rw [if_neg hin, if_neg hin]

variable {newBit : Buf → Nat → Bool} {newCol : Nat → Bool} {IBar : Buf}
  (reads : ∀ b row, bit b row = bit IBar row → newBit b row = newCol row)
include reads

/-- The block that goes back to the server. -/
theorem bit_tokenBlock (h8 : 8 ∣ cfg.matrixRowSize) (IPrime : Buf) {k : Nat}
    (hk : k < cfg.matrixRowSize * cfg.encryptBlockSize) :
    bit (tokenBlock cfg cr kc bc st f newBit IBar IPrime).1 k =
      recodedBit cfg.encryptBlockSize f newCol (bit IPrime)
        (fun k => cr.ks (cr.genRowKey (k / cfg.encryptBlockSize)
          (fetchedCounter kc st (k / cfg.encryptBlockSize))) (f / cfg.encryptBlockSize)
          (bc (f / cfg.encryptBlockSize)) (k % cfg.encryptBlockSize))
        (fun k => cr.ks (cr.genRowKey (k / cfg.encryptBlockSize) (kc (k / cfg.encryptBlockSize)))
          (f / cfg.encryptBlockSize) (nextCounter (bc (f / cfg.encryptBlockSize)))
          (k % cfg.encryptBlockSize)) k := by
  set B := cfg.encryptBlockSize with hBdef
  simp only [tokenBlock, ← hBdef]
  by_cases h1 : 1 < B
  · rw [if_pos h1, iterations_mul _ hB.pos, forLoop_fst (fun row b =>
      (tokenRow cfg cr kc bc st f row (newBit IBar row) b).1) (IPrime, []) ?first,
      bit_tiles (B := B) (fun row i old =>
      (if i = f % B then newCol row else old ^^
        cr.ks (cr.genRowKey row (fetchedCounter kc st row)) (f / B) (bc (f / B)) i) ^^
        cr.ks (cr.genRowKey row (kc row)) (f / B) (nextCounter (bc (f / B))) i) ?filled, if_pos hk]
    case first => exact fun _ _ => rfl
    case filled =>
      intro row _ b k
      rw [bit_tokenRow hB, reads IBar row rfl]
    rfl
  · have hone : B = 1 := by have := hB.pos; omega
    obtain ⟨q, hq⟩ := h8
    have hkR : k < cfg.matrixRowSize := by rwa [hone, Nat.mul_one] at hk
    rw [if_neg h1, bit_copyBytes, if_pos (by omega)]
    simp only [Nat.mul_zero, Nat.sub_zero, Nat.zero_add]
    -- before iteration `m` the rows below `m` are encrypted, the others still plain
    have rows := forLoop_inv (n := cfg.matrixRowSize) (s := (IBar, ([] : List (Encryption Key))))
      (f := fun row s =>
        (putBit s.1 (row / 8) (row % 8) (bitCheck ((cr.aes128CtrEncdec
          (putBit zeroBuf 0 0 (newBit s.1 row)) (cr.genRowKey row (kc row)) (f / B)
          (nextCounter (bc (f / B)))) 0) 0),
          s.2 ++ [⟨cr.genRowKey row (kc row), f / B, nextCounter (bc (f / B))⟩]))
      (fun m s => ∀ k, bit s.1 k = if k < m then newCol k ^^
        cr.ks (cr.genRowKey k (kc k)) (f / B) (nextCounter (bc (f / B))) 0 else bit IBar k)
      (fun k => by rw [if_neg (by omega)]) (by
        intro m _ s ih k
        have current := reads s.1 m (by rw [ih m, if_neg (by omega)])
        show bit (putBitAt s.1 m _) k = _
        rw [bit_putBitAt, ih k]
        by_cases hkm : k = m
        · subst hkm
          rw [if_pos rfl, if_pos (by omega), ← bit_add _ 0 (by decide),
            cr.bit_aes128CtrEncdec _ _ _ _ (by decide), bit_putBit _ _ _ (by decide),
            if_pos (by decide), current]
        · rw [if_neg hkm]
          by_cases hlt : k < m
          · rw [if_pos hlt, if_pos (by omega)]
          · rw [if_neg hlt, if_neg (by omega)])
    rw [rows k, if_pos hkR, recodedBit, hone]
    simp only [Nat.mod_one, Nat.div_one, if_pos]

omit hB reads in
/-- The encryptions a token makes: one for each row, under its current key. -/
theorem tokenBlock_encryptions (hpos : 0 < cfg.encryptBlockSize) (IPrime : Buf) :
    (tokenBlock cfg cr kc bc st f newBit IBar IPrime).2 =
      (List.range cfg.matrixRowSize).map fun row => ⟨cr.genRowKey row (kc row),
        f / cfg.encryptBlockSize, nextCounter (bc (f / cfg.encryptBlockSize))⟩ := by
  simp only [tokenBlock]
  rw [List.map_eq_flatMap]
  split
  · rw [iterations_mul _ hpos]
    exact forLoop_log _ _ fun row _ s => by simp only [tokenRow, rowKey_eq]
  · exact forLoop_log _ _ fun row _ s => rfl

end Rows

/-! ### With precomputed keys -/

/-- The part of the overloads of `addToken` and `delToken` with precomputed
keys after the column index is known. -/
def tokenBlockPre (cfg : Config) (fileIndex : Nat) (IBar IPrime decryptKeyArr reencryptKeyArr : Buf) :
    Buf :=
  let B := cfg.encryptBlockSize
  if 1 < B then
    let len := cfg.matrixRowSize * B / 8
    let decryptedBlock := encDecPreAESKey zeroBuf IPrime decryptKeyArr len
    encDecPreAESKey IPrime (updateBlock cfg IBar decryptedBlock fileIndex) reencryptKeyArr len
  else encDecPreAESKey IPrime IBar reencryptKeyArr (cfg.matrixRowSize / 8)

/-- The overload of `DSSE::addToken` from the column index on. -/
def addTokenBlockPre (cfg : Config) (fileIndex : Nat)
    (IBar IPrime decryptKeyArr reencryptKeyArr : Buf) : Buf :=
  tokenBlockPre cfg fileIndex IBar IPrime decryptKeyArr reencryptKeyArr

/-- The overload of `DSSE::delToken` from the column index on. -/
def delTokenBlockPre (cfg : Config) (fileIndex : Nat)
    (IPrime decryptKeyArr reencryptKeyArr : Buf) : Buf :=
  tokenBlockPre cfg fileIndex zeroBuf IPrime decryptKeyArr reencryptKeyArr

/-- The block that goes back to the server. -/
theorem bit_tokenBlockPre {cfg : Config} (hB : BlockSize cfg.encryptBlockSize)
    (h8 : 8 ∣ cfg.matrixRowSize) (f : Nat) (IBar IPrime dec re : Buf) {k : Nat}
    (hk : k < cfg.matrixRowSize * cfg.encryptBlockSize) :
    bit (tokenBlockPre cfg f IBar IPrime dec re) k =
      recodedBit cfg.encryptBlockSize f (bit IBar) (bit IPrime) (bit dec) (bit re) k := by
  have whole : 8 * (cfg.matrixRowSize * cfg.encryptBlockSize / 8) =
      cfg.matrixRowSize * cfg.encryptBlockSize :=
    Nat.mul_div_cancel' (Nat.dvd_mul_right_of_dvd h8 _)
  simp only [tokenBlockPre, recodedBit]
  by_cases h1 : 1 < cfg.encryptBlockSize
  · rw [if_pos h1, bit_encDecPreAESKey, whole, if_pos hk, bit_updateBlock hB _ _ _ h8 hk,
      bit_encDecPreAESKey, whole, if_pos hk]
  · have hone : cfg.encryptBlockSize = 1 := by have := hB.pos; omega
    rw [hone, Nat.mul_one] at hk
    rw [if_neg h1, bit_encDecPreAESKey, Nat.mul_div_cancel' h8, if_pos hk, hone]
    simp only [Nat.mod_one, Nat.div_one, if_pos]

end ImDsse
