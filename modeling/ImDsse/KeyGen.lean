import ImDsse.Block

/-!
Keystreams prepared ahead of the data (`DSSE_KeyGen`).

A client that decrypts for itself keeps one row key for each row and lays out
the keystream of a whole column block, or of a whole row, in a buffer of the
same shape as the data. `bit_precomputeAESCTRKeys_col` and
`bit_precomputeAESCTRKeys_row` give the cell of the index each key bit is for.
-/

namespace ImDsse

open Kit.Loop Kit.Bits

variable {Key : Type}

/-- `DSSE_KeyGen::pregenerateRow_keys` -/
def pregenerateRowKeys (cfg : Config) (cr : Cipher Key) (rowCounterArr : Nat → Nat) : Nat → Key :=
  forLoop cfg.matrixRowSize (fun row output =>
    Function.update output row (cr.genRowKey row (rowCounterArr row))) fun _ => cr.zeroKey

/-- `DSSE_KeyGen::enc_dec_preAESKey` -/
def encDecPreAESKey (output input preKey : Buf) (len : Nat) : Buf :=
  forLoop len (fun idx out => putByte out idx (input idx ^^^ preKey idx)) output

/-- `DSSE_KeyGen::precomputeAES_CTR_keys`, with the list of the keystream blocks
it computes. -/
def precomputeAESCTRKeys (cfg : Config) (cr : Cipher Key) (key : Buf) (idx : Nat) (dim : Dim)
    (isIncremental : Bool) (colCounterArr : Nat → Nat) (pregenRowKeys : Nat → Key) :
    Buf × List (Encryption Key) :=
  let B := cfg.encryptBlockSize
  match dim with
  | .col =>
    let ct := if isIncremental then nextCounter (colCounterArr idx) else colCounterArr idx
    forLoop cfg.matrixRowSize (fun row s =>
      let V := cr.aes128CtrEncdec zeroBuf (pregenRowKeys row) idx ct
      (writeBlock B s.1 (row * B / 8) (row * B % 8) V, s.2 ++ [⟨pregenRowKeys row, idx, ct⟩]))
      (key, [])
  | .row =>
    forLoop cfg.numBlocks (fun blockIndex s =>
      let V := cr.aes128CtrEncdec zeroBuf (pregenRowKeys idx) blockIndex (colCounterArr blockIndex)
      (writeBlock B s.1 (blockIndex * B / 8) (blockIndex * B % 8) V,
        s.2 ++ [⟨pregenRowKeys idx, blockIndex, colCounterArr blockIndex⟩])) (key, [])

theorem pregenerateRowKeys_apply (cfg : Config) (cr : Cipher Key) (kc : Nat → Nat) {row : Nat}
    (h : row < cfg.matrixRowSize) :
    pregenerateRowKeys cfg cr kc row = cr.genRowKey row (kc row) := by
  have filled := forLoop_inv (n := cfg.matrixRowSize) (s := fun _ => cr.zeroKey)
    (f := fun r out => Function.update out r (cr.genRowKey r (kc r)))
    (fun m (out : Nat → Key) => row < m → out row = cr.genRowKey row (kc row))
    (fun h => absurd h (Nat.not_lt_zero row)) (by
      intro m _ out ih hlt
      by_cases hr : row = m
      · subst hr; rw [Function.update_self]
      · rw [Function.update_of_ne hr, ih (by omega)])
  exact filled h

theorem bit_encDecPreAESKey (output input preKey : Buf) (len k : Nat) :
    bit (encDecPreAESKey output input preKey len) k =
      if k < 8 * len then bit input k ^^ bit preKey k else bit output k := by
  have same : encDecPreAESKey output input preKey len =
      copyBytes len output 0 (fun i => input i ^^^ preKey i) 0 := by
    simp only [encDecPreAESKey, copyBytes, Nat.zero_add]
  rw [same, bit_copyBytes, bit_xor]
  simp

section Layout

variable {cfg : Config} (hB : BlockSize cfg.encryptBlockSize) (cr : Cipher Key)
  (key : Buf) (idx : Nat) (colCounterArr : Nat → Nat) (rowKeys : Nat → Key)
include hB

/-- A keystream block laid over the block at position `b` of the key buffer. -/
theorem bit_writeKeystream (b : Nat) (dst : Buf) (rowKey : Key) (blockIdx ctr k : Nat) :
    bit (writeBlock cfg.encryptBlockSize dst (b * cfg.encryptBlockSize / 8)
      (b * cfg.encryptBlockSize % 8) (cr.aes128CtrEncdec zeroBuf rowKey blockIdx ctr)) k =
    if b * cfg.encryptBlockSize ≤ k ∧ k < b * cfg.encryptBlockSize + cfg.encryptBlockSize
    then cr.ks rowKey blockIdx ctr (k - b * cfg.encryptBlockSize) else bit dst k := by
  have hle := hB.le
  rw [bit_writeBlock hB]
  split
  · rw [cr.bit_aes128CtrEncdec _ _ _ _ (by omega), bit_zeroBuf, Bool.false_xor]
  · rfl

/-- Bit `row * B + i` of a column key is bit `i` of the row's keystream. -/
theorem bit_precomputeAESCTRKeys_col (isIncremental : Bool) {k : Nat}
    (hk : k < cfg.matrixRowSize * cfg.encryptBlockSize) :
    bit (precomputeAESCTRKeys cfg cr key idx .col isIncremental colCounterArr rowKeys).1 k =
      cr.ks (rowKeys (k / cfg.encryptBlockSize)) idx
        (if isIncremental then nextCounter (colCounterArr idx) else colCounterArr idx)
        (k % cfg.encryptBlockSize) := by
  set ct := if isIncremental then nextCounter (colCounterArr idx) else colCounterArr idx with hct
  simp only [precomputeAESCTRKeys, ← hct]
  rw [forLoop_fst (fun row b => writeBlock cfg.encryptBlockSize b
      (row * cfg.encryptBlockSize / 8) (row * cfg.encryptBlockSize % 8)
      (cr.aes128CtrEncdec zeroBuf (rowKeys row) idx ct)) (key, []) ?first,
    bit_tiles (fun row i _ => cr.ks (rowKeys row) idx ct i) ?filled, if_pos hk]
  case first => exact fun _ _ => rfl
  case filled => exact fun row _ b k => bit_writeKeystream hB cr row b _ _ _ k

/-- Bit `j` of a row key is the bit of column `j` in the keystream of its block. -/
theorem bit_precomputeAESCTRKeys_row (isIncremental : Bool) {j : Nat}
    (hj : j < cfg.numBlocks * cfg.encryptBlockSize) :
    bit (precomputeAESCTRKeys cfg cr key idx .row isIncremental colCounterArr rowKeys).1 j =
      cr.ks (rowKeys idx) (j / cfg.encryptBlockSize) (colCounterArr (j / cfg.encryptBlockSize))
        (j % cfg.encryptBlockSize) := by
  simp only [precomputeAESCTRKeys]
  rw [forLoop_fst (fun b key => writeBlock cfg.encryptBlockSize key
      (b * cfg.encryptBlockSize / 8) (b * cfg.encryptBlockSize % 8)
      (cr.aes128CtrEncdec zeroBuf (rowKeys idx) b (colCounterArr b))) (key, []) ?first,
    bit_tiles (fun b i _ => cr.ks (rowKeys idx) b (colCounterArr b) i) ?filled, if_pos hj]
  case first => exact fun _ _ => rfl
  case filled => exact fun b _ t k => bit_writeKeystream hB cr b t _ _ _ k

omit hB in
/-- The keystream blocks of a column key: one for each row. -/
theorem precomputeAESCTRKeys_col_blocks (isIncremental : Bool) :
    (precomputeAESCTRKeys cfg cr key idx .col isIncremental colCounterArr rowKeys).2 =
      (List.range cfg.matrixRowSize).map fun row => ⟨rowKeys row, idx,
        if isIncremental then nextCounter (colCounterArr idx) else colCounterArr idx⟩ := by
  simp only [precomputeAESCTRKeys]
  rw [List.map_eq_flatMap]
  exact forLoop_log _ _ fun row _ s => rfl

end Layout

end ImDsse
