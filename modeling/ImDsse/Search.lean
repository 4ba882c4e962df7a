import ImDsse.Block

/-!
The token of a search and the search itself (`DSSE::searchToken` from the row
index on, `DSSE::search`).

`search` walks the blocks of one row. A block whose state bit is set, or any
block when the token carries no old key, is under the token's key; every other
block is under the old key and is re-encrypted under the new one with the same
block counter. `search_spec` states the outcome cell by cell.
-/

namespace ImDsse

open Kit.Loop Kit.Bits

variable {Key : Type}

/-- `SearchToken` -/
structure SearchToken (Key : Type) where
  rowIndex : Nat
  rowKey : Key
  rowOldKey : Key
  hasRowKey : Bool

/-- The keys of a token: the row's current key and, once the row has been
searched, the key before it. -/
def freshToken (cr : Cipher Key) (keywordCounterArr : Nat → Nat) (row : Nat) : SearchToken Key :=
  let rowKey := cr.genRowKey row (keywordCounterArr row)
  if keywordCounterArr row > 1 then
    ⟨row, rowKey, cr.genRowKey row (keywordCounterArr row - 1), true⟩
  else ⟨row, rowKey, cr.zeroKey, false⟩

/-- `DSSE::searchToken` once the row of the keyword is known. A keyword counter
at its limit ends the process. -/
def rowToken (cr : Cipher Key) (keywordCounterArr : Nat → Nat) (row : Nat) :
    Option (SearchToken Key) :=
  if keywordCounterArr row = ulongMax then none else some (freshToken cr keywordCounterArr row)

section Token

variable (cr : Cipher Key) (kc : Nat → Nat) (row : Nat)

@[simp] theorem freshToken_rowIndex : (freshToken cr kc row).rowIndex = row := by
  unfold freshToken; dsimp only; split <;> rfl

@[simp] theorem freshToken_rowKey :
    (freshToken cr kc row).rowKey = cr.genRowKey row (kc row) := by
  unfold freshToken; dsimp only; split <;> rfl

@[simp] theorem freshToken_hasRowKey :
    (freshToken cr kc row).hasRowKey = decide (1 < kc row) := by
  unfold freshToken
  by_cases h : kc row > 1
  · rw [if_pos h, decide_eq_true h]
  · rw [if_neg h, decide_eq_false h]

theorem freshToken_rowOldKey (h : 1 < kc row) :
    (freshToken cr kc row).rowOldKey = cr.genRowKey row (kc row - 1) := by
  unfold freshToken
  rw [if_pos h]

variable {cr kc row}

theorem rowToken_rowIndex {tau : SearchToken Key} (h : rowToken cr kc row = some tau) :
    tau.rowIndex = row := by
  unfold rowToken at h
  split at h
  · cases h
  · cases h; exact freshToken_rowIndex cr kc row

end Token

/-- The variables of `DSSE::search` that live across blocks, with the list of
the encryptions made. -/
structure SearchState (Key : Type) where
  rFileIDs : List Nat
  I : Matrix
  blockStateMatrix : Matrix
  encryptions : List (Encryption Key)

/-- The branch of `DSSE::search` that decrypts with the token's newest key. -/
def underNewKey (tau : SearchToken Key) (blockStateMatrix : Matrix) (blockIdx : Nat) : Bool :=
  !tau.hasRowKey || bit (blockStateMatrix tau.rowIndex) blockIdx

/-- The buffer `U` of `DSSE::search` for one block: the block of the row,
decrypted with the token's key or its old key. -/
def decryptBlock (cfg : Config) (cr : Cipher Key) (tau : SearchToken Key)
    (blockCounterArr : Nat → Nat) (blockIdx : Nat) (s : SearchState Key) : Buf :=
  let B := cfg.encryptBlockSize
  let V := readBlock B (s.I tau.rowIndex) (blockIdx * B / 8) (blockIdx * B % 8)
  cr.aes128CtrEncdec V
    (if underNewKey tau s.blockStateMatrix blockIdx then tau.rowKey else tau.rowOldKey) blockIdx
    (blockCounterArr blockIdx)

/-- The loop body of `DSSE::search`. -/
def searchBlock (cfg : Config) (cr : Cipher Key) (tau : SearchToken Key)
    (blockCounterArr : Nat → Nat) (blockIdx : Nat) (s : SearchState Key) : SearchState Key :=
  let B := cfg.encryptBlockSize
  let row := tau.rowIndex
  let index := blockIdx * B
  let U := decryptBlock cfg cr tau blockCounterArr blockIdx s
  let needReencrypt := !underNewKey tau s.blockStateMatrix blockIdx
  { rFileIDs :=
      if B < 8 then
        forLoop B (fun ii ids => if bitCheck (U 0) ii then ids ++ [index + ii] else ids) s.rFileIDs
      else scanBytes (B / 8) U index s.rFileIDs
    blockStateMatrix := onRow s.blockStateMatrix row fun b =>
      putBit b (blockIdx / 8) (blockIdx % 8) false
    I :=
      if needReencrypt then
        onRow s.I row fun b => writeBlock B b (index / 8) (index % 8)
          (cr.aes128CtrEncdec U tau.rowKey blockIdx (blockCounterArr blockIdx))
      else s.I
    encryptions :=
      if needReencrypt then
        s.encryptions ++ [⟨tau.rowKey, blockIdx, blockCounterArr blockIdx⟩]
      else s.encryptions }

/-- `DSSE::search` -/
def search (cfg : Config) (cr : Cipher Key) (tau : SearchToken Key) (I : Matrix)
    (blockCounterArr : Nat → Nat) (blockStateMatrix : Matrix) : SearchState Key :=
  forLoop (iterations cfg.maxNumOfFiles cfg.encryptBlockSize)
    (searchBlock cfg cr tau blockCounterArr) ⟨[], I, blockStateMatrix, []⟩

/-! ### The outcome of a search, cell by cell -/

/-- The key a search decrypts block `b` with. -/
def decryptKey (tau : SearchToken Key) (st : Matrix) (b : Nat) : Key :=
  if underNewKey tau st b then tau.rowKey else tau.rowOldKey

/-- The plaintext bit a search computes for column `j`. -/
def foundBit (cfg : Config) (cr : Cipher Key) (tau : SearchToken Key) (I : Matrix)
    (ctr : Nat → Nat) (st : Matrix) (j : Nat) : Bool :=
  let b := j / cfg.encryptBlockSize
  bit (I tau.rowIndex) j ^^
    cr.ks (decryptKey tau st b) b (ctr b) (j % cfg.encryptBlockSize)

/-- What the first `n` blocks leave of the search's variables. -/
structure SearchedBlocks (cfg : Config) (cr : Cipher Key) (tau : SearchToken Key) (I : Matrix)
    (ctr : Nat → Nat) (st : Matrix) (n : Nat) (s : SearchState Key) : Prop where
  found : s.rFileIDs =
    (List.range (n * cfg.encryptBlockSize)).filter (foundBit cfg cr tau I ctr st)
  cells : ∀ r j, bit (s.I r) j =
    if r = tau.rowIndex ∧ j < n * cfg.encryptBlockSize ∧
        underNewKey tau st (j / cfg.encryptBlockSize) = false
    then (foundBit cfg cr tau I ctr st j ^^ cr.ks tau.rowKey (j / cfg.encryptBlockSize)
      (ctr (j / cfg.encryptBlockSize)) (j % cfg.encryptBlockSize))
    else bit (I r) j
  states : ∀ r b, bit (s.blockStateMatrix r) b =
    if r = tau.rowIndex ∧ b < n then false else bit (st r) b
  encryptions : s.encryptions = ((List.range n).filter fun b => !underNewKey tau st b).map
    fun b => ⟨tau.rowKey, b, ctr b⟩

section SearchSpec

variable {cfg : Config} {cr : Cipher Key} {tau : SearchToken Key} {I st : Matrix}
  {ctr : Nat → Nat}

/-- The file indexes pushed for one block are the set bits of its plaintext. -/
theorem pushed_eq (hB : BlockSize cfg.encryptBlockSize) (U : Buf) (index : Nat) (ids : List Nat) :
    (if cfg.encryptBlockSize < 8 then
      forLoop cfg.encryptBlockSize
        (fun ii ids => if bitCheck (U 0) ii then ids ++ [index + ii] else ids) ids
      else scanBytes (cfg.encryptBlockSize / 8) U index ids) =
    ids ++ ((List.range cfg.encryptBlockSize).filter (bit U)).map (index + ·) := by
  by_cases h : cfg.encryptBlockSize < 8
  · rw [if_pos h, forLoop_push _ (bitCheck (U 0)) (index + ·)]
    congr 2
    refine List.filter_congr fun k hk => ?_
    rw [← bit_add U 0 (Nat.lt_trans (List.mem_range.mp hk) h), Nat.mul_zero, Nat.zero_add]
  · rw [if_neg h, scanBytes_eq, hB.bytes (Nat.le_of_not_lt h)]

section OneBlock

variable (hB : BlockSize cfg.encryptBlockSize) {n : Nat} {s : SearchState Key}
  (h : SearchedBlocks cfg cr tau I ctr st n s)
include h

/-- The state bit of the next block is still the one the search started with. -/
theorem SearchedBlocks.underNewKey_eq :
    underNewKey tau s.blockStateMatrix n = underNewKey tau st n := by
  simp [underNewKey, h.states]

include hB

/-- The next block decrypts to the bits it held before the search. -/
theorem SearchedBlocks.bit_decryptBlock {k : Nat} (hk : k < cfg.encryptBlockSize) :
    bit (decryptBlock cfg cr tau ctr n s) k =
      foundBit cfg cr tau I ctr st (n * cfg.encryptBlockSize + k) := by
  have hle := hB.le
  simp only [decryptBlock]
  rw [cr.bit_aes128CtrEncdec _ _ _ _ (by omega), bit_readBlock hB _ _ hk, h.cells,
    if_neg (by omega), h.underNewKey_eq]
  simp only [foundBit, tile_div hk, tile_mod hk, decryptKey]

/-- One block of the search. -/
theorem SearchedBlocks.step :
    SearchedBlocks cfg cr tau I ctr st (n + 1) (searchBlock cfg cr tau ctr n s) := by
  have plain := fun k => h.bit_decryptBlock hB (k := k)
  have fresh := h.underNewKey_eq
  refine ⟨?found, ?cells, ?states, ?encryptions⟩
  case found =>
    simp only [searchBlock]
    rw [pushed_eq hB, h.found, Nat.succ_mul, List.range_add, List.filter_append, List.filter_map]
    congr 2
    refine List.filter_congr fun k hk => ?_
    rw [plain k (List.mem_range.mp hk), Function.comp_apply]
  case cells =>
    intro r j
    have hle := hB.le
    simp only [searchBlock, fresh]
    by_cases hin : n * cfg.encryptBlockSize ≤ j ∧
        j < n * cfg.encryptBlockSize + cfg.encryptBlockSize
    · obtain ⟨hd, hm⟩ := div_mod_tile hin.1 hin.2
      have hlt : j < (n + 1) * cfg.encryptBlockSize := by rw [Nat.succ_mul]; omega
      simp only [hd, hm, hlt, true_and]
      cases hu : underNewKey tau st n with
      | true =>
        -- a block already under the newest key stays as it is
        simp only [Bool.not_true, Bool.false_eq_true, if_false]
        rw [h.cells, if_neg (by omega), if_neg (by simp)]
      | false =>
        simp only [Bool.not_false, if_true, and_true]
        rw [onRow_apply]
        by_cases hr : r = tau.rowIndex
        · rw [if_pos hr, if_pos hr, bit_writeBlock hB, if_pos hin,
            cr.bit_aes128CtrEncdec _ _ _ _ (by omega), plain _ (by omega),
            Nat.add_sub_cancel' hin.1]
        · rw [if_neg hr, if_neg hr, h.cells, if_neg (fun c => hr c.1)]
    · have kept : bit ((if !underNewKey tau st n then onRow s.I tau.rowIndex fun b =>
          writeBlock cfg.encryptBlockSize b (n * cfg.encryptBlockSize / 8)
            (n * cfg.encryptBlockSize % 8) (cr.aes128CtrEncdec (decryptBlock cfg cr tau ctr n s)
              tau.rowKey n (ctr n))
          else s.I) r) j = bit (s.I r) j := by
        split
        · rw [onRow_apply]
          split
          · rw [bit_writeBlock hB, if_neg hin]
          · rfl
        · rfl
      have same : j < n * cfg.encryptBlockSize ↔ j < (n + 1) * cfg.encryptBlockSize := by
        rw [Nat.succ_mul]; omega
      rw [kept, h.cells]
      simp only [same]
  case states =>
    intro r b
    simp only [searchBlock]
    rw [onRow_apply]
    by_cases hr : r = tau.rowIndex
    · rw [if_pos hr, bit_putBit _ _ _ (Nat.mod_lt n (by decide)), Nat.div_add_mod, h.states]
      by_cases hb : b = n
      · rw [if_pos hb, if_pos ⟨hr, by omega⟩]
      · have same : b < n ↔ b < n + 1 := by omega
        rw [if_neg hb]
        simp only [same]
    · rw [if_neg hr, h.states, if_neg (fun c => hr c.1), if_neg (fun c => hr c.1)]
  case encryptions =>
    simp only [searchBlock, fresh]
    rw [h.encryptions, List.range_succ, List.filter_append, List.map_append]
    cases hu : underNewKey tau st n <;> simp [hu]

end OneBlock

/-- The whole search: the columns found are those whose decrypted bit is set,
the row is left entirely under the token's newest key, and its state bits are
cleared. -/
theorem search_spec (cr : Cipher Key) (tau : SearchToken Key) (I : Matrix) (ctr : Nat → Nat)
    (st : Matrix) (hB : BlockSize cfg.encryptBlockSize)
    (hN : cfg.encryptBlockSize ∣ cfg.maxNumOfFiles) :
    SearchedBlocks cfg cr tau I ctr st cfg.numBlocks (search cfg cr tau I ctr st) := by
  have blocks : iterations cfg.maxNumOfFiles cfg.encryptBlockSize = cfg.numBlocks := by
    obtain ⟨q, hq⟩ := hN
    rw [Config.numBlocks, hq, Nat.mul_comm, iterations_mul _ hB.pos, Nat.mul_div_cancel _ hB.pos]
  rw [search, blocks]
  refine forLoop_inv (P := fun n s => SearchedBlocks cfg cr tau I ctr st n s) ?_ ?_
  · exact ⟨by simp, fun r j => by simp, fun r b => by simp, by simp⟩
  · exact fun n _ s h => h.step hB

/-- Two searches with the same keys, over rows that agree: they find the same, make
the same encryptions, and leave rows that agree. -/
theorem search_congr (cr : Cipher Key) (tau : SearchToken Key) (row : Nat) {I I' st st' : Matrix}
    {ctr ctr' : Nat → Nat} (hB : BlockSize cfg.encryptBlockSize)
    (hN : cfg.encryptBlockSize ∣ cfg.maxNumOfFiles)
    (cells : ∀ j, j < cfg.maxNumOfFiles → bit (I' row) j = bit (I tau.rowIndex) j)
    (states : ∀ b, b < cfg.numBlocks → bit (st' row) b = bit (st tau.rowIndex) b)
    (counters : ∀ b, b < cfg.numBlocks → ctr' b = ctr b) :
    let out := search cfg cr tau I ctr st
    let out' := search cfg cr { tau with rowIndex := row } I' ctr' st'
    out'.rFileIDs = out.rFileIDs ∧ out'.encryptions = out.encryptions ∧
      (∀ j, j < cfg.maxNumOfFiles → bit (out'.I row) j = bit (out.I tau.rowIndex) j) ∧
      ∀ b, b < cfg.numBlocks → bit (out'.blockStateMatrix row) b =
        bit (out.blockStateMatrix tau.rowIndex) b := by
  intro out out'
  have spec := search_spec cr tau I ctr st hB hN
  have spec' := search_spec cr { tau with rowIndex := row } I' ctr' st' hB hN
  have width : cfg.numBlocks * cfg.encryptBlockSize = cfg.maxNumOfFiles :=
    Nat.div_mul_cancel hN
  have fresh : ∀ b, b < cfg.numBlocks →
      underNewKey { tau with rowIndex := row } st' b = underNewKey tau st b := by
    intro b hb
    simp only [underNewKey, states b hb]
  have block : ∀ j, j < cfg.maxNumOfFiles → j / cfg.encryptBlockSize < cfg.numBlocks := by
    intro j hj
    rw [← width] at hj
    exact Nat.div_lt_of_lt_mul (by rwa [Nat.mul_comm] at hj)
  have found : ∀ j, j < cfg.maxNumOfFiles → foundBit cfg cr { tau with rowIndex := row } I' ctr'
      st' j = foundBit cfg cr tau I ctr st j := by
    intro j hj
    have hb := block j hj
    simp only [foundBit, decryptKey, fresh _ hb, cells j hj, counters _ hb]
  refine ⟨?_, ?_, fun j hj => ?_, fun b hb => ?_⟩
  · rw [spec'.found, spec.found, width]
    exact List.filter_congr fun j hj => found j (List.mem_range.mp hj)
  · rw [spec'.encryptions, spec.encryptions]
    have same : (List.range cfg.numBlocks).filter
          (fun b => !underNewKey { tau with rowIndex := row } st' b) =
        (List.range cfg.numBlocks).filter fun b => !underNewKey tau st b :=
      List.filter_congr fun b hb => by rw [fresh b (List.mem_range.mp hb)]
    rw [same]
    refine List.map_congr_left fun b hb => ?_
    rw [counters b (List.mem_range.mp (List.mem_filter.mp hb).1)]
  · have hb := block j hj
    rw [spec'.cells, spec.cells, width]
    simp only [true_and, hj, fresh _ hb, found j hj, counters _ hb, cells j hj]
  · rw [spec'.states, spec.states]
    simp only [true_and, hb, if_true]

end SearchSpec

end ImDsse
