import ImDsse.Exchange

/-!
Searches and updates against the plaintext index.

`Plain` is the index without encryption: a search reads a row, an update writes
a column. `Consistent` is the invariant that ties it to the client and the
store: every cell is the plaintext bit under the row key that `fetchedCounter`
names, and where the server decrypts both parties count the updates of a block
alike. `searchRow` and `updateColumn` preserve it and answer as the plaintext
does, for every block size and both places of decryption.
-/

namespace ImDsse

open Kit Kit.Loop Kit.Bits

variable {Key : Type}

/-! ### The plaintext index -/

/-- Plaintext bits by row and column. -/
abbrev Plain := Nat → Nat → Bool

namespace Plain

/-- Write a column. -/
def setColumn (M : Plain) (j : Nat) (col : Nat → Bool) : Plain :=
  fun r j' => if j' = j then col r else M r j'

theorem setColumn_self (M : Plain) (j : Nat) (col : Nat → Bool) (r : Nat) :
    M.setColumn j col r j = col r := if_pos rfl

theorem setColumn_of_ne (M : Plain) {j j' : Nat} (col : Nat → Bool) (r : Nat) (h : j' ≠ j) :
    M.setColumn j col r j' = M r j' := if_neg h

/-- The columns whose bit is set in a row. -/
def searchRow (cfg : Config) (M : Plain) (r : Nat) : List Nat :=
  (List.range cfg.maxNumOfFiles).filter (M r)

end Plain

/-- The plaintext index as a machine: it answers searches and never stops. -/
def plainMachine (cfg : Config) : Machine Plain IndexStep (Option (List Nat)) where
  step M
    | .search row => some (M, some (M.searchRow cfg row))
    | .update j u => some (M.setColumn j u.newCol, none)

/-! ### The invariant -/

/-- Cells and counters of client and store agree with the plaintext. -/
structure Consistent (cfg : Config) (cr : Cipher Key) (M : Plain) (s : CellStore)
    (c : IndexClient Key) : Prop where
  cells : ∀ r j, r < cfg.matrixRowSize → j < cfg.maxNumOfFiles → s.cell r j =
    (M r j ^^ cr.ks (cr.genRowKey r (fetchedCounter c.keywordCounterArr
      (fun r => s.state r (j / cfg.encryptBlockSize)) r)) (j / cfg.encryptBlockSize)
      (c.blockCounterArr (j / cfg.encryptBlockSize)) (j % cfg.encryptBlockSize))
  counters : cfg.decryptAtClientSide = false → ∀ b, b < cfg.numBlocks →
    s.counter b = c.blockCounterArr b
  searched : ∀ r, r < cfg.matrixRowSize →
    1 ≤ c.keywordCounterArr r ∧ c.keywordCounterArr r ≤ ulongMax
  pinned : cfg.decryptAtClientSide = true → ∀ r, r < cfg.matrixRowSize →
    c.keywordCounterArr r = 1 ∧ c.rowKeys r = cr.genRowKey r 1

/-- A row whose keyword counter is 1 is under its first key. -/
theorem fetchedCounter_one {kc : Nat → Nat} {r : Nat} (st : Nat → Bool) (h : kc r = 1) :
    fetchedCounter kc st r = 1 := by
  simp [fetchedCounter, stale, h]

/-- A row whose state bit is set is under its current key. -/
theorem fetchedCounter_updated {kc : Nat → Nat} {st : Nat → Bool} {r : Nat} (h : st r = true) :
    fetchedCounter kc st r = kc r := by
  simp [fetchedCounter, stale, h]

/-- A row that has just been searched is under the key before the current one. -/
theorem fetchedCounter_searched {kc : Nat → Nat} {st : Nat → Bool} {r n : Nat} (h : st r = false)
    (hkc : kc r = n + 1) (hn : 1 ≤ n) : fetchedCounter kc st r = n := by
  have : 1 < n + 1 := by omega
  simp [fetchedCounter, stale, h, hkc, this]

/-- The key of a row depends on its own counter and state only. -/
theorem fetchedCounter_congr {kc kc' : Nat → Nat} (st st' : Nat → Bool) {r : Nat}
    (hkc : kc r = kc' r) (hst : st r = st' r) : fetchedCounter kc st r = fetchedCounter kc' st' r := by
  unfold fetchedCounter stale
  rw [hkc, hst]

/-! ### Counting -/

/-- The client once it has counted a search of `row`. -/
def IndexClient.countSearch (c : IndexClient Key) (row : Nat) : IndexClient Key :=
  { c with
    keywordCounterArr :=
      Function.update c.keywordCounterArr row (nextCounter (c.keywordCounterArr row)) }

/-- The client once it has counted an update of `blockIndex`. -/
def IndexClient.countUpdate (c : IndexClient Key) (blockIndex : Nat) : IndexClient Key :=
  { c with
    blockCounterArr :=
      Function.update c.blockCounterArr blockIndex (nextCounter (c.blockCounterArr blockIndex)) }

namespace IndexClient

variable (c : IndexClient Key) (row b : Nat)

@[simp] theorem countSearch_self : (c.countSearch row).keywordCounterArr row =
    nextCounter (c.keywordCounterArr row) := Function.update_self ..

theorem countSearch_of_ne {r : Nat} (h : r ≠ row) :
    (c.countSearch row).keywordCounterArr r = c.keywordCounterArr r := Function.update_of_ne h ..

@[simp] theorem countSearch_blockCounterArr :
    (c.countSearch row).blockCounterArr = c.blockCounterArr := rfl

@[simp] theorem countSearch_rowKeys : (c.countSearch row).rowKeys = c.rowKeys := rfl

@[simp] theorem countUpdate_self : (c.countUpdate b).blockCounterArr b =
    nextCounter (c.blockCounterArr b) := Function.update_self ..

theorem countUpdate_of_ne {b' : Nat} (h : b' ≠ b) :
    (c.countUpdate b).blockCounterArr b' = c.blockCounterArr b' := Function.update_of_ne h ..

@[simp] theorem countUpdate_keywordCounterArr :
    (c.countUpdate b).keywordCounterArr = c.keywordCounterArr := rfl

@[simp] theorem countUpdate_rowKeys : (c.countUpdate b).rowKeys = c.rowKeys := rfl

end IndexClient

/-! ### Searching -/

section Search

variable {cfg : Config} {cr : Cipher Key} {s : CellStore} {c : IndexClient Key} {row : Nat}

/-- The token chooses, block by block, the key the client would. -/
theorem newest_freshToken (kc : Nat → Nat) (b : Nat) :
    s.newest (freshToken cr kc row) b = !stale kc (fun r => s.state r b) row := by
  unfold CellStore.newest stale
  rw [freshToken_hasRowKey, freshToken_rowIndex]
  cases decide (1 < kc row) <;> simp

theorem freshToken_key (kc : Nat → Nat) (b : Nat) :
    (if s.newest (freshToken cr kc row) b then (freshToken cr kc row).rowKey
      else (freshToken cr kc row).rowOldKey) =
      cr.genRowKey row (fetchedCounter kc (fun r => s.state r b) row) := by
  rw [newest_freshToken, fetchedCounter]
  cases hst : stale kc (fun r => s.state r b) row with
  | false => simp
  | true =>
    have hlt : 1 < kc row := by
      unfold stale at hst
      simp only [Bool.and_eq_true, decide_eq_true_eq] at hst
      exact hst.1
    simp [freshToken_rowOldKey cr kc row hlt]

/-- A search where the server decrypts, as one step of the store. -/
theorem searchRow_server (server : cfg.decryptAtClientSide = false)
    (limit : c.keywordCounterArr row ≠ ulongMax) :
    searchRow cfg cr (cellStore cfg cr) s c row =
      some ((s.search cfg cr (freshToken cr c.keywordCounterArr row), c.countSearch row),
        .searched (s.found cfg cr (freshToken cr c.keywordCounterArr row))
          (some (freshToken cr c.keywordCounterArr row))
          (s.searchEncryptions cfg (freshToken cr c.keywordCounterArr row))) := by
  simp [searchRow, rowToken, limit, server, cellStore, Response.found?, IndexClient.countSearch]

/-- A keyword counter at its limit stops the client. -/
theorem searchRow_limit {σ : Type} {srv : Machine σ (Command Key) (Response Key)} {p : σ}
    (limit : c.keywordCounterArr row = ulongMax) : searchRow cfg cr srv p c row = none := by
  simp [searchRow, rowToken, limit]

/-- A search where the client decrypts. -/
theorem searchRow_client (client : cfg.decryptAtClientSide = true)
    (limit : c.keywordCounterArr row ≠ ulongMax) :
    searchRow cfg cr (cellStore cfg cr) s c row =
      some ((s, c), .searched (decryptRow cfg cr c row (s.rowMessage cfg row)) none []) := by
  simp [searchRow, rowToken, limit, client, cellStore, Response.data?]

variable {M : Plain} (size : cfg.Sized) (h : Consistent cfg cr M s c)
  (hr : row < cfg.matrixRowSize)
include size h hr

/-- The server decrypts a row to its plaintext. -/
theorem Consistent.plainBit_eq (server : cfg.decryptAtClientSide = false) {j : Nat}
    (hj : j < cfg.maxNumOfFiles) :
    s.plainBit cfg cr (freshToken cr c.keywordCounterArr row) j = M row j := by
  have hb := size.tiled.block_lt hj
  unfold CellStore.plainBit
  dsimp only
  rw [freshToken_key, freshToken_rowIndex, h.counters server _ hb, h.cells row j hr hj,
    Bool.xor_assoc, Bool.xor_self, Bool.xor_false]

theorem Consistent.found_eq (server : cfg.decryptAtClientSide = false) :
    s.found cfg cr (freshToken cr c.keywordCounterArr row) = M.searchRow cfg row :=
  List.filter_congr fun _ hj => h.plainBit_eq size hr server (List.mem_range.mp hj)

/-- The client decrypts a row to its plaintext. -/
theorem Consistent.decryptRow_eq (client : cfg.decryptAtClientSide = true) :
    decryptRow cfg cr c row (s.rowMessage cfg row) = M.searchRow cfg row := by
  unfold decryptRow Plain.searchRow
  dsimp only
  rw [scanBytes_eq, size.tiled.matrixColSize_mul, List.nil_append]
  simp only [Nat.zero_add, List.map_id']
  refine List.filter_congr fun j hj => ?_
  have hj := List.mem_range.mp hj
  have hb := size.tiled.block_lt hj
  obtain ⟨hone, hkey⟩ := h.pinned client row hr
  rw [bit_encDecPreAESKey, size.tiled.matrixColSize_mul, if_pos hj, CellStore.rowMessage,
    bit_ofBytes_toBytes, size.tiled.matrixColSize_mul, if_pos hj, bit_packBuf,
    bit_precomputeAESCTRKeys_row size.blockSize, h.cells row j hr hj,
    fetchedCounter_one _ hone, hkey, Bool.xor_assoc, Bool.xor_self, Bool.xor_false]
  rw [size.tiled.numBlocks_mul]
  exact hj

/-- A search at the server leaves the row under the token's key, one counter
behind the client's. -/
theorem Consistent.search (server : cfg.decryptAtClientSide = false)
    (limit : c.keywordCounterArr row ≠ ulongMax) :
    Consistent cfg cr M (s.search cfg cr (freshToken cr c.keywordCounterArr row))
      (c.countSearch row) := by
  obtain ⟨one, max⟩ := h.searched row hr
  have next : nextCounter (c.keywordCounterArr row) = c.keywordCounterArr row + 1 :=
    nextCounter_of_lt (Nat.lt_of_le_of_ne max limit)
  refine ⟨?cells, ?counters, ?searched, ?pinned⟩
  case cells =>
    intro r j hr' hj
    have hb := size.tiled.block_lt hj
    rw [CellStore.search_cell, freshToken_rowIndex]
    by_cases hrow : r = row
    · subst hrow
      have after : fetchedCounter (c.countSearch r).keywordCounterArr (fun r' =>
          (s.search cfg cr (freshToken cr c.keywordCounterArr r)).state r'
            (j / cfg.encryptBlockSize)) r = c.keywordCounterArr r := by
        refine fetchedCounter_searched ?_ (by rw [c.countSearch_self, next]) one
        simp only [CellStore.search_state, freshToken_rowIndex, hb, and_self, if_true]
      rw [after, h.plainBit_eq size hr server hj, newest_freshToken, freshToken_rowKey,
        h.counters server _ hb]
      cases hst : stale c.keywordCounterArr (fun r => s.state r (j / cfg.encryptBlockSize)) r with
      | true =>
        rw [if_pos ⟨rfl, hj, rfl⟩]
        rfl
      | false =>
        -- a block already under the current key is not written
        rw [if_neg (by simp), h.cells r j hr hj, fetchedCounter, hst]
        rfl
    · have other : (s.search cfg cr (freshToken cr c.keywordCounterArr row)).state r
          (j / cfg.encryptBlockSize) = s.state r (j / cfg.encryptBlockSize) := by
        rw [CellStore.search_state, freshToken_rowIndex, if_neg (fun hc => hrow hc.1)]
      rw [if_neg (fun hc => hrow hc.1), h.cells r j hr' hj,
        fetchedCounter_congr _ (fun r => s.state r (j / cfg.encryptBlockSize))
          (c.countSearch_of_ne row hrow) other]
      rfl
  case counters => exact fun server b hb => h.counters server b hb
  case searched =>
    intro r hr'
    by_cases hrow : r = row
    · subst hrow
      rw [c.countSearch_self, next]
      omega
    · rw [c.countSearch_of_ne row hrow]
      exact h.searched r hr'
  case pinned =>
    intro client
    rw [server] at client
    cases client

end Search

/-! ### Updating -/

section Update

variable {cfg : Config} {cr : Cipher Key} {s : CellStore} {c : IndexClient Key}

/-- What the client holds after fetching block `b`; nothing when blocks are
single columns. -/
structure Fetched (cfg : Config) (s : CellStore) (b : Nat) (IPrime : Buf)
    (blockStateArr : Nat → Bool) : Prop where
  cells : 1 < cfg.encryptBlockSize → ∀ k, k < cfg.matrixRowSize * cfg.encryptBlockSize →
    bit IPrime k =
      s.cell (k / cfg.encryptBlockSize) (b * cfg.encryptBlockSize + k % cfg.encryptBlockSize)
  states : 1 < cfg.encryptBlockSize → cfg.decryptAtClientSide = false →
    ∀ r, r < cfg.matrixRowSize → blockStateArr r = s.state r b

theorem requestBlockData_store (cr : Cipher Key) (s : CellStore) (size : cfg.Sized) (b : Nat) :
    ∃ IPrime blockStateArr,
      requestBlockData cfg (cellStore cfg cr) s b = some (s, IPrime, blockStateArr) ∧
      Fetched cfg s b IPrime blockStateArr := by
  unfold requestBlockData
  by_cases h1 : 1 < cfg.encryptBlockSize
  · rw [if_pos h1]
    refine ⟨_, _, rfl, ?_, ?_⟩
    · intro _ k hk
      have hlen := size.blockMessageLen_mul
      rw [bit_copyBytes, size.blockBytes_mul, if_pos (by omega), CellStore.blockMessage,
        bit_ofBytes_toBytes, if_pos (by omega), bit_packBuf]
      simp only [Nat.mul_zero, Nat.sub_zero, Nat.zero_add]
      rw [if_pos hk]
    · intro _ server r hr
      have hlen := size.blockMessageLen_mul
      rw [server, if_neg (by decide)] at hlen
      rw [server, CellStore.blockMessage, bit_ofBytes_toBytes, if_pos (by omega), bit_packBuf,
        if_neg (by omega), Nat.add_sub_cancel_left]
      rfl
  · rw [if_neg h1]
    exact ⟨_, _, rfl, fun h => absurd h h1, fun h => absurd h h1⟩

/-- Where the server decrypts, an update is one pass of `tokenBlock`. -/
theorem recodeBlock_server (server : cfg.decryptAtClientSide = false) (b f : Nat)
    (u : ColumnUpdate) (IPrime : Buf) (st : Nat → Bool) :
    ∃ newBit IBar, (∀ t row, bit t row = bit IBar row → newBit t row = u.newCol row) ∧
      recodeBlock cfg cr c b f u IPrime st =
        tokenBlock cfg cr c.keywordCounterArr c.blockCounterArr st f newBit IBar IPrime := by
  cases u with
  | add IBar =>
    exact ⟨bit, IBar, fun _ _ h => h, by simp only [recodeBlock, server]; rfl⟩
  | del =>
    exact ⟨fun _ _ => false, zeroBuf, fun _ _ _ => rfl, by simp only [recodeBlock, server]; rfl⟩

/-- Where the client decrypts, an update is one pass of `tokenBlockPre`. -/
theorem recodeBlock_client (client : cfg.decryptAtClientSide = true) (b f : Nat)
    (u : ColumnUpdate) (IPrime : Buf) (st : Nat → Bool) :
    ∃ IBar, (∀ row, bit IBar row = u.newCol row) ∧
      recodeBlock cfg cr c b f u IPrime st =
        (tokenBlockPre cfg f IBar IPrime
          (if 1 < cfg.encryptBlockSize then (precomputeAESCTRKeys cfg cr zeroBuf b .col false
            c.blockCounterArr c.rowKeys).1 else zeroBuf)
          (precomputeAESCTRKeys cfg cr zeroBuf b .col true c.blockCounterArr c.rowKeys).1,
        (precomputeAESCTRKeys cfg cr zeroBuf b .col true c.blockCounterArr c.rowKeys).2) := by
  cases u with
  | add IBar => exact ⟨IBar, fun _ => rfl, by simp only [recodeBlock, client]; rfl⟩
  | del => exact ⟨zeroBuf, fun _ => bit_zeroBuf _, by simp only [recodeBlock, client]; rfl⟩

/-- Columns of one block that stand apart make it wider than a column. -/
theorem one_lt_blockSize (size : cfg.Tiled) {i j : Nat} (hi : i < cfg.encryptBlockSize)
    (column : i ≠ j % cfg.encryptBlockSize) : 1 < cfg.encryptBlockSize := by
  have := Nat.mod_lt j size.pos
  omega

/-- Re-encryption of a block, in either place of decryption: the block is decrypted
with the keys of `fetchedCounter`, the column replaced, and every row encrypted
under its current key and the next block counter. -/
theorem bit_recodeBlock (size : cfg.Sized) {f : Nat} (u : ColumnUpdate)
    (pinned : cfg.decryptAtClientSide = true → ∀ r, r < cfg.matrixRowSize →
      c.keywordCounterArr r = 1 ∧ c.rowKeys r = cr.genRowKey r 1)
    (IPrime : Buf) (st : Nat → Bool) {r i : Nat} (hr : r < cfg.matrixRowSize)
    (hi : i < cfg.encryptBlockSize) :
    bit (recodeBlock cfg cr c (f / cfg.encryptBlockSize) f u IPrime st).1
        (r * cfg.encryptBlockSize + i) =
      ((if i = f % cfg.encryptBlockSize then u.newCol r
        else bit IPrime (r * cfg.encryptBlockSize + i) ^^
          cr.ks (cr.genRowKey r (fetchedCounter c.keywordCounterArr st r))
            (f / cfg.encryptBlockSize) (c.blockCounterArr (f / cfg.encryptBlockSize)) i) ^^
        cr.ks (cr.genRowKey r (c.keywordCounterArr r)) (f / cfg.encryptBlockSize)
          (nextCounter (c.blockCounterArr (f / cfg.encryptBlockSize))) i) := by
  have hk := tile_lt hr hi
  cases hd : cfg.decryptAtClientSide with
  | false =>
    obtain ⟨newBit, IBar, reads, eq⟩ :=
      recodeBlock_server hd (f / cfg.encryptBlockSize) f u IPrime st
    rw [eq, bit_tokenBlock size.blockSize cr _ _ st f reads size.rowBytes IPrime hk]
    simp only [recodedBit, tile_div hi, tile_mod hi]
  | true =>
    obtain ⟨hone, hkey⟩ := pinned hd r hr
    obtain ⟨IBar, reads, eq⟩ :=
      recodeBlock_client hd (f / cfg.encryptBlockSize) f u IPrime st
    have key := fun inc => bit_precomputeAESCTRKeys_col size.blockSize cr zeroBuf
      (f / cfg.encryptBlockSize) c.blockCounterArr c.rowKeys inc hk
    rw [eq, bit_tokenBlockPre size.blockSize size.rowBytes f IBar IPrime _ _ hk]
    simp only [recodedBit, tile_div hi, tile_mod hi, key, reads, hkey, fetchedCounter_one st hone,
      hone, if_true]
    by_cases hif : i = f % cfg.encryptBlockSize
    · rw [if_pos hif, if_pos hif]
    · -- blocks of one column have no other column, wider blocks come with their key
      rw [if_neg hif, if_neg hif, if_pos (one_lt_blockSize size.tiled hi hif), key, tile_div hi,
        tile_mod hi, hkey]
      rfl

/-- The encryptions of an update of block `b`: every row, under its current key
and the next block counter. -/
def updateEncryptions (cfg : Config) (cr : Cipher Key) (c : IndexClient Key) (b : Nat) :
    List (Encryption Key) :=
  (List.range cfg.matrixRowSize).map fun r =>
    ⟨cr.genRowKey r (c.keywordCounterArr r), b, nextCounter (c.blockCounterArr b)⟩

theorem recodeBlock_encryptions (size : cfg.Sized) {f : Nat} (u : ColumnUpdate)
    (pinned : cfg.decryptAtClientSide = true → ∀ r, r < cfg.matrixRowSize →
      c.keywordCounterArr r = 1 ∧ c.rowKeys r = cr.genRowKey r 1)
    (IPrime : Buf) (st : Nat → Bool) :
    (recodeBlock cfg cr c (f / cfg.encryptBlockSize) f u IPrime st).2 =
      updateEncryptions cfg cr c (f / cfg.encryptBlockSize) := by
  cases hd : cfg.decryptAtClientSide with
  | false =>
    obtain ⟨newBit, IBar, -, eq⟩ :=
      recodeBlock_server hd (f / cfg.encryptBlockSize) f u IPrime st
    rw [eq]
    exact tokenBlock_encryptions cr _ _ st f size.tiled.pos IPrime
  | true =>
    obtain ⟨IBar, -, eq⟩ :=
      recodeBlock_client hd (f / cfg.encryptBlockSize) f u IPrime st
    rw [eq]
    dsimp only
    rw [precomputeAESCTRKeys_col_blocks]
    refine List.map_congr_left fun r hr => ?_
    obtain ⟨hone, hkey⟩ := pinned hd r (List.mem_range.mp hr)
    rw [hkey, hone]
    rfl

/-- An update, as one step of the store. -/
theorem updateColumn_store (size : cfg.Sized) {M : Plain} (h : Consistent cfg cr M s c) {j : Nat}
    (u : ColumnUpdate) :
    ∃ IPrime st, Fetched cfg s (j / cfg.encryptBlockSize) IPrime st ∧
      updateColumn cfg cr (cellStore cfg cr) s c (j / cfg.encryptBlockSize) j u =
        some ((s.update cfg (j / cfg.encryptBlockSize) (toBytes
            (recodeBlock cfg cr c (j / cfg.encryptBlockSize) j u IPrime st).1 cfg.blockBytes),
          c.countUpdate (j / cfg.encryptBlockSize)),
        .updated (j / cfg.encryptBlockSize)
          (updateEncryptions cfg cr c (j / cfg.encryptBlockSize))) := by
  obtain ⟨IPrime, st, fetch, fetched⟩ :=
    requestBlockData_store cr s size (j / cfg.encryptBlockSize)
  refine ⟨IPrime, st, fetched, ?_⟩
  unfold updateColumn
  rw [fetch, ← recodeBlock_encryptions size u h.pinned IPrime st]
  rfl

/-- A fetched block is under the keys that the store has its rows under. -/
theorem Consistent.fetchedCounter_fetched {M : Plain} (h : Consistent cfg cr M s c) {b : Nat}
    {IPrime : Buf} {st : Nat → Bool} (fetched : Fetched cfg s b IPrime st)
    (wide : 1 < cfg.encryptBlockSize) {r : Nat} (hr : r < cfg.matrixRowSize) :
    fetchedCounter c.keywordCounterArr st r =
      fetchedCounter c.keywordCounterArr (fun r => s.state r b) r := by
  cases hd : cfg.decryptAtClientSide with
  | true =>
    have one := (h.pinned hd r hr).1
    rw [fetchedCounter_one _ one, fetchedCounter_one _ one]
  | false => exact fetchedCounter_congr _ _ rfl (fetched.states wide hd r hr)

/-- A fetched block, decrypted and with its column replaced. -/
theorem Consistent.replaced (size : cfg.Tiled) {M : Plain} (h : Consistent cfg cr M s c) {j : Nat}
    {IPrime : Buf} {st : Nat → Bool} (fetched : Fetched cfg s (j / cfg.encryptBlockSize) IPrime st)
    (newCol : Nat → Bool) {r j' : Nat} (hr : r < cfg.matrixRowSize) (hj' : j' < cfg.maxNumOfFiles)
    (here : j' / cfg.encryptBlockSize = j / cfg.encryptBlockSize) :
    (if j' % cfg.encryptBlockSize = j % cfg.encryptBlockSize then newCol r
      else bit IPrime (r * cfg.encryptBlockSize + j' % cfg.encryptBlockSize) ^^
        cr.ks (cr.genRowKey r (fetchedCounter c.keywordCounterArr st r))
          (j / cfg.encryptBlockSize) (c.blockCounterArr (j / cfg.encryptBlockSize))
          (j' % cfg.encryptBlockSize)) = M.setColumn j newCol r j' := by
  by_cases same : j' = j
  · rw [same, if_pos rfl, Plain.setColumn_self]
  · have column : j' % cfg.encryptBlockSize ≠ j % cfg.encryptBlockSize := fun mods =>
      same (Nat.ext_div_mod here mods)
    have hi := Nat.mod_lt j' size.pos
    have wide := one_lt_blockSize size hi column
    have cell := fetched.cells wide _ (tile_lt hr hi)
    rw [tile_div hi, tile_mod hi, ← here, Nat.div_add_mod', h.cells r j' hr hj', here] at cell
    rw [if_neg column, Plain.setColumn_of_ne M newCol r same, cell,
      h.fetchedCounter_fetched fetched wide hr, Bool.xor_assoc, Bool.xor_self, Bool.xor_false]

/-- A block that is written is under the current key of every row, as its new states say. -/
theorem Consistent.fetchedCounter_written {M : Plain} (h : Consistent cfg cr M s c) (b : Nat)
    (data : List Byte) {r : Nat} (hr : r < cfg.matrixRowSize) :
    fetchedCounter c.keywordCounterArr (fun r => (s.update cfg b data).state r b) r =
      c.keywordCounterArr r := by
  cases hd : cfg.decryptAtClientSide with
  | true =>
    have one := (h.pinned hd r hr).1
    rw [fetchedCounter_one _ one, one]
  | false =>
    refine fetchedCounter_updated ?_
    rw [CellStore.update_state, if_pos ⟨hd, hr, rfl⟩]

/-- A block that holds the column under the current keys and any counter, written to the
store: the other blocks stay as they are. -/
theorem Consistent.write (size : cfg.Sized) {M : Plain} (h : Consistent cfg cr M s c) {j n : Nat}
    {newCol : Nat → Bool} {block : Buf}
    (bits : ∀ r j', r < cfg.matrixRowSize → j' < cfg.maxNumOfFiles →
      j' / cfg.encryptBlockSize = j / cfg.encryptBlockSize →
      bit block (r * cfg.encryptBlockSize + j' % cfg.encryptBlockSize) =
        (M.setColumn j newCol r j' ^^ cr.ks (cr.genRowKey r (c.keywordCounterArr r))
          (j / cfg.encryptBlockSize) n (j' % cfg.encryptBlockSize)))
    (counter : cfg.decryptAtClientSide = false →
      n = nextCounter (c.blockCounterArr (j / cfg.encryptBlockSize))) :
    Consistent cfg cr (M.setColumn j newCol)
      (s.update cfg (j / cfg.encryptBlockSize) (toBytes block cfg.blockBytes))
      { c with
        blockCounterArr := Function.update c.blockCounterArr (j / cfg.encryptBlockSize) n } := by
  refine ⟨fun r j' hr hj' => ?_, fun server b hb => ?_, h.searched, h.pinned⟩
  · rw [CellStore.update_cell]
    dsimp only
    by_cases here : j' / cfg.encryptBlockSize = j / cfg.encryptBlockSize
    · have hi := Nat.mod_lt j' size.tiled.pos
      rw [if_pos ⟨hr, here⟩, bit_ofBytes_toBytes, size.blockBytes_mul, if_pos (tile_lt hr hi),
        bits r j' hr hj' here, here, h.fetchedCounter_written _ _ hr, Function.update_self]
    · have plain : M.setColumn j newCol r j' = M r j' :=
        M.setColumn_of_ne newCol r fun same => here (by rw [same])
      have key : fetchedCounter c.keywordCounterArr (fun r => (s.update cfg
          (j / cfg.encryptBlockSize) (toBytes block cfg.blockBytes)).state r
            (j' / cfg.encryptBlockSize)) r =
          fetchedCounter c.keywordCounterArr
            (fun r => s.state r (j' / cfg.encryptBlockSize)) r :=
        fetchedCounter_congr _ _ rfl (by
          rw [CellStore.update_state, if_neg fun hc => here hc.2.2])
      rw [if_neg fun hc => here hc.2, h.cells r j' hr hj', plain, key, Function.update_of_ne here]
  · rw [CellStore.update_counter, server, if_neg (by decide), counter server]
    dsimp only
    by_cases here : b = j / cfg.encryptBlockSize
    · rw [here, Function.update_self, Function.update_self, h.counters server _ (here ▸ hb)]
    · rw [Function.update_of_ne here, Function.update_of_ne here, h.counters server b hb]

/-- An update changes one column of the plaintext. -/
theorem Consistent.update (size : cfg.Sized) {M : Plain} (h : Consistent cfg cr M s c) {j : Nat}
    (u : ColumnUpdate) {IPrime : Buf} {st : Nat → Bool}
    (fetched : Fetched cfg s (j / cfg.encryptBlockSize) IPrime st) :
    Consistent cfg cr (M.setColumn j u.newCol)
      (s.update cfg (j / cfg.encryptBlockSize) (toBytes
        (recodeBlock cfg cr c (j / cfg.encryptBlockSize) j u IPrime st).1 cfg.blockBytes))
      (c.countUpdate (j / cfg.encryptBlockSize)) := by
  refine h.write size (fun r j' hr hj' here => ?_) fun _ => rfl
  rw [bit_recodeBlock size u h.pinned IPrime st hr (Nat.mod_lt j' size.tiled.pos),
    h.replaced size.tiled fetched u.newCol hr hj' here]

end Update

end ImDsse
