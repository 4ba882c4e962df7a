import ImDsse.Server

/-!
What the server is for: a store of cells.

A `CellStore` is the encrypted matrix as single bits, the state bit of every
block in every row, and the block counters, with no packing. Its operations are
the four requests. `ramServer_refines` shows that the server in memory is this
store seen through `RamServer.cells`; what is proved about the store then holds
of the code.
-/

namespace ImDsse

open Kit Kit.Loop Kit.Bits

variable {Key : Type}

/-- Cells by row and column, states by row and block, counters by block. Outside
the index every entry is `false` or zero. -/
structure CellStore where
  cell : Nat → Nat → Bool
  state : Nat → Nat → Bool
  counter : Nat → Nat

namespace CellStore

variable (cfg : Config) (cr : Cipher Key) (s : CellStore)

/-- Block `b` is under the newest key the token carries. -/
def newest (tau : SearchToken Key) (b : Nat) : Bool :=
  !tau.hasRowKey || s.state tau.rowIndex b

/-- The bit a search decrypts in column `j`. -/
def plainBit (tau : SearchToken Key) (j : Nat) : Bool :=
  let b := j / cfg.encryptBlockSize
  s.cell tau.rowIndex j ^^ cr.ks (if s.newest tau b then tau.rowKey else tau.rowOldKey) b
    (s.counter b) (j % cfg.encryptBlockSize)

/-- A search brings the row under the token's newest key and clears its states. -/
def search (tau : SearchToken Key) : CellStore where
  cell r j :=
    let b := j / cfg.encryptBlockSize
    if r = tau.rowIndex ∧ j < cfg.maxNumOfFiles ∧ s.newest tau b = false then
      s.plainBit cfg cr tau j ^^ cr.ks tau.rowKey b (s.counter b) (j % cfg.encryptBlockSize)
    else s.cell r j
  state r b := if r = tau.rowIndex ∧ b < cfg.numBlocks then false else s.state r b
  counter := s.counter

/-- The columns a search finds. -/
def found (tau : SearchToken Key) : List Nat :=
  (List.range cfg.maxNumOfFiles).filter (s.plainBit cfg cr tau)

/-- The encryptions of a search: the blocks that were under the older key. -/
def searchEncryptions (tau : SearchToken Key) : List (Encryption Key) :=
  ((List.range cfg.numBlocks).filter fun b => !s.newest tau b).map
    fun b => ⟨tau.rowKey, b, s.counter b⟩

/-- A block on the wire: its rows side by side, and its state bits behind them. -/
def blockMessage (b : Nat) : List Byte :=
  toBytes (packBuf fun k =>
    if k < cfg.matrixRowSize * cfg.encryptBlockSize then
      s.cell (k / cfg.encryptBlockSize) (b * cfg.encryptBlockSize + k % cfg.encryptBlockSize)
    else s.state (k - cfg.matrixRowSize * cfg.encryptBlockSize) b) cfg.blockMessageLen

/-- A row on the wire. -/
def rowMessage (r : Nat) : List Byte := toBytes (packBuf (s.cell r)) cfg.matrixColSize

/-- Replace block `b`; where the server decrypts, count the update and mark the
block as updated in every row. -/
def update (b : Nat) (data : List Byte) : CellStore where
  cell r j :=
    if r < cfg.matrixRowSize ∧ j / cfg.encryptBlockSize = b then
      bit (ofBytes data cfg.blockBytes zeroBuf)
        (r * cfg.encryptBlockSize + j % cfg.encryptBlockSize)
    else s.cell r j
  state r b' :=
    if cfg.decryptAtClientSide = false ∧ r < cfg.matrixRowSize ∧ b' = b then true
    else s.state r b'
  counter :=
    if cfg.decryptAtClientSide then s.counter
    else Function.update s.counter b (nextCounter (s.counter b))

theorem search_cell (tau : SearchToken Key) (r j : Nat) :
    (s.search cfg cr tau).cell r j =
      if r = tau.rowIndex ∧ j < cfg.maxNumOfFiles ∧
          s.newest tau (j / cfg.encryptBlockSize) = false then
        s.plainBit cfg cr tau j ^^ cr.ks tau.rowKey (j / cfg.encryptBlockSize)
          (s.counter (j / cfg.encryptBlockSize)) (j % cfg.encryptBlockSize)
      else s.cell r j := rfl

theorem search_state (tau : SearchToken Key) (r b : Nat) :
    (s.search cfg cr tau).state r b =
      if r = tau.rowIndex ∧ b < cfg.numBlocks then false else s.state r b := rfl

@[simp] theorem search_counter (tau : SearchToken Key) :
    (s.search cfg cr tau).counter = s.counter := rfl

theorem update_cell (b : Nat) (data : List Byte) (r j : Nat) :
    (s.update cfg b data).cell r j =
      if r < cfg.matrixRowSize ∧ j / cfg.encryptBlockSize = b then
        bit (ofBytes data cfg.blockBytes zeroBuf)
          (r * cfg.encryptBlockSize + j % cfg.encryptBlockSize)
      else s.cell r j := rfl

theorem update_state (b : Nat) (data : List Byte) (r b' : Nat) :
    (s.update cfg b data).state r b' =
      if cfg.decryptAtClientSide = false ∧ r < cfg.matrixRowSize ∧ b' = b then true
      else s.state r b' := rfl

theorem update_counter (b : Nat) (data : List Byte) :
    (s.update cfg b data).counter =
      if cfg.decryptAtClientSide then s.counter
      else Function.update s.counter b (nextCounter (s.counter b)) := rfl

end CellStore

/-- The store as a machine over the server's requests. -/
def cellStore (cfg : Config) (cr : Cipher Key) :
    Machine CellStore (Command Key) (Response Key) where
  step s
    | .searchOperation tau =>
      if cfg.decryptAtClientSide then none
      else some (s.search cfg cr tau, ⟨.found (s.found cfg cr tau), s.searchEncryptions cfg tau⟩)
    | .requestSearchData row => some (s, ⟨.data (s.rowMessage cfg row), []⟩)
    | .requestBlockData b => some (s, ⟨.data (s.blockMessage cfg b), []⟩)
    | .updateBlockData b data => some (s.update cfg b data, ⟨.success, []⟩)

/-! ### The server in memory is a cell store -/

/-- A matrix of state bits and a matrix of cells as a store, cut to the index. -/
def cellsOf (cfg : Config) (I st : Matrix) (ctr : Nat → Nat) : CellStore where
  cell r j := decide (r < cfg.matrixRowSize ∧ j < cfg.maxNumOfFiles) && bit (I r) j
  state r b := decide (r < cfg.matrixRowSize ∧ b < cfg.numBlocks) && bit (st r) b
  counter b := if b < cfg.numBlocks then ctr b else 0

/-- The cells of the server. -/
def RamServer.cells (cfg : Config) (s : RamServer) : CellStore :=
  cellsOf cfg s.I s.blockStateMat s.blockCounterArr

section Refinement

variable {cfg : Config} (h : cfg.Tiled) {I st : Matrix} {ctr : Nat → Nat}

theorem cellsOf_cell {r j : Nat} (hr : r < cfg.matrixRowSize) (hj : j < cfg.maxNumOfFiles) :
    (cellsOf cfg I st ctr).cell r j = bit (I r) j := by
  simp [cellsOf, hr, hj]

theorem cellsOf_state {r b : Nat} (hr : r < cfg.matrixRowSize) (hb : b < cfg.numBlocks) :
    (cellsOf cfg I st ctr).state r b = bit (st r) b := by
  simp [cellsOf, hr, hb]

theorem cellsOf_counter {b : Nat} (hb : b < cfg.numBlocks) :
    (cellsOf cfg I st ctr).counter b = ctr b := by
  simp [cellsOf, hb]

/-- Stores are equal when they agree on the index. -/
theorem cellsOf_eq_of_agree {t : CellStore}
    (cell : ∀ r j, t.cell r j =
      (decide (r < cfg.matrixRowSize ∧ j < cfg.maxNumOfFiles) && bit (I r) j))
    (state : ∀ r b, t.state r b =
      (decide (r < cfg.matrixRowSize ∧ b < cfg.numBlocks) && bit (st r) b))
    (counter : ∀ b, t.counter b = if b < cfg.numBlocks then ctr b else 0) :
    cellsOf cfg I st ctr = t := by
  obtain ⟨c, s, n⟩ := t
  simp only [cellsOf, CellStore.mk.injEq]
  exact ⟨funext fun r => funext fun j => (cell r j).symm,
    funext fun r => funext fun b => (state r b).symm, funext fun b => (counter b).symm⟩

include h

theorem rowMessage_eq (r : Nat) (hr : r < cfg.matrixRowSize) :
    toBytes (getBlock cfg r .row I zeroBuf) cfg.matrixColSize =
      (cellsOf cfg I st ctr).rowMessage cfg r := by
  refine toBytes_congr_bit fun k hk => ?_
  have hk' : k < cfg.maxNumOfFiles := by rwa [h.matrixColSize_mul] at hk
  rw [bit_getBlock_row, if_pos hk, bit_packBuf, cellsOf_cell hr hk']

/-- A buffer with the block's cells and, behind them, its states is its message. -/
theorem blockMessage_eq {b : Nat} (hb : b < cfg.numBlocks) {buffer : Buf}
    (cells : ∀ k, k < cfg.matrixRowSize * cfg.encryptBlockSize → bit buffer k =
      bit (I (k / cfg.encryptBlockSize)) (b * cfg.encryptBlockSize + k % cfg.encryptBlockSize))
    (states : cfg.decryptAtClientSide = false → ∀ row, row < cfg.matrixRowSize →
      bit buffer (cfg.matrixRowSize * cfg.encryptBlockSize + row) = bit (st row) b) :
    toBytes buffer cfg.blockMessageLen = (cellsOf cfg I st ctr).blockMessage cfg b := by
  refine toBytes_congr_bit fun k hk => ?_
  have hk := Nat.lt_of_lt_of_le hk cfg.blockMessageLen_le
  rw [bit_packBuf]
  by_cases hlt : k < cfg.matrixRowSize * cfg.encryptBlockSize
  · have hmod := Nat.mod_lt k h.pos
    have hrow : k / cfg.encryptBlockSize < cfg.matrixRowSize :=
      Nat.div_lt_of_lt_mul (by rwa [Nat.mul_comm] at hlt)
    rw [if_pos hlt, cells k hlt, cellsOf_cell hrow (h.col_lt hb hmod)]
  · cases hd : cfg.decryptAtClientSide with
    | true => rw [hd] at hk; simp only [if_true] at hk; omega
    | false =>
      rw [hd] at hk
      simp only [Bool.false_eq_true, if_false] at hk
      have hrow : k - cfg.matrixRowSize * cfg.encryptBlockSize < cfg.matrixRowSize := by omega
      rw [if_neg hlt, cellsOf_state hrow hb, ← states hd _ hrow]
      congr 1
      omega

theorem getBlockData_col {s : RamServer} {b : Nat} (hb : b < cfg.numBlocks) :
    s.getBlockData cfg b .col = (s.cells cfg).blockMessage cfg b := by
  unfold RamServer.getBlockData RamServer.cells
  refine blockMessage_eq h hb ?_ ?_
  · intro k hk
    have packed := bit_getBlock_col h.blockSize s.I b zeroBuf k
    rw [if_pos hk] at packed
    split
    · exact packed
    · rw [bit_serializeStates, if_neg (by omega)]
      exact packed
  · intro hd row hrow
    simp only [hd, Bool.false_eq_true, if_false]
    rw [bit_serializeStates, if_pos (by omega), Nat.add_sub_cancel_left]
    rfl

/-- The bit of an updated matrix, by the block of the column. -/
theorem bit_updateMatrix_block (data : Buf) (b : Nat) (I : Matrix) (r j : Nat) :
    bit (updateMatrix cfg data b I r) j =
      if r < cfg.matrixRowSize ∧ j / cfg.encryptBlockSize = b
      then bit data (r * cfg.encryptBlockSize + j % cfg.encryptBlockSize) else bit (I r) j := by
  rw [bit_updateMatrix h.blockSize]
  by_cases hin : b * cfg.encryptBlockSize ≤ j ∧
      j < b * cfg.encryptBlockSize + cfg.encryptBlockSize
  · obtain ⟨hdiv, hmod⟩ := div_mod_tile hin.1 hin.2
    simp only [hin, hdiv, hmod, and_true, and_self]
  · have hdiv := mt (in_tile_iff h.pos b j).mpr hin
    rw [if_neg fun c => hin c.2, if_neg fun c => hdiv c.2]

omit h in
theorem updateBlockData_eq (s : RamServer) (b : Nat) (data : List Byte) :
    s.updateBlockData cfg b data =
      { I := updateMatrix cfg (ofBytes data cfg.blockBytes zeroBuf) b s.I
        blockStateMat := if cfg.decryptAtClientSide then s.blockStateMat
          else setStates cfg b s.blockStateMat
        blockCounterArr := if cfg.decryptAtClientSide then s.blockCounterArr
          else Function.update s.blockCounterArr b (nextCounter (s.blockCounterArr b)) } := by
  unfold RamServer.updateBlockData update
  cases cfg.decryptAtClientSide <;> rfl

theorem updateBlockData_cells {s : RamServer} {b : Nat} (hb : b < cfg.numBlocks)
    (data : List Byte) :
    (s.updateBlockData cfg b data).cells cfg = (s.cells cfg).update cfg b data := by
  rw [updateBlockData_eq]
  refine cellsOf_eq_of_agree ?cell ?state ?counter
  case cell =>
    intro r j
    rw [bit_updateMatrix_block h]
    simp only [CellStore.update, RamServer.cells, cellsOf]
    by_cases hin : r < cfg.matrixRowSize ∧ j / cfg.encryptBlockSize = b
    · have hj : j < cfg.maxNumOfFiles := by
        have hlt := h.col_lt hb (Nat.mod_lt j h.pos)
        rwa [← hin.2, Nat.div_add_mod'] at hlt
      rw [if_pos hin, if_pos hin]
      simp [hin.1, hj]
    · rw [if_neg hin, if_neg hin]
  case state =>
    intro r b'
    simp only [CellStore.update, RamServer.cells, cellsOf]
    cases hd : cfg.decryptAtClientSide with
    | true => simp
    | false =>
      simp only [true_and, Bool.false_eq_true, if_false]
      rw [bit_setStates]
      by_cases hin : r < cfg.matrixRowSize ∧ b' = b
      · rw [if_pos hin, if_pos hin]
        simp [hin.1, hin.2, hb]
      · rw [if_neg hin, if_neg hin]
  case counter =>
    intro b'
    simp only [CellStore.update, RamServer.cells, cellsOf]
    cases hd : cfg.decryptAtClientSide with
    | true => simp
    | false =>
      simp only [Bool.false_eq_true, if_false]
      by_cases hb' : b' = b
      · subst hb'
        simp [hb]
      · rw [Function.update_of_ne hb', Function.update_of_ne hb']

theorem searchKeyword_cells {s : RamServer} (tau : SearchToken Key) (cr : Cipher Key)
    (hr : tau.rowIndex < cfg.matrixRowSize) :
    (s.searchKeyword cfg cr tau).1.cells cfg = (s.cells cfg).search cfg cr tau ∧
    (s.searchKeyword cfg cr tau).2.1 = (s.cells cfg).found cfg cr tau ∧
    (s.searchKeyword cfg cr tau).2.2 = (s.cells cfg).searchEncryptions cfg tau := by
  have spec := search_spec cr tau s.I s.blockCounterArr s.blockStateMat h.blockSize h.blocks
  have newest : ∀ b, b < cfg.numBlocks →
      (s.cells cfg).newest tau b = underNewKey tau s.blockStateMat b := by
    intro b hb
    rw [CellStore.newest, underNewKey, RamServer.cells, cellsOf_state hr hb]
  have plain : ∀ j, j < cfg.maxNumOfFiles →
      (s.cells cfg).plainBit cfg cr tau j =
        foundBit cfg cr tau s.I s.blockCounterArr s.blockStateMat j := by
    intro j hj
    have hb := h.block_lt hj
    rw [CellStore.plainBit, newest _ hb, RamServer.cells, cellsOf_cell hr hj,
      cellsOf_counter hb, foundBit, decryptKey]
  refine ⟨cellsOf_eq_of_agree ?cell ?state ?counter, ?found, ?encryptions⟩
  case cell =>
    intro r j
    simp only [RamServer.searchKeyword]
    rw [spec.cells, h.numBlocks_mul, CellStore.search_cell]
    by_cases hin : r = tau.rowIndex ∧ j < cfg.maxNumOfFiles
    · obtain ⟨rfl, hj⟩ := hin
      have hb := h.block_lt hj
      have counter : (s.cells cfg).counter (j / cfg.encryptBlockSize) = _ := cellsOf_counter hb
      have cell : (s.cells cfg).cell tau.rowIndex j = _ := cellsOf_cell hr hj
      simp only [hj, hr, true_and, and_self, decide_true, Bool.true_and, newest _ hb, plain _ hj,
        counter, cell]
    · rw [if_neg fun c => hin ⟨c.1, c.2.1⟩, if_neg fun c => hin ⟨c.1, c.2.1⟩]
      rfl
  case state =>
    intro r b
    simp only [RamServer.searchKeyword]
    rw [spec.states, CellStore.search_state]
    by_cases hin : r = tau.rowIndex ∧ b < cfg.numBlocks
    · rw [if_pos hin, if_pos hin, Bool.and_false]
    · rw [if_neg hin, if_neg hin]
      rfl
  case counter => exact fun b => rfl
  case found =>
    simp only [RamServer.searchKeyword, CellStore.found]
    rw [spec.found, h.numBlocks_mul]
    exact List.filter_congr fun j hj => (plain j (List.mem_range.mp hj)).symm
  case encryptions =>
    simp only [RamServer.searchKeyword, CellStore.searchEncryptions]
    have same : (List.range cfg.numBlocks).filter (fun b => !(s.cells cfg).newest tau b) =
        (List.range cfg.numBlocks).filter fun b => !underNewKey tau s.blockStateMat b :=
      List.filter_congr fun b hb => by rw [newest b (List.mem_range.mp hb)]
    rw [spec.encryptions, same]
    refine List.map_congr_left fun b hb => ?_
    rw [RamServer.cells, cellsOf_counter (List.mem_range.mp (List.mem_filter.mp hb).1)]

/-- The server in memory is the store: on a valid request both stop or both give
the same reply, and the cells of the server stay the store. -/
theorem ramServer_refines (cr : Cipher Key) (s : RamServer) {c : Command Key}
    (valid : c.Valid cfg) :
    Machine.Lockstep (fun s t => s.cells cfg = t) Eq
      ((ramServer cfg cr).step s c) ((cellStore cfg cr).step (s.cells cfg) c) := by
  cases c with
  | searchOperation tau =>
    obtain ⟨cells, found, encryptions⟩ := searchKeyword_cells h (s := s) tau cr valid
    simp only [ramServer, cellStore]
    split
    · exact .none
    · rw [found, encryptions]
      exact .some ⟨cells, rfl⟩
  | requestSearchData row =>
    refine .some ⟨rfl, ?_⟩
    simp only [RamServer.getBlockData, RamServer.cells]
    rw [rowMessage_eq h row valid]
  | requestBlockData b =>
    refine .some ⟨rfl, ?_⟩
    simp only
    rw [getBlockData_col h valid]
  | updateBlockData b data => exact .some ⟨updateBlockData_cells h valid data, rfl⟩

end Refinement

end ImDsse
