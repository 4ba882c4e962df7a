import Mathlib.Data.List.Nodup
import ImDsse.SearchCorrect

/-!
No keystream block is used twice.

Keys are terms here (`termCipher`): an encryption names the row, the keyword
counter behind its row key, the block and the block counter behind its nonce.
`Fresh` orders the encryptions of a cell by block counter first and keyword
counter second and keeps all of them at or below where the cell is now. An
update raises the block counter of its cells, a search re-encrypts just the
cells whose keyword counter is behind.

Nothing stops the block counter at its limit: after 2^64 updates of one block
its counter is back at 1, where the setup encrypted.
-/

namespace ImDsse

open Kit Kit.Loop Kit.Bits

/-- Keys as terms: row and keyword counter. -/
abbrev KeyTerm := Option (Nat × Nat)

/-- The step updates a block whose counter is not at its limit. -/
def CounterLeft (cfg : Config) (c : IndexClient KeyTerm) : IndexStep → Prop
  | .search _ => True
  | .update j _ => c.blockCounterArr (j / cfg.encryptBlockSize) ≠ ulongMax

/-- The encryption is at or below the counters its cell is under. -/
def Below (cfg : Config) (s : CellStore) (c : IndexClient KeyTerm) (e : Encryption KeyTerm) : Prop :=
  ∃ r k, e.key = some (r, k) ∧ r < cfg.matrixRowSize ∧ e.blockIdx < cfg.numBlocks ∧
    (e.counter < c.blockCounterArr e.blockIdx ∨ e.counter = c.blockCounterArr e.blockIdx ∧
      k ≤ fetchedCounter c.keywordCounterArr (fun r => s.state r e.blockIdx) r)

/-- The encryptions so far are distinct and none is ahead of its cell. -/
structure Fresh (cfg : Config) (log : List (Encryption KeyTerm)) (s : CellStore)
    (c : IndexClient KeyTerm) : Prop where
  nodup : log.Nodup
  below : ∀ e ∈ log, Below cfg s c e
  bounded : ∀ b, b < cfg.numBlocks → c.blockCounterArr b ≤ ulongMax

theorem fetchedCounter_le (kc : Nat → Nat) (st : Nat → Bool) (r : Nat) :
    fetchedCounter kc st r ≤ kc r := by
  unfold fetchedCounter
  split
  · exact Nat.sub_le _ _
  · exact Nat.le_refl _

section Step

variable {cfg : Config} {F : KeyTerm → Nat → Nat → Buf} {log : List (Encryption KeyTerm)}
  {M : Plain} {s : CellStore} {c : IndexClient KeyTerm}

/-- A search re-encrypts cells whose keyword counter is one behind. -/
theorem mem_searchEncryptions {row : Nat} {e : Encryption KeyTerm}
    (mem : e ∈ s.searchEncryptions cfg (freshToken (termCipher F) c.keywordCounterArr row)) :
    e.key = some (row, c.keywordCounterArr row) ∧ e.blockIdx < cfg.numBlocks ∧
      e.counter = s.counter e.blockIdx ∧
      fetchedCounter c.keywordCounterArr (fun r => s.state r e.blockIdx) row <
        c.keywordCounterArr row := by
  unfold CellStore.searchEncryptions at mem
  obtain ⟨b, hb, rfl⟩ := List.mem_map.mp mem
  obtain ⟨range, old⟩ := List.mem_filter.mp hb
  rw [newest_freshToken, Bool.not_not] at old
  refine ⟨freshToken_rowKey _ _ _, List.mem_range.mp range, rfl, ?_⟩
  have positive : 1 < c.keywordCounterArr row := by
    unfold stale at old
    rw [Bool.and_eq_true, decide_eq_true_eq] at old
    exact old.1
  unfold fetchedCounter
  rw [if_pos old]
  exact Nat.sub_lt (by omega) Nat.one_pos

theorem searchEncryptions_nodup (tau : SearchToken KeyTerm) :
    (s.searchEncryptions cfg tau).Nodup := by
  refine List.Nodup.map_on ?_ (List.nodup_range.filter _)
  intro b _ b' _ same
  exact congrArg Encryption.blockIdx same

/-- A search keeps the encryptions fresh. -/
theorem Fresh.search (fresh : Fresh cfg log s c)
    (h : Consistent cfg (termCipher F) M s c) {row : Nat} (hr : row < cfg.matrixRowSize)
    (server : cfg.decryptAtClientSide = false) (limit : c.keywordCounterArr row ≠ ulongMax) :
    Fresh cfg (log ++ s.searchEncryptions cfg (freshToken (termCipher F) c.keywordCounterArr row))
      (s.search cfg (termCipher F) (freshToken (termCipher F) c.keywordCounterArr row))
      (c.countSearch row) := by
  obtain ⟨one, max⟩ := h.searched row hr
  -- where the cells of the row are after the search
  have after : ∀ b, b < cfg.numBlocks → fetchedCounter (c.countSearch row).keywordCounterArr
      (fun r => (s.search cfg (termCipher F)
        (freshToken (termCipher F) c.keywordCounterArr row)).state r b) row =
      c.keywordCounterArr row := by
    intro b hb
    refine fetchedCounter_searched ?_ ?_ one
    · simp only [CellStore.search_state, freshToken_rowIndex, hb, and_self, if_true]
    · rw [c.countSearch_self, nextCounter_of_lt (Nat.lt_of_le_of_ne max limit)]
  refine ⟨?nodup, ?below, fresh.bounded⟩
  case nodup =>
    refine List.Nodup.append fresh.nodup (searchEncryptions_nodup _) ?_
    intro e old new
    obtain ⟨key, hb, counter, behind⟩ := mem_searchEncryptions new
    obtain ⟨r, k, key', -, -, earlier | ⟨-, le⟩⟩ := fresh.below e old
    · rw [counter, h.counters server _ hb] at earlier
      exact absurd earlier (Nat.lt_irrefl _)
    · cases key.symm.trans key'
      exact absurd le (Nat.not_le.mpr behind)
  case below =>
    intro e mem
    rcases List.mem_append.mp mem with old | new
    · obtain ⟨r, k, key, hrow, hb, order⟩ := fresh.below e old
      refine ⟨r, k, key, hrow, hb, order.imp_right fun ⟨eq, le⟩ => ⟨eq, Nat.le_trans le ?_⟩⟩
      by_cases hrr : r = row
      · subst hrr
        rw [after _ hb]
        exact fetchedCounter_le _ _ _
      · refine Nat.le_of_eq (fetchedCounter_congr _ _ (c.countSearch_of_ne row hrr).symm ?_)
        rw [CellStore.search_state, freshToken_rowIndex, if_neg fun hc => hrr hc.1]
    · obtain ⟨key, hb, counter, -⟩ := mem_searchEncryptions new
      refine ⟨row, _, key, hr, hb, Or.inr ⟨?_, ?_⟩⟩
      · rw [counter, h.counters server _ hb]
        rfl
      · exact Nat.le_of_eq (after _ hb).symm

theorem updateEncryptions_nodup (b : Nat) :
    (updateEncryptions cfg (termCipher F) c b).Nodup := by
  refine List.Nodup.map_on ?_ List.nodup_range
  intro r _ r' _ same
  have keys := congrArg Encryption.key same
  exact (Prod.mk.inj (Option.some.inj keys)).1

/-- An update below the limit of its block's counter keeps the encryptions fresh. -/
theorem Fresh.update (fresh : Fresh cfg log s c)
    (h : Consistent cfg (termCipher F) M s c) {b : Nat} (hb : b < cfg.numBlocks)
    (left : c.blockCounterArr b ≠ ulongMax) (data : List Byte) :
    Fresh cfg (log ++ updateEncryptions cfg (termCipher F) c b) (s.update cfg b data)
      (c.countUpdate b) := by
  have next : nextCounter (c.blockCounterArr b) = c.blockCounterArr b + 1 :=
    nextCounter_of_lt (Nat.lt_of_le_of_ne (fresh.bounded b hb) left)
  have old_le : ∀ e ∈ log, e.blockIdx = b → e.counter ≤ c.blockCounterArr b := by
    intro e mem hbb
    obtain ⟨r, k, -, -, -, lt | ⟨eq, -⟩⟩ := fresh.below e mem
    · exact hbb ▸ Nat.le_of_lt lt
    · exact hbb ▸ Nat.le_of_eq eq
  have mem_new : ∀ e ∈ updateEncryptions cfg (termCipher F) c b,
      ∃ r, r < cfg.matrixRowSize ∧ e = ⟨some (r, c.keywordCounterArr r), b,
        c.blockCounterArr b + 1⟩ := by
    intro e mem
    obtain ⟨r, hr, rfl⟩ := List.mem_map.mp mem
    exact ⟨r, List.mem_range.mp hr, by rw [next]; rfl⟩
  refine ⟨?nodup, ?below, ?bounded⟩
  case nodup =>
    refine List.Nodup.append fresh.nodup (updateEncryptions_nodup b) ?_
    intro e old new
    obtain ⟨r, -, rfl⟩ := mem_new e new
    exact absurd (old_le _ old rfl) (Nat.not_succ_le_self _)
  case below =>
    intro e mem
    rcases List.mem_append.mp mem with old | new
    · obtain ⟨r, k, key, hr, hlt, order⟩ := fresh.below e old
      refine ⟨r, k, key, hr, hlt, ?_⟩
      by_cases hbb : e.blockIdx = b
      · left
        rw [hbb, c.countUpdate_self, next]
        exact Nat.lt_succ_of_le (old_le e old hbb)
      · rw [c.countUpdate_of_ne b hbb]
        refine order.imp_right fun ⟨eq, le⟩ => ⟨eq, ?_⟩
        rwa [c.countUpdate_keywordCounterArr, fetchedCounter_congr _
          (fun r => s.state r e.blockIdx) rfl (by
            rw [CellStore.update_state, if_neg fun hc => hbb hc.2.2])]
    · obtain ⟨r, hr, rfl⟩ := mem_new e new
      refine ⟨r, _, rfl, hr, hb, Or.inr ⟨by rw [c.countUpdate_self, next], ?_⟩⟩
      rw [c.countUpdate_keywordCounterArr]
      cases hd : cfg.decryptAtClientSide with
      | true =>
        have hone := (h.pinned hd r hr).1
        exact Nat.le_of_eq (hone.trans (fetchedCounter_one _ hone).symm)
      | false =>
        refine Nat.le_of_eq (fetchedCounter_updated ?_).symm
        exact if_pos ⟨hd, hr, rfl⟩
  case bounded =>
    intro b' hb'
    by_cases hbb : b' = b
    · rw [hbb, c.countUpdate_self, next]
      exact Nat.lt_of_le_of_ne (fresh.bounded b hb) left
    · rw [c.countUpdate_of_ne b hbb]
      exact fresh.bounded b' hb'

/-- One step of client and store. -/
theorem Stepped.fresh (size : cfg.Sized) {i : IndexStep} {p' : CellStore × IndexClient KeyTerm}
    {e : Event KeyTerm} (step : Stepped cfg (termCipher F) M s c i p' e)
    (h : Consistent cfg (termCipher F) M s c) (valid : i.Valid cfg) (left : CounterLeft cfg c i)
    (fresh : Fresh cfg log s c) : Fresh cfg (log ++ e.encryptions) p'.1 p'.2 := by
  cases step with
  | searchedAtServer row server limit => exact fresh.search h valid server limit
  | searchedAtClient row client limit =>
    rw [show (Event.searched (M.searchRow cfg row) none [] : Event KeyTerm).encryptions = [] from rfl,
      List.append_nil]
    exact fresh
  | updated j u IPrime st fetched => exact fresh.update h (size.tiled.block_lt valid) left _

end Step

/-! ### The encryptions of the setup -/

/-- The encryptions of the setup, all counters 1. -/
def setupEncryptions (cfg : Config) : List (Encryption KeyTerm) :=
  (List.range (cfg.matrixColSize / cfg.matrixPieceColSize)).flatMap fun i =>
    (List.range cfg.matrixRowSize).flatMap fun r =>
      (List.range (8 * cfg.matrixPieceColSize / cfg.encryptBlockSize)).map fun n =>
        ⟨some (r, 1), 8 * cfg.matrixPieceColSize / cfg.encryptBlockSize * i + n, 1⟩

section Setup

variable {cfg : Config} (size : cfg.Sized) (pieces : cfg.Pieces)
include size pieces

theorem createEncryptedMatrix_encryptions {F : KeyTerm → Nat → Nat → Buf}
    {kwFilePair : Nat → List Nat} {I : Matrix} {log : List (Encryption KeyTerm)}
    (created : createEncryptedMatrix cfg (termCipher F) kwFilePair (fun _ => 1) (fun _ => 1) =
      some (I, log)) : log = setupEncryptions cfg := by
  obtain ⟨piece, -, eq⟩ := createEncryptedMatrix_eq size (termCipher F) kwFilePair
    (fun _ => 1) (fun _ => 1)
  cases eq.symm.trans created
  unfold setupEncryptions
  refine congrArg (List.flatMap · _) (funext fun i => ?_)
  rw [encryptPiece_encryptions size.blockSize pieces, Nat.mul_comm cfg.matrixPieceColSize 8]
  rfl

/-- The pieces hold a whole number of blocks and together all of them. -/
theorem pieceBlocks_mul :
    8 * cfg.matrixPieceColSize / cfg.encryptBlockSize *
      (cfg.matrixColSize / cfg.matrixPieceColSize) = cfg.numBlocks := by
  obtain ⟨n, hn⟩ := pieces.cols
  obtain ⟨q, hq⟩ := pieces.blocks
  have hN : cfg.maxNumOfFiles = cfg.encryptBlockSize * (q * n) := by
    rw [← size.tiled.matrixColSize_mul, hn, ← Nat.mul_assoc, hq, Nat.mul_assoc]
  rw [hq, hn, Nat.mul_div_cancel_left _ size.tiled.pos, Nat.mul_div_cancel_left _ pieces.pos,
    Config.numBlocks, hN, Nat.mul_div_cancel_left _ size.tiled.pos]

theorem mem_setupEncryptions {e : Encryption KeyTerm} (mem : e ∈ setupEncryptions cfg) :
    ∃ r b, r < cfg.matrixRowSize ∧ b < cfg.numBlocks ∧ e = ⟨some (r, 1), b, 1⟩ := by
  unfold setupEncryptions at mem
  simp only [List.mem_flatMap, List.mem_map, List.mem_range] at mem
  obtain ⟨i, hi, r, hr, n, hn, rfl⟩ := mem
  refine ⟨r, _, hr, ?_, rfl⟩
  rw [← pieceBlocks_mul size pieces, Nat.mul_comm, Nat.mul_comm (_ / cfg.encryptBlockSize)]
  exact tile_lt hi hn

/-- Every cell is encrypted by the setup. -/
theorem cell_mem_setupEncryptions {r b : Nat} (hr : r < cfg.matrixRowSize)
    (hb : b < cfg.numBlocks) : ⟨some (r, 1), b, 1⟩ ∈ setupEncryptions cfg := by
  rw [← pieceBlocks_mul size pieces] at hb
  unfold setupEncryptions
  set q := 8 * cfg.matrixPieceColSize / cfg.encryptBlockSize
  have pos : 0 < q := Nat.pos_of_mul_pos_right (Nat.lt_of_le_of_lt (Nat.zero_le b) hb)
  simp only [List.mem_flatMap, List.mem_map, List.mem_range]
  refine ⟨b / q, Nat.div_lt_of_lt_mul hb, r, hr, b % q, Nat.mod_lt b pos, ?_⟩
  rw [Nat.div_add_mod]

omit size pieces in
theorem setupEncryptions_nodup : (setupEncryptions cfg).Nodup := by
  unfold setupEncryptions
  set q := 8 * cfg.matrixPieceColSize / cfg.encryptBlockSize
  rw [List.nodup_flatMap]
  constructor
  · intro i _
    rw [List.nodup_flatMap]
    constructor
    · intro r _
      refine List.Nodup.map_on ?_ List.nodup_range
      intro n _ n' _ same
      exact Nat.add_left_cancel (congrArg Encryption.blockIdx same)
    · refine List.nodup_range.pairwise_of_forall_ne ?_
      intro r _ r' _ ne e mem mem'
      obtain ⟨n, -, rfl⟩ := List.mem_map.mp mem
      obtain ⟨n', -, same⟩ := List.mem_map.mp mem'
      exact ne (Prod.mk.inj (Option.some.inj (congrArg Encryption.key same))).1.symm
  · refine List.nodup_range.pairwise_of_forall_ne ?_
    intro i _ i' _ ne e mem mem'
    simp only [List.mem_flatMap, List.mem_map, List.mem_range] at mem mem'
    obtain ⟨r, -, n, hn, rfl⟩ := mem
    obtain ⟨r', -, n', hn', same⟩ := mem'
    -- the piece of a block is its index divided by the blocks of a piece
    have block : q * i' + n' = q * i + n := congrArg Encryption.blockIdx same
    rw [Nat.mul_comm q, Nat.mul_comm q] at block
    have piece := congrArg (· / q) block
    simp only [tile_div hn, tile_div hn'] at piece
    exact ne piece.symm

end Setup

/-! ### Whole runs -/

section Run

variable {cfg : Config} (size : cfg.Sized) (pieces : cfg.Pieces)
include size pieces

/-- The setup starts fresh. -/
theorem fresh_built (F : KeyTerm → Nat → Nat → Buf) (I : Matrix) :
    Fresh cfg (setupEncryptions cfg) ((builtServer I).cells cfg)
      (builtClient cfg (termCipher F)) where
  nodup := setupEncryptions_nodup
  below e mem := by
    obtain ⟨r, b, hr, hb, rfl⟩ := mem_setupEncryptions size pieces mem
    exact ⟨r, 1, rfl, hr, hb, Or.inr ⟨rfl, Nat.le_of_eq (fetchedCounter_one _ rfl).symm⟩⟩
  bounded _ _ := show 1 ≤ ulongMax by decide

omit size pieces in
/-- In a run in which no block is updated up to its counter's limit, no update is at it. -/
theorem along_below_limit {σ Key : Type} {cr : Cipher Key}
    {srv : Machine σ (Command Key) (Response Key)} {p : σ × IndexClient Key}
    {steps : List IndexStep}
    (few : ∀ b, p.2.blockCounterArr b + steps.countP (IndexStep.updates cfg b) ≤ ulongMax) :
    (indexMachine cfg cr srv).Along (fun p i => ∀ j u, i = .update j u →
      p.2.blockCounterArr (j / cfg.encryptBlockSize) ≠ ulongMax) p steps := by
  induction steps generalizing p with
  | nil => trivial
  | cons i steps ih =>
    constructor
    · rintro j u rfl
      have := few (j / cfg.encryptBlockSize)
      rw [List.countP_cons_of_pos (by simp [IndexStep.updates])] at this
      omega
    · intro p' e step
      refine ih fun b => ?_
      have := few b
      rw [List.countP_cons] at this
      rw [step_blockCounterArr step b]
      split
      · next h =>
        rw [h] at this
        have next := Nat.mod_le (p.2.blockCounterArr b + 1) (2 ^ 64)
        simp only [nextCounter, if_true] at next this ⊢
        omega
      · omega

omit size pieces in
/-- A run in which no block is updated up to its counter's limit stays below it. -/
theorem along_counterLeft {σ : Type} {cr : Cipher KeyTerm}
    {srv : Machine σ (Command KeyTerm) (Response KeyTerm)} {p : σ × IndexClient KeyTerm}
    {steps : List IndexStep}
    (few : ∀ b, p.2.blockCounterArr b + steps.countP (IndexStep.updates cfg b) ≤ ulongMax) :
    (indexMachine cfg cr srv).Along (fun p i => CounterLeft cfg p.2 i) p steps := by
  refine (along_below_limit few).imp fun p i left => ?_
  cases i with
  | search row => trivial
  | update j u => exact left j u rfl

/-- No two encryptions of a run, the setup's included, use the same row key, block
and block counter, as long as no block is updated at the limit of its counter. -/
theorem encryptions_nodup {F : KeyTerm → Nat → Nat → Buf} {kwFilePair : Nat → List Nat}
    {I : Matrix} {log : List (Encryption KeyTerm)}
    (created : createEncryptedMatrix cfg (termCipher F) kwFilePair (fun _ => 1) (fun _ => 1) =
      some (I, log))
    {steps : List IndexStep} (valid : ∀ i ∈ steps, i.Valid cfg)
    (left : (indexMachine cfg (termCipher F) (ramServer cfg (termCipher F))).Along
      (fun p i => CounterLeft cfg p.2 i) (builtServer I, builtClient cfg (termCipher F)) steps) :
    (log ++ ((indexMachine cfg (termCipher F) (ramServer cfg (termCipher F))).outputs
      (builtServer I, builtClient cfg (termCipher F)) steps).flatMap Event.encryptions).Nodup := by
  obtain ⟨I', log', created', encrypted⟩ :=
    createEncryptedMatrix_encrypted size pieces (termCipher F) kwFilePair (fun _ => 1) (fun _ => 1)
  cases created'.symm.trans created
  obtain ⟨ran, ⟨s', c'⟩, pre, along, run, outs⟩ := Machine.executed_prefix left
  have start : ∃ M, Consistent cfg (termCipher F) M ((builtServer I).cells cfg)
      (builtClient cfg (termCipher F)) ∧
      Fresh cfg (log ++ List.flatMap Event.encryptions []) ((builtServer I).cells cfg)
        (builtClient cfg (termCipher F)) := by
    refine ⟨_, consistent_built encrypted, ?_⟩
    rw [createEncryptedMatrix_encryptions size pieces created, List.flatMap_nil, List.append_nil]
    exact fresh_built size pieces F I
  have inv := (ramRefinement size.tiled (termCipher F)).run_invariant size
    (fun past t c => ∃ M, Consistent cfg (termCipher F) M t c ∧
      Fresh cfg (log ++ past.flatMap Event.encryptions) t c)
    (fun past t c i p' e inv good valid step => ?_) rfl start
    (fun i mem => valid i (pre.subset mem)) along run
  · obtain ⟨t, -, M, -, fresh⟩ := inv
    rw [← outs]
    exact fresh.nodup
  · obtain ⟨M, h, fresh⟩ := inv
    have stepped := stepped_of_step size h valid step
    obtain ⟨M', -, h'⟩ := stepped.agrees size h valid
    refine ⟨M', h', ?_⟩
    rw [List.flatMap_append, List.flatMap_singleton, ← List.append_assoc]
    exact stepped.fresh size h valid good fresh

end Run

theorem encryptions_nodup_small :
    ∃ I log, createEncryptedMatrix (wideConfig 4 false) smallCipher smallPairs (fun _ => 1)
        (fun _ => 1) = some (I, log) ∧
      (log ++ ((indexMachine (wideConfig 4 false) smallCipher
        (ramServer (wideConfig 4 false) smallCipher)).outputs (builtServer I,
          builtClient (wideConfig 4 false) smallCipher) smallSteps).flatMap
            Event.encryptions).Nodup := by
  have size := wideConfig_sized (B := 4) false (by decide) (by decide)
  have pieces := wideConfig_pieces (B := 4) false (by decide)
  obtain ⟨I, log, created, -⟩ :=
    createEncryptedMatrix_encrypted size pieces smallCipher smallPairs (fun _ => 1) (fun _ => 1)
  refine ⟨I, log, created, encryptions_nodup size pieces created (smallSteps_valid_wide 4 false) ?_⟩
  refine along_counterLeft fun b => ?_
  have few : smallSteps.countP (IndexStep.updates (wideConfig 4 false) b) ≤ 5 :=
    List.countP_le_length
  exact Nat.le_trans (Nat.add_le_add_left few 1) (by decide)

/-! ### The counter wraps -/

/-- The `n + 1`-st update of a block encrypts under the block counter `n + 1` steps
on, modulo its width. -/
theorem mem_encryptions_replicate {cfg : Config} (size : cfg.Sized) {F : KeyTerm → Nat → Nat → Buf}
    {M : Plain} {s : CellStore} {c : IndexClient KeyTerm}
    (h : Consistent cfg (termCipher F) M s c) {j r : Nat} (hr : r < cfg.matrixRowSize)
    (u : ColumnUpdate) (n : Nat) :
    ⟨some (r, c.keywordCounterArr r), j / cfg.encryptBlockSize,
        (c.blockCounterArr (j / cfg.encryptBlockSize) + (n + 1)) % 2 ^ 64⟩ ∈
      ((indexMachine cfg (termCipher F) (cellStore cfg (termCipher F))).outputs (s, c)
        (List.replicate (n + 1) (.update j u))).flatMap Event.encryptions := by
  induction n generalizing M s c with
  | zero =>
    obtain ⟨IPrime, st, fetched, step⟩ := updateColumn_store size h u (j := j)
    rw [List.replicate_succ, Machine.outputs_cons_of_step _ step, List.flatMap_cons]
    exact List.mem_append_left _ (List.mem_map.mpr ⟨r, List.mem_range.mpr hr, rfl⟩)
  | succ n ih =>
    obtain ⟨IPrime, st, fetched, step⟩ := updateColumn_store size h u (j := j)
    rw [List.replicate_succ, Machine.outputs_cons_of_step _ step, List.flatMap_cons]
    have later := ih (h.update size u fetched)
    rw [IndexClient.countUpdate_keywordCounterArr, IndexClient.countUpdate_self, nextCounter,
      Nat.mod_add_mod, Nat.add_assoc, Nat.add_comm 1] at later
    exact List.mem_append_right _ later

/-- After 2^64 updates of its block a cell is encrypted a second time under the
counters of the setup. -/
theorem encryptions_repeat :
    ∃ I log, createEncryptedMatrix (smallConfig 1 false) smallCipher smallPairs (fun _ => 1)
        (fun _ => 1) = some (I, log) ∧
      (∀ i ∈ List.replicate (ulongMax + 1) (IndexStep.update 0 .del),
        i.Valid (smallConfig 1 false)) ∧
      ¬ (log ++ ((indexMachine (smallConfig 1 false) smallCipher
        (ramServer (smallConfig 1 false) smallCipher)).outputs (builtServer I,
          builtClient (smallConfig 1 false) smallCipher)
            (List.replicate (ulongMax + 1) (.update 0 .del))).flatMap Event.encryptions).Nodup := by
  have size := smallConfig_sized (B := 1) false (by decide) (by decide)
  have pieces := smallConfig_pieces (B := 1) false (by decide)
  obtain ⟨I, log, created, encrypted⟩ :=
    createEncryptedMatrix_encrypted size pieces smallCipher smallPairs (fun _ => 1) (fun _ => 1)
  have valid : ∀ i ∈ List.replicate (ulongMax + 1) (IndexStep.update 0 .del),
      i.Valid (smallConfig 1 false) := by
    intro i mem
    rw [List.eq_of_mem_replicate mem]
    exact Nat.zero_lt_succ 7
  refine ⟨I, log, created, valid, fun nodup => ?_⟩
  have first : ⟨some (0, 1), 0, 1⟩ ∈ log := by
    rw [createEncryptedMatrix_encryptions size pieces created]
    decide
  obtain ⟨same, -⟩ := (ramRefinement size.tiled smallCipher).indexMachine_outputs size.tiled
    (s := builtServer I) rfl (builtClient (smallConfig 1 false) smallCipher) valid
  have again := mem_encryptions_replicate size (consistent_built encrypted)
    (j := 0) (r := 0) (Nat.zero_lt_succ 7) .del ulongMax
  rw [same] at nodup
  exact (List.nodup_append'.mp nodup).2.2 first again

end ImDsse
