import ImDsse.ForwardPrivacy
import ImDsse.Wire

/-!
What the server can learn from a whole history of setup, searches and updates.

Two histories have the `SameView` when one translation of the keystream, that
leaves alone the keys in the search tokens, takes every view of the first to the
same view of the second. Translating twice changes nothing, so under a keystream
chosen uniformly both histories show any view equally often, to a server that
decrypts with the keys it was sent.

Where the client decrypts, this is so for all histories that search the same rows
and update the same blocks in the same order (`client_view_hides`): neither the
files nor what becomes of a column can be told. Where the server decrypts, it is so
just when every row that is searched again reads the same (`server_view_hides`):
what happens to a row after its last search stays hidden.
-/

namespace ImDsse

open Kit Kit.Loop Kit.Bits

/-! ### Views -/

/-- What a step cannot hide: the row it searches or the block it updates. -/
inductive Leak where
  | search (row : Nat)
  | update (blockIndex : Nat)
deriving DecidableEq, Repr

def IndexStep.leak (cfg : Config) : IndexStep → Leak
  | .search row => .search row
  | .update column _ => .update (column / cfg.encryptBlockSize)

/-- What a request shows of its step. Fetching a block shows nothing that sending it
back does not. -/
def Command.leak {Key : Type} : Command Key → Option Leak
  | .searchOperation tau => some (.search tau.rowIndex)
  | .requestSearchData row => some (.search row)
  | .requestBlockData _ => none
  | .updateBlockData b _ => some (.update b)

/-- The keys in a request. -/
def Command.keys {Key : Type} : Command Key → List Key
  | .searchOperation tau => [tau.rowKey, tau.rowOldKey]
  | _ => []

/-- The keys sent in exchanges. -/
def exchangeKeys {Key : Type} (x : List (List (Command Key × Reply))) : List Key :=
  x.flatten.flatMap fun e => e.1.keys

theorem not_mem_exchangeKeys_nil {Key : Type} (key : Key) : key ∉ exchangeKeys [] :=
  List.not_mem_nil

theorem mem_exchangeKeys_cons {Key : Type} (key : Key) (x : List (Command Key × Reply))
    (xs : List (List (Command Key × Reply))) :
    key ∈ exchangeKeys (x :: xs) ↔ key ∈ exchangeKeys [x] ∨ key ∈ exchangeKeys xs := by
  unfold exchangeKeys
  rw [List.flatten_cons, List.flatMap_append, List.mem_append, List.flatten_singleton]

/-- The uploaded matrix row by row, and the exchanges of each step. -/
structure ServerView where
  rows : List (List Byte)
  exchanges : List (List (Command KeyTerm × Reply))

/-- A keystream block for every key, block index and block counter. -/
abbrev Keystream := KeyTerm → Nat → Nat → Buf

namespace Keystream

/-- Translate a keystream. -/
def mask (F δ : Keystream) : Keystream := fun key b n i => F key b n i ^^^ δ key b n i

theorem ks_mask (F δ : Keystream) (key : KeyTerm) (b n k : Nat) :
    (termCipher (F.mask δ)).ks key b n k = ((termCipher F).ks key b n k ^^ bit (δ key b n) k) :=
  bit_xor _ _ k

end Keystream

/-- What the server sees of a setup and the steps after it. -/
def serverView (cfg : Config) (F : Keystream) (kwFilePair : Nat → List Nat)
    (steps : List IndexStep) : Option ServerView :=
  (createEncryptedMatrix cfg (termCipher F) kwFilePair (fun _ => 1) fun _ => 1).map fun (I, _) =>
    { rows := (List.range cfg.matrixRowSize).map fun r => toBytes (I r) cfg.matrixColSize
      exchanges := (wireMachine cfg (termCipher F) (ramServer cfg (termCipher F))).outputs
        (builtServer I, builtClient cfg (termCipher F)) steps }

/-- One translation of the keystream, of keys the server is not sent, takes every view
of the first history to the same view of the second. -/
def SameView (cfg : Config) (kwFilePair₁ : Nat → List Nat) (steps₁ : List IndexStep)
    (kwFilePair₂ : Nat → List Nat) (steps₂ : List IndexStep) : Prop :=
  ∃ δ : Keystream, ∀ F : Keystream, ∃ v, serverView cfg F kwFilePair₁ steps₁ = some v ∧
    serverView cfg (F.mask δ) kwFilePair₂ steps₂ = some v ∧
      ∀ key ∈ exchangeKeys v.exchanges, δ key = fun _ _ => zeroBuf

/-- A row that is searched from step `n` on reads the same in both before step `n`. -/
def AgreeUntilSearched (cfg : Config) (M₁ M₂ : Plain) (steps₁ steps₂ : List IndexStep) : Prop :=
  ∀ n r j, r < cfg.matrixRowSize → j < cfg.maxNumOfFiles →
    (∃ i ∈ steps₁.drop n, i.searches r = true) →
      M₁.after (steps₁.take n) r j = M₂.after (steps₂.take n) r j

/-! ### The counters of a run -/

section Leak

variable {cfg : Config}

def Leak.updates (b : Nat) : Leak → Bool
  | .search _ => false
  | .update b' => b' = b

theorem updates_eq_leak (b : Nat) (i : IndexStep) : i.updates cfg b = (i.leak cfg).updates b := by
  cases i <;> rfl

/-- Histories that leak the same update every block equally often. -/
theorem countP_updates_of_leak {steps₁ steps₂ : List IndexStep}
    (same : steps₁.map (IndexStep.leak cfg) = steps₂.map (IndexStep.leak cfg)) (b : Nat) :
    steps₁.countP (IndexStep.updates cfg b) = steps₂.countP (IndexStep.updates cfg b) := by
  have count : ∀ steps : List IndexStep, steps.countP (IndexStep.updates cfg b) =
      (steps.map (IndexStep.leak cfg)).countP (Leak.updates b) := fun steps => by
    rw [List.countP_map]
    exact List.countP_congr fun i _ => by rw [updates_eq_leak, Function.comp_apply]
  rw [count, count, same]

end Leak

/-- The counters of the client after `steps` from the setup on. The block counter wraps. -/
structure Counted (cfg : Config) (c : IndexClient KeyTerm) (steps : List IndexStep) : Prop where
  keyword : ∀ r, r < cfg.matrixRowSize → c.keywordCounterArr r =
    if cfg.decryptAtClientSide then 1 else 1 + steps.countP (IndexStep.searches r)
  block : ∀ b, b < cfg.numBlocks →
    c.blockCounterArr b = (1 + steps.countP (IndexStep.updates cfg b)) % 2 ^ 64

theorem counted_built (cfg : Config) (F : Keystream) :
    Counted cfg (builtClient cfg (termCipher F)) [] where
  keyword r _ := by simp [builtClient]
  block b _ := by simp [builtClient]

theorem Wired.counted {cfg : Config} {F : Keystream} {M : Plain} {s : CellStore}
    {c : IndexClient KeyTerm} {i : IndexStep} {p' : CellStore × IndexClient KeyTerm}
    {x : List (Command KeyTerm × Reply)} (step : Wired cfg (termCipher F) s c i p' x)
    (h : Consistent cfg (termCipher F) M s c) {pre : List IndexStep} (count : Counted cfg c pre) :
    Counted cfg p'.2 (pre ++ [i]) := by
  cases step with
  | searchedAtServer row server limit =>
    refine ⟨fun r hr => ?_, fun b hb => ?_⟩
    · have before := count.keyword r hr
      rw [server, if_neg (by decide)] at before ⊢
      rw [List.countP_append, List.countP_singleton]
      by_cases hrow : r = row
      · subst hrow
        have max := (h.searched r hr).2
        rw [c.countSearch_self, nextCounter_of_lt (Nat.lt_of_le_of_ne max limit), before]
        simp [IndexStep.searches, Nat.add_assoc]
      · rw [c.countSearch_of_ne row hrow, before]
        simp [IndexStep.searches, Ne.symm hrow]
    · rw [c.countSearch_blockCounterArr, count.block b hb, List.countP_append]
      simp [IndexStep.updates]
  | searchedAtClient row client limit =>
    refine ⟨fun r hr => ?_, fun b hb => ?_⟩
    · rw [count.keyword r hr, client, if_pos rfl, if_pos rfl]
    · rw [count.block b hb, List.countP_append]
      simp [IndexStep.updates]
  | updated j u IPrime st fetched =>
    refine ⟨fun r hr => ?_, fun b hb => ?_⟩
    · rw [c.countUpdate_keywordCounterArr, count.keyword r hr, List.countP_append]
      simp [IndexStep.searches]
    · rw [List.countP_append, List.countP_singleton]
      by_cases hbb : j / cfg.encryptBlockSize = b
      · subst hbb
        rw [c.countUpdate_self, nextCounter, count.block _ hb]
        simp [IndexStep.updates]
        omega
      · rw [c.countUpdate_of_ne _ (Ne.symm hbb), count.block b hb]
        simp [IndexStep.updates, hbb]

/-! ### The translation -/

/-- The plaintext just before update `n` of block `b`, counted from zero. -/
def Plain.beforeUpdate (cfg : Config) (b : Nat) : Plain → List IndexStep → Nat → Plain
  | M, [], _ => M
  | M, i :: steps, n =>
    if i.updates cfg b then
      match n with
      | 0 => M
      | n + 1 => Plain.beforeUpdate cfg b (M.apply i) steps n
    else Plain.beforeUpdate cfg b (M.apply i) steps n

/-- The keyword counter of a row at the end of a run. -/
def lastCounter (cfg : Config) (steps : List IndexStep) (r : Nat) : Nat :=
  if cfg.decryptAtClientSide then 1 else 1 + steps.countP (IndexStep.searches r)

/-- Where the plaintexts differ, under the last key of each row. Block counter `n` is the
counter after `n - 1` updates. -/
def leakMask (cfg : Config) (M₁ M₂ : Plain) (steps₁ steps₂ : List IndexStep) : Keystream
  | none, _, _ => zeroBuf
  | some (r, k), b, n =>
    if k = lastCounter cfg steps₁ r then
      packBuf fun i =>
        M₁.beforeUpdate cfg b steps₁ ((n + ulongMax) % 2 ^ 64) r (b * cfg.encryptBlockSize + i) ^^
          M₂.beforeUpdate cfg b steps₂ ((n + ulongMax) % 2 ^ 64) r (b * cfg.encryptBlockSize + i)
    else zeroBuf

section Plaintext

variable {cfg : Config} {b r j : Nat}

/-- A step that does not update a block leaves its columns. -/
theorem Plain.apply_of_not_updates (M : Plain) {i : IndexStep} (other : i.updates cfg b = false)
    (hj : j / cfg.encryptBlockSize = b) : M.apply i r j = M r j := by
  cases i with
  | search row => rfl
  | update j' u =>
    refine if_neg ?_
    rintro rfl
    simp [IndexStep.updates, hj] at other

/-- Before the first update a block is as it was. -/
theorem Plain.beforeUpdate_zero (M : Plain) (steps : List IndexStep)
    (hj : j / cfg.encryptBlockSize = b) : M.beforeUpdate cfg b steps 0 r j = M r j := by
  induction steps generalizing M with
  | nil => rfl
  | cons i steps ih =>
    unfold Plain.beforeUpdate
    cases hi : i.updates cfg b with
    | true => rfl
    | false => exact (ih _).trans (M.apply_of_not_updates hi hj)

/-- A block is determined by the number of its updates. -/
theorem Plain.beforeUpdate_countP (M : Plain) (pre rest : List IndexStep)
    (hj : j / cfg.encryptBlockSize = b) :
    M.beforeUpdate cfg b (pre ++ rest) (pre.countP (IndexStep.updates cfg b)) r j =
      M.after pre r j := by
  induction pre generalizing M with
  | nil => exact M.beforeUpdate_zero rest hj
  | cons i pre ih =>
    rw [List.cons_append]
    unfold Plain.beforeUpdate
    cases hi : i.updates cfg b with
    | true =>
      rw [List.countP_cons_of_pos hi, if_pos rfl]
      exact ih _
    | false =>
      rw [List.countP_cons_of_neg (by simp [hi]), if_neg (by decide)]
      exact ih _

theorem Plain.after_append (M : Plain) (pre : List IndexStep) (i : IndexStep) :
    M.after (pre ++ [i]) = (M.after pre).apply i := by
  unfold Plain.after
  rw [List.foldl_append]
  rfl

end Plaintext

/-- The translation is the difference of the plaintexts wherever the index is now. -/
def Masks (cfg : Config) (δ : Keystream) (M₁ M₂ : Plain) (s : CellStore)
    (c : IndexClient KeyTerm) : Prop :=
  ∀ r j, r < cfg.matrixRowSize → j < cfg.maxNumOfFiles →
    bit (δ (some (r, fetchedCounter c.keywordCounterArr
      (fun r => s.state r (j / cfg.encryptBlockSize)) r)) (j / cfg.encryptBlockSize)
        (c.blockCounterArr (j / cfg.encryptBlockSize))) (j % cfg.encryptBlockSize) =
      (M₁ r j ^^ M₂ r j)

/-- Cells that were not updated since their row was last searched read the same. -/
def StaleAgree (cfg : Config) (M₁ M₂ : Plain) (s : CellStore) (c : IndexClient KeyTerm) : Prop :=
  ∀ r j, r < cfg.matrixRowSize → j < cfg.maxNumOfFiles →
    stale c.keywordCounterArr (fun r => s.state r (j / cfg.encryptBlockSize)) r = true →
      M₁ r j = M₂ r j

section TwoRuns

variable {cfg : Config} {F δ : Keystream} {M₁ M₂ : Plain} {s : CellStore}
  {c : IndexClient KeyTerm}

/-- The translated keystream makes the same index one of the other plaintext. -/
theorem Consistent.masked (h : Consistent cfg (termCipher F) M₁ s c)
    (masks : Masks cfg δ M₁ M₂ s c) : Consistent cfg (termCipher (F.mask δ)) M₂ s c where
  cells r j hr hj := by
    rw [h.cells r j hr hj, Keystream.ks_mask]
    have here := masks r j hr hj
    unfold termCipher at here ⊢
    rw [here]
    cases M₁ r j <;> cases M₂ r j <;> simp
  counters := h.counters
  searched := h.searched
  pinned := h.pinned

/-- A search does not notice a translation of other keys. -/
theorem search_masked (cfg : Config) (F : Keystream) (s : CellStore) (tau : SearchToken KeyTerm)
    (quiet : ∀ key ∈ [tau.rowKey, tau.rowOldKey], δ key = fun _ _ => zeroBuf) :
    s.search cfg (termCipher (F.mask δ)) tau = s.search cfg (termCipher F) tau ∧
      s.found cfg (termCipher (F.mask δ)) tau = s.found cfg (termCipher F) tau := by
  have ks : ∀ key ∈ [tau.rowKey, tau.rowOldKey], ∀ b n k,
      (termCipher (F.mask δ)).ks key b n k = (termCipher F).ks key b n k := by
    intro key mem b n k
    rw [Keystream.ks_mask, quiet key mem, bit_zeroBuf, Bool.xor_false]
  have plain : ∀ j, s.plainBit cfg (termCipher (F.mask δ)) tau j =
      s.plainBit cfg (termCipher F) tau j := by
    intro j
    unfold CellStore.plainBit
    dsimp only
    rw [ks]
    split <;> simp
  constructor
  · unfold CellStore.search
    simp only [plain, ks tau.rowKey List.mem_cons_self]
  · unfold CellStore.found
    rw [funext plain]

/-- A block that is sent back is what the store holds of it afterwards. -/
theorem bit_sentBlock (size : cfg.Sized) {cr : Cipher KeyTerm} (j : Nat) (u : ColumnUpdate)
    (IPrime : Buf) (st : Nat → Bool) (k : Nat)
    (hk : k < cfg.matrixRowSize * cfg.encryptBlockSize) :
    bit (recodeBlock cfg cr c (j / cfg.encryptBlockSize) j u IPrime st).1 k =
      (s.update cfg (j / cfg.encryptBlockSize) (sentBlock cfg cr c j u IPrime st)).cell
        (k / cfg.encryptBlockSize)
        (j / cfg.encryptBlockSize * cfg.encryptBlockSize + k % cfg.encryptBlockSize) := by
  have hi := Nat.mod_lt k size.tiled.pos
  have hr : k / cfg.encryptBlockSize < cfg.matrixRowSize :=
    Nat.div_lt_of_lt_mul (by rwa [Nat.mul_comm] at hk)
  rw [CellStore.update_cell, tile_div hi, tile_mod hi, if_pos ⟨hr, rfl⟩, sentBlock,
    bit_ofBytes_toBytes, Nat.div_add_mod', size.blockBytes_mul, if_pos hk]

/-- Both runs send the same block back when the translation is right for the block it
leads to. -/
theorem sentBlock_masked (size : cfg.Sized) (h₁ : Consistent cfg (termCipher F) M₁ s c)
    (h₂ : Consistent cfg (termCipher (F.mask δ)) M₂ s c) {j₁ j₂ : Nat}
    (same : j₁ / cfg.encryptBlockSize = j₂ / cfg.encryptBlockSize) (hj₁ : j₁ < cfg.maxNumOfFiles)
    (u₁ u₂ : ColumnUpdate) {IPrime₁ IPrime₂ : Buf} {st₁ st₂ : Nat → Bool}
    (fetched₁ : Fetched cfg s (j₁ / cfg.encryptBlockSize) IPrime₁ st₁)
    (fetched₂ : Fetched cfg s (j₂ / cfg.encryptBlockSize) IPrime₂ st₂)
    (masks : Masks cfg δ (M₁.setColumn j₁ u₁.newCol) (M₂.setColumn j₂ u₂.newCol)
      (s.update cfg (j₁ / cfg.encryptBlockSize)
        (sentBlock cfg (termCipher F) c j₁ u₁ IPrime₁ st₁))
      (c.countUpdate (j₁ / cfg.encryptBlockSize))) :
    sentBlock cfg (termCipher F) c j₁ u₁ IPrime₁ st₁ =
      sentBlock cfg (termCipher (F.mask δ)) c j₂ u₂ IPrime₂ st₂ := by
  refine toBytes_congr_bit fun k hk => ?_
  rw [size.blockBytes_mul] at hk
  have hi := Nat.mod_lt k size.tiled.pos
  have hr : k / cfg.encryptBlockSize < cfg.matrixRowSize :=
    Nat.div_lt_of_lt_mul (by rwa [Nat.mul_comm] at hk)
  have hcol := size.tiled.col_lt (size.tiled.block_lt hj₁) hi
  have cell₁ := (h₁.update size u₁ fetched₁).masked masks |>.cells _ _ hr hcol
  have cell₂ := (h₂.update size u₂ fetched₂).cells _ _ hr (same ▸ hcol)
  rw [bit_sentBlock (s := s) size j₁ u₁ IPrime₁ st₁ k hk,
    bit_sentBlock (s := s) size j₂ u₂ IPrime₂ st₂ k hk]
  unfold sentBlock
  -- the states and counters a block is under do not depend on its bytes
  rw [cell₁, cell₂, ← same]
  rfl

/-- A step of the one run on the wire is the step of the other that leaks the same, when
the translation leaves its token alone and is right after it. -/
theorem Wired.masked (size : cfg.Sized) (h₁ : Consistent cfg (termCipher F) M₁ s c)
    (h₂ : Consistent cfg (termCipher (F.mask δ)) M₂ s c) {i₁ i₂ : IndexStep}
    {p' : CellStore × IndexClient KeyTerm} {x : List (Command KeyTerm × Reply)}
    (step : Wired cfg (termCipher F) s c i₁ p' x) (leak : i₁.leak cfg = i₂.leak cfg)
    (valid₁ : i₁.Valid cfg) (valid₂ : i₂.Valid cfg)
    (quiet : ∀ key ∈ exchangeKeys [x], δ key = fun _ _ => zeroBuf)
    (masks : Masks cfg δ (M₁.apply i₁) (M₂.apply i₂) p'.1 p'.2) :
    (wireMachine cfg (termCipher (F.mask δ)) (cellStore cfg (termCipher (F.mask δ)))).step (s, c)
      i₂ = some (p', x) := by
  cases step with
  | searchedAtServer row server limit =>
    cases i₂ with
    | update => cases leak
    | search row' =>
      cases leak
      obtain ⟨search, found⟩ := search_masked cfg F s
        (freshToken (termCipher F) c.keywordCounterArr row) quiet
      rw [wire_search_server server limit, ← search, ← found]
      rfl
  | searchedAtClient row client limit =>
    cases i₂ with
    | update => cases leak
    | search row' =>
      cases leak
      exact wire_search_client client limit
  | updated j₁ u₁ IPrime₁ st₁ fetched₁ =>
    cases i₂ with
    | search => cases leak
    | update j₂ u₂ =>
      have same : j₁ / cfg.encryptBlockSize = j₂ / cfg.encryptBlockSize := Leak.update.inj leak
      obtain ⟨IPrime₂, st₂, fetched₂, eq⟩ := wire_update (termCipher (F.mask δ)) s c size j₂ u₂
      rw [eq, ← same, sentBlock_masked size h₁ h₂ same valid₁ u₁ u₂ fetched₁
        fetched₂ masks]

/-- Cells that read the same although they were not updated go on doing so. -/
theorem StaleAgree.step {cr : Cipher KeyTerm} (agree : StaleAgree cfg M₁ M₂ s c)
    (h : Consistent cfg cr M₁ s c) {i₁ i₂ : IndexStep} {p' : CellStore × IndexClient KeyTerm}
    {x : List (Command KeyTerm × Reply)} (step : Wired cfg cr s c i₁ p' x)
    (leak : i₁.leak cfg = i₂.leak cfg)
    (searched : cfg.decryptAtClientSide = false → ∀ r j, r < cfg.matrixRowSize →
      j < cfg.maxNumOfFiles → i₁.searches r = true → M₁ r j = M₂ r j) :
    StaleAgree cfg (M₁.apply i₁) (M₂.apply i₂) p'.1 p'.2 := by
  intro r j hr hj behind
  cases step with
  | searchedAtServer row server limit =>
    cases i₂ with
    | update => cases leak
    | search row' =>
      by_cases hrow : r = row
      · subst hrow
        exact searched server r j hr hj (by simp [IndexStep.searches])
      · refine agree r j hr hj ?_
        unfold stale at behind ⊢
        dsimp only at behind
        rwa [c.countSearch_of_ne row hrow, CellStore.search_state, freshToken_rowIndex,
          if_neg fun hc => hrow hc.1] at behind
  | searchedAtClient row client limit =>
    cases i₂ with
    | update => cases leak
    | search row' => exact agree r j hr hj behind
  | updated j₁ u₁ IPrime st fetched =>
    cases i₂ with
    | search => cases leak
    | update j₂ u₂ =>
      have same : j₁ / cfg.encryptBlockSize = j₂ / cfg.encryptBlockSize := Leak.update.inj leak
      unfold stale at behind
      dsimp only at behind
      rw [c.countUpdate_keywordCounterArr, CellStore.update_state] at behind
      by_cases hin : j / cfg.encryptBlockSize = j₁ / cfg.encryptBlockSize
      · -- an updated cell is behind in neither place of decryption
        exfalso
        cases hd : cfg.decryptAtClientSide with
        | false =>
          rw [if_pos ⟨hd, hr, hin⟩] at behind
          simp at behind
        | true =>
          rw [(h.pinned hd r hr).1] at behind
          simp at behind
      · rw [if_neg fun hc => hin hc.2.2] at behind
        rw [M₁.apply_of_not_updates (b := j / cfg.encryptBlockSize)
            (by simpa [IndexStep.updates] using Ne.symm hin) rfl,
          M₂.apply_of_not_updates (b := j / cfg.encryptBlockSize)
            (by simpa [IndexStep.updates, ← same] using Ne.symm hin) rfl]
        exact agree r j hr hj behind

end TwoRuns

/-! ### Keys in tokens -/

section Keys

variable {cfg : Config} {F : Keystream}

/-- The translation leaves every key alone that is not the last of its row. -/
theorem leakMask_of_ne {M₁ M₂ : Plain} {steps₁ steps₂ : List IndexStep} {key : KeyTerm}
    (ne : ∀ r k, key = some (r, k) → k ≠ lastCounter cfg steps₁ r) :
    leakMask cfg M₁ M₂ steps₁ steps₂ key = fun _ _ => zeroBuf := by
  funext b n
  cases key with
  | none => rfl
  | some p => exact if_neg (ne p.1 p.2 rfl)

/-- A row key that is sent is not the last of its row. -/
theorem Wired.keys_lt {s : CellStore} {c : IndexClient KeyTerm} {i : IndexStep}
    {p' : CellStore × IndexClient KeyTerm} {x : List (Command KeyTerm × Reply)}
    (step : Wired cfg (termCipher F) s c i p' x) (valid : i.Valid cfg) {pre rest : List IndexStep}
    (count : Counted cfg c pre) {r k : Nat} (sent : some (r, k) ∈ exchangeKeys [x]) :
    k < lastCounter cfg (pre ++ i :: rest) r := by
  unfold exchangeKeys at sent
  cases step with
  | searchedAtServer row server limit =>
    have here := count.keyword row valid
    rw [server, if_neg (by decide)] at here
    have bound : c.keywordCounterArr row < lastCounter cfg (pre ++ .search row :: rest) row := by
      rw [here, lastCounter, server, if_neg (by decide), List.countP_append,
        List.countP_cons_of_pos (by simp [IndexStep.searches])]
      omega
    rw [List.flatten_singleton, List.flatMap_singleton] at sent
    have known := mem_tokenKeys_freshToken (F := F) [] [] row r k c.keywordCounterArr
    obtain ⟨rfl, rfl | ⟨-, rfl⟩⟩ := known.mp sent
    · exact bound
    · omega
  | searchedAtClient row client limit => simp [Command.keys] at sent
  | updated j u IPrime st fetched =>
    unfold CellStore.fetchExchange at sent
    split at sent <;> simp [Command.keys] at sent

end Keys

/-! ### Two histories side by side -/

/-- Histories the translation is made for: they leak the same, block counters do not come
back to where they were, and rows to be searched read the same. -/
structure Alike (cfg : Config) (M₁ M₂ : Plain) (steps₁ steps₂ : List IndexStep) : Prop where
  leak : steps₁.map (IndexStep.leak cfg) = steps₂.map (IndexStep.leak cfg)
  valid₁ : ∀ i ∈ steps₁, i.Valid cfg
  valid₂ : ∀ i ∈ steps₂, i.Valid cfg
  left : ∀ b, b < cfg.numBlocks → steps₁.countP (IndexStep.updates cfg b) ≤ ulongMax
  agree : cfg.decryptAtClientSide = false → AgreeUntilSearched cfg M₁ M₂ steps₁ steps₂

/-- The first run after `pre₁`, with what the second has done. -/
structure Reached (cfg : Config) (F : Keystream) (M₁ M₂ : Plain) (pre₁ pre₂ : List IndexStep)
    (s : CellStore) (c : IndexClient KeyTerm) : Prop where
  consistent : Consistent cfg (termCipher F) (M₁.after pre₁) s c
  counted : Counted cfg c pre₁
  stale : StaleAgree cfg (M₁.after pre₁) (M₂.after pre₂) s c

section SideBySide

variable {cfg : Config} (size : cfg.Sized) {F : Keystream} {M₁ M₂ : Plain}
  {pre₁ rest₁ pre₂ rest₂ : List IndexStep} {s : CellStore} {c : IndexClient KeyTerm}

/-- Before a search both rows read the same. -/
theorem Alike.searched (alike : Alike cfg M₁ M₂ (pre₁ ++ rest₁) (pre₂ ++ rest₂))
    (len : pre₁.length = pre₂.length) (server : cfg.decryptAtClientSide = false) {r j : Nat}
    (hr : r < cfg.matrixRowSize) (hj : j < cfg.maxNumOfFiles)
    (later : ∃ i ∈ rest₁, i.searches r = true) : M₁.after pre₁ r j = M₂.after pre₂ r j := by
  have agree := alike.agree server pre₁.length r j hr hj
  rw [List.drop_left, List.take_left, len, List.take_left] at agree
  exact agree later

theorem Alike.leak_pre (alike : Alike cfg M₁ M₂ (pre₁ ++ rest₁) (pre₂ ++ rest₂))
    (len : pre₁.length = pre₂.length) : pre₁.map (IndexStep.leak cfg) =
      pre₂.map (IndexStep.leak cfg) ∧ rest₁.map (IndexStep.leak cfg) =
        rest₂.map (IndexStep.leak cfg) := by
  have leak := alike.leak
  rw [List.map_append, List.map_append] at leak
  exact List.append_inj leak (by rw [List.length_map, List.length_map, len])

include size

/-- At every moment the translation is right for where the index is. -/
theorem Reached.masks (reached : Reached cfg F M₁ M₂ pre₁ pre₂ s c)
    (alike : Alike cfg M₁ M₂ (pre₁ ++ rest₁) (pre₂ ++ rest₂)) (len : pre₁.length = pre₂.length) :
    Masks cfg (leakMask cfg M₁ M₂ (pre₁ ++ rest₁) (pre₂ ++ rest₂)) (M₁.after pre₁)
      (M₂.after pre₂) s c := by
  intro r j hr hj
  have hb := size.tiled.block_lt hj
  set b := j / cfg.encryptBlockSize with hbj
  have updates : (c.blockCounterArr b + ulongMax) % 2 ^ 64 =
      pre₁.countP (IndexStep.updates cfg b) := by
    have all := alike.left b hb
    rw [List.countP_append] at all
    rw [reached.counted.block b hb]
    unfold ulongMax at all ⊢
    omega
  have before₁ := M₁.beforeUpdate_countP (r := r) pre₁ rest₁ hbj.symm
  have before₂ := M₂.beforeUpdate_countP (r := r) pre₂ rest₂ hbj.symm
  rw [← countP_updates_of_leak (alike.leak_pre len).1 b] at before₂
  by_cases last : fetchedCounter c.keywordCounterArr (fun r => s.state r b) r =
      lastCounter cfg (pre₁ ++ rest₁) r
  · rw [leakMask, if_pos last, bit_packBuf, updates, hbj, Nat.div_add_mod', ← hbj, before₁, before₂]
  · rw [leakMask, if_neg last, bit_zeroBuf]
    have same : M₁.after pre₁ r j = M₂.after pre₂ r j := by
      have here := reached.counted.keyword r hr
      unfold lastCounter at last
      cases hd : cfg.decryptAtClientSide with
      | true =>
        rw [hd, if_pos rfl] at here last
        exact absurd (fetchedCounter_one _ here) last
      | false =>
        rw [hd, if_neg (by decide)] at here last
        by_cases later : ∃ i ∈ rest₁, i.searches r = true
        · exact alike.searched len hd hr hj later
        · -- the row is not searched again, so the cell is behind its current key
          have none : rest₁.countP (IndexStep.searches r) = 0 :=
            List.countP_eq_zero.mpr fun i mem hi => later ⟨i, mem, hi⟩
          rw [List.countP_append, none, Nat.add_zero, ← here] at last
          refine reached.stale r j hr hj ?_
          by_contra current
          exact last (if_neg current)
    rw [same, Bool.xor_self]

/-- A step of both runs. -/
theorem Reached.step {i₁ i₂ : IndexStep} (reached : Reached cfg F M₁ M₂ pre₁ pre₂ s c)
    (alike : Alike cfg M₁ M₂ (pre₁ ++ i₁ :: rest₁) (pre₂ ++ i₂ :: rest₂))
    (len : pre₁.length = pre₂.length) {p' : CellStore × IndexClient KeyTerm}
    {x : List (Command KeyTerm × Reply)} (step : Wired cfg (termCipher F) s c i₁ p' x) :
    Reached cfg F M₁ M₂ (pre₁ ++ [i₁]) (pre₂ ++ [i₂]) p'.1 p'.2 := by
  have valid : i₁.Valid cfg := alike.valid₁ i₁ (by simp)
  have leak : i₁.leak cfg = i₂.leak cfg := (List.cons.inj (alike.leak_pre len).2).1
  refine ⟨?_, step.counted reached.consistent reached.counted, ?_⟩
  · rw [Plain.after_append]
    exact step.consistent size reached.consistent valid
  · rw [Plain.after_append, Plain.after_append]
    exact reached.stale.step reached.consistent step leak fun server r j hr hj hi =>
      alike.searched len server hr hj ⟨i₁, List.mem_cons_self, hi⟩

/-- A step that the one run takes is taken by the other with the same exchange, and none
of the keys sent in it is translated. -/
theorem Reached.step_masked {i₁ i₂ : IndexStep} (reached : Reached cfg F M₁ M₂ pre₁ pre₂ s c)
    (alike : Alike cfg M₁ M₂ (pre₁ ++ i₁ :: rest₁) (pre₂ ++ i₂ :: rest₂))
    (len : pre₁.length = pre₂.length) {δ : Keystream}
    (hδ : leakMask cfg M₁ M₂ (pre₁ ++ i₁ :: rest₁) (pre₂ ++ i₂ :: rest₂) = δ)
    {p' : CellStore × IndexClient KeyTerm} {x : List (Command KeyTerm × Reply)}
    (step : Wired cfg (termCipher F) s c i₁ p' x) :
    (wireMachine cfg (termCipher (F.mask δ)) (cellStore cfg (termCipher (F.mask δ)))).step (s, c)
        i₂ = some (p', x) ∧
      ∀ key ∈ exchangeKeys [x], δ key = fun _ _ => zeroBuf := by
  have leak : i₁.leak cfg = i₂.leak cfg := (List.cons.inj (alike.leak_pre len).2).1
  have valid₁ : i₁.Valid cfg := alike.valid₁ i₁ (by simp)
  have valid₂ : i₂.Valid cfg := alike.valid₂ i₂ (by simp)
  have quiet : ∀ key ∈ exchangeKeys [x], δ key = fun _ _ => zeroBuf := fun key sent =>
    hδ ▸ leakMask_of_ne fun r k eq => Nat.ne_of_lt
      (step.keys_lt valid₁ reached.counted (eq ▸ sent))
  -- the translation is right where the step starts and where it ends
  have here := reached.masks size alike len
  rw [hδ] at here
  have next := reached.step size alike len step
  rw [List.append_cons pre₁, List.append_cons pre₂] at alike hδ
  have there := next.masks size alike (by simp [len])
  rw [hδ, Plain.after_append, Plain.after_append] at there
  exact ⟨step.masked size reached.consistent (reached.consistent.masked here) leak valid₁ valid₂
    quiet there, quiet⟩

/-- A step that does not go on is a search at the limit of its counter, whatever the
keystream. -/
theorem wire_stop {cr : Cipher KeyTerm} {i : IndexStep}
    (stop : (wireMachine cfg cr (cellStore cfg cr)).step (s, c) i = none) :
    ∃ row, i = .search row ∧ c.keywordCounterArr row = ulongMax := by
  cases i with
  | search row =>
    refine ⟨row, rfl, ?_⟩
    by_contra limit
    cases hd : cfg.decryptAtClientSide with
    | false => cases stop.symm.trans (wire_search_server hd limit)
    | true => cases stop.symm.trans (wire_search_client hd limit)
  | update j u =>
    obtain ⟨_, _, -, eq⟩ := wire_update cr s c size j u
    cases stop.symm.trans eq

/-- From any moment on the wire carries the same in both runs, and no key that is
translated. -/
theorem Reached.outputs (reached : Reached cfg F M₁ M₂ pre₁ pre₂ s c)
    (alike : Alike cfg M₁ M₂ (pre₁ ++ rest₁) (pre₂ ++ rest₂)) (len : pre₁.length = pre₂.length)
    {δ : Keystream} (hδ : leakMask cfg M₁ M₂ (pre₁ ++ rest₁) (pre₂ ++ rest₂) = δ) :
    (wireMachine cfg (termCipher F) (cellStore cfg (termCipher F))).outputs (s, c) rest₁ =
        (wireMachine cfg (termCipher (F.mask δ)) (cellStore cfg (termCipher (F.mask δ)))).outputs
          (s, c) rest₂ ∧
      ∀ key ∈ exchangeKeys ((wireMachine cfg (termCipher F)
        (cellStore cfg (termCipher F))).outputs (s, c) rest₁), δ key = fun _ _ => zeroBuf := by
  induction rest₁ generalizing pre₁ pre₂ rest₂ s c with
  | nil =>
    have none := (alike.leak_pre len).2
    rw [List.map_nil, eq_comm, List.map_eq_nil_iff] at none
    subst none
    rw [Machine.outputs_nil, Machine.outputs_nil]
    exact ⟨rfl, fun key mem => absurd mem (not_mem_exchangeKeys_nil key)⟩
  | cons i₁ rest₁ ih =>
    have leaks := (alike.leak_pre len).2
    cases rest₂ with
    | nil => cases leaks
    | cons i₂ rest₂ =>
      have leak : i₁.leak cfg = i₂.leak cfg := (List.cons.inj leaks).1
      cases hstep : (wireMachine cfg (termCipher F) (cellStore cfg (termCipher F))).step (s, c) i₁
        with
      | none =>
        obtain ⟨row, rfl, limit⟩ := wire_stop size hstep
        cases i₂ with
        | update => cases leak
        | search row' =>
          cases leak
          rw [Machine.outputs_cons_of_stop _ hstep, Machine.outputs_cons_of_stop _ (wire_limit limit)]
          exact ⟨rfl, fun key mem => absurd mem (not_mem_exchangeKeys_nil key)⟩
      | some q =>
        obtain ⟨p', x⟩ := q
        have wired := wired_of_step size hstep
        obtain ⟨step₂, quiet⟩ := reached.step_masked size alike len hδ wired
        have next := reached.step size alike len wired
        rw [List.append_cons pre₁, List.append_cons pre₂] at alike hδ
        obtain ⟨same, keys⟩ := ih next alike (by simp [len]) hδ
        rw [Machine.outputs_cons_of_step _ hstep, Machine.outputs_cons_of_step _ step₂]
        refine ⟨congrArg (x :: ·) same, fun key mem => ?_⟩
        rcases (mem_exchangeKeys_cons key x _).mp mem with here | later
        · exact quiet key here
        · exact keys key later

end SideBySide

/-! ### What a view tells -/

/-- No row is searched up to the limit of its counter. -/
def FewSearches (cfg : Config) (steps : List IndexStep) : Prop :=
  cfg.decryptAtClientSide = false → ∀ r, steps.countP (IndexStep.searches r) < ulongMax

section Views

variable {cfg : Config} (size : cfg.Sized) {F δ : Keystream} {M M₁ M₂ : Plain}
  {pre rest rest₂ : List IndexStep} {s : CellStore} {c : IndexClient KeyTerm}

/-- The exchanges of a step show what it leaks. -/
theorem Wired.leak {i : IndexStep} {p' : CellStore × IndexClient KeyTerm}
    {x : List (Command KeyTerm × Reply)} (step : Wired cfg (termCipher F) s c i p' x) :
    x.filterMap (fun e => e.1.leak) = [i.leak cfg] := by
  cases step with
  | searchedAtServer row server limit => simp [Command.leak, IndexStep.leak]
  | searchedAtClient row client limit => rfl
  | updated j u IPrime st fetched =>
    unfold CellStore.fetchExchange
    split <;> rfl

/-- Steps that show the same lead to the same store when the keys they send are not
translated. -/
theorem Wired.same_next {i₁ i₂ : IndexStep} {p₁ p₂ : CellStore × IndexClient KeyTerm}
    {x : List (Command KeyTerm × Reply)} (step₁ : Wired cfg (termCipher F) s c i₁ p₁ x)
    (step₂ : Wired cfg (termCipher (F.mask δ)) s c i₂ p₂ x)
    (quiet : ∀ key ∈ exchangeKeys [x], δ key = fun _ _ => zeroBuf) : p₁ = p₂ := by
  have leak := step₁.leak.symm.trans step₂.leak
  generalize hx : x = x' at step₂
  cases step₁ with
  | searchedAtServer row server limit =>
    cases step₂ with
    | searchedAtServer row' server' limit' =>
      cases leak
      obtain ⟨search, -⟩ := search_masked cfg F s
        (freshToken (termCipher F) c.keywordCounterArr row) quiet
      rw [← search]
      rfl
    | searchedAtClient row' client => exact absurd (server.symm.trans client) (by decide)
    | updated j u => cases leak
  | searchedAtClient row client limit =>
    cases step₂ with
    | searchedAtServer row' server => exact absurd (server.symm.trans client) (by decide)
    | searchedAtClient row' client' limit' => rfl
    | updated j u => cases leak
  | updated j₁ u₁ IPrime₁ st₁ fetched₁ =>
    cases step₂ with
    | searchedAtServer row' server => cases leak
    | searchedAtClient row' client' limit' => cases leak
    | updated j₂ u₂ IPrime₂ st₂ fetched₂ =>
      have same : j₁ / cfg.encryptBlockSize = j₂ / cfg.encryptBlockSize :=
        Leak.update.inj (List.cons.inj leak).1
      rw [← same] at hx ⊢
      have last := List.append_cancel_left hx
      simp only [List.cons.injEq, Prod.mk.injEq, Command.updateBlockData.injEq, true_and, and_true]
        at last
      rw [last]

include size

/-- A step below the limits goes on. -/
theorem Counted.goes_on {i : IndexStep} (valid : i.Valid cfg) (count : Counted cfg c pre)
    (few : FewSearches cfg (pre ++ i :: rest)) :
    ∃ p' x, (wireMachine cfg (termCipher F) (cellStore cfg (termCipher F))).step (s, c) i =
      some (p', x) ∧ Wired cfg (termCipher F) s c i p' x := by
  cases step : (wireMachine cfg (termCipher F) (cellStore cfg (termCipher F))).step (s, c) i with
  | some q => exact ⟨q.1, q.2, rfl, wired_of_step size step⟩
  | none =>
    exfalso
    obtain ⟨row, rfl, limit⟩ := wire_stop size step
    have here := count.keyword row valid
    cases hd : cfg.decryptAtClientSide with
    | true =>
      rw [hd, if_pos rfl, limit] at here
      exact absurd here (by decide)
    | false =>
      have all := few hd row
      rw [hd, if_neg (by decide), limit] at here
      rw [List.countP_append, List.countP_cons_of_pos (by simp [IndexStep.searches])] at all
      omega

/-- A view tells what every step leaks. -/
theorem outputs_leak (h : Consistent cfg (termCipher F) M s c) (count : Counted cfg c pre)
    (valid : ∀ i ∈ rest, i.Valid cfg) (few : FewSearches cfg (pre ++ rest)) :
    ((wireMachine cfg (termCipher F) (cellStore cfg (termCipher F))).outputs (s, c) rest).flatMap
      (fun x => x.filterMap fun e => e.1.leak) = rest.map (IndexStep.leak cfg) := by
  induction rest generalizing M pre s c with
  | nil => rfl
  | cons i rest ih =>
    have here : i.Valid cfg := valid i List.mem_cons_self
    obtain ⟨p', x, step, wired⟩ := count.goes_on (F := F) (s := s) size here few
    rw [Machine.outputs_cons_of_step _ step, List.flatMap_cons, wired.leak, List.map_cons]
    exact congrArg _ (ih (wired.consistent size h here) (wired.counted h count)
      (fun i mem => valid i (List.mem_cons_of_mem _ mem)) (by simpa using few))

/-- Where the server decrypts, every key of a row but its last is sent. -/
theorem sent_of_lt (server : cfg.decryptAtClientSide = false)
    (h : Consistent cfg (termCipher F) M s c) (count : Counted cfg c pre)
    (valid : ∀ i ∈ rest, i.Valid cfg) (few : FewSearches cfg (pre ++ rest)) {r k : Nat}
    (hr : r < cfg.matrixRowSize) (lo : c.keywordCounterArr r ≤ k)
    (hi : k < lastCounter cfg (pre ++ rest) r) :
    some (r, k) ∈ exchangeKeys
      ((wireMachine cfg (termCipher F) (cellStore cfg (termCipher F))).outputs (s, c) rest) := by
  induction rest generalizing M pre s c with
  | nil =>
    have here := count.keyword r hr
    rw [List.append_nil] at hi
    rw [lastCounter] at hi
    omega
  | cons i rest ih =>
    have here : i.Valid cfg := valid i List.mem_cons_self
    obtain ⟨p', x, step, wired⟩ := count.goes_on (F := F) (s := s) size here few
    have split : pre ++ i :: rest = pre ++ [i] ++ rest := List.append_cons pre i rest
    have count' := wired.counted h count
    rw [Machine.outputs_cons_of_step _ step, mem_exchangeKeys_cons]
    by_cases later : p'.2.keywordCounterArr r ≤ k
    · exact Or.inr (ih (wired.consistent size h here) count'
        (fun i mem => valid i (List.mem_cons_of_mem _ mem)) (split ▸ few) later (split ▸ hi))
    · -- the step searches the row, and its token carries the key
      left
      cases wired with
      | searchedAtServer row _ limit =>
        have known := mem_tokenKeys_freshToken (F := F) [] [] row r k c.keywordCounterArr
        have token : some (r, k) ∈ (Command.searchOperation
            (freshToken (termCipher F) c.keywordCounterArr row)).keys := by
          refine known.mpr ?_
          obtain rfl : r = row := by
            by_contra other
            exact later (by rw [c.countSearch_of_ne row other]; exact lo)
          have bound := (h.searched r hr).2
          rw [c.countSearch_self, nextCounter_of_lt (Nat.lt_of_le_of_ne bound limit)] at later
          exact ⟨rfl, Or.inl (by omega)⟩
        simpa [exchangeKeys] using token
      | searchedAtClient row client => exact absurd (server.symm.trans client) (by decide)
      | updated j u IPrime st fetched => exact absurd lo later

omit size in
/-- A cell under a key that is not translated reads the same. -/
theorem agree_of_known (h₁ : Consistent cfg (termCipher F) M₁ s c)
    (h₂ : Consistent cfg (termCipher (F.mask δ)) M₂ s c) {r j : Nat} (hr : r < cfg.matrixRowSize)
    (hj : j < cfg.maxNumOfFiles)
    (kept : δ (some (r, fetchedCounter c.keywordCounterArr
      (fun r => s.state r (j / cfg.encryptBlockSize)) r)) = fun _ _ => zeroBuf) :
    M₁ r j = M₂ r j := by
  have cell₁ := h₁.cells r j hr hj
  have cell₂ := h₂.cells r j hr hj
  rw [Keystream.ks_mask] at cell₂
  unfold termCipher at cell₁ cell₂
  rw [kept, bit_zeroBuf, Bool.xor_false] at cell₂
  exact Bool.xor_left_inj.mp (cell₁.symm.trans cell₂)

omit size in
/-- A row that is searched later is under a key before its last one. -/
theorem fetchedCounter_lt_last (server : cfg.decryptAtClientSide = false) (count : Counted cfg c pre)
    {st : Nat → Bool} {r : Nat} (hr : r < cfg.matrixRowSize)
    (later : ∃ i ∈ rest, i.searches r = true) :
    fetchedCounter c.keywordCounterArr st r < lastCounter cfg (pre ++ rest) r := by
  have here := count.keyword r hr
  have some := List.countP_pos_iff.mpr later
  rw [server, if_neg (by decide)] at here
  rw [lastCounter, server, if_neg (by decide), List.countP_append]
  exact Nat.lt_of_le_of_lt (fetchedCounter_le _ _ _) (by omega)

/-- Equal views of the rest of two runs: rows searched in it read the same. -/
theorem agree_of_outputs (server : cfg.decryptAtClientSide = false)
    (h₁ : Consistent cfg (termCipher F) M₁ s c) (h₂ : Consistent cfg (termCipher (F.mask δ)) M₂ s c)
    (count : Counted cfg c pre) (valid₁ : ∀ i ∈ rest, i.Valid cfg)
    (valid₂ : ∀ i ∈ rest₂, i.Valid cfg) (few : FewSearches cfg (pre ++ rest))
    (same : (wireMachine cfg (termCipher F) (cellStore cfg (termCipher F))).outputs (s, c) rest =
      (wireMachine cfg (termCipher (F.mask δ)) (cellStore cfg (termCipher (F.mask δ)))).outputs
        (s, c) rest₂)
    (quiet : ∀ key ∈ exchangeKeys ((wireMachine cfg (termCipher F)
      (cellStore cfg (termCipher F))).outputs (s, c) rest), δ key = fun _ _ => zeroBuf)
    (known : ∀ r k, r < cfg.matrixRowSize → 1 ≤ k → k < lastCounter cfg (pre ++ rest) r →
      δ (some (r, k)) = fun _ _ => zeroBuf) :
    AgreeUntilSearched cfg M₁ M₂ rest rest₂ := by
  induction rest generalizing M₁ M₂ pre rest₂ s c with
  | nil =>
    rintro n r j hr hj ⟨i, mem, -⟩
    rw [List.drop_nil] at mem
    cases mem
  | cons i₁ rest ih =>
    intro n r j hr hj later
    cases n with
    | zero =>
      -- the cell is under a key that is not translated
      refine agree_of_known h₁ h₂ hr hj (known r _ hr ?_ (fetchedCounter_lt_last server count hr later))
      unfold fetchedCounter stale
      split
      · next behind =>
        rw [Bool.and_eq_true, decide_eq_true_eq] at behind
        omega
      · exact (h₁.searched r hr).1
    | succ n =>
      have here₁ : i₁.Valid cfg := valid₁ i₁ List.mem_cons_self
      obtain ⟨p₁, x, step₁, wired₁⟩ := count.goes_on (F := F) (s := s) size here₁ few
      have split : pre ++ i₁ :: rest = pre ++ [i₁] ++ rest := List.append_cons pre i₁ rest
      rw [Machine.outputs_cons_of_step _ step₁] at same quiet
      cases rest₂ with
      | nil => cases same
      | cons i₂ rest₂ =>
        have here₂ : i₂.Valid cfg := valid₂ i₂ List.mem_cons_self
        cases step₂ : (wireMachine cfg (termCipher (F.mask δ))
            (cellStore cfg (termCipher (F.mask δ)))).step (s, c) i₂ with
        | none =>
          rw [Machine.outputs_cons_of_stop _ step₂] at same
          cases same
        | some q =>
          obtain ⟨p₂, x₂⟩ := q
          rw [Machine.outputs_cons_of_step _ step₂] at same
          obtain ⟨rfl, tail⟩ := List.cons.inj same
          have wired₂ := wired_of_step size step₂
          obtain rfl := wired₁.same_next wired₂ fun key here =>
            quiet key ((mem_exchangeKeys_cons key x _).mpr (Or.inl here))
          exact ih (wired₁.consistent size h₁ here₁) (wired₂.consistent size h₂ here₂)
            (wired₁.counted h₁ count) (fun i mem => valid₁ i (List.mem_cons_of_mem _ mem))
            (fun i mem => valid₂ i (List.mem_cons_of_mem _ mem)) (split ▸ few) tail
            (fun key sent => quiet key ((mem_exchangeKeys_cons key x _).mpr (Or.inr sent)))
            (split ▸ known) n r j hr hj later

end Views

/-! ### From the setup on -/

/-- A server after the setup is its rows. -/
theorem cells_of_rows {cfg : Config} (size : cfg.Tiled) {I₁ I₂ : Matrix}
    (rows : ∀ r, r < cfg.matrixRowSize →
      toBytes (I₁ r) cfg.matrixColSize = toBytes (I₂ r) cfg.matrixColSize) :
    (builtServer I₁).cells cfg = (builtServer I₂).cells cfg := by
  refine cellsOf_eq_of_agree (fun r j => ?_) (fun _ _ => rfl) fun _ => rfl
  by_cases inside : r < cfg.matrixRowSize ∧ j < cfg.maxNumOfFiles
  · have bits := fun I : Matrix => bit_ofBytes_toBytes (I r) cfg.matrixColSize zeroBuf j
    rw [RamServer.cells, cellsOf_cell inside.1 inside.2, decide_eq_true inside, Bool.true_and]
    rw [← size.matrixColSize_mul] at inside
    simp only [if_pos inside.2] at bits
    have same := bits I₂
    rw [← rows r inside.1, bits I₁] at same
    exact same.symm
  · simp only [RamServer.cells, cellsOf, inside, decide_false, Bool.false_and]

section Setup

variable {cfg : Config} (size : cfg.Sized) (pieces : cfg.Pieces)
  {kwFilePair kwFilePair₁ kwFilePair₂ : Nat → List Nat} {steps steps₁ steps₂ : List IndexStep}
include size pieces

/-- The view of a setup and its steps, with the store for the server. -/
theorem serverView_eq (kwFilePair : Nat → List Nat) (F : Keystream)
    (valid : ∀ i ∈ steps, i.Valid cfg) :
    ∃ I, Encrypted cfg (termCipher F) (fun _ => 1) (fun _ => 1) (plainOf kwFilePair) I ∧
      serverView cfg F kwFilePair steps = some
        { rows := (List.range cfg.matrixRowSize).map fun r => toBytes (I r) cfg.matrixColSize
          exchanges := (wireMachine cfg (termCipher F) (cellStore cfg (termCipher F))).outputs
            ((builtServer I).cells cfg, builtClient cfg (termCipher F)) steps } := by
  obtain ⟨I, log, created, encrypted⟩ := createEncryptedMatrix_encrypted size pieces (termCipher F)
    kwFilePair (fun _ => 1) (fun _ => 1)
  refine ⟨I, encrypted, ?_⟩
  rw [serverView, created, Option.map_some]
  dsimp only
  rw [(ramRefinement size.tiled _).sim.wire_outputs size.tiled (s := builtServer I)
    (t := (builtServer I).cells cfg) rfl _ valid]

/-- Histories that are alike have the same view. -/
theorem sameView_of_alike
    (alike : Alike cfg (plainOf kwFilePair₁) (plainOf kwFilePair₂) steps₁ steps₂) :
    SameView cfg kwFilePair₁ steps₁ kwFilePair₂ steps₂ := by
  set δ := leakMask cfg (plainOf kwFilePair₁) (plainOf kwFilePair₂) steps₁ steps₂ with hδ
  refine ⟨δ, fun F => ?_⟩
  obtain ⟨I₁, encrypted₁, view₁⟩ := serverView_eq size pieces kwFilePair₁ F alike.valid₁
  obtain ⟨I₂, encrypted₂, view₂⟩ := serverView_eq size pieces kwFilePair₂ (F.mask δ)
    alike.valid₂
  have start : Reached cfg F (plainOf kwFilePair₁) (plainOf kwFilePair₂) [] []
      ((builtServer I₁).cells cfg) (builtClient cfg (termCipher F)) :=
    { consistent := consistent_built encrypted₁
      counted := counted_built cfg F
      stale := fun r j _ _ behind => by simp [stale, builtClient] at behind }
  have whole : Alike cfg (plainOf kwFilePair₁) (plainOf kwFilePair₂) ([] ++ steps₁) ([] ++ steps₂) :=
    alike
  have masks := start.masks size whole rfl
  rw [List.nil_append, List.nil_append, ← hδ] at masks
  obtain ⟨same, quiet⟩ := start.outputs size whole rfl hδ.symm
  have bits : ∀ r j, r < cfg.matrixRowSize → j < cfg.maxNumOfFiles →
      bit (I₁ r) j = bit (I₂ r) j := by
    intro r j hr hj
    have one := (start.consistent.masked masks).cells r j hr hj
    have two := (consistent_built encrypted₂).cells r j hr hj
    rw [RamServer.cells, cellsOf_cell hr hj] at one two
    exact one.trans two.symm
  have rows : ∀ r, r < cfg.matrixRowSize →
      toBytes (I₁ r) cfg.matrixColSize = toBytes (I₂ r) cfg.matrixColSize := fun r hr =>
    toBytes_congr_bit fun k hk => bits r k hr (by rwa [size.tiled.matrixColSize_mul] at hk)
  refine ⟨_, view₁, ?_, quiet⟩
  rw [view₂, ← cells_of_rows size.tiled rows]
  refine congrArg some (congrArg₂ ServerView.mk ?_ same.symm)
  exact List.map_congr_left fun r hr => (rows r (List.mem_range.mp hr)).symm

/-- Histories with the same view leak the same and, where the server decrypts, agree on
the rows that are searched again. -/
theorem alike_of_sameView (valid₁ : ∀ i ∈ steps₁, i.Valid cfg) (valid₂ : ∀ i ∈ steps₂, i.Valid cfg)
    (few₁ : FewSearches cfg steps₁) (few₂ : FewSearches cfg steps₂)
    (view : SameView cfg kwFilePair₁ steps₁ kwFilePair₂ steps₂) :
    steps₁.map (IndexStep.leak cfg) = steps₂.map (IndexStep.leak cfg) ∧
      (cfg.decryptAtClientSide = false →
        AgreeUntilSearched cfg (plainOf kwFilePair₁) (plainOf kwFilePair₂) steps₁ steps₂) := by
  obtain ⟨δ, views⟩ := view
  -- any keystream will do
  set F : Keystream := fun _ _ _ => zeroBuf
  obtain ⟨v, one, two, quiet⟩ := views F
  obtain ⟨I₁, encrypted₁, view₁⟩ := serverView_eq size pieces kwFilePair₁ F valid₁
  obtain ⟨I₂, encrypted₂, view₂⟩ :=
    serverView_eq size pieces kwFilePair₂ (F.mask δ) valid₂
  cases one.symm.trans view₁
  obtain ⟨rows, exchanges⟩ := ServerView.mk.inj (Option.some.inj (two.symm.trans view₂))
  have store : (builtServer I₁).cells cfg = (builtServer I₂).cells cfg := by
    exact cells_of_rows size.tiled fun r hr => List.map_inj_left.mp rows r (List.mem_range.mpr hr)
  have start₁ := consistent_built encrypted₁
  have start₂ := consistent_built encrypted₂
  rw [← store] at exchanges start₂
  refine ⟨?_, fun server => ?_⟩
  · rw [← outputs_leak size start₁ (counted_built cfg F) valid₁ few₁, exchanges]
    exact outputs_leak size start₂ (counted_built cfg (F.mask δ)) valid₂ few₂
  · refine agree_of_outputs size server start₁ start₂ (counted_built cfg F) valid₁ valid₂ few₁
      exchanges quiet fun r k hr lo hi => quiet _ ?_
    exact sent_of_lt size server start₁ (counted_built cfg F) valid₁ few₁ hr lo hi

/-- Where the client decrypts, histories have the same view exactly when they search the
same rows and update the same blocks in the same order: files and updates do not show. -/
theorem client_view_hides (client : cfg.decryptAtClientSide = true)
    (valid₁ : ∀ i ∈ steps₁, i.Valid cfg) (valid₂ : ∀ i ∈ steps₂, i.Valid cfg)
    (left : ∀ b, steps₁.countP (IndexStep.updates cfg b) ≤ ulongMax) :
    SameView cfg kwFilePair₁ steps₁ kwFilePair₂ steps₂ ↔
      steps₁.map (IndexStep.leak cfg) = steps₂.map (IndexStep.leak cfg) := by
  have contra : ∀ {P : Prop}, cfg.decryptAtClientSide = false → P := fun server =>
    absurd (server.symm.trans client) (by decide)
  constructor
  · intro view
    exact (alike_of_sameView size pieces valid₁ valid₂ contra contra view).1
  · intro leak
    exact sameView_of_alike size pieces ⟨leak, valid₁, valid₂, fun b _ => left b, contra⟩

/-- Where the server decrypts, histories have the same view exactly when they search the
same rows and update the same blocks in the same order and, until a row's last search,
have the same bits in it: what happens to a row afterwards does not show. -/
theorem server_view_hides (server : cfg.decryptAtClientSide = false)
    (valid₁ : ∀ i ∈ steps₁, i.Valid cfg) (valid₂ : ∀ i ∈ steps₂, i.Valid cfg)
    (few₁ : ∀ r, steps₁.countP (IndexStep.searches r) < ulongMax)
    (few₂ : ∀ r, steps₂.countP (IndexStep.searches r) < ulongMax)
    (left : ∀ b, steps₁.countP (IndexStep.updates cfg b) ≤ ulongMax) :
    SameView cfg kwFilePair₁ steps₁ kwFilePair₂ steps₂ ↔
      steps₁.map (IndexStep.leak cfg) = steps₂.map (IndexStep.leak cfg) ∧
        AgreeUntilSearched cfg (plainOf kwFilePair₁) (plainOf kwFilePair₂) steps₁ steps₂ := by
  constructor
  · intro view
    obtain ⟨leak, agree⟩ := alike_of_sameView size pieces valid₁ valid₂ (fun _ => few₁)
      (fun _ => few₂) view
    exact ⟨leak, agree server⟩
  · rintro ⟨leak, agree⟩
    exact sameView_of_alike size pieces ⟨leak, valid₁, valid₂, fun b _ => left b, fun _ => agree⟩

end Setup

/-- Other files, another column updated in the same block. -/
def otherSteps : List IndexStep :=
  [.search 3, .update 0 (.add (packBuf (· == 3))), .search 3, .update 4 .del, .search 3]

theorem client_view_hides_small :
    SameView (smallConfig 8 true) smallPairs smallSteps (fun _ => [1]) otherSteps := by
  have few : ∀ b, smallSteps.countP (IndexStep.updates (smallConfig 8 true) b) ≤ ulongMax :=
    fun b => Nat.le_trans List.countP_le_length (by decide)
  refine (client_view_hides (smallConfig_sized true (by decide) (by decide))
    (smallConfig_pieces true (by decide)) rfl (smallSteps_valid 8 true) ?_ few).mpr (by decide)
  simp [otherSteps, IndexStep.Valid, smallConfig, Config.matrixRowSize]

/-- Row 3 is searched once; then its column 2 is cleared, or its column 1 set. -/
theorem server_view_hides_small :
    SameView (wideConfig 4 false) smallPairs [.search 3, .update 2 .del]
      (fun j => if j = 2 ∨ j = 5 then [3] else [6])
      [.search 3, .update 1 (.add (packBuf (· == 3)))] := by
  have few : ∀ steps : List IndexStep, steps.length = 2 → ∀ r,
      steps.countP (IndexStep.searches r) < ulongMax := fun steps two r =>
    Nat.lt_of_le_of_lt List.countP_le_length (by rw [two]; decide)
  have left : ∀ b, [IndexStep.search 3, .update 2 .del].countP
      (IndexStep.updates (wideConfig 4 false) b) ≤ ulongMax := fun b =>
    Nat.le_trans List.countP_le_length (by decide)
  refine (server_view_hides (wideConfig_sized false (by decide) (by decide))
    (wideConfig_pieces false (by decide)) rfl ?_ ?_ (few _ rfl) (few _ rfl) left).mpr
      ⟨by decide, ?_⟩
  · simp [IndexStep.Valid, wideConfig, smallConfig, Config.matrixRowSize]
  · simp [IndexStep.Valid, wideConfig, smallConfig, Config.matrixRowSize]
  · rintro n r j hr hj ⟨i, mem, hi⟩
    rcases List.mem_cons.mp (List.mem_of_mem_drop mem) with rfl | last
    · obtain rfl : 3 = r := of_decide_eq_true hi
      rcases n with _ | n
      · revert j
        decide
      · rw [List.drop_succ_cons] at mem
        cases List.mem_singleton.mp (List.mem_of_mem_drop mem)
    · rw [List.mem_singleton.mp last] at hi
      cases hi

end ImDsse
