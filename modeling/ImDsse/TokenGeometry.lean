import ImDsse.Geometry
import ImDsse.Client
import ImDsse.SetupCorrect

/-!
Every index in its array, at the client.

`addToken` and `delToken` with both their overloads and `updateBlock`, the keywords'
bits in `I_bar`, and the message a fetched block comes in, over arrays of the sizes
they are allocated with. `geometry_sound_iff` collects both sides.
-/

namespace ImDsse

open Kit Kit.Loop Kit.Bits Kit.Arrays Kit.Pool

variable {Key : Type} {τ : Type} [DecidableEq τ]

namespace Checked

/-! ### Row by row -/

/-- The test whether a fetched row is under the key before the current one. -/
def stale (cfg : Config) (keywordCounterArr : Nat → Nat) (blockStateArr : Nat → Bool) (row : Nat) :
    Option Bool := do
  let counter ← load cfg.matrixRowSize keywordCounterArr row
  if 1 < counter then (load cfg.matrixRowSize blockStateArr row).map (!·) else some false

/-- Set or clear the bit of the updated column in `V`. -/
def putColumnBit (B fileIndex : Nat) (V : Buf) (v : Bool) : Option Buf :=
  if B < 8 then storeBit blockCipherSize V 0 (fileIndex % B) v
  else storeBit blockCipherSize V (fileIndex % B / 8) (fileIndex % 8) v

/-- One row of the block, in an `I_prime` of `size` bytes. -/
def tokenRow (cfg : Config) (cr : Cipher Key) (size : Nat)
    (keywordCounterArr blockCounterArr : Nat → Nat) (blockStateArr : Nat → Bool)
    (fileIndex row : Nat) (newBit : Option Bool) (IPrime : Buf) : Option (Buf × Encryption Key) := do
  let B := cfg.encryptBlockSize
  let blockIndex := fileIndex / B
  let idx := row * B
  let col := if B < 8 then idx / 8 else row * (B / 8)
  let counter ← load cfg.numBlocks blockCounterArr blockIndex
  let keywordCounter ← load cfg.matrixRowSize keywordCounterArr row
  let old ← stale cfg keywordCounterArr blockStateArr row
  let decryptKey := cr.genRowKey row (if old then keywordCounter - 1 else keywordCounter)
  let U ← readBlock B size IPrime col (idx % 8)
  let v ← newBit
  let V ← putColumnBit B fileIndex (cr.aes128CtrEncdec U decryptKey blockIndex counter) v
  let rowKey := if old then cr.genRowKey row keywordCounter else decryptKey
  let U := cr.aes128CtrEncdec V rowKey blockIndex (nextCounter counter)
  let IPrime ← writeBlock B size IPrime col (idx % 8) U
  some (IPrime, ⟨rowKey, blockIndex, nextCounter counter⟩)

/-- The part of `addToken` and `delToken` after the column index is known. -/
def tokenBlock (cfg : Config) (cr : Cipher Key) (keywordCounterArr blockCounterArr : Nat → Nat)
    (blockStateArr : Nat → Bool) (fileIndex : Nat) (newBit : Buf → Nat → Option Bool)
    (IBar IPrime : Buf) : Option (Buf × List (Encryption Key)) := do
  let B := cfg.encryptBlockSize
  let blockIndex := fileIndex / B
  let bytes ← cfg.allocatedBytes
  let counter ← load cfg.numBlocks blockCounterArr blockIndex
  if 1 < B then
    checkedLoop (iterations (cfg.matrixRowSize * B) B) (fun row s => do
      let out ← tokenRow cfg cr bytes keywordCounterArr blockCounterArr blockStateArr fileIndex row
        (newBit IBar row) s.1
      some (out.1, s.2 ++ [out.2])) (IPrime, [])
  else do
    let filled ← checkedLoop cfg.matrixRowSize (fun row s => do
      let keywordCounter ← load cfg.matrixRowSize keywordCounterArr row
      let rowKey := cr.genRowKey row keywordCounter
      let v ← newBit s.1 row
      let U ← storeBit blockCipherSize zeroBuf 0 0 v
      let x ← load blockCipherSize (cr.aes128CtrEncdec U rowKey blockIndex (nextCounter counter)) 0
      let IBar ← storeBit (cfg.matrixRowSize / 8) s.1 (row / 8) (row % 8) (bitCheck x 0)
      some (IBar, s.2 ++ [⟨rowKey, blockIndex, nextCounter counter⟩])) (IBar, [])
    let IPrime ← copyBytesIn (cfg.matrixRowSize / 8) bytes IPrime 0 (cfg.matrixRowSize / 8)
      filled.1 0
    some (IPrime, filled.2)

/-- `DSSE::addToken` from the column index on. -/
def addTokenBlock (cfg : Config) (cr : Cipher Key) (keywordCounterArr blockCounterArr : Nat → Nat)
    (blockStateArr : Nat → Bool) (fileIndex : Nat) (IBar IPrime : Buf) :
    Option (Buf × List (Encryption Key)) :=
  tokenBlock cfg cr keywordCounterArr blockCounterArr blockStateArr fileIndex
    (fun IBar row => (load (cfg.matrixRowSize / 8) IBar (row / 8)).map (bitCheck · (row % 8)))
    IBar IPrime

/-- `DSSE::delToken` from the column index on. -/
def delTokenBlock (cfg : Config) (cr : Cipher Key) (keywordCounterArr blockCounterArr : Nat → Nat)
    (blockStateArr : Nat → Bool) (fileIndex : Nat) (IPrime : Buf) :
    Option (Buf × List (Encryption Key)) :=
  tokenBlock cfg cr keywordCounterArr blockCounterArr blockStateArr fileIndex
    (fun _ _ => some false) zeroBuf IPrime

section Rows

variable {cfg : Config} (size : cfg.Tiled)

theorem stale_eq {row : Nat} (hrow : row < cfg.matrixRowSize) (kc : Nat → Nat) (st : Nat → Bool) :
    stale cfg kc st row = some (ImDsse.stale kc st row) := by
  simp only [stale, load_eq hrow, Option.bind_eq_bind, Option.bind_some, Option.map_some,
    ImDsse.stale]
  split
  · next counted => rw [decide_eq_true counted, Bool.true_and]
  · next fresh => rw [decide_eq_false fresh, Bool.false_and]

include size

theorem putColumnBit_eq (fileIndex : Nat) (V : Buf) (v : Bool) :
    putColumnBit cfg.encryptBlockSize fileIndex V v =
      some (if cfg.encryptBlockSize < 8 then putBit V 0 (fileIndex % cfg.encryptBlockSize) v
        else putBit V (fileIndex % cfg.encryptBlockSize / 8) (fileIndex % 8) v) := by
  have le := size.blockSize.le
  have lt := Nat.mod_lt fileIndex size.pos
  unfold putColumnBit
  split
  · exact storeBit_eq (show 0 < 16 by decide) ..
  · exact storeBit_eq (show _ < 16 by omega) ..

/-- The blocks in transit lie in their buffer. -/
theorem blockInside_transit {len row : Nat}
    (whole : cfg.matrixRowSize * cfg.encryptBlockSize ≤ 8 * len) (hrow : row < cfg.matrixRowSize) :
    BlockInside cfg.encryptBlockSize len
      (if cfg.encryptBlockSize < 8 then row * cfg.encryptBlockSize / 8
        else row * (cfg.encryptBlockSize / 8)) := by
  unfold BlockInside
  split
  · exact bit_lt whole hrow size.pos
  · next large =>
    have large := Nat.le_of_not_lt large
    have last := byte_lt size large whole hrow
      (Nat.sub_lt (Nat.div_pos large (by decide)) Nat.one_pos)
    have pos := Nat.div_pos large (show 0 < 8 by decide)
    omega

theorem tokenRow_eq (cr : Cipher Key) {len fileIndex row : Nat}
    (whole : cfg.matrixRowSize * cfg.encryptBlockSize ≤ 8 * len) (hrow : row < cfg.matrixRowSize)
    (hb : fileIndex / cfg.encryptBlockSize < cfg.numBlocks) (kc bc : Nat → Nat) (st : Nat → Bool)
    (v : Bool) (IPrime : Buf) :
    tokenRow cfg cr len kc bc st fileIndex row (some v) IPrime =
      some (ImDsse.tokenRow cfg cr kc bc st fileIndex row v IPrime) := by
  have inside := blockInside_transit size whole hrow
  simp only [tokenRow, load_eq hb, load_eq hrow, stale_eq hrow, readBlock_eq size.blockSize inside,
    putColumnBit_eq size, writeBlock_eq size.blockSize inside, Option.bind_eq_bind, Option.bind_some]
  rfl

/-- The server-decrypting overloads, with a test of the new bit that stays in `I_bar`. -/
theorem tokenBlock_eq (rowBytes : 8 ∣ cfg.maxNumKeywords)
    (bytes : cfg.allocatedBytes = some cfg.blockBytes) (cr : Cipher Key) {fileIndex : Nat}
    (hb : fileIndex / cfg.encryptBlockSize < cfg.numBlocks) (kc bc : Nat → Nat) (st : Nat → Bool)
    {newBit : Buf → Nat → Option Bool} {newBit' : Buf → Nat → Bool}
    (test : ∀ b row, row < cfg.matrixRowSize → newBit b row = some (newBit' b row))
    (IBar IPrime : Buf) :
    tokenBlock cfg cr kc bc st fileIndex newBit IBar IPrime =
      some (ImDsse.tokenBlock cfg cr kc bc st fileIndex newBit' IBar IPrime) := by
  have sized : cfg.Sized := ⟨size.blockSize, size.blocks, size.colBytes, rowBytes⟩
  have whole := sized.blockBytes_mul
  have rows := sized.rowBytes_mul
  simp only [tokenBlock, ImDsse.tokenBlock, bytes, load_eq hb, Option.bind_eq_bind, Option.bind_some]
  split
  · rw [iterations_mul _ size.pos]
    refine checkedLoop_eq (fun row hrow s => ?_) _
    rw [test _ row hrow, tokenRow_eq size cr whole.ge hrow hb]
    rfl
  · next small =>
    have one : cfg.encryptBlockSize = 1 := by
      have pos := size.pos
      omega
    rw [checkedLoop_eq (f := fun row s =>
      (putBit s.1 (row / 8) (row % 8) (bitCheck (cr.aes128CtrEncdec (putBit zeroBuf 0 0
        (newBit' s.1 row)) (cr.genRowKey row (kc row)) (fileIndex / cfg.encryptBlockSize)
          (nextCounter (bc (fileIndex / cfg.encryptBlockSize))) 0) 0),
        s.2 ++ [⟨cr.genRowKey row (kc row), fileIndex / cfg.encryptBlockSize,
          nextCounter (bc (fileIndex / cfg.encryptBlockSize))⟩])) fun row hrow s => ?_]
    · rw [Option.bind_some, copyBytesIn_eq (by rw [one, Nat.mul_one] at whole; omega)
        (Nat.zero_add _).le]
      rfl
    · have byte : row / 8 < cfg.matrixRowSize / 8 := by omega
      rw [load_eq hrow, Option.bind_some, test _ row hrow, Option.bind_some,
        storeBit_eq (show 0 < blockCipherSize by decide), Option.bind_some,
        load_eq (show 0 < blockCipherSize by decide), Option.bind_some, storeBit_eq byte]
      rfl

theorem addTokenBlock_eq (rowBytes : 8 ∣ cfg.maxNumKeywords)
    (bytes : cfg.allocatedBytes = some cfg.blockBytes) (cr : Cipher Key) {fileIndex : Nat}
    (hb : fileIndex / cfg.encryptBlockSize < cfg.numBlocks) (kc bc : Nat → Nat) (st : Nat → Bool)
    (IBar IPrime : Buf) :
    addTokenBlock cfg cr kc bc st fileIndex IBar IPrime =
      some (ImDsse.addTokenBlock cfg cr kc bc st fileIndex IBar IPrime) := by
  have rows : 8 ∣ cfg.matrixRowSize := rowBytes
  refine tokenBlock_eq size rowBytes bytes cr hb kc bc st (fun b row hrow => ?_) IBar IPrime
  rw [load_eq (show row / 8 < cfg.matrixRowSize / 8 by omega)]
  rfl

theorem delTokenBlock_eq (rowBytes : 8 ∣ cfg.maxNumKeywords)
    (bytes : cfg.allocatedBytes = some cfg.blockBytes) (cr : Cipher Key) {fileIndex : Nat}
    (hb : fileIndex / cfg.encryptBlockSize < cfg.numBlocks) (kc bc : Nat → Nat) (st : Nat → Bool)
    (IPrime : Buf) :
    delTokenBlock cfg cr kc bc st fileIndex IPrime =
      some (ImDsse.delTokenBlock cfg cr kc bc st fileIndex IPrime) :=
  tokenBlock_eq size rowBytes bytes cr hb kc bc st (fun _ _ _ => rfl) zeroBuf IPrime

end Rows

/-! ### With precomputed keys -/

/-- `DSSE_KeyGen::enc_dec_preAESKey`, on arrays of the given sizes. -/
def encDecPreAESKey (outSize inSize keySize : Nat) (output input preKey : Buf) (len : Nat) :
    Option Buf :=
  checkedLoop len (fun idx out => do
    let x ← load inSize input idx
    let k ← load keySize preKey idx
    store outSize out idx (x ^^^ k)) output

/-- `DSSE::updateBlock`, on a block of `size` bytes. -/
def updateBlock (cfg : Config) (size : Nat) (updatingBlock inputBlock : Buf) (updateIdx : Nat) :
    Option Buf :=
  let B := cfg.encryptBlockSize
  if 1 < B then
    checkedLoop (iterations (cfg.matrixRowSize * B) B) (fun iBarIdx b => do
      let idx := iBarIdx * B
      let row := idx / B
      let x ← load (cfg.matrixRowSize / 8) updatingBlock (iBarIdx / 8)
      let v := bitCheck x (iBarIdx % 8)
      if B < 8 then storeBit size b (idx / 8) (idx % 8 + updateIdx % B) v
      else storeBit size b (row * (B / 8) + updateIdx % B / 8) (updateIdx % 8) v) inputBlock
  else
    copyBytesIn (cfg.matrixRowSize / 8) size inputBlock 0 (cfg.matrixRowSize / 8) updatingBlock 0

/-- The overloads of `addToken` and `delToken` with precomputed keys after the column
index is known. -/
def tokenBlockPre (cfg : Config) (fileIndex : Nat) (IBar IPrime decryptKeyArr reencryptKeyArr : Buf) :
    Option Buf := do
  let bytes ← cfg.allocatedBytes
  if 1 < cfg.encryptBlockSize then do
    let decryptedBlock ← encDecPreAESKey bytes bytes bytes zeroBuf IPrime decryptKeyArr bytes
    let updatedBlock ← updateBlock cfg bytes IBar decryptedBlock fileIndex
    encDecPreAESKey bytes bytes bytes IPrime updatedBlock reencryptKeyArr bytes
  else
    encDecPreAESKey bytes (cfg.matrixRowSize / 8) bytes IPrime IBar reencryptKeyArr
      (cfg.matrixRowSize / 8)

section Precomputed

variable {cfg : Config} (size : cfg.Sized)

theorem encDecPreAESKey_eq {outSize inSize keySize len : Nat} (out : len ≤ outSize)
    (inp : len ≤ inSize) (key : len ≤ keySize) (output input preKey : Buf) :
    encDecPreAESKey outSize inSize keySize output input preKey len =
      some (ImDsse.encDecPreAESKey output input preKey len) := by
  refine checkedLoop_eq (fun idx hidx t => ?_) output
  rw [load_eq (Nat.lt_of_lt_of_le hidx inp), Option.bind_eq_bind, Option.bind_some,
    load_eq (Nat.lt_of_lt_of_le hidx key), Option.bind_some]
  exact store_eq (Nat.lt_of_lt_of_le hidx out) ..

include size

theorem updateBlock_eq (updatingBlock inputBlock : Buf) (updateIdx : Nat) :
    updateBlock cfg cfg.blockBytes updatingBlock inputBlock updateIdx =
      some (ImDsse.updateBlock cfg updatingBlock inputBlock updateIdx) := by
  have whole := size.blockBytes_mul
  have rows := size.rowBytes_mul
  have pos := size.tiled.pos
  have lt := Nat.mod_lt updateIdx pos
  simp only [updateBlock, ImDsse.updateBlock]
  split
  · rw [iterations_mul _ pos]
    refine checkedLoop_eq (fun row hrow t => ?_) _
    have byte : row / 8 < cfg.matrixRowSize / 8 := by omega
    rw [load_eq byte, Option.bind_eq_bind, Option.bind_some]
    split
    · exact storeBit_eq (bit_lt whole.ge hrow pos) ..
    · next large =>
      have bytes := size.blockSize.bytes (Nat.le_of_not_lt large)
      rw [Nat.mul_div_cancel _ pos]
      exact storeBit_eq (byte_lt size.tiled (Nat.le_of_not_lt large) whole.ge hrow (by omega)) ..
  · next small =>
    have one : cfg.encryptBlockSize = 1 := by omega
    rw [one, Nat.mul_one] at whole
    exact copyBytesIn_eq (by omega) (Nat.zero_add _).le ..

theorem tokenBlockPre_eq (bytes : cfg.allocatedBytes = some cfg.blockBytes) (fileIndex : Nat)
    (IBar IPrime dec re : Buf) :
    tokenBlockPre cfg fileIndex IBar IPrime dec re =
      some (ImDsse.tokenBlockPre cfg fileIndex IBar IPrime dec re) := by
  simp only [tokenBlockPre, ImDsse.tokenBlockPre, bytes, Option.bind_eq_bind, Option.bind_some]
  split
  · rw [encDecPreAESKey_eq (Nat.le_refl _) (Nat.le_refl _) (Nat.le_refl _), Option.bind_some,
      updateBlock_eq size, Option.bind_some]
    exact encDecPreAESKey_eq (Nat.le_refl _) (Nat.le_refl _) (Nat.le_refl _) ..
  · next small =>
    have one : cfg.encryptBlockSize = 1 := by
      have pos := size.tiled.pos
      omega
    have whole : cfg.matrixRowSize / 8 ≤ cfg.blockBytes := by
      unfold Config.blockBytes
      rw [one, Nat.mul_one]
    exact encDecPreAESKey_eq whole (Nat.le_refl _) whole ..

end Precomputed

/-! ### The client -/

/-- The loop of `DSSE::addToken` over the keywords, which sets their bits in `I_bar`. -/
def assignRows (cfg : Config) (td : Trapdoor τ) (s : Picks τ) (IBar : Buf) :
    List Str → Option (Picks τ × Buf)
  | [] => some (s, IBar)
  | word :: words => do
    let s ← assignIndex 0 s (td.omac word)
    let (keywordIndex, tW) := index s.table (td.omac word)
    let IBar ← storeBit (cfg.matrixRowSize / 8) IBar (keywordIndex / 8) (keywordIndex % 8) true
    assignRows cfg td { s with table := tW } IBar words

/-- Read the state bits behind the data of a buffer of `size` bytes. -/
def readStates (cfg : Config) (size : Nat) (buffer : Buf) : Option (Nat → Bool) :=
  checkedLoop cfg.matrixRowSize (fun row blockStateArr => do
    let ii := cfg.matrixRowSize * cfg.encryptBlockSize + row
    let x ← load size buffer (ii / 8)
    store cfg.matrixRowSize blockStateArr row (bitCheck x (ii % 8))) fun _ => false

/-- `Client_DSSE::requestBlock_data` after the answer has come. -/
def deserialize (cfg : Config) (msg : List Byte) : Option (Buf × (Nat → Bool)) := do
  let bytes ← cfg.allocatedBytes
  if cfg.decryptAtClientSide then do
    let IPrime ← copyBytesIn bytes bytes zeroBuf 0 bytes (ofBytes msg bytes zeroBuf) 0
    some (IPrime, fun _ => false)
  else do
    let len := bytes + cfg.matrixRowSize / 8
    let buffer := ofBytes msg len zeroBuf
    let IPrime ← copyBytesIn bytes bytes zeroBuf 0 len buffer 0
    let blockStateArr ← readStates cfg len buffer
    some (IPrime, blockStateArr)

/-- The second half of `addToken` or `delToken`, in the overload of the build. -/
def recodeBlock (cfg : Config) (cr : Cipher Key) (c : IndexClient Key) (blockIndex fileIndex : Nat)
    (u : ColumnUpdate) (IPrime : Buf) (blockStateArr : Nat → Bool) :
    Option (Buf × List (Encryption Key)) :=
  if cfg.decryptAtClientSide then
    let keys := fun inc => precomputeAESCTRKeys cfg cr zeroBuf blockIndex .col inc
      c.blockCounterArr c.rowKeys
    let decryptKey := if 1 < cfg.encryptBlockSize then (keys false).1 else zeroBuf
    let IBar := match u with
      | .add IBar => IBar
      | .del => zeroBuf
    (tokenBlockPre cfg fileIndex IBar IPrime decryptKey (keys true).1).map fun block =>
      (block, (keys true).2)
  else
    match u with
    | .add IBar => addTokenBlock cfg cr c.keywordCounterArr c.blockCounterArr blockStateArr
        fileIndex IBar IPrime
    | .del => delTokenBlock cfg cr c.keywordCounterArr c.blockCounterArr blockStateArr
        fileIndex IPrime

section Client

variable {cfg : Config}

/-- Rows of the matrix have their bits in `I_bar`, where these are whole bytes. -/
theorem assignRows_eq (rowBytes : 8 ∣ cfg.maxNumKeywords) (td : Trapdoor τ) {s : Picks τ}
    (rows : Within cfg.maxNumKeywords s.table s.free) (IBar : Buf) (words : List Str) :
    assignRows cfg td s IBar words = ImDsse.assignRows td s IBar words := by
  induction words generalizing s IBar with
  | nil => rfl
  | cons word words ih =>
    simp only [assignRows, ImDsse.assignRows, Option.bind_eq_bind]
    cases assign : assignIndex 0 s (td.omac word) with
    | none => rfl
    | some s' =>
      have assigned := assignIndex_cases (.inl rfl) assign
      have within := assigned.within rows
      obtain ⟨r, found, -⟩ := assigned.lookup_self
      have row : r < cfg.maxNumKeywords := within.lookup found
      have byte : r / 8 < cfg.matrixRowSize / 8 := by
        show r / 8 < cfg.maxNumKeywords / 8
        omega
      simp only [Option.bind_some, index_of_lookup found, storeBit_eq byte]
      exact ih within (putBitAt IBar r true)

theorem readStates_eq {len : Nat}
    (behind : cfg.matrixRowSize * cfg.encryptBlockSize + cfg.matrixRowSize ≤ 8 * len)
    (buffer : Buf) : ∃ blockStateArr, readStates cfg len buffer = some blockStateArr ∧
      ∀ row, row < cfg.matrixRowSize → blockStateArr row =
        bit buffer (cfg.matrixRowSize * cfg.encryptBlockSize + row) := by
  refine ⟨forLoop cfg.matrixRowSize (fun row arr => Function.update arr row
    (bit buffer (cfg.matrixRowSize * cfg.encryptBlockSize + row))) fun _ => false,
    checkedLoop_run (fun n (arr : Nat → Bool) => ∀ row, row < n →
      arr row = bit buffer (cfg.matrixRowSize * cfg.encryptBlockSize + row))
      (fun row hrow => absurd hrow (Nat.not_lt_zero row)) fun n hn arr filled => ⟨?_, ?_⟩⟩
  · dsimp only
    rw [load_eq (show (cfg.matrixRowSize * cfg.encryptBlockSize + n) / 8 < len by omega),
      Option.bind_eq_bind, Option.bind_some]
    exact store_eq hn arr _
  · intro row hrow
    by_cases last : row = n
    · rw [last, Function.update_self]
    · rw [Function.update_of_ne last]
      exact filled row (by omega)

/-- A block is taken apart as it was sent. -/
theorem deserialize_eq (size : cfg.Sized) (bytes : cfg.allocatedBytes = some cfg.blockBytes)
    (msg : List Byte) : ∃ blockStateArr,
    deserialize cfg msg = some (copyBytes cfg.blockBytes zeroBuf 0
      (ofBytes msg cfg.blockMessageLen zeroBuf) 0, blockStateArr) ∧
    ∀ row, row < cfg.matrixRowSize → blockStateArr row = (!cfg.decryptAtClientSide &&
      bit (ofBytes msg cfg.blockMessageLen zeroBuf)
        (cfg.matrixRowSize * cfg.encryptBlockSize + row)) := by
  have whole := size.blockBytes_mul
  have rows := size.rowBytes_mul
  simp only [deserialize, bytes, Option.bind_eq_bind, Option.bind_some, Config.blockMessageLen]
  cases cfg.decryptAtClientSide with
  | true =>
    rw [if_pos rfl, copyBytesIn_eq (Nat.zero_add _).le (Nat.zero_add _).le]
    exact ⟨_, rfl, fun _ _ => rfl⟩
  | false =>
    simp only [Bool.false_eq_true, if_false, Bool.not_false, Bool.true_and]
    rw [copyBytesIn_eq (Nat.zero_add _).le (by omega), Option.bind_some]
    have behind : cfg.matrixRowSize * cfg.encryptBlockSize + cfg.matrixRowSize ≤
        8 * (cfg.blockBytes + cfg.matrixRowSize / 8) := by omega
    obtain ⟨blockStateArr, run, states⟩ := readStates_eq behind
      (ofBytes msg (cfg.blockBytes + cfg.matrixRowSize / 8) zeroBuf)
    rw [run]
    exact ⟨blockStateArr, rfl, states⟩

theorem recodeBlock_eq (size : cfg.Sized) (bytes : cfg.allocatedBytes = some cfg.blockBytes)
    (cr : Cipher Key) (c : IndexClient Key) (blockIndex : Nat) {fileIndex : Nat}
    (column : fileIndex < cfg.maxNumOfFiles) (u : ColumnUpdate) (IPrime : Buf) (st : Nat → Bool) :
    recodeBlock cfg cr c blockIndex fileIndex u IPrime st =
      some (ImDsse.recodeBlock cfg cr c blockIndex fileIndex u IPrime st) := by
  have block := size.tiled.block_lt column
  unfold recodeBlock ImDsse.recodeBlock
  split
  · cases u <;> simp only [tokenBlockPre_eq size bytes] <;> rfl
  · cases u with
    | add IBar => exact addTokenBlock_eq size.tiled size.rowBytes bytes cr block ..
    | del => exact delTokenBlock_eq size.tiled size.rowBytes bytes cr block ..

end Client

end Checked

/-! ### Which configurations are sound -/

/-- What the comments of `config.h` allow. -/
structure Config.Allowed (cfg : Config) : Prop where
  files : ∃ n, cfg.maxNumOfFiles = 2 ^ n
  colBytes : 8 ∣ cfg.maxNumOfFiles
  keywords : 0 < cfg.maxNumKeywords
  blockSize : BlockSize cfg.encryptBlockSize
  fits : cfg.encryptBlockSize ≤ cfg.maxNumOfFiles

/-- Every column lies in a block, the blocks tile the bytes of a row, and no index is
outside of its array: not at the server, whatever valid request it answers, not where the
client marks the rows of keywords, takes an answer apart or re-encrypts a block. -/
structure GeometrySound (cfg : Config) (cr : Cipher Key) (td : Trapdoor τ) : Prop where
  block : ∀ j, j < cfg.maxNumOfFiles → j / cfg.encryptBlockSize < cfg.numBlocks
  tiles : ∀ j, j < 8 * cfg.matrixColSize ↔ ∃! b, b < cfg.numBlocks ∧
    b * cfg.encryptBlockSize ≤ j ∧ j < b * cfg.encryptBlockSize + cfg.encryptBlockSize
  server : ∀ (s : RamServer) (c : Command Key), c.Valid cfg →
    Checked.ramServer cfg cr s c = (ramServer cfg cr).step s c
  rows : ∀ (s : Picks τ) (IBar : Buf) (words : List Str), Within cfg.maxNumKeywords s.table s.free →
    Checked.assignRows cfg td s IBar words = assignRows td s IBar words
  answer : ∀ msg, ∃ blockStateArr,
    Checked.deserialize cfg msg = some (copyBytes cfg.blockBytes zeroBuf 0
      (ofBytes msg cfg.blockMessageLen zeroBuf) 0, blockStateArr) ∧
    ∀ row, row < cfg.matrixRowSize → blockStateArr row = (!cfg.decryptAtClientSide &&
      bit (ofBytes msg cfg.blockMessageLen zeroBuf)
        (cfg.matrixRowSize * cfg.encryptBlockSize + row))
  token : ∀ (c : IndexClient Key) (j : Nat) (u : ColumnUpdate) (IPrime : Buf) (st : Nat → Bool),
    j < cfg.maxNumOfFiles → Checked.recodeBlock cfg cr c (j / cfg.encryptBlockSize) j u IPrime st =
      some (recodeBlock cfg cr c (j / cfg.encryptBlockSize) j u IPrime st)

/-- The last index of an array of `n / d` cells of `d` each lies in a whole cell. -/
theorem dvd_of_last {n d : Nat} (pos : 0 < n) (last : (n - 1) / d < n / d) : d ∣ n := by
  obtain ⟨m, rfl⟩ := Nat.exists_eq_succ_of_ne_zero (Nat.ne_of_gt pos)
  rw [Nat.succ_sub_one, Nat.succ_div] at last
  by_contra rest
  rw [if_neg rest, Nat.add_zero] at last
  exact absurd last (Nat.lt_irrefl _)

section Sound

variable {cfg : Config} {cr : Cipher Key} {td : Trapdoor τ}

/-- The blocks of a row, each column in one. -/
theorem tiles_row (size : cfg.Tiled) (j : Nat) : j < 8 * cfg.matrixColSize ↔ ∃! b,
    b < cfg.numBlocks ∧ b * cfg.encryptBlockSize ≤ j ∧
      j < b * cfg.encryptBlockSize + cfg.encryptBlockSize := by
  rw [size.matrixColSize_mul]
  simp only [in_tile_iff size.pos]
  constructor
  · intro hj
    exact ⟨j / cfg.encryptBlockSize, ⟨size.block_lt hj, rfl⟩, fun b h => h.2.symm⟩
  · rintro ⟨b, ⟨hb, rfl⟩, -⟩
    have lt := size.col_lt hb (Nat.mod_lt j size.pos)
    rwa [Nat.div_add_mod'] at lt

/-- A keyword that is given the last row sets a bit of `I_bar`. -/
theorem GeometrySound.rowBytes (sound : GeometrySound cfg cr td) (pos : 0 < cfg.maxNumKeywords) :
    8 ∣ cfg.maxNumKeywords := by
  have last : cfg.maxNumKeywords - 1 < cfg.maxNumKeywords := Nat.sub_lt pos Nat.one_pos
  have within : Within cfg.maxNumKeywords (∅ : Table τ) [cfg.maxNumKeywords - 1] := by
    refine ⟨fun found => ?_, fun mem => ?_⟩
    · rw [AList.lookup_empty] at found
      cases found
    · rw [List.mem_singleton.mp mem]
      exact last
  have pick : assignIndex 0 ⟨∅, [cfg.maxNumKeywords - 1], fun _ => 0⟩ (td.omac []) =
      some ⟨(∅ : Table τ).insert (td.omac []) (cfg.maxNumKeywords - 1), [], fun _ => 0⟩ := by
    simp only [assignIndex, index_of_absent (AList.lookup_empty _), if_true, AList.insert_insert]
    rfl
  have run := sound.rows ⟨∅, [cfg.maxNumKeywords - 1], fun _ => 0⟩ zeroBuf [[]] within
  simp only [Checked.assignRows, assignRows, pick, index_of_lookup (AList.lookup_insert _),
    Option.bind_eq_bind, Option.bind_some] at run
  obtain ⟨_, stored, -⟩ := Option.bind_eq_some_iff.mp run
  exact dvd_of_last pos (storeBit_inside stored)

/-- A search of any row reads all its blocks, and sets the state bit of the last one. -/
theorem GeometrySound.searches (sound : GeometrySound cfg cr td) (size : cfg.Tiled)
    (pos : 0 < cfg.maxNumKeywords) (some_ : 0 < cfg.numBlocks)
    (server : cfg.decryptAtClientSide = false) :
    8 ∣ cfg.numBlocks ∧ (cfg.encryptBlockSize < 8 ∨ cfg.matrixColSize ≤ 2 ^ 31) := by
  have run := sound.server ⟨fun _ => zeroBuf, fun _ => zeroBuf, fun _ => 1⟩
    (.searchOperation ⟨0, cr.zeroKey, cr.zeroKey, false⟩) pos
  simp only [Checked.ramServer, ramServer, server, Bool.false_eq_true, if_false] at run
  obtain ⟨out, searched, -⟩ := Option.map_eq_some_iff.mp run
  have last := Checked.search_inside size searched (Nat.sub_lt some_ Nat.one_pos)
  exact ⟨dvd_of_last some_ last.1, Checked.search_ints size searched⟩

end Sound

/-- Of the configurations the comments allow, those are sound whose blocks divide the
number of files, whose keywords fill whole bytes, whose blocks do so too where the server
keeps a state for each of them, whose rows a search can go through byte by byte with an
`int`, and whose block of all rows has a size an `int` can hold. -/
theorem geometry_sound_iff {cfg : Config} (allowed : cfg.Allowed) (cr : Cipher Key)
    (td : Trapdoor τ) : GeometrySound cfg cr td ↔
      cfg.encryptBlockSize ∣ cfg.maxNumOfFiles ∧ 8 ∣ cfg.maxNumKeywords ∧
      (cfg.decryptAtClientSide = false →
        8 ∣ cfg.numBlocks ∧ (cfg.encryptBlockSize < 8 ∨ cfg.matrixColSize ≤ 2 ^ 31)) ∧
      (product cfg.matrixRowSize cfg.encryptBlockSize).isSome := by
  have pos := allowed.blockSize.pos
  have files : 0 < cfg.maxNumOfFiles := Nat.lt_of_lt_of_le pos allowed.fits
  constructor
  · intro sound
    have blocks := dvd_of_last files (sound.block _ (Nat.sub_lt files Nat.one_pos))
    have size : cfg.Tiled := ⟨allowed.blockSize, blocks, allowed.colBytes⟩
    refine ⟨blocks, sound.rowBytes allowed.keywords,
      sound.searches size allowed.keywords (Nat.div_pos allowed.fits pos), ?_⟩
    obtain ⟨_, run, -⟩ := sound.answer []
    obtain ⟨bytes, computed, -⟩ := Option.bind_eq_some_iff.mp run
    obtain ⟨bits, computed, -⟩ := Option.map_eq_some_iff.mp computed
    exact Option.isSome_iff_exists.mpr ⟨bits, computed⟩
  · rintro ⟨blocks, rowBytes, searches, computed⟩
    have size : cfg.Sized := ⟨allowed.blockSize, blocks, allowed.colBytes, rowBytes⟩
    have bytes : cfg.allocatedBytes = some cfg.blockBytes := by
      obtain ⟨bits, computed⟩ := Option.isSome_iff_exists.mp computed
      rw [Config.allocatedBytes, computed, product_eq computed]
      rfl
    exact {
      block := fun j => size.tiled.block_lt
      tiles := tiles_row size.tiled
      server := fun s c => Checked.ramServer_eq size bytes (fun server => (searches server).1)
        (fun server => (searches server).2) cr s
      rows := fun s IBar words within => Checked.assignRows_eq rowBytes td within IBar words
      answer := Checked.deserialize_eq size bytes
      token := fun c j u IPrime st column =>
        Checked.recodeBlock_eq size bytes cr c _ column u IPrime st }

/-- The sizes of `config.h` as it is. -/
def shippedConfig (encryptBlockSize : Nat) : Config where
  maxNumOfFiles := 1024
  maxNumKeywords := 12000
  encryptBlockSize := encryptBlockSize
  matrixPieceColSize := 128
  decryptAtClientSide := true

theorem geometry_sound_shipped : GeometrySound (shippedConfig 128) smallCipher smallTrapdoor := by
  have allowed : (shippedConfig 128).Allowed :=
    ⟨⟨10, by decide⟩, by decide, by decide, by decide, by decide⟩
  exact (geometry_sound_iff allowed smallCipher smallTrapdoor).mpr
    ⟨by decide, by decide, by decide, by decide⟩

/-- Blocks of 24 columns are allowed and do not divide the files: the last 16 columns
have no block. -/
theorem geometry_unsound : (shippedConfig 24).Allowed ∧
    ¬ GeometrySound (shippedConfig 24) smallCipher smallTrapdoor := by
  refine ⟨⟨⟨10, by decide⟩, by decide, by decide, by decide, by decide⟩, fun sound => ?_⟩
  exact absurd (sound.block 1023 (by decide)) (by decide)

end ImDsse
