import ImDsse.Search
import ImDsse.Kit.Machine

/-!
The server with the index in memory (`Server_DSSE` without `DISK_STORAGE_MODE`).

The command loop of `Server_DSSE::start` is a machine: one request, one reply.
Beside its reply a step reports the encryptions the server made, which only a
search does. A server built with `DECRYPT_AT_CLIENT_SIDE` never allocates the
counters and states a search reads, so a search stops it.
-/

namespace ImDsse

open Kit Kit.Loop Kit.Bits

variable {Key : Type}

/-- The requests that work on the index, with what the client sends. -/
inductive Command (Key : Type) where
  | searchOperation (tau : SearchToken Key)
  | requestSearchData (rowIndex : Nat)
  | requestBlockData (blockIndex : Nat)
  | updateBlockData (blockIndex : Nat) (data : List Byte)

/-- The answers. A search is answered with the list it computed; depending on
`SEND_SEARCH_FILE_INDEX` the list or its length goes over the wire. -/
inductive Reply where
  | found (fileIds : List Nat)
  | data (bytes : List Byte)
  | success
deriving DecidableEq

/-- A reply, and the encryptions made on the way. -/
structure Response (Key : Type) where
  reply : Reply
  encryptions : List (Encryption Key)

namespace Response

/-- The bytes of a reply that carries data. -/
def data? (r : Response Key) : Option (List Byte) :=
  match r.reply with
  | .data bytes => some bytes
  | _ => none

/-- The list of a reply to a search. -/
def found? (r : Response Key) : Option (List Nat) :=
  match r.reply with
  | .found ids => some ids
  | _ => none

end Response

namespace Config

variable (cfg : Config)

/-- `serialized_buffer_len` of a column block request. -/
def blockMessageLen : Nat :=
  if cfg.decryptAtClientSide then cfg.blockBytes
  else cfg.blockBytes + cfg.matrixRowSize / 8

/-- What the comments of `config.h` ask of the sizes: a permitted block size that
divides the number of files, and whole bytes in both directions. -/
structure Sized : Prop where
  blockSize : BlockSize cfg.encryptBlockSize
  blocks : cfg.encryptBlockSize ∣ cfg.maxNumOfFiles
  colBytes : 8 ∣ cfg.maxNumOfFiles
  rowBytes : 8 ∣ cfg.maxNumKeywords

/-- The part of it that is about the rows: blocks of a permitted size tile the bytes
of every row. -/
structure Tiled : Prop where
  blockSize : BlockSize cfg.encryptBlockSize
  blocks : cfg.encryptBlockSize ∣ cfg.maxNumOfFiles
  colBytes : 8 ∣ cfg.maxNumOfFiles

/-- A block in transit has no more bits than its cells and, where they are sent, its
states. -/
theorem blockMessageLen_le : 8 * cfg.blockMessageLen ≤
    cfg.matrixRowSize * cfg.encryptBlockSize +
      if cfg.decryptAtClientSide then 0 else cfg.matrixRowSize := by
  unfold blockMessageLen blockBytes
  split <;> omega

variable {cfg}

namespace Tiled

variable (h : cfg.Tiled)
include h

theorem pos : 0 < cfg.encryptBlockSize := h.blockSize.pos

theorem numBlocks_mul : cfg.numBlocks * cfg.encryptBlockSize = cfg.maxNumOfFiles :=
  Nat.div_mul_cancel h.blocks

theorem matrixColSize_mul : 8 * cfg.matrixColSize = cfg.maxNumOfFiles :=
  Nat.mul_div_cancel' h.colBytes

/-- A column lies in a block, at a place within it. -/
theorem block_lt {j : Nat} (hj : j < cfg.maxNumOfFiles) :
    j / cfg.encryptBlockSize < cfg.numBlocks :=
  Nat.div_lt_of_lt_mul (by rw [Nat.mul_comm, h.numBlocks_mul]; exact hj)

/-- The columns of a block are columns of the matrix. -/
theorem col_lt {b i : Nat} (hb : b < cfg.numBlocks) (hi : i < cfg.encryptBlockSize) :
    b * cfg.encryptBlockSize + i < cfg.maxNumOfFiles := by
  rw [← h.numBlocks_mul]
  exact tile_lt hb hi

end Tiled

namespace Sized

variable (h : cfg.Sized)
include h

theorem tiled : cfg.Tiled := ⟨h.blockSize, h.blocks, h.colBytes⟩

theorem rowBytes_mul : 8 * (cfg.matrixRowSize / 8) = cfg.matrixRowSize :=
  Nat.mul_div_cancel' h.rowBytes

theorem blockBytes_mul : 8 * cfg.blockBytes = cfg.matrixRowSize * cfg.encryptBlockSize :=
  Nat.mul_div_cancel' (Nat.dvd_mul_right_of_dvd h.rowBytes _)

theorem blockMessageLen_mul : 8 * cfg.blockMessageLen =
    cfg.matrixRowSize * cfg.encryptBlockSize +
      if cfg.decryptAtClientSide then 0 else cfg.matrixRowSize := by
  have hb := h.blockBytes_mul
  have hr := h.rowBytes_mul
  unfold blockMessageLen
  split <;> omega

end Sized

end Config

/-- The rows and blocks of a request exist. -/
def Command.Valid (cfg : Config) : Command Key → Prop
  | .searchOperation tau => tau.rowIndex < cfg.matrixRowSize
  | .requestSearchData row => row < cfg.matrixRowSize
  | .requestBlockData b => b < cfg.numBlocks
  | .updateBlockData b _ => b < cfg.numBlocks

/-! ### Messages -/

/-- Append the state bits of a block behind its data. -/
def serializeStates (cfg : Config) (stateBit : Nat → Bool) (buffer : Buf) : Buf :=
  forLoop cfg.matrixRowSize (fun row b =>
    putBitAt b (cfg.matrixRowSize * cfg.encryptBlockSize + row) (stateBit row)) buffer

theorem bit_serializeStates (cfg : Config) (stateBit : Nat → Bool) (buffer : Buf) (k : Nat) :
    bit (serializeStates cfg stateBit buffer) k =
      if cfg.matrixRowSize * cfg.encryptBlockSize ≤ k ∧
          k < cfg.matrixRowSize * cfg.encryptBlockSize + cfg.matrixRowSize
      then stateBit (k - cfg.matrixRowSize * cfg.encryptBlockSize) else bit buffer k := by
  have run := bit_copyRun cfg.matrixRowSize buffer (cfg.matrixRowSize * cfg.encryptBlockSize)
    (packBuf stateBit) 0 k
  simpa only [copyRun, serializeStates, bit_packBuf, Nat.zero_add] using run

/-! ### The machine -/

/-- The members of `Server_DSSE` in memory mode. -/
structure RamServer where
  I : Matrix
  blockStateMat : Matrix
  blockCounterArr : Nat → Nat

namespace RamServer

variable (cfg : Config) (cr : Cipher Key) (s : RamServer)

/-- `Server_DSSE::getBlock_data` -/
def getBlockData (index : Nat) (dim : Dim) : List Byte :=
  let buffer := getBlock cfg index dim s.I zeroBuf
  match dim with
  | .row => toBytes buffer cfg.matrixColSize
  | .col =>
    let buffer := if cfg.decryptAtClientSide then buffer
      else serializeStates cfg (fun row =>
        bitCheck (s.blockStateMat row (index / 8)) (index % 8)) buffer
    toBytes buffer cfg.blockMessageLen

/-- `Server_DSSE::updateBlock_data` -/
def updateBlockData (blockIndex : Nat) (data : List Byte) : RamServer :=
  let serializedBuffer := ofBytes data cfg.blockBytes zeroBuf
  let out := update cfg serializedBuffer blockIndex s.I (some s.blockCounterArr)
    (some s.blockStateMat)
  { I := out.1
    blockCounterArr := out.2.1.getD s.blockCounterArr
    blockStateMat := out.2.2.getD s.blockStateMat }

/-- `Server_DSSE::searchKeyword` -/
def searchKeyword (tau : SearchToken Key) : RamServer × List Nat × List (Encryption Key) :=
  let out := search cfg cr tau s.I s.blockCounterArr s.blockStateMat
  ({ s with I := out.I, blockStateMat := out.blockStateMatrix }, out.rFileIDs, out.encryptions)

end RamServer

/-- One turn of `Server_DSSE::start`, with the index in memory. -/
def ramServer (cfg : Config) (cr : Cipher Key) : Machine RamServer (Command Key) (Response Key) where
  step s
    | .searchOperation tau =>
      if cfg.decryptAtClientSide then none
      else
        let out := s.searchKeyword cfg cr tau
        some (out.1, ⟨.found out.2.1, out.2.2⟩)
    | .requestSearchData row => some (s, ⟨.data (s.getBlockData cfg row .row), []⟩)
    | .requestBlockData b => some (s, ⟨.data (s.getBlockData cfg b .col), []⟩)
    | .updateBlockData b data => some (s.updateBlockData cfg b data, ⟨.success, []⟩)

end ImDsse
