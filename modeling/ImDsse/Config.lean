import ImDsse.Kit.Bits

/-!
The compile-time parameters of `config.h` and the two primitives the scheme is
built on.

The macros become the fields and derived sizes of `Config`. `BlockSize` is what
the comment beside `ENCRYPT_BLOCK_SIZE` allows. The block cipher is taken as
given: `genRowKey` is any function of row index and keyword counter, and one
CTR block is the exclusive or with a keystream that is any function of row key,
block index and block counter.
-/

namespace ImDsse

open Kit.Bits

/-- The macros of `config.h` that size the index. -/
structure Config where
  maxNumOfFiles : Nat
  maxNumKeywords : Nat
  encryptBlockSize : Nat
  matrixPieceColSize : Nat
  decryptAtClientSide : Bool

namespace Config

variable (cfg : Config)

/-- `MATRIX_ROW_SIZE` -/
def matrixRowSize : Nat := cfg.maxNumKeywords

/-- `MATRIX_COL_SIZE`, in bytes. -/
def matrixColSize : Nat := cfg.maxNumOfFiles / 8

/-- `NUM_BLOCKS` -/
def numBlocks : Nat := cfg.maxNumOfFiles / cfg.encryptBlockSize

/-- `MATRIX_PIECE_ROW_SIZE`: a piece on disk has all rows of
`matrixPieceColSize` byte columns. -/
def matrixPieceRowSize : Nat := cfg.matrixRowSize

/-- `BLOCK_STATE_ROW_SIZE` -/
def blockStateRowSize : Nat := cfg.matrixRowSize

/-- `BLOCK_STATE_PIECE_ROW_SIZE` -/
def blockStatePieceRowSize : Nat := cfg.matrixPieceRowSize

/-- `BLOCK_STATE_PIECE_COL_SIZE`, in bytes: the state matrix is one piece. -/
def blockStatePieceColSize : Nat := cfg.numBlocks / 8

/-- The bytes of one block in transit, `MATRIX_ROW_SIZE*ENCRYPT_BLOCK_SIZE/BYTE_SIZE`. -/
def blockBytes : Nat := cfg.matrixRowSize * cfg.encryptBlockSize / 8

end Config

/-- A product of two macros. It is an `int`, unless a factor is too large for one,
and has no value where it overflows. -/
def product (a b : Nat) : Option Nat :=
  if a * b < (if a < 2 ^ 31 ∧ b < 2 ^ 31 then 2 ^ 31 else 2 ^ 63) then some (a * b) else none

theorem product_eq {a b x : Nat} (h : product a b = some x) : x = a * b := by
  obtain ⟨-, h⟩ := Option.ite_none_right_eq_some.mp h
  exact (Option.some.inj h).symm

/-- `BLOCK_CIPHER_SIZE` -/
def blockCipherSize : Nat := 16

/-- `ULONG_MAX`, the last value of a `TYPE_COUNTER`. -/
def ulongMax : Nat := 2 ^ 64 - 1

/-- `counter + 1` in a `TYPE_COUNTER` (64 bits, unsigned). -/
def nextCounter (counter : Nat) : Nat := (counter + 1) % 2 ^ 64

theorem nextCounter_of_lt {c : Nat} (h : c < ulongMax) : nextCounter c = c + 1 := by
  unfold nextCounter
  unfold ulongMax at h
  omega

/-! ### Block sizes -/

/-- "either 1, 2, 4 or divisible by 8 and not larger than 128" -/
def BlockSize (B : Nat) : Prop := B = 1 ∨ B = 2 ∨ B = 4 ∨ (8 ∣ B ∧ 0 < B ∧ B ≤ 128)

instance (B : Nat) : Decidable (BlockSize B) := by unfold BlockSize; infer_instance

namespace BlockSize

variable {B : Nat} (h : BlockSize B)
include h

theorem pos : 0 < B := by unfold BlockSize at h; omega

theorem le : B ≤ 128 := by unfold BlockSize at h; omega

/-- A block at least a byte wide is a whole number of bytes. -/
theorem bytes (hB : 8 ≤ B) : 8 * (B / 8) = B := by
  obtain h | h | h | ⟨h, -, -⟩ := h <;> omega

/-- A block narrower than a byte does not cross a byte boundary. -/
theorem within_byte (hB : B < 8) (b : Nat) : b * B % 8 + B ≤ 8 := by
  obtain rfl | rfl | rfl | ⟨h, hpos, -⟩ := h <;> omega

/-- Blocks at least a byte wide start at a byte boundary. -/
theorem byte_aligned (hB : 8 ≤ B) (b : Nat) : b * B = 8 * (b * (B / 8)) := by
  calc b * B = b * (8 * (B / 8)) := by rw [h.bytes hB]
    _ = 8 * (b * (B / 8)) := by rw [Nat.mul_left_comm]

/-- A byte holds a whole number of the narrower blocks. -/
theorem per_byte (hB : B < 8) : 8 / B * B = 8 := by
  obtain rfl | rfl | rfl | ⟨h, hpos, -⟩ := h <;> omega

end BlockSize

/-! ### The cipher -/

/-- Row keys and keystreams. `keystream key blockIdx counter` is the block that
`aes128_ctr_encdec` adds under `key` with `blockIdx` in the low and `counter` in
the high half of the initial counter. `zeroKey` is the all-zero key buffer. -/
structure Cipher (Key : Type) where
  genRowKey : Nat → Nat → Key
  keystream : Key → Nat → Nat → Buf
  zeroKey : Key

namespace Cipher

variable {Key : Type} (cr : Cipher Key)

/-- `aes128_ctr_encdec` on one block. -/
def aes128CtrEncdec (pt : Buf) (key : Key) (blockIdx counter : Nat) : Buf := fun i =>
  if i < blockCipherSize then pt i ^^^ cr.keystream key blockIdx counter i else 0

/-- Bit `k` of a keystream block. -/
def ks (key : Key) (blockIdx counter k : Nat) : Bool := bit (cr.keystream key blockIdx counter) k

theorem bit_aes128CtrEncdec (pt : Buf) (key : Key) (blockIdx counter : Nat) {k : Nat}
    (hk : k < 128) : bit (cr.aes128CtrEncdec pt key blockIdx counter) k =
      (bit pt k ^^ cr.ks key blockIdx counter k) := by
  have hlt : k / 8 < blockCipherSize := by unfold blockCipherSize; omega
  rw [ks, ← bit_xor]
  simp only [bit, aes128CtrEncdec, if_pos hlt]

end Cipher

/-- One call of `aes128_ctr_encdec` that encrypts: the key, and the block index
and counter of its initial counter value. -/
structure Encryption (Key : Type) where
  key : Key
  blockIdx : Nat
  counter : Nat
deriving DecidableEq, Repr

/-! ### A small instance -/

/-- Eight keywords and eight files in one piece. -/
def smallConfig (encryptBlockSize : Nat) (decryptAtClientSide : Bool) : Config where
  maxNumOfFiles := 8
  maxNumKeywords := 8
  encryptBlockSize := encryptBlockSize
  matrixPieceColSize := 1
  decryptAtClientSide := decryptAtClientSide

/-- The same for thirty-two files in four pieces. -/
def wideConfig (encryptBlockSize : Nat) (decryptAtClientSide : Bool) : Config :=
  { smallConfig encryptBlockSize decryptAtClientSide with maxNumOfFiles := 32 }

/-- Row keys as terms: `some (r, c)` is the key of row `r` under counter `c`. -/
def termCipher (keystream : Option (Nat × Nat) → Nat → Nat → Buf) : Cipher (Option (Nat × Nat)) where
  genRowKey r c := some (r, c)
  keystream := keystream
  zeroKey := none

/-- A keystream that depends on row, counters, block and byte. -/
def smallKeystream (key : Option (Nat × Nat)) (blockIdx counter : Nat) : Buf := fun i =>
  match key with
  | none => 0
  | some (r, c) => BitVec.ofNat 8 (31 * r + 17 * c + 7 * blockIdx + 5 * counter + i)

def smallCipher : Cipher (Option (Nat × Nat)) := termCipher smallKeystream

end ImDsse
