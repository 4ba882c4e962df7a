import ImDsse.Kit.Bits

/-!
CMAC (OMAC1) over a block cipher of 128 bits.

Blocks are bit strings, and sixteen bytes are one with the first byte in front. `cmac`
is the definition of SP 800-38B; `cmac_append` is the form a program computes it in
that has chained the blocks before the last one and still holds the last bytes.
-/

namespace Kit.Cmac

open Kit.Loop Kit.Bits

abbrev Block := BitVec 128

/-! ### Blocks and bytes -/

/-- The bit string of sixteen bytes. -/
def blockOf (b : Buf) : Block := forLoop 16 (fun i x => (x <<< 8) ||| (b i).setWidth 128) 0

/-- The sixteen bytes of a block. -/
def bytesOf (x : Block) : Buf := fun i => x.extractLsb' (8 * (15 - i)) 8

theorem getLsbD_blockOf (b : Buf) {k : Nat} (hk : k < 128) :
    (blockOf b).getLsbD k = (b (15 - k / 8)).getLsbD (k % 8) := by
  -- after `m` bytes the last of them is in the low eight bits
  have read := forLoop_inv (n := 16) (s := (0 : Block))
    (f := fun i (x : Block) => (x <<< 8) ||| (b i).setWidth 128)
    (fun m (x : Block) => ∀ k < 128,
      x.getLsbD k = (decide (k < 8 * m) && (b (m - 1 - k / 8)).getLsbD (k % 8)))
    (fun k _ => by simp) ?step
  · rw [blockOf, read k hk, decide_eq_true (show k < 8 * 16 from hk), Bool.true_and]
  case step =>
    intro m _ x ih k hk
    rw [BitVec.getLsbD_or, BitVec.getLsbD_shiftLeft, BitVec.getLsbD_setWidth, decide_eq_true hk,
      Bool.true_and, Bool.true_and]
    by_cases low : k < 8
    · rw [decide_eq_true low, decide_eq_true (show k < 8 * (m + 1) by omega), Bool.true_and,
        Nat.div_eq_of_lt low, Nat.mod_eq_of_lt low]
      rfl
    · have above : (b m).getLsbD k = false := BitVec.getLsbD_of_ge _ _ (Nat.le_of_not_lt low)
      have inside : decide (k - 8 < 8 * m) = decide (k < 8 * (m + 1)) := by
        rw [decide_eq_decide]
        omega
      rw [decide_eq_false low, ih (k - 8) (by omega), above, Bool.or_false, inside,
        show m - 1 - (k - 8) / 8 = m + 1 - 1 - k / 8 by omega, show (k - 8) % 8 = k % 8 by omega]
      rfl

/-- Bit `p` of byte `i`. -/
theorem getLsbD_blockOf_byte (b : Buf) {i p : Nat} (hi : i < 16) (hp : p < 8) :
    (blockOf b).getLsbD (8 * (15 - i) + p) = (b i).getLsbD p := by
  rw [getLsbD_blockOf b (by omega), show 15 - (8 * (15 - i) + p) / 8 = i by omega,
    show (8 * (15 - i) + p) % 8 = p by omega]

/-- Blocks are equal when their bytes have the same bits. -/
theorem block_ext {x y : Block}
    (h : ∀ i < 16, ∀ p < 8, x.getLsbD (8 * (15 - i) + p) = y.getLsbD (8 * (15 - i) + p)) : x = y := by
  refine BitVec.eq_of_getLsbD_eq fun k hk => ?_
  have same := h (15 - k / 8) (by omega) (k % 8) (Nat.mod_lt k (by decide))
  rwa [show 8 * (15 - (15 - k / 8)) + k % 8 = k by omega] at same

theorem blockOf_bytesOf (x : Block) : blockOf (bytesOf x) = x := by
  refine block_ext fun i hi p hp => ?_
  rw [getLsbD_blockOf_byte _ hi hp, bytesOf, BitVec.getLsbD_extractLsb', decide_eq_true hp,
    Bool.true_and]

/-- Only sixteen bytes matter. -/
theorem blockOf_congr {a b : Buf} (h : ∀ i < 16, a i = b i) : blockOf a = blockOf b := by
  refine block_ext fun i hi p hp => ?_
  rw [getLsbD_blockOf_byte a hi hp, getLsbD_blockOf_byte b hi hp, h i hi]

/-- Sixteen bytes are read back. -/
theorem bytesOf_blockOf (b : Buf) {i : Nat} (hi : i < 16) : bytesOf (blockOf b) i = b i := by
  apply BitVec.eq_of_getLsbD_eq
  intro p hp
  rw [bytesOf, BitVec.getLsbD_extractLsb', decide_eq_true hp, Bool.true_and,
    getLsbD_blockOf_byte b hi hp]

theorem blockOf_xor (a b : Buf) : blockOf (fun i => a i ^^^ b i) = blockOf a ^^^ blockOf b := by
  refine block_ext fun i hi p hp => ?_
  rw [getLsbD_blockOf_byte _ hi hp, BitVec.getLsbD_xor, BitVec.getLsbD_xor,
    getLsbD_blockOf_byte a hi hp, getLsbD_blockOf_byte b hi hp]

theorem blockOf_zeroBuf : blockOf zeroBuf = 0 := by
  refine block_ext fun i hi p hp => ?_
  rw [getLsbD_blockOf_byte _ hi hp]
  exact BitVec.getLsbD_zero.trans BitVec.getLsbD_zero.symm

/-! ### Doubling -/

/-- The product with `u` in the field of 2^128 elements. -/
def dbl (x : Block) : Block := if x.msb then (x <<< 1) ^^^ 0x87#128 else x <<< 1

/-- The same on bytes: every byte takes its neighbour's first bit, the last one the mask. -/
def dblBytes (b : Buf) : Buf := fun i =>
  if i < 15 then (b i <<< 1) ||| (b (i + 1) >>> 7)
  else (b i <<< 1) ^^^ if (b 0).msb then 0x87#8 else 0#8

theorem getLsbD_shiftLeft_one (x : Block) {i p : Nat} (hi : i < 16) (hp : p < 8) :
    (x <<< 1).getLsbD (8 * (15 - i) + p) =
      if p = 0 then decide (i < 15) && x.getLsbD (8 * (15 - (i + 1)) + 7)
      else x.getLsbD (8 * (15 - i) + (p - 1)) := by
  rw [BitVec.getLsbD_shiftLeft]
  by_cases first : p = 0
  · subst first
    by_cases inner : i < 15
    · rw [if_pos rfl, show 8 * (15 - i) + 0 - 1 = 8 * (15 - (i + 1)) + 7 by omega]
      simp only [inner, decide_true, Bool.true_and, Bool.and_eq_right_iff_imp]
      intro _
      simp only [Bool.and_eq_true, decide_eq_true_eq, Bool.not_eq_eq_eq_not, Bool.not_true,
        decide_eq_false_iff_not]
      omega
    · obtain rfl : i = 15 := by omega
      simp
  · rw [if_neg first, show 8 * (15 - i) + p - 1 = 8 * (15 - i) + (p - 1) by omega]
    simp only [Bool.and_eq_right_iff_imp]
    intro _
    simp only [Bool.and_eq_true, decide_eq_true_eq, Bool.not_eq_eq_eq_not, Bool.not_true,
      decide_eq_false_iff_not]
    omega

/-- The mask lies in the last byte. -/
theorem getLsbD_mask {i p : Nat} (hi : i < 16) (hp : p < 8) :
    (0x87#128).getLsbD (8 * (15 - i) + p) = (decide (i = 15) && (0x87#8).getLsbD p) := by
  rw [BitVec.getLsbD_ofNat, BitVec.getLsbD_ofNat, decide_eq_true (show _ < 128 by omega),
    decide_eq_true hp, Bool.true_and, Bool.true_and]
  by_cases last : i = 15
  · subst last
    rw [decide_eq_true rfl, Bool.true_and, Nat.sub_self, Nat.mul_zero, Nat.zero_add]
  · have high : 2 ^ 8 ≤ 2 ^ (8 * (15 - i) + p) := Nat.pow_le_pow_right (by decide) (by omega)
    rw [decide_eq_false last, Bool.false_and]
    exact Nat.testBit_lt_two_pow (Nat.lt_of_lt_of_le (by decide) high)

theorem msb_blockOf (b : Buf) : (blockOf b).msb = (b 0).msb := by
  rw [BitVec.msb_eq_getLsbD_last, BitVec.msb_eq_getLsbD_last]
  exact getLsbD_blockOf_byte b (i := 0) (p := 7) (by decide) (by decide)

/-- The shifted block, byte by byte. -/
theorem getLsbD_shifted (b : Buf) {i p : Nat} (hi : i < 16) (hp : p < 8) :
    ((blockOf b) <<< 1).getLsbD (8 * (15 - i) + p) =
      if i < 15 then ((b i <<< 1) ||| (b (i + 1) >>> 7)).getLsbD p else (b i <<< 1).getLsbD p := by
  have own : (b i <<< 1).getLsbD p = (decide (0 < p) && (b i).getLsbD (p - 1)) := by
    rw [BitVec.getLsbD_shiftLeft, decide_eq_true hp, Bool.true_and]
    congr 1
    simp only [← decide_not, decide_eq_decide]
    omega
  have next : (b (i + 1) >>> 7).getLsbD p = (decide (p = 0) && (b (i + 1)).getLsbD 7) := by
    rw [BitVec.getLsbD_ushiftRight]
    by_cases first : p = 0
    · subst first
      rfl
    · rw [decide_eq_false first, Bool.false_and]
      exact BitVec.getLsbD_of_ge _ _ (by omega)
  rw [getLsbD_shiftLeft_one _ hi hp, BitVec.getLsbD_or, own, next]
  by_cases first : p = 0
  · subst first
    by_cases inner : i < 15
    · rw [if_pos rfl, if_pos inner, getLsbD_blockOf_byte b (by omega) (by decide)]
      simp [inner]
    · rw [if_pos rfl, if_neg inner]
      simp [inner]
  · rw [if_neg first, getLsbD_blockOf_byte b hi (by omega)]
    have pos : 0 < p := Nat.pos_of_ne_zero first
    simp [first, pos]

theorem blockOf_dblBytes (b : Buf) : blockOf (dblBytes b) = dbl (blockOf b) := by
  refine block_ext fun i hi p hp => ?_
  rw [getLsbD_blockOf_byte _ hi hp, dbl, msb_blockOf, dblBytes]
  by_cases inner : i < 15
  · have other : decide (i = 15) = false := decide_eq_false (by omega)
    rw [if_pos inner]
    split
    · rw [BitVec.getLsbD_xor, getLsbD_shifted b hi hp, getLsbD_mask hi hp, other, if_pos inner,
        Bool.false_and, Bool.xor_false]
    · rw [getLsbD_shifted b hi hp, if_pos inner]
  · obtain rfl : i = 15 := by omega
    rw [if_neg inner]
    split
    · rw [BitVec.getLsbD_xor, BitVec.getLsbD_xor, getLsbD_shifted b hi hp, getLsbD_mask hi hp,
        if_neg inner, decide_eq_true rfl, Bool.true_and]
    · rw [getLsbD_shifted b hi hp, if_neg inner, BitVec.xor_zero]

/-! ### The code -/

/-- Block `i` of a message; the last one may be short. -/
def nthBlock (M : List Byte) (i : Nat) : List Byte := (M.drop (16 * i)).take 16

def blockOfList (m : List Byte) : Block := blockOf fun i => m.getD i 0

/-- The number of blocks; the empty message has one. -/
def blockCount (len : Nat) : Nat := if len = 0 then 1 else (len + 15) / 16

section Code

variable (E : Block → Block)

def subkey₁ : Block := dbl (E 0)

def subkey₂ : Block := dbl (subkey₁ E)

/-- Cipher block chaining. -/
def chain (c : Block) (ms : List Block) : Block := ms.foldl (fun c m => E (c ^^^ m)) c

/-- The last block: a short one is padded with a one and zeros. -/
def lastBlock (m : List Byte) : Block :=
  if m.length = 16 then blockOfList m ^^^ subkey₁ E
  else blockOfList (m ++ 0x80#8 :: List.replicate (15 - m.length) 0#8) ^^^ subkey₂ E

/-- CMAC. -/
def cmac (M : List Byte) : Block :=
  let n := blockCount M.length
  chain E 0 ((List.range (n - 1)).map (fun i => blockOfList (nthBlock M i)) ++
    [lastBlock E (nthBlock M (n - 1))])

/-- A message of whole blocks, as blocks. -/
def wholeBlocks (M : List Byte) : List Block :=
  (List.range (M.length / 16)).map fun i => blockOfList (nthBlock M i)

theorem chain_append (c : Block) (ms ms' : List Block) :
    chain E c (ms ++ ms') = chain E (chain E c ms) ms' := List.foldl_append

/-- A block of the first part is a block of the whole. -/
theorem nthBlock_append {M rest : List Byte} {i : Nat} (inside : 16 * i + 16 ≤ M.length) :
    nthBlock (M ++ rest) i = nthBlock M i := by
  unfold nthBlock
  rw [List.drop_append_of_le_length (by omega), List.take_append_of_le_length]
  rw [List.length_drop]
  omega

theorem wholeBlocks_append {M m : List Byte} (whole : 16 ∣ M.length) (one : m.length = 16) :
    wholeBlocks (M ++ m) = wholeBlocks M ++ [blockOfList m] := by
  obtain ⟨q, hq⟩ := whole
  have count : (M ++ m).length / 16 = q + 1 := by
    rw [List.length_append, hq, one]
    omega
  have last : nthBlock (M ++ m) q = m := by
    rw [nthBlock, ← hq, List.drop_left, ← one, List.take_length]
  rw [wholeBlocks, wholeBlocks, count, List.range_succ, List.map_append, List.map_singleton, last, hq,
    Nat.mul_div_cancel_left q (by decide)]
  refine congrArg (· ++ [blockOfList m]) (List.map_congr_left fun i hi => ?_)
  have := List.mem_range.mp hi
  rw [nthBlock_append (by omega)]

/-- The code of whole blocks and a last one, which is empty only when nothing is before it. -/
theorem cmac_append {M m : List Byte} (whole : 16 ∣ M.length) (le : m.length ≤ 16)
    (some : m = [] → M = []) :
    cmac E (M ++ m) = E (chain E 0 (wholeBlocks M) ^^^ lastBlock E m) := by
  obtain ⟨q, hq⟩ := whole
  have count : blockCount (M ++ m).length = q + 1 := by
    unfold blockCount
    rw [List.length_append, hq]
    by_cases empty : m = []
    · have none : M = [] := some empty
      rw [none] at hq
      rw [empty, if_pos]
      · simp at hq
        omega
      · rw [← hq]
        rfl
    · have pos := List.length_pos_iff.mpr empty
      rw [if_neg (by omega)]
      omega
  have last : nthBlock (M ++ m) q = m := by
    rw [nthBlock, ← hq, List.drop_left, List.take_of_length_le le]
  rw [cmac, count, Nat.add_sub_cancel, last, chain_append, wholeBlocks, hq,
    Nat.mul_div_cancel_left q (by decide)]
  have blocks : (List.range q).map (fun i => blockOfList (nthBlock (M ++ m) i)) =
      (List.range q).map fun i => blockOfList (nthBlock M i) := by
    refine List.map_congr_left fun i hi => ?_
    have := List.mem_range.mp hi
    rw [nthBlock_append (by omega)]
  rw [blocks]
  rfl

/-! ### Short messages

A message of one block is enciphered once, so a cipher that can be undone tells such
messages apart: whole blocks from each other, and shorter ones from each other. -/

theorem cmac_single {m : List Byte} (le : m.length ≤ 16) : cmac E m = E (lastBlock E m) := by
  have nothing : 16 ∣ ([] : List Byte).length := Nat.dvd_zero 16
  have single := cmac_append E nothing le fun _ => rfl
  rw [List.nil_append] at single
  rw [single]
  exact congrArg E (BitVec.zero_xor)

omit E in
/-- Sixteen bytes as a block tell the bytes. -/
theorem blockOfList_injective {m m' : List Byte} (length : m.length = 16) (length' : m'.length = 16)
    (same : blockOfList m = blockOfList m') : m = m' := by
  apply List.ext_getElem (length.trans length'.symm)
  intro i hi hi'
  have inside : i < 16 := length ▸ hi
  have byte := congrArg (fun x => bytesOf x i) same
  simp only [blockOfList] at byte
  rw [bytesOf_blockOf _ inside, bytesOf_blockOf _ inside] at byte
  simpa [List.getD_eq_getElem?_getD, hi, hi'] using byte

omit E in
/-- The padding of a last block can be taken off. -/
theorem pad_injective {m m' : List Byte} {n n' : Nat}
    (same : m ++ 0x80#8 :: List.replicate n 0#8 = m' ++ 0x80#8 :: List.replicate n' 0#8) : m = m' := by
  let unpad (l : List Byte) : List Byte := (l.reverse.dropWhile (· = 0#8)).tail.reverse
  have back (m : List Byte) (n : Nat) : unpad (m ++ 0x80#8 :: List.replicate n 0#8) = m := by
    have zeros : ∀ x ∈ List.replicate n 0#8, decide (x = 0#8) = true := fun x mem =>
      decide_eq_true (List.eq_of_mem_replicate mem)
    simp only [unpad, List.reverse_append, List.reverse_cons, List.reverse_replicate,
      List.append_assoc]
    rw [List.dropWhile_append_of_pos zeros]
    simp
  rw [← back m n, same, back m' n']

variable {E} (permutes : Function.Injective E) {m m' : List Byte}
include permutes

theorem cmac_injective_of_block (length : m.length = 16) (length' : m'.length = 16)
    (same : cmac E m = cmac E m') : m = m' := by
  rw [cmac_single E (Nat.le_of_eq length), cmac_single E (Nat.le_of_eq length'), lastBlock, lastBlock,
    if_pos length, if_pos length'] at same
  exact blockOfList_injective length length' ((BitVec.xor_left_inj _).mp (permutes same))

theorem cmac_injective_of_short (short : m.length < 16) (short' : m'.length < 16)
    (same : cmac E m = cmac E m') : m = m' := by
  rw [cmac_single E (Nat.le_of_lt short), cmac_single E (Nat.le_of_lt short'), lastBlock, lastBlock,
    if_neg (Nat.ne_of_lt short), if_neg (Nat.ne_of_lt short')] at same
  have padded (m : List Byte) (short : m.length < 16) :
      (m ++ 0x80#8 :: List.replicate (15 - m.length) 0#8).length = 16 := by
    rw [List.length_append, List.length_cons, List.length_replicate]
    omega
  exact pad_injective (blockOfList_injective (padded m short) (padded m' short')
    ((BitVec.xor_left_inj _).mp (permutes same)))

end Code

end Kit.Cmac
