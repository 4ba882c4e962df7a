import ImDsse.Kit.Loop

/-!
Byte-addressed memory read bit by bit.

A buffer is a total map from byte positions to bytes, and `bit b k` is its
`k`-th bit, least significant bit of a byte first. Every write below is
described by what it does to `bit`: which run of bits it replaces, by what, and
that the others stay. A program that packs the same bits in different ways is
then compared through `bit` alone.
-/

namespace Kit.Bits

open Kit.Loop

abbrev Byte := BitVec 8

instance : LawfulBEq Byte := inferInstance

/-- Memory: byte positions to bytes. -/
abbrev Buf := Nat → Byte

/-- Row-addressed memory. -/
abbrev Matrix := Nat → Buf

def zeroBuf : Buf := fun _ => 0

/-- Test bit `pos` of a byte. -/
def bitCheck (x : Byte) (pos : Nat) : Bool := x.getLsbD pos

/-- Set bit `pos` of a byte. -/
def bitSet (x : Byte) (pos : Nat) : Byte := x ||| (1#8 <<< pos)

/-- Clear bit `pos` of a byte. -/
def bitClear (x : Byte) (pos : Nat) : Byte := x &&& ~~~(1#8 <<< pos)

/-- Set or clear bit `pos` of a byte, as `v` says. -/
def bitPut (x : Byte) (pos : Nat) (v : Bool) : Byte :=
  if v then bitSet x pos else bitClear x pos

theorem bitCheck_bitPut (x : Byte) {p q : Nat} (v : Bool) (hp : p < 8) :
    bitCheck (bitPut x p v) q = if q = p then v else bitCheck x q := by
  unfold bitPut bitSet bitClear bitCheck
  by_cases hq : q < 8
  · cases v <;> by_cases h : q = p <;>
      simp [h, hp, hq] <;> omega
  · have hne : q ≠ p := by omega
    cases v <;> simp [hne, BitVec.getLsbD_of_ge _ _ (Nat.le_of_not_lt hq)]

/-- The `k`-th bit of a buffer. -/
def bit (b : Buf) (k : Nat) : Bool := bitCheck (b (k / 8)) (k % 8)

@[simp] theorem bit_zeroBuf (k : Nat) : bit zeroBuf k = false := by
  simp [bit, zeroBuf, bitCheck]

theorem bit_add (b : Buf) (i : Nat) {p : Nat} (hp : p < 8) :
    bit b (8 * i + p) = bitCheck (b i) p := by
  unfold bit
  rw [show (8 * i + p) / 8 = i by omega, show (8 * i + p) % 8 = p by omega]

/-- Bytes are equal when their bits are. -/
theorem byte_ext {x y : Byte} (h : ∀ p, p < 8 → bitCheck x p = bitCheck y p) : x = y :=
  BitVec.eq_of_getLsbD_eq fun p hp => h p hp

theorem byte_eq_of_bit {a b : Buf} {i j : Nat}
    (h : ∀ p, p < 8 → bit a (8 * i + p) = bit b (8 * j + p)) : a i = b j :=
  byte_ext fun p hp => by simpa [bit_add, hp] using h p hp

/-- Exclusive or of two buffers is exclusive or of their bits. -/
theorem bit_xor (a b : Buf) (k : Nat) : bit (fun i => a i ^^^ b i) k = (bit a k ^^ bit b k) := by
  simp [bit, bitCheck]

/-- The byte whose bit `p` is `f p`. -/
def packByte (f : Nat → Bool) : Byte := forLoop 8 (fun p x => bitPut x p (f p)) 0

theorem bitCheck_packByte (f : Nat → Bool) {p : Nat} (hp : p < 8) :
    bitCheck (packByte f) p = f p := by
  unfold packByte
  have inv := forLoop_inv (n := 8) (f := fun p x => bitPut x p (f p)) (s := (0 : Byte))
    (fun m x => p < m → bitCheck x p = f p) (by omega) (by
      intro m hm x ih hlt
      rw [bitCheck_bitPut _ _ hm]
      by_cases hpm : p = m
      · rw [if_pos hpm, hpm]
      · rw [if_neg hpm, ih (by omega)])
  exact inv hp

/-- The buffer with the given bits. -/
def packBuf (f : Nat → Bool) : Buf := fun i => packByte fun p => f (8 * i + p)

@[simp] theorem bit_packBuf (f : Nat → Bool) (k : Nat) : bit (packBuf f) k = f k := by
  unfold bit packBuf
  rw [bitCheck_packByte _ (Nat.mod_lt k (by decide)), Nat.div_add_mod]

/-! ### Single writes -/

/-- Store a byte. -/
def putByte (b : Buf) (i : Nat) (x : Byte) : Buf := Function.update b i x

/-- Store bit `pos` of byte `i`. -/
def putBit (b : Buf) (i pos : Nat) (v : Bool) : Buf := putByte b i (bitPut (b i) pos v)

theorem bit_putByte (b : Buf) (i : Nat) (x : Byte) (k : Nat) :
    bit (putByte b i x) k = if k / 8 = i then bitCheck x (k % 8) else bit b k := by
  unfold bit putByte
  by_cases h : k / 8 = i <;> simp [h]

theorem bit_putBit (b : Buf) (i : Nat) {pos : Nat} (v : Bool) (hp : pos < 8) (k : Nat) :
    bit (putBit b i pos v) k = if k = 8 * i + pos then v else bit b k := by
  unfold putBit
  rw [bit_putByte]
  by_cases hi : k / 8 = i
  · rw [if_pos hi, bitCheck_bitPut _ _ hp]
    by_cases hk : k % 8 = pos
    · rw [if_pos hk, if_pos (by omega)]
    · rw [if_neg hk, if_neg (by omega), bit, hi]
  · rw [if_neg hi, if_neg (by omega)]

/-- Store the `k`-th bit of a buffer, addressed as byte `k / 8`, bit `k % 8`. -/
def putBitAt (b : Buf) (k : Nat) (v : Bool) : Buf := putBit b (k / 8) (k % 8) v

theorem bit_putBitAt (b : Buf) (k : Nat) (v : Bool) (k' : Nat) :
    bit (putBitAt b k v) k' = if k' = k then v else bit b k' := by
  unfold putBitAt
  rw [bit_putBit _ _ _ (Nat.mod_lt k (by decide)), Nat.div_add_mod]

/-! ### Runs of bits and of bytes -/

/-- Copy `n` bits within one byte: bit `sbit + ii` of `src[scol]` to bit
`dbit + ii` of `dst[dcol]`. -/
def copyBits (n : Nat) (dst : Buf) (dcol dbit : Nat) (src : Buf) (scol sbit : Nat) : Buf :=
  forLoop n (fun ii b => putBit b dcol (dbit + ii) (bitCheck (src scol) (sbit + ii))) dst

theorem bit_copyBits {n dbit sbit : Nat} (dst : Buf) (dcol : Nat) (src : Buf) (scol : Nat)
    (hd : dbit + n ≤ 8) (hs : sbit + n ≤ 8) (k : Nat) :
    bit (copyBits n dst dcol dbit src scol sbit) k =
      if 8 * dcol + dbit ≤ k ∧ k < 8 * dcol + dbit + n
      then bit src (8 * scol + sbit + (k - (8 * dcol + dbit))) else bit dst k := by
  unfold copyBits
  refine forLoop_inv (P := fun m b => bit b k =
    if 8 * dcol + dbit ≤ k ∧ k < 8 * dcol + dbit + m
    then bit src (8 * scol + sbit + (k - (8 * dcol + dbit))) else bit dst k) ?_ ?_
  · rw [if_neg (by omega)]
  · intro m hm b ih
    rw [bit_putBit _ _ _ (by omega), ih]
    by_cases hk : k = 8 * dcol + (dbit + m)
    · subst hk
      rw [if_pos rfl, if_pos (by omega), ← bit_add src scol (by omega)]
      congr 1
      omega
    · rw [if_neg hk]
      by_cases hin : 8 * dcol + dbit ≤ k ∧ k < 8 * dcol + dbit + m
      · rw [if_pos hin, if_pos (by omega)]
      · rw [if_neg hin, if_neg (by omega)]

/-- Copy `n` bytes: `dst[dcol + ii] = src[scol + ii]`. -/
def copyBytes (n : Nat) (dst : Buf) (dcol : Nat) (src : Buf) (scol : Nat) : Buf :=
  forLoop n (fun ii b => putByte b (dcol + ii) (src (scol + ii))) dst

theorem copyBytes_apply (n : Nat) (dst : Buf) (dcol : Nat) (src : Buf) (scol i : Nat) :
    copyBytes n dst dcol src scol i =
      if dcol ≤ i ∧ i < dcol + n then src (scol + (i - dcol)) else dst i := by
  unfold copyBytes
  refine forLoop_inv (P := fun m (b : Buf) => b i =
    if dcol ≤ i ∧ i < dcol + m then src (scol + (i - dcol)) else dst i) ?_ ?_
  · rw [if_neg (by omega)]
  · intro m _ b ih
    unfold putByte
    by_cases hi : i = dcol + m
    · subst hi
      rw [Function.update_self, if_pos (by omega)]
      congr 1
      omega
    · rw [Function.update_of_ne hi, ih]
      by_cases hin : dcol ≤ i ∧ i < dcol + m
      · rw [if_pos hin, if_pos (by omega)]
      · rw [if_neg hin, if_neg (by omega)]

theorem bit_copyBytes (n : Nat) (dst : Buf) (dcol : Nat) (src : Buf) (scol k : Nat) :
    bit (copyBytes n dst dcol src scol) k =
      if 8 * dcol ≤ k ∧ k < 8 * dcol + 8 * n
      then bit src (8 * scol + (k - 8 * dcol)) else bit dst k := by
  rw [bit, copyBytes_apply]
  by_cases h : 8 * dcol ≤ k ∧ k < 8 * dcol + 8 * n
  · rw [if_pos h, if_pos (by omega), bit, show (8 * scol + (k - 8 * dcol)) / 8 =
      scol + (k / 8 - dcol) by omega, show (8 * scol + (k - 8 * dcol)) % 8 = k % 8 by omega]
  · rw [if_neg h, if_neg (by omega), bit]

/-- Copy `n` bits across byte boundaries: bit `spos + ii` of `src` to bit
`dpos + ii` of `dst`. -/
def copyRun (n : Nat) (dst : Buf) (dpos : Nat) (src : Buf) (spos : Nat) : Buf :=
  forLoop n (fun ii b => putBitAt b (dpos + ii) (bit src (spos + ii))) dst

theorem bit_copyRun (n : Nat) (dst : Buf) (dpos : Nat) (src : Buf) (spos k : Nat) :
    bit (copyRun n dst dpos src spos) k =
      if dpos ≤ k ∧ k < dpos + n then bit src (spos + (k - dpos)) else bit dst k := by
  unfold copyRun
  refine forLoop_inv (P := fun m (b : Buf) => bit b k =
    if dpos ≤ k ∧ k < dpos + m then bit src (spos + (k - dpos)) else bit dst k) ?_ ?_
  · rw [if_neg (by omega)]
  · intro m _ b ih
    rw [bit_putBitAt, ih]
    by_cases hk : k = dpos + m
    · subst hk
      rw [if_pos rfl, if_pos (by omega)]
      congr 1
      omega
    · rw [if_neg hk]
      by_cases hin : dpos ≤ k ∧ k < dpos + m
      · rw [if_pos hin, if_pos (by omega)]
      · rw [if_neg hin, if_neg (by omega)]

theorem putBit_eq_putBitAt (b : Buf) (i : Nat) {p : Nat} (v : Bool) (hp : p < 8) :
    putBit b i p v = putBitAt b (8 * i + p) v := by
  unfold putBitAt
  rw [show (8 * i + p) / 8 = i by omega, show (8 * i + p) % 8 = p by omega]

/-! ### Tiles

A loop whose iteration `r` fills the bits `r * B`, …, `r * B + B - 1` of one
buffer lays its tiles side by side. -/

theorem div_mod_tile {k r B : Nat} (lo : r * B ≤ k) (hi : k < r * B + B) :
    k / B = r ∧ k % B = k - r * B := by
  have hB : 0 < B := by omega
  have hdiv : k / B = r := Nat.div_eq_of_lt_le lo (by rw [Nat.succ_mul]; exact hi)
  refine ⟨hdiv, ?_⟩
  have h := Nat.div_add_mod k B
  rw [hdiv, Nat.mul_comm] at h
  omega

/-- The bits of a tile, by their bounds. -/
theorem in_tile_iff {B : Nat} (pos : 0 < B) (r k : Nat) :
    r * B ≤ k ∧ k < r * B + B ↔ k / B = r := by
  constructor
  · rintro ⟨lo, hi⟩
    exact (div_mod_tile lo hi).1
  · rintro rfl
    have hdiv := Nat.div_add_mod' k B
    have hmod := Nat.mod_lt k pos
    omega

theorem tile_lt {r n i B : Nat} (hr : r < n) (hi : i < B) : r * B + i < n * B := by
  have h : (r + 1) * B ≤ n * B := Nat.mul_le_mul_right B hr
  rw [Nat.succ_mul] at h
  omega

@[simp] theorem tile_div {r i B : Nat} (hi : i < B) : (r * B + i) / B = r :=
  (div_mod_tile (by omega) (by omega)).1

@[simp] theorem tile_mod {r i B : Nat} (hi : i < B) : (r * B + i) % B = i := by
  rw [(div_mod_tile (r := r) (by omega) (by omega)).2]
  omega

/-- Iteration `r` rewrites the bits of tile `r`, each from its old value. -/
theorem bit_tiles {n B : Nat} {fill : Nat → Buf → Buf} (tile : Nat → Nat → Bool → Bool)
    (filled : ∀ r, r < n → ∀ b k, bit (fill r b) k =
      if r * B ≤ k ∧ k < r * B + B then tile r (k - r * B) (bit b k) else bit b k)
    (b : Buf) (k : Nat) :
    bit (forLoop n fill b) k =
      if k < n * B then tile (k / B) (k % B) (bit b k) else bit b k := by
  refine forLoop_inv (P := fun m (t : Buf) => bit t k =
    if k < m * B then tile (k / B) (k % B) (bit b k) else bit b k) ?_ ?_
  · rw [if_neg (by omega)]
  · intro m hm t ih
    rw [filled m hm, ih, Nat.succ_mul]
    by_cases hin : m * B ≤ k ∧ k < m * B + B
    · obtain ⟨hd, hr⟩ := div_mod_tile hin.1 hin.2
      rw [if_pos hin, if_pos hin.2, if_neg (by omega), hd, hr]
    · rw [if_neg hin]
      by_cases hlt : k < m * B
      · rw [if_pos hlt, if_pos (by omega)]
      · rw [if_neg hlt, if_neg (by omega)]

/-! ### Rows of a matrix -/

/-- Write within row `r`. -/
def onRow (I : Matrix) (r : Nat) (f : Buf → Buf) : Matrix := Function.update I r (f (I r))

theorem onRow_apply (I : Matrix) (r : Nat) (f : Buf → Buf) (r' : Nat) :
    onRow I r f r' = if r' = r then f (I r') else I r' := by
  unfold onRow
  by_cases h : r' = r <;> simp [h]

/-- Writes within one row add up to one write within that row. -/
theorem forLoop_onRow (n : Nat) (f : Nat → Buf → Buf) (I : Matrix) (r : Nat) :
    forLoop n (fun i I => onRow I r (f i)) I = onRow I r (forLoop n f) := by
  induction n with
  | zero => simp [onRow]
  | succ n ih =>
    rw [forLoop_succ, ih]
    funext r'
    simp only [onRow_apply]
    by_cases h : r' = r <;> simp [h]

/-- A loop that writes within row `r` at iteration `r`. -/
theorem forLoop_rows (n : Nat) (f : Nat → Buf → Buf) (I : Matrix) (r : Nat) :
    forLoop n (fun r I => onRow I r (f r)) I r = if r < n then f r (I r) else I r := by
  induction n with
  | zero => simp
  | succ n ih =>
    rw [forLoop_succ, onRow_apply, ih]
    by_cases h : r = n
    · subst h; simp
    · rw [if_neg h]
      by_cases hlt : r < n
      · rw [if_pos hlt, if_pos (by omega)]
      · rw [if_neg hlt, if_neg (by omega)]

/-! ### Collecting the set bits -/

/-- Append `g i` for every `i < n` that passes the test. -/
theorem forLoop_push (n : Nat) (test : Nat → Bool) (g : Nat → Nat) (l : List Nat) :
    forLoop n (fun i l => if test i then l ++ [g i] else l) l =
      l ++ ((List.range n).filter test).map g := by
  induction n with
  | zero => simp
  | succ n ih =>
    rw [forLoop_succ, ih, List.range_succ, List.filter_append, List.map_append]
    cases h : test n <;> simp [h]

/-- Append `base + k` for every set bit `k` of the first `n` bytes, byte by byte. -/
def scanBytes (n : Nat) (b : Buf) (base : Nat) (l : List Nat) : List Nat :=
  forLoop n (fun ii l => forLoop 8 (fun p l =>
    if bitCheck (b ii) p then l ++ [base + (ii * 8 + p)] else l) l) l

theorem scanBytes_eq (n : Nat) (b : Buf) (base : Nat) (l : List Nat) :
    scanBytes n b base l = l ++ ((List.range (8 * n)).filter (bit b)).map (base + ·) := by
  induction n with
  | zero => simp [scanBytes]
  | succ n ih =>
    have last : (List.range 8).filter (bitCheck (b n)) =
        (List.range 8).filter (fun p => bit b (8 * n + p)) :=
      List.filter_congr fun p hp => (bit_add b n (List.mem_range.mp hp)).symm
    unfold scanBytes at ih ⊢
    rw [forLoop_succ, ih, forLoop_push 8 (bitCheck (b n)) fun p => base + (n * 8 + p), last,
      show 8 * (n + 1) = 8 * n + 8 by omega, List.range_add, List.filter_append,
      List.map_append, List.append_assoc, List.filter_map, List.map_map]
    simp only [Function.comp_def, Nat.mul_comm n 8]

/-! ### Messages -/

/-- The first `len` bytes of a buffer, as they are put on the wire or in a file. -/
def toBytes (b : Buf) (len : Nat) : List Byte := (List.range len).map b

/-- Receive a message into a buffer of `len` bytes: what does not fit is cut
off, positions the message does not reach keep their old byte. -/
def ofBytes (msg : List Byte) (len : Nat) (old : Buf) : Buf :=
  fun i => if i < len then msg.getD i (old i) else old i

@[simp] theorem length_toBytes (b : Buf) (len : Nat) : (toBytes b len).length = len := by
  rw [toBytes, List.length_map, List.length_range]

theorem getD_toBytes (b : Buf) {len i : Nat} (inside : i < len) (x : Byte) :
    (toBytes b len).getD i x = b i := by
  rw [toBytes, List.getD_eq_getElem?_getD, List.getElem?_map, List.getElem?_range inside]
  rfl

theorem toBytes_congr {a b : Buf} {len : Nat} (h : ∀ i, i < len → a i = b i) :
    toBytes a len = toBytes b len :=
  List.map_congr_left fun i hi => h i (List.mem_range.mp hi)

theorem toBytes_congr_bit {a b : Buf} {len : Nat}
    (h : ∀ k, k < 8 * len → bit a k = bit b k) : toBytes a len = toBytes b len :=
  toBytes_congr fun i hi => byte_eq_of_bit fun p hp => h _ (by omega)

theorem ofBytes_toBytes (b : Buf) (len : Nat) (old : Buf) (i : Nat) :
    ofBytes (toBytes b len) len old i = if i < len then b i else old i := by
  unfold ofBytes toBytes
  by_cases h : i < len <;> simp [h]

theorem bit_ofBytes_toBytes (b : Buf) (len : Nat) (old : Buf) (k : Nat) :
    bit (ofBytes (toBytes b len) len old) k = if k < 8 * len then bit b k else bit old k := by
  rw [bit, ofBytes_toBytes]
  by_cases h : k < 8 * len
  · rw [if_pos (by omega), if_pos h, bit]
  · rw [if_neg (by omega), if_neg h, bit]

end Kit.Bits
