import ImDsse.Kit.Cmac

/-!
The OMAC of the builds with AES-NI (`omac_aesni_init`, `omac_aesni_process` and
`omac_aesni_done`).

The bytes of a message come in pieces. The state holds back the last block, full or
not, until the next byte comes: only then is it known not to be the last one. With
`LTC_FAST` a long piece that meets an empty buffer is chained in place up to its last
block. `Absorbed` is the state after a message, however it was cut, and
`omac_aesni_cmac` says that the tag is the CMAC of the pieces put together.
-/

namespace ImDsse

open Kit.Loop Kit.Bits Kit.Cmac

variable {Key : Type}

/-- `omac_state`, without the scheduled key, which this build does not use. -/
structure OmacState where
  cipherIdx : Int
  buflen : Nat
  blklen : Nat
  block : Buf
  prev : Buf
  Lu : Nat → Buf

/-- How a call ends that does not return `CRYPT_OK`. -/
inductive OmacError where
  /-- `LTC_ARGCHK`, which aborts the process. -/
  | argchk
  | invalidCipher
  | invalidArg
  /-- A loop that goes on for ever. -/
  | endless
deriving DecidableEq, Repr

/-- `LTC_FAST_TYPE` -/
inductive FastType where
  | ulong32
  | ulong64
deriving DecidableEq, Repr

/-- `sizeof(LTC_FAST_TYPE)` -/
def FastType.size : FastType → Nat
  | .ulong32 => 4
  | .ulong64 => 8

/-- `intel_AES_enc128` on one block, from `input` to `output`. -/
def intelAESEnc128 (aes : Key → Block → Block) (key : Key) (input output : Buf) : Buf := fun i =>
  if i < 16 then bytesOf (aes key (blockOf input)) i else output i

/-- `for (x < n) dst[x] ^= src[x]` -/
def xorBytes (n : Nat) (dst src : Buf) : Buf :=
  forLoop n (fun x dst => putByte dst x (dst x ^^^ src x)) dst

/-- One round of the loop that calculates `Lu`, in place. -/
def shiftLu (mask : Byte) (len : Nat) (L : Buf) : Buf :=
  let msb := L 0 >>> 7
  let L := forLoop (len - 1) (fun y L => putByte L y ((L y <<< 1) ||| (L (y + 1) >>> 7))) L
  putByte L (len - 1) ((L (len - 1) <<< 1) ^^^ if msb ≠ 0 then mask else 0)

/-- `*(LTC_FAST_TYPE *)&prev[y] ^= *(LTC_FAST_TYPE *)&in[y]` -/
def xorWord (size y : Nat) (prev input : Buf) : Buf := fun i =>
  if y ≤ i ∧ i < y + size then prev i ^^^ input i else prev i

section Omac

variable (fast : Option FastType) (blockLength : Int → Option Nat) (aes : Key → Block → Block)
  (key : Key)

/-- `omac_aesni_init`. `blockLength` is that of the registered ciphers. -/
def omacAesniInit (cipher : Int) (omac : OmacState) : Except OmacError OmacState :=
  match blockLength cipher with
  | none => .error .invalidCipher
  | some length =>
    if fast.any fun type => length % type.size ≠ 0 then .error .invalidArg
    else
      match if length = 8 then some (0x1b#8, 8) else if length = 16 then some (0x87#8, 16)
        else none with
      | none => .error .invalidArg
      | some (mask, len) =>
        let Lu₀ : Buf := fun i => if i < length then 0 else omac.Lu 0 i
        let Lu := Function.update omac.Lu 0 (intelAESEnc128 aes key Lu₀ Lu₀)
        let Lu := forLoop 2 (fun x Lu =>
          let Lu := Function.update Lu x (shiftLu mask len (Lu x))
          if x = 0 then Function.update Lu 1 (Lu 0) else Lu) Lu
        .ok ⟨cipher, 0, len, zeroBuf, zeroBuf, Lu⟩

/-- A full block is chained. -/
def OmacState.flush (omac : OmacState) : OmacState :=
  let block := xorBytes omac.blklen omac.block omac.prev
  { omac with block := block, prev := intelAESEnc128 aes key block omac.prev, buflen := 0 }

/-- The bytes of `in` that find room. -/
def OmacState.fill (omac : OmacState) (n : Nat) (input : List Byte) : OmacState :=
  { omac with
    block := copyBytes n omac.block omac.buflen (fun i => input.getD i 0) 0
    buflen := omac.buflen + n }

/-- The `while` loop of `omac_aesni_process`, for at most `fuel` rounds. -/
def absorb : Nat → OmacState → List Byte → Except OmacError OmacState
  | _, omac, [] => .ok omac
  | 0, _, _ :: _ => .error .endless
  | fuel + 1, omac, input@(_ :: _) =>
    let omac := if omac.buflen = omac.blklen then omac.flush aes key else omac
    let n := min input.length (omac.blklen - omac.buflen)
    absorb fuel (omac.fill n input) (input.drop n)

/-- The loop over blocks of the fast path. -/
def fastBlocks (type : FastType) (blklen count : Nat) (input : List Byte) (prev : Buf) : Buf :=
  forLoop count (fun b prev =>
    let prev := forLoop (iterations blklen type.size) (fun w prev =>
      xorWord type.size (w * type.size) prev fun i => input.getD (b * blklen + i) 0) prev
    intelAESEnc128 aes key prev prev) prev

/-- `omac_aesni_process`. Every round of the loop takes a byte of `in`. -/
def omacAesniProcess (omac : OmacState) (input : List Byte) : Except OmacError OmacState :=
  match blockLength omac.cipherIdx with
  | none => .error .invalidCipher
  | some blklen =>
    if 128 < omac.buflen ∨ 128 < omac.blklen ∨ omac.blklen < omac.buflen then .error .invalidArg
    else
      match fast with
      | none => absorb aes key input.length omac input
      | some type =>
        if omac.buflen = 0 ∧ blklen < input.length then
          let count := iterations (input.length - blklen) blklen
          let input' := input.drop (count * blklen)
          absorb aes key input'.length
            { omac with prev := fastBlocks aes key type blklen count input omac.prev } input'
        else absorb aes key input.length omac input

/-- The padding of `omac_aesni_done`: the byte 0x80, then zeros. -/
def OmacState.pad (omac : OmacState) : Buf :=
  forLoop (omac.blklen - (omac.buflen + 1)) (fun x block => putByte block (omac.buflen + 1 + x) 0)
    (putByte omac.block omac.buflen 0x80)

/-- `omac_aesni_done`, the last one of the argument checks being about a number. -/
def omacAesniDone (omac : OmacState) (out : Buf) (outlen : Int) : Except OmacError Buf :=
  if outlen = 0 then .error .argchk
  else
    match blockLength omac.cipherIdx with
    | none => .error .invalidCipher
    | some _ =>
      if 128 < omac.buflen ∨ 128 < omac.blklen ∨ omac.blklen < omac.buflen then .error .invalidArg
      else
        let (block, mode) := if omac.buflen ≠ omac.blklen then (omac.pad, 1) else (omac.block, 0)
        let block := xorBytes omac.blklen block fun x => omac.prev x ^^^ omac.Lu mode x
        let block := intelAESEnc128 aes key block block
        .ok (copyBytes (min omac.blklen (outlen % 2 ^ 32).toNat) out 0 block 0)

/-- A message that is processed piece by piece. -/
def omacAesni (cipher : Int) (omac : OmacState) (pieces : List (List Byte)) (out : Buf)
    (outlen : Int) : Except OmacError Buf := do
  let omac ← omacAesniInit fast blockLength aes key cipher omac
  let omac ← pieces.foldlM (omacAesniProcess fast blockLength aes key) omac
  omacAesniDone blockLength aes key omac out outlen

end Omac

/-! ### Bytes in place -/

theorem xorBytes_apply (n : Nat) (dst src : Buf) (i : Nat) :
    xorBytes n dst src i = if i < n then dst i ^^^ src i else dst i := by
  refine forLoop_inv (P := fun m (b : Buf) => b i = if i < m then dst i ^^^ src i else dst i) ?_ ?_
  · rw [if_neg (Nat.not_lt_zero i)]
  · intro m _ b ih
    unfold putByte
    by_cases last : i = m
    · subst last
      rw [if_neg (Nat.lt_irrefl i)] at ih
      rw [Function.update_self, if_pos (Nat.lt_succ_self i), ih]
    · rw [Function.update_of_ne last, ih]
      by_cases before : i < m
      · rw [if_pos before, if_pos (Nat.lt_succ_of_lt before)]
      · rw [if_neg before, if_neg (by omega)]

theorem blockOf_xorBytes (dst src : Buf) :
    blockOf (xorBytes 16 dst src) = blockOf dst ^^^ blockOf src := by
  rw [← blockOf_xor]
  refine blockOf_congr fun i hi => ?_
  rw [xorBytes_apply, if_pos hi]

theorem blockOf_intelAESEnc128 (aes : Key → Block → Block) (key : Key) (input output : Buf) :
    blockOf (intelAESEnc128 aes key input output) = aes key (blockOf input) := by
  rw [← blockOf_bytesOf (aes key (blockOf input))]
  refine blockOf_congr fun i hi => ?_
  rw [intelAESEnc128, if_pos hi]

/-- The words of a block cover it. -/
theorem xorWords_apply (type : FastType) (prev input : Buf) {i : Nat} (hi : i < 16) :
    forLoop (iterations 16 type.size) (fun w prev =>
      xorWord type.size (w * type.size) prev input) prev i = prev i ^^^ input i := by
  have whole : iterations 16 type.size * type.size = 16 := by
    cases type <;> rfl
  have words := forLoop_inv (n := iterations 16 type.size) (s := prev)
    (f := fun w prev => xorWord type.size (w * type.size) prev input)
    (fun m (b : Buf) => b i = if i < m * type.size then prev i ^^^ input i else prev i) ?start ?step
  · rw [words, whole, if_pos hi]
  case start => rw [Nat.zero_mul, if_neg (Nat.not_lt_zero i)]
  case step =>
    intro m _ b ih
    rw [xorWord, ih, Nat.succ_mul]
    by_cases before : i < m * type.size
    · rw [if_neg (by omega), if_pos before, if_pos (by omega)]
    · rw [if_neg before]
      by_cases inside : i < m * type.size + type.size
      · rw [if_pos ⟨Nat.le_of_not_lt before, inside⟩, if_pos inside]
      · rw [if_neg fun h => inside h.2, if_neg inside]

theorem shifted_ne_zero : ∀ x : Byte, x >>> 7 ≠ 0 ↔ x.msb = true := by
  decide

/-- A round of the loop in place doubles the block. -/
theorem blockOf_shiftLu (L : Buf) : blockOf (shiftLu 0x87 16 L) = dbl (blockOf L) := by
  rw [← blockOf_dblBytes]
  -- byte `y + 1` is read before it is written
  have shifted := forLoop_inv (n := 15) (s := L)
    (f := fun y L => putByte L y ((L y <<< 1) ||| (L (y + 1) >>> 7)))
    (fun m (b : Buf) => ∀ i, b i = if i < m then (L i <<< 1) ||| (L (i + 1) >>> 7) else L i)
    (fun i => (if_neg (Nat.not_lt_zero i)).symm) (by
      intro m _ b ih i
      unfold putByte
      by_cases last : i = m
      · subst last
        rw [Function.update_self, if_pos (Nat.lt_succ_self i), ih i, ih (i + 1),
          if_neg (Nat.lt_irrefl i), if_neg (by omega)]
      · rw [Function.update_of_ne last, ih i]
        by_cases before : i < m
        · rw [if_pos before, if_pos (Nat.lt_succ_of_lt before)]
        · rw [if_neg before, if_neg (by omega)])
  refine blockOf_congr fun i hi => ?_
  unfold shiftLu dblBytes
  by_cases inner : i < 15
  · rw [if_pos inner]
    refine (Function.update_of_ne (Nat.ne_of_lt inner) _ _).trans ?_
    rw [shifted, if_pos inner]
  · obtain rfl : i = 15 := by omega
    rw [if_neg (Nat.lt_irrefl 15)]
    refine (Function.update_self 15 _ _).trans ?_
    rw [shifted, if_neg (Nat.lt_irrefl 15)]
    simp only [shifted_ne_zero]
    rfl

/-! ### The state after a message -/

/-- The bytes of the message that are not chained yet. -/
def OmacState.held (omac : OmacState) : List Byte := toBytes omac.block omac.buflen

/-- The blocks of `M` are chained, the subkeys are ready, and the buffer has room. -/
structure Chained (E : Block → Block) (cipher : Int) (M : List Byte) (omac : OmacState) : Prop where
  cipherIdx : omac.cipherIdx = cipher
  blklen : omac.blklen = 16
  buflen : omac.buflen ≤ 16
  whole : 16 ∣ M.length
  prev : blockOf omac.prev = chain E 0 (wholeBlocks M)
  Lu₀ : blockOf (omac.Lu 0) = subkey₁ E
  Lu₁ : blockOf (omac.Lu 1) = subkey₂ E

/-- The message `m` has been processed: its last block is held back. -/
def Absorbed (E : Block → Block) (cipher : Int) (m : List Byte) (omac : OmacState) : Prop :=
  ∃ M, Chained E cipher M omac ∧ m = M ++ omac.held ∧ (omac.held = [] → M = [])

theorem held_length (omac : OmacState) : omac.held.length = omac.buflen := length_toBytes _ _

theorem held_getD (omac : OmacState) {i : Nat} (hi : i < omac.buflen) :
    omac.held.getD i 0 = omac.block i := getD_toBytes _ hi 0

/-- A full buffer holds a block. -/
theorem blockOfList_held {omac : OmacState} (full : omac.buflen = 16) :
    blockOfList omac.held = blockOf omac.block :=
  blockOf_congr fun _ hi => held_getD omac (full ▸ hi)

/-- The bytes filled in come behind those held. -/
theorem held_fill (omac : OmacState) {n : Nat} {input : List Byte} (le : n ≤ input.length) :
    (omac.fill n input).held = omac.held ++ input.take n := by
  unfold OmacState.held OmacState.fill toBytes
  rw [List.range_add, List.map_append, List.map_map]
  congr 1
  · refine List.map_congr_left fun i hi => ?_
    have before := List.mem_range.mp hi
    show copyBytes n omac.block omac.buflen (fun i => input.getD i 0) 0 i = omac.block i
    rw [copyBytes_apply, if_neg (by omega)]
  · refine List.ext_getElem (by simp [le]) fun i hi hi' => ?_
    have inside : i < n := by simpa using hi
    simp only [List.getElem_map, List.getElem_range, Function.comp_apply, List.getElem_take]
    rw [copyBytes_apply, if_pos (by omega), Nat.add_sub_cancel_left, Nat.zero_add,
      List.getD_eq_getElem?_getD, List.getElem?_eq_getElem (by omega), Option.getD_some]

section Runs

variable {aes : Key → Block → Block} {key : Key} {cipher : Int} {M : List Byte} {omac : OmacState}

/-- A full buffer is chained behind the blocks before it. -/
theorem Chained.flush (chained : Chained (aes key) cipher M omac) (full : omac.buflen = 16) :
    Chained (aes key) cipher (M ++ omac.held) (omac.flush aes key) where
  cipherIdx := chained.cipherIdx
  blklen := chained.blklen
  buflen := Nat.zero_le _
  whole := by
    rw [List.length_append, held_length, full]
    exact Nat.dvd_add chained.whole (Nat.dvd_refl 16)
  prev := by
    have one : omac.held.length = 16 := (held_length omac).trans full
    rw [wholeBlocks_append chained.whole one, chain_append, ← chained.prev, blockOfList_held full]
    show blockOf (intelAESEnc128 aes key (xorBytes omac.blklen omac.block omac.prev) omac.prev) = _
    rw [blockOf_intelAESEnc128, chained.blklen, blockOf_xorBytes, BitVec.xor_comm]
    rfl
  Lu₀ := chained.Lu₀
  Lu₁ := chained.Lu₁

theorem Chained.fill (chained : Chained (aes key) cipher M omac) {n : Nat} (input : List Byte)
    (room : omac.buflen + n ≤ 16) : Chained (aes key) cipher M (omac.fill n input) where
  cipherIdx := chained.cipherIdx
  blklen := chained.blklen
  buflen := room
  whole := chained.whole
  prev := chained.prev
  Lu₀ := chained.Lu₀
  Lu₁ := chained.Lu₁

/-- Before more bytes come a full buffer is chained. There is room then. -/
theorem Chained.makeRoom (chained : Chained (aes key) cipher M omac) :
    ∃ M' omac', (if omac.buflen = omac.blklen then omac.flush aes key else omac) = omac' ∧
      Chained (aes key) cipher M' omac' ∧ M' ++ omac'.held = M ++ omac.held ∧
      omac'.buflen < 16 := by
  by_cases full : omac.buflen = omac.blklen
  · rw [if_pos full]
    exact ⟨_, _, rfl, chained.flush (full.trans chained.blklen), List.append_nil _,
      show (0 : Nat) < 16 by decide⟩
  · rw [if_neg full]
    rw [chained.blklen] at full
    exact ⟨M, omac, rfl, chained, rfl, Nat.lt_of_le_of_ne chained.buflen full⟩

/-- The loop takes all bytes, and holds the last of them back. -/
theorem absorb_spec {fuel : Nat} {input : List Byte} (enough : input.length ≤ fuel)
    (chained : Chained (aes key) cipher M omac) :
    ∃ M' omac', absorb aes key fuel omac input = .ok omac' ∧ Chained (aes key) cipher M' omac' ∧
      M' ++ omac'.held = M ++ omac.held ++ input ∧
      (omac'.held = [] → input = [] ∧ M' = M ∧ omac.held = []) := by
  induction fuel generalizing omac M input with
  | zero =>
    obtain rfl := List.length_eq_zero_iff.mp (Nat.le_zero.mp enough)
    exact ⟨M, omac, rfl, chained, (List.append_nil _).symm, fun empty => ⟨rfl, rfl, empty⟩⟩
  | succ fuel ih =>
    cases input with
    | nil => exact ⟨M, omac, rfl, chained, (List.append_nil _).symm, fun empty => ⟨rfl, rfl, empty⟩⟩
    | cons c rest =>
      rw [absorb]
      obtain ⟨M₁, omac₁, roomy, chained₁, same, room⟩ := chained.makeRoom
      rw [roomy, chained₁.blklen]
      set n := min (c :: rest).length (16 - omac₁.buflen) with hn
      have some : 0 < n := by
        rw [hn, List.length_cons]
        omega
      have le : n ≤ (c :: rest).length := Nat.min_le_left _ _
      have filled := chained₁.fill (n := n) (c :: rest) (by omega)
      have left : ((c :: rest).drop n).length ≤ fuel := by
        rw [List.length_drop]
        rw [List.length_cons] at enough ⊢
        omega
      obtain ⟨M', omac', run, chained', all, held⟩ := ih left filled
      refine ⟨M', omac', run, chained', ?_, fun empty => ?_⟩
      · rw [all, held_fill omac₁ le, ← List.append_assoc, same, List.append_assoc,
          List.take_append_drop]
      · -- the buffer was just filled with some bytes
        have none := (held empty).2.2
        rw [held_fill omac₁ le] at none
        have := congrArg List.length none
        rw [List.length_append, List.length_take_of_le le, List.length_nil] at this
        omega

/-- The fast path chains blocks of the piece in place. -/
theorem blockOf_fastBlocks (type : FastType) {input : List Byte} {count : Nat}
    (inside : count * 16 ≤ input.length) {prev : Buf} (start : blockOf prev = 0) :
    blockOf (fastBlocks aes key type 16 count input prev) =
      chain (aes key) 0 (wholeBlocks (input.take (count * 16))) := by
  refine forLoop_inv (P := fun m (b : Buf) =>
    blockOf b = chain (aes key) 0 (wholeBlocks (input.take (m * 16)))) ?_ ?_
  · rw [Nat.zero_mul, List.take_zero]
    exact start
  · intro m hm b ih
    have within : m * 16 + 16 ≤ input.length := by omega
    have next : input.take ((m + 1) * 16) = input.take (m * 16) ++ (input.drop (m * 16)).take 16 := by
      rw [Nat.succ_mul, List.take_add]
    have whole : 16 ∣ (input.take (m * 16)).length := by
      rw [List.length_take_of_le (by omega)]
      exact Nat.dvd_mul_left 16 m
    have one : ((input.drop (m * 16)).take 16).length = 16 := by
      rw [List.length_take_of_le]
      rw [List.length_drop]
      omega
    rw [next, wholeBlocks_append whole one, chain_append, ← ih, blockOf_intelAESEnc128]
    refine congrArg (aes key) ?_
    rw [blockOfList, ← blockOf_xor]
    refine blockOf_congr fun i hi => ?_
    rw [xorWords_apply type b _ hi]
    simp only [List.getD_eq_getElem?_getD, List.getElem?_take_of_lt hi, List.getElem?_drop]

end Runs

section Process

variable {fast : Option FastType} {blockLength : Int → Option Nat} {aes : Key → Block → Block}
  {key : Key} {cipher : Int} (aes128 : blockLength cipher = some 16) {omac : OmacState}
include aes128

/-- The state after a piece. -/
theorem process_absorbed {m : List Byte} (absorbed : Absorbed (aes key) cipher m omac)
    (input : List Byte) : ∃ omac', omacAesniProcess fast blockLength aes key omac input = .ok omac' ∧
      Absorbed (aes key) cipher (m ++ input) omac' := by
  obtain ⟨M, chained, rfl, first⟩ := absorbed
  have sound : ¬ (128 < omac.buflen ∨ 128 < omac.blklen ∨ omac.blklen < omac.buflen) := by
    have := chained.buflen
    have := chained.blklen
    omega
  -- without the fast path, and behind it, the loop takes the rest
  have looped : ∃ omac', absorb aes key input.length omac input = .ok omac' ∧
      Absorbed (aes key) cipher (M ++ omac.held ++ input) omac' := by
    obtain ⟨M', omac', run, chained', all, held⟩ := absorb_spec (Nat.le_refl _) chained
    refine ⟨omac', run, M', chained', all.symm, fun empty => ?_⟩
    obtain ⟨-, rfl, none⟩ := held empty
    exact first none
  have known : blockLength omac.cipherIdx = some 16 := chained.cipherIdx ▸ aes128
  unfold omacAesniProcess
  rw [known]
  dsimp only
  rw [if_neg sound]
  cases fast with
  | none => exact looped
  | some type =>
    dsimp only
    split
    · next long =>
      obtain ⟨empty, long⟩ := long
      have none : omac.held = [] := List.length_eq_zero_iff.mp ((held_length omac).trans empty)
      obtain rfl := first none
      set count := iterations (input.length - 16) 16 with hcount
      have less : count * 16 < input.length := by
        rw [hcount, iterations]
        omega
      have skipped : Chained (aes key) cipher (input.take (count * 16))
          { omac with prev := fastBlocks aes key type 16 count input omac.prev } :=
        { cipherIdx := chained.cipherIdx
          blklen := chained.blklen
          buflen := chained.buflen
          whole := by
            rw [List.length_take_of_le (Nat.le_of_lt less)]
            exact Nat.dvd_mul_left 16 count
          prev := blockOf_fastBlocks type (Nat.le_of_lt less) chained.prev
          Lu₀ := chained.Lu₀
          Lu₁ := chained.Lu₁ }
      obtain ⟨M', omac', run, chained', all, held⟩ := absorb_spec (Nat.le_refl _) skipped
      refine ⟨omac', run, M', chained', ?_, fun empty' => ?_⟩
      · have none' : ({ omac with prev := fastBlocks aes key type 16 count input omac.prev } :
            OmacState).held = [] := none
        rw [all, none', none]
        simp only [List.append_nil, List.nil_append, List.take_append_drop]
      · -- the piece was not used up
        have left := congrArg List.length (held empty').1
        rw [List.length_drop, List.length_nil] at left
        omega
    · exact looped

/-- The state at the start: the subkeys are ready and nothing is chained. -/
theorem init_absorbed (omac : OmacState) :
    ∃ omac', omacAesniInit fast blockLength aes key cipher omac = .ok omac' ∧
      Absorbed (aes key) cipher [] omac' := by
  have sizes : (fast.any fun type => decide (16 % type.size ≠ 0)) = false := by
    cases fast with
    | none => rfl
    | some type => cases type <;> rfl
  have zero : blockOf (fun i => if i < 16 then 0 else omac.Lu 0 i) = 0 := by
    rw [← blockOf_zeroBuf]
    exact blockOf_congr fun i hi => if_pos hi
  unfold omacAesniInit
  rw [aes128]
  dsimp only
  rw [sizes]
  refine ⟨_, rfl, [], ?_, rfl, fun _ => rfl⟩
  have first : blockOf (shiftLu 0x87 16 (intelAESEnc128 aes key
      (fun i => if i < 16 then 0 else omac.Lu 0 i) fun i => if i < 16 then 0 else omac.Lu 0 i)) =
      subkey₁ (aes key) := by
    rw [blockOf_shiftLu, blockOf_intelAESEnc128, zero]
    rfl
  exact
    { cipherIdx := rfl
      blklen := rfl
      buflen := Nat.zero_le _
      whole := Nat.dvd_zero 16
      prev := blockOf_zeroBuf
      Lu₀ := first
      Lu₁ := (blockOf_shiftLu _).trans (congrArg dbl first) }

omit aes128 in
/-- The last block as `omac_aesni_done` pads it. -/
theorem blockOf_pad (blklen : omac.blklen = 16) (short : omac.buflen < 16) :
    blockOf omac.pad =
      blockOfList (omac.held ++ 0x80#8 :: List.replicate (15 - omac.held.length) 0#8) := by
  have zeros : omac.pad = copyBytes (omac.blklen - (omac.buflen + 1))
      (putByte omac.block omac.buflen 0x80) (omac.buflen + 1) zeroBuf 0 := rfl
  refine blockOf_congr fun i hi => ?_
  rw [zeros, copyBytes_apply, blklen, List.getD_eq_getElem?_getD]
  rcases Nat.lt_trichotomy i omac.buflen with before | rfl | behind
  · rw [if_neg (by omega), List.getElem?_append_left (by rw [held_length]; exact before),
      ← List.getD_eq_getElem?_getD, held_getD omac before]
    exact Function.update_of_ne (Nat.ne_of_lt before) _ _
  · rw [if_neg (by omega), List.getElem?_append_right (Nat.le_of_eq (held_length omac)),
      held_length, Nat.sub_self]
    exact Function.update_self _ _ _
  · rw [if_pos (by omega), List.getElem?_append_right (by rw [held_length]; omega), held_length,
      show i - omac.buflen = i - omac.buflen - 1 + 1 by omega, List.getElem?_cons_succ,
      List.getElem?_replicate, if_pos (by omega)]
    rfl

omit aes128 in
/-- The last block of the message, prepared as the code prepares it. -/
theorem blockOf_last {M : List Byte} (chained : Chained (aes key) cipher M omac) :
    blockOf (if omac.buflen ≠ omac.blklen then (omac.pad, 1) else (omac.block, 0)).1 ^^^
        blockOf (omac.Lu (if omac.buflen ≠ omac.blklen then (omac.pad, 1) else (omac.block, 0)).2) =
      lastBlock (aes key) omac.held := by
  unfold lastBlock
  rw [chained.blklen, held_length]
  by_cases full : omac.buflen = 16
  · rw [if_neg (not_not_intro full), if_pos full, blockOfList_held full, chained.Lu₀]
  · have short : omac.buflen < 16 := Nat.lt_of_le_of_ne chained.buflen full
    rw [if_pos full, if_neg full, chained.Lu₁, ← held_length omac]
    exact congrArg (· ^^^ _) (blockOf_pad chained.blklen short)

/-- The tag of the message processed. -/
theorem done_cmac {m : List Byte} (absorbed : Absorbed (aes key) cipher m omac) (out : Buf) {n : Nat}
    (pos : 0 < n) (le : n ≤ 16) :
    ∃ tag, omacAesniDone blockLength aes key omac out n = .ok tag ∧
      ∀ i, tag i = if i < n then bytesOf (cmac (aes key) m) i else out i := by
  obtain ⟨M, chained, rfl, first⟩ := absorbed
  have known : blockLength omac.cipherIdx = some 16 := chained.cipherIdx ▸ aes128
  have sound : ¬ (128 < omac.buflen ∨ 128 < omac.blklen ∨ omac.blklen < omac.buflen) := by
    have := chained.buflen
    have := chained.blklen
    omega
  have some : (n : Int) ≠ 0 := by omega
  have length : min omac.blklen ((n : Int) % 2 ^ 32).toNat = n := by
    have := chained.blklen
    omega
  have heldLe : omac.held.length ≤ 16 := (held_length omac).symm ▸ chained.buflen
  unfold omacAesniDone
  rw [if_neg some, known]
  dsimp only
  rw [if_neg sound, length]
  refine ⟨_, rfl, fun i => ?_⟩
  rw [copyBytes_apply]
  by_cases inside : i < n
  · rw [if_pos ⟨Nat.zero_le i, by omega⟩, if_pos inside, Nat.zero_add, Nat.sub_zero, intelAESEnc128,
      if_pos (by omega), cmac_append (aes key) chained.whole heldLe first, ← blockOf_last chained,
      chained.blklen, blockOf_xorBytes, blockOf_xor, chained.prev]
    exact congrArg (fun x => bytesOf (aes key x) i) (by ac_rfl)
  · rw [if_neg (by omega), if_neg inside]

/-- The pieces of a message one after the other. -/
theorem pieces_absorbed {m : List Byte} (absorbed : Absorbed (aes key) cipher m omac)
    (pieces : List (List Byte)) :
    ∃ omac', pieces.foldlM (omacAesniProcess fast blockLength aes key) omac = .ok omac' ∧
      Absorbed (aes key) cipher (m ++ pieces.flatten) omac' := by
  induction pieces generalizing omac m with
  | nil => exact ⟨omac, rfl, by rwa [List.flatten_nil, List.append_nil]⟩
  | cons piece pieces ih =>
    obtain ⟨omac₁, one, absorbed₁⟩ : ∃ omac₁,
        omacAesniProcess fast blockLength aes key omac piece = .ok omac₁ ∧
        Absorbed (aes key) cipher (m ++ piece) omac₁ := process_absorbed aes128 absorbed piece
    obtain ⟨omac₂, rest, absorbed₂⟩ := ih absorbed₁
    refine ⟨omac₂, ?_, ?_⟩
    · rw [List.foldlM_cons, one]
      exact rest
    · rwa [List.flatten_cons, ← List.append_assoc]

end Process

/-- However a message is cut into pieces, and with or without `LTC_FAST`, the tag is the
beginning of its CMAC. -/
theorem omac_aesni_cmac (fast : Option FastType) {blockLength : Int → Option Nat} {cipher : Int}
    (aes128 : blockLength cipher = some 16) (aes : Key → Block → Block) (key : Key)
    (omac : OmacState) (pieces : List (List Byte)) (out : Buf) {n : Nat} (pos : 0 < n)
    (le : n ≤ 16) :
    ∃ tag, omacAesni fast blockLength aes key cipher omac pieces out n = .ok tag ∧
      ∀ i, tag i = if i < n then bytesOf (cmac (aes key) pieces.flatten) i else out i := by
  obtain ⟨start, init, absorbed⟩ : ∃ start,
      omacAesniInit fast blockLength aes key cipher omac = .ok start ∧
      Absorbed (aes key) cipher [] start := init_absorbed aes128 omac
  obtain ⟨last, run, absorbed'⟩ : ∃ last,
      pieces.foldlM (omacAesniProcess fast blockLength aes key) start = .ok last ∧
      Absorbed (aes key) cipher ([] ++ pieces.flatten) last :=
    pieces_absorbed aes128 absorbed pieces
  obtain ⟨tag, done, bytes⟩ := done_cmac aes128 absorbed' out pos le
  refine ⟨tag, ?_, bytes⟩
  unfold omacAesni
  rw [init]
  show (pieces.foldlM _ start >>= fun omac => omacAesniDone blockLength aes key omac out n) = _
  rw [run]
  exact done

/-- A state before `omac_aesni_init`. -/
def freshOmac : OmacState := ⟨0, 0, 0, zeroBuf, zeroBuf, fun _ => zeroBuf⟩

/-- Seventeen and three bytes, the tag of full length. -/
theorem omac_aesni_cmac_small :
    ∃ tag, omacAesni (some .ulong64) (fun _ => some 16) (fun key x => x.rotateLeft key + 1) 5 0
        freshOmac [List.replicate 17 0x61#8, [1#8, 2#8, 3#8]] zeroBuf (16 : Nat) = .ok tag ∧
      ∀ i, tag i = if i < 16 then bytesOf (cmac (fun x => x.rotateLeft 5 + 1)
        [List.replicate 17 0x61#8, [1#8, 2#8, 3#8]].flatten) i else zeroBuf i :=
  omac_aesni_cmac (some .ulong64) rfl (fun key x => x.rotateLeft key + 1) 5 freshOmac _ zeroBuf
    (by decide) (by decide)

/-- No tag of length 0 is given: the check of `outlen` aborts. -/
theorem omac_aesni_no_output :
    ¬ ∃ tag, omacAesni none (fun _ => some 16) (fun key x => x.rotateLeft key + 1) 5 0
        freshOmac [] zeroBuf (0 : Nat) = .ok tag ∧
      ∀ i, tag i = if i < 0 then bytesOf (cmac (fun x => x.rotateLeft 5 + 1) []) i
        else zeroBuf i := by
  rintro ⟨tag, run, -⟩
  obtain ⟨start, init, -⟩ : ∃ start, omacAesniInit none (fun _ => some 16)
      (fun key x => x.rotateLeft key + 1) 5 0 freshOmac = .ok start ∧
      Absorbed (fun x => x.rotateLeft 5 + 1) 0 [] start := init_absorbed rfl freshOmac
  unfold omacAesni at run
  rw [init] at run
  cases run

end ImDsse
