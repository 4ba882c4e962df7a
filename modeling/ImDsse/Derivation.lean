import ImDsse.ClientState
import ImDsse.Omac
import ImDsse.Upload
import ImDsse.Seu.FileCrypt

/-!
Keys and trapdoors in the builds with AES-NI (`DSSE_KeyGen`, `Krawczyk128_KDF` and
`DSSE_Trapdoor`).

All of them are tags of `omac_aes128`. The master keys are tags of three labels under a
pseudo-random key, which is the tag of a salt; a row key is the tag of the row and its
keyword counter under `key3`, a trapdoor that of a string under `key2`. Labels, rows with
their counters and short strings fill at most one block, of which the tag is a single
encryption. AES permutes blocks, so that none of these collide (`derived_keys_distinct`).
-/

namespace ImDsse

open Kit Kit.Loop Kit.Bits Kit.Cmac

/-! ### The code -/

/-- What `omac_aes128` meets: AES, the ciphers that are registered with Rijndael among
them, how `LTC_FAST` is compiled, and what its state holds before. -/
structure OmacBuild where
  aes : BlockKey → Block → Block
  fast : Option FastType
  blockLength : Int → Option Nat
  rijndael : Int
  registered : blockLength rijndael = some blockCipherSize
  stack : OmacState

/-- A key is the first `BLOCK_CIPHER_SIZE` bytes of an array. -/
def keyArray (b : Buf) : BlockKey := fun i => b i

/-- An array that holds a key. -/
def keyBuf (key : BlockKey) : Buf := fun i => if h : i < blockCipherSize then key ⟨i, h⟩ else 0

/-- The bytes of a `TYPE_INDEX` or a `TYPE_COUNTER`. -/
def intBytes (n : Nat) : List Byte := (List.range 8).map fun i => BitVec.ofNat 8 (n / 256 ^ i)

/-- `row_key_input`: the row, then its keyword counter. -/
def rowKeyInput (row counter : Nat) : List Byte := intBytes row ++ intBytes counter

/-- `uchar_counter`: the block, then its counter. -/
def ucharCounter (blockIdx counter : Nat) : Buf :=
  fun i => (intBytes blockIdx ++ intBytes counter).getD i 0

def labelKey1 : List Byte := [0x6b#8, 0x65#8, 0x79#8, 0x31#8]

def labelKey2 : List Byte := [0x6b#8, 0x65#8, 0x79#8, 0x32#8]

def labelKey3 : List Byte := [0x6b#8, 0x65#8, 0x79#8, 0x33#8]

namespace OmacBuild

variable (build : OmacBuild)

/-- `omac_aes128`: the output and the result. A failed check of an argument aborts. -/
def omacAes128 (omacOut : Buf) (omacLength : Int) (data : List Byte) (key : BlockKey) :
    Option (Buf × Int) :=
  match omacAesni build.fast build.blockLength build.aes key build.rijndael build.stack [data]
    omacOut omacLength with
  | .ok omacOut => some (omacOut, 0)
  | .error .invalidCipher => some (omacOut, -1)
  | .error .invalidArg => some (omacOut, -1)
  | .error .argchk => none
  | .error .endless => none

/-- `DSSE_KeyGen::genRow_key`. The result of `omac_aes128` is not looked at. -/
def genRowKey (pOutData : Buf) (outLen : Nat) (pInData : List Byte) (pKey : MasterKey) : Option Buf :=
  let pOutData : Buf := fun i => if i < outLen then 0 else pOutData i
  if 0 < outLen ∧ 0 < pInData.length then
    (build.omacAes128 pOutData outLen pInData pKey.key3).map Prod.fst
  else some pOutData

/-- `DSSE_Trapdoor::generateTrapdoor_single_input`. No array is null. -/
def generateTrapdoorSingleInput (pOutData : Buf) (outLen : Nat) (pInData : List Byte)
    (pKey : MasterKey) : Option Buf :=
  if 0 < outLen ∧ 0 < pInData.length then
    (build.omacAes128 pOutData outLen pInData pKey.key2).map Prod.fst
  else some pOutData

/-- `Krawczyk128_KDF::generate_128_PRK`. `SKM_len` is not looked at. -/
def generate128PRK (pPRK : Buf) (PRKLen : Nat) (pXTS : List Byte) (pSKM : BlockKey) :
    Option (Buf × Int) :=
  if 0 < pXTS.length ∧ 0 < PRKLen then
    (build.omacAes128 pPRK blockCipherSize pXTS pSKM).map fun (pPRK, error) =>
      (pPRK, if error ≠ 0 then -1 else 0)
  else some (pPRK, 0)

/-- `Krawczyk128_KDF::generate_krawczyk_128_KDF`. `pKeyMaterial` is what `new` gives. -/
def generateKrawczyk128KDF (pKM : Buf) (KMLen : Nat) (pCTXinfo : List Byte) (pPRK : BlockKey)
    (PRKLen : Nat) (pKeyMaterial : Buf) : Option (Buf × Int) :=
  if 0 < KMLen ∧ pCTXinfo.length ≠ 0 ∧ PRKLen ≠ 0 then
    (build.omacAes128 pKeyMaterial blockCipherSize pCTXinfo pPRK).map fun (pKeyMaterial, error) =>
      if error ≠ 0 then (pKM, -1) else (copyBytes KMLen pKM 0 pKeyMaterial 0, 0)
  else some (pKM, 0)

/-- A derivation that reports an error ends the process. -/
def orExit (call : Option (Buf × Int)) : Option Buf :=
  call.bind fun (out, error) => if error ≠ 0 then none else some out

/-- `DSSE_KeyGen::genMaster_key`. `pXTS` and `pSKM` are read from the generator, and
`memory` is what the arrays hold that are not written yet. -/
def genMasterKey (pKey : MasterKey) (pXTS pSKM : BlockKey) (memory : Buf) : Option MasterKey := do
  let pPRK ← orExit (build.generate128PRK memory blockCipherSize (List.ofFn pXTS) pSKM)
  let key1 ← orExit (build.generateKrawczyk128KDF (keyBuf pKey.key1) blockCipherSize labelKey1
    (keyArray pPRK) blockCipherSize memory)
  let key2 ← orExit (build.generateKrawczyk128KDF (keyBuf pKey.key2) blockCipherSize labelKey2
    (keyArray pPRK) blockCipherSize memory)
  let key3 ← orExit (build.generateKrawczyk128KDF (keyBuf pKey.key3) blockCipherSize labelKey3
    (keyArray pPRK) blockCipherSize memory)
  some ⟨keyArray key1, keyArray key2, keyArray key3⟩

/-- A master key with one key for everything. -/
def soleKey (key : BlockKey) : MasterKey := ⟨key, key, key⟩

/-- The cipher of this build and what it derives from a master key. `next` is how
`intel_AES_encdec128_CTR` counts. -/
def primitives (next : Block → Block) : Primitives BlockKey BlockKey where
  cipher :=
    { genRowKey := fun row counter => keyArray
        ((build.genRowKey zeroBuf blockCipherSize (rowKeyInput row counter)
          (soleKey fun _ => 0)).getD zeroBuf)
      keystream := fun key blockIdx counter =>
        Seu.aes128CtrEncdec build.aes next .aesNi zeroBuf zeroBuf key (ucharCounter blockIdx counter) 1
      zeroKey := fun _ => 0 }
  genRowKey key3 row counter := keyArray
    ((build.genRowKey zeroBuf blockCipherSize (rowKeyInput row counter) (soleKey key3)).getD zeroBuf)
  trapdoor key2 :=
    { omac := fun s => keyArray
        ((build.generateTrapdoorSingleInput zeroBuf blockCipherSize s (soleKey key2)).getD zeroBuf)
      zero := fun _ => 0 }

end OmacBuild

/-! ### Inputs of one block -/

@[simp] theorem length_intBytes (n : Nat) : (intBytes n).length = 8 := by
  simp [intBytes]

/-- The bytes of a number of 64 bits tell the number. -/
theorem intBytes_injective {n n' : Nat} (h : n < 2 ^ 64) (h' : n' < 2 ^ 64)
    (same : intBytes n = intBytes n') : n = n' := by
  have read (n : Nat) (h : n < 2 ^ 64) : readNat 8 (fun i => (intBytes n).getD i 0) = n := by
    refine (readNat_eq fun i inside => ?_).trans (Nat.mod_eq_of_lt h)
    simp [intBytes, inside]
  rw [← read n h, same, read n' h']

/-- Two numbers side by side tell both. -/
theorem words_injective {a b a' b' : Nat} (ha : a < 2 ^ 64) (hb : b < 2 ^ 64) (ha' : a' < 2 ^ 64)
    (hb' : b' < 2 ^ 64) (same : intBytes a ++ intBytes b = intBytes a' ++ intBytes b') :
    a = a' ∧ b = b' := by
  have length : (intBytes a).length = (intBytes a').length := by
    rw [length_intBytes, length_intBytes]
  obtain ⟨first, second⟩ := List.append_inj same length
  exact ⟨intBytes_injective ha ha' first, intBytes_injective hb hb' second⟩

theorem length_rowKeyInput (row counter : Nat) : (rowKeyInput row counter).length = 16 := by
  rw [rowKeyInput, List.length_append, length_intBytes, length_intBytes]

/-- The counter block tells the block and its counter. -/
theorem ucharCounter_injective {b c b' c' : Nat} (hb : b < 2 ^ 64) (hc : c < 2 ^ 64)
    (hb' : b' < 2 ^ 64) (hc' : c' < 2 ^ 64)
    (same : blockOf (ucharCounter b c) = blockOf (ucharCounter b' c')) : b = b' ∧ c = c' :=
  words_injective hb hc hb' hc'
    (blockOfList_injective (length_rowKeyInput b c) (length_rowKeyInput b' c') same)

/-! ### Keys are tags -/

/-- The tag of a message as a key. -/
def tagKey (E : Block → Block) (m : List Byte) : BlockKey := keyArray (bytesOf (cmac E m))

section Tags

variable {E : Block → Block} {m m' : List Byte}

theorem keyArray_eq {b b' : Buf} (same : ∀ i, i < blockCipherSize → b i = b' i) :
    keyArray b = keyArray b' := by
  funext i
  exact same i i.isLt

/-- A tag as a key is the whole tag. -/
theorem cmac_eq_of_tagKey (same : tagKey E m = tagKey E m') : cmac E m = cmac E m' := by
  have bytes : ∀ i, i < 16 → bytesOf (cmac E m) i = bytesOf (cmac E m') i := fun i hi =>
    congrFun same ⟨i, hi⟩
  rw [← blockOf_bytesOf (cmac E m), blockOf_congr bytes, blockOf_bytesOf]

variable (permutes : Function.Injective E)
include permutes

theorem tagKey_injective_of_block (length : m.length = 16) (length' : m'.length = 16)
    (same : tagKey E m = tagKey E m') : m = m' :=
  cmac_injective_of_block permutes length length' (cmac_eq_of_tagKey same)

theorem tagKey_injective_of_short (short : m.length < 16) (short' : m'.length < 16)
    (same : tagKey E m = tagKey E m') : m = m' :=
  cmac_injective_of_short permutes short short' (cmac_eq_of_tagKey same)

end Tags

namespace OmacBuild

variable (build : OmacBuild)

/-- The first bytes of the output are those of the tag. -/
theorem omacAes128_eq (omacOut : Buf) {n : Nat} (pos : 0 < n) (le : n ≤ 16) (data : List Byte)
    (key : BlockKey) :
    ∃ tag, build.omacAes128 omacOut n data key = some (tag, 0) ∧
      ∀ i, tag i = if i < n then bytesOf (cmac (build.aes key) data) i else omacOut i := by
  obtain ⟨start, init, absorbed⟩ : ∃ start,
      omacAesniInit build.fast build.blockLength build.aes key build.rijndael build.stack = .ok start ∧
      Absorbed (build.aes key) build.rijndael [] start := init_absorbed build.registered build.stack
  obtain ⟨last, processed, absorbed'⟩ :
      ∃ last, omacAesniProcess build.fast build.blockLength build.aes key start data = .ok last ∧
      Absorbed (build.aes key) build.rijndael ([] ++ data) last :=
    process_absorbed build.registered absorbed data
  obtain ⟨tag, done, bytes⟩ := done_cmac build.registered absorbed' omacOut pos le
  refine ⟨tag, ?_, bytes⟩
  have run : omacAesni build.fast build.blockLength build.aes key build.rijndael build.stack [data]
      omacOut n = .ok tag := by
    simp only [omacAesni, init, List.foldlM_cons, List.foldlM_nil]
    simp only [bind, Except.bind, processed, pure, Except.pure]
    exact done
  rw [omacAes128, run]

/-- A whole output is the tag. -/
theorem omacAes128_key (omacOut : Buf) (data : List Byte) (key : BlockKey) :
    ∃ tag, build.omacAes128 omacOut blockCipherSize data key = some (tag, 0) ∧
      keyArray tag = tagKey (build.aes key) data := by
  obtain ⟨tag, run, bytes⟩ : ∃ tag, build.omacAes128 omacOut (16 : Nat) data key = some (tag, 0) ∧ _ :=
    build.omacAes128_eq omacOut (by decide) (Nat.le_refl 16) data key
  refine ⟨tag, run, keyArray_eq fun i hi => ?_⟩
  exact (bytes i).trans (if_pos (show i < 16 from hi))

theorem genRowKey_eq (pOutData : Buf) (row counter : Nat) (pKey : MasterKey) :
    ∃ key, build.genRowKey pOutData blockCipherSize (rowKeyInput row counter) pKey = some key ∧
      keyArray key = tagKey (build.aes pKey.key3) (rowKeyInput row counter) := by
  have some : 0 < blockCipherSize ∧ 0 < (rowKeyInput row counter).length := by
    rw [length_rowKeyInput]
    decide
  obtain ⟨tag, run, key⟩ := build.omacAes128_key
    (fun i => if i < blockCipherSize then 0 else pOutData i) (rowKeyInput row counter) pKey.key3
  refine ⟨tag, ?_, key⟩
  rw [genRowKey, if_pos some, run]
  rfl

theorem generateTrapdoorSingleInput_eq (pOutData : Buf) {s : List Byte} (some : s ≠ [])
    (pKey : MasterKey) :
    ∃ trapdoor, build.generateTrapdoorSingleInput pOutData blockCipherSize s pKey = .some trapdoor ∧
      keyArray trapdoor = tagKey (build.aes pKey.key2) s := by
  have sizes : 0 < blockCipherSize ∧ 0 < s.length := ⟨by decide, List.length_pos_iff.mpr some⟩
  obtain ⟨tag, run, key⟩ := build.omacAes128_key pOutData s pKey.key2
  refine ⟨tag, ?_, key⟩
  rw [generateTrapdoorSingleInput, if_pos sizes, run]
  rfl

theorem generate128PRK_eq (pPRK : Buf) (pXTS pSKM : BlockKey) :
    ∃ key, orExit (build.generate128PRK pPRK blockCipherSize (List.ofFn pXTS) pSKM) = some key ∧
      keyArray key = tagKey (build.aes pSKM) (List.ofFn pXTS) := by
  have sizes : 0 < (List.ofFn pXTS).length ∧ 0 < blockCipherSize := by
    rw [List.length_ofFn]
    decide
  obtain ⟨tag, run, key⟩ := build.omacAes128_key pPRK (List.ofFn pXTS) pSKM
  refine ⟨tag, ?_, key⟩
  rw [generate128PRK, if_pos sizes, run]
  rfl

theorem generateKrawczyk128KDF_eq (pKM : Buf) {label : List Byte} (some : label ≠ [])
    (pPRK : BlockKey) (memory : Buf) :
    ∃ key, orExit (build.generateKrawczyk128KDF pKM blockCipherSize label pPRK blockCipherSize
      memory) = .some key ∧ keyArray key = tagKey (build.aes pPRK) label := by
  have sizes : 0 < blockCipherSize ∧ label.length ≠ 0 ∧ blockCipherSize ≠ 0 :=
    ⟨by decide, fun none => some (List.length_eq_zero_iff.mp none), by decide⟩
  obtain ⟨tag, run, key⟩ := build.omacAes128_key memory label pPRK
  refine ⟨copyBytes blockCipherSize pKM 0 tag 0, ?_, ?_⟩
  · rw [generateKrawczyk128KDF, if_pos sizes, run]
    rfl
  · rw [← key]
    refine keyArray_eq fun i hi => ?_
    rw [copyBytes_apply, if_pos ⟨Nat.zero_le i, (Nat.zero_add blockCipherSize).symm ▸ hi⟩]
    rw [Nat.zero_add, Nat.sub_zero]

/-- Nothing stops the generation, and what was in memory before has no part in it. -/
theorem genMasterKey_eq (pKey : MasterKey) (pXTS pSKM : BlockKey) (memory : Buf) :
    build.genMasterKey pKey pXTS pSKM memory =
      let E := build.aes (tagKey (build.aes pSKM) (List.ofFn pXTS))
      some ⟨tagKey E labelKey1, tagKey E labelKey2, tagKey E labelKey3⟩ := by
  obtain ⟨pPRK, extracted, pseudoRandom⟩ := build.generate128PRK_eq memory pXTS pSKM
  obtain ⟨key1, derived₁, tag₁⟩ := build.generateKrawczyk128KDF_eq (keyBuf pKey.key1)
    (show labelKey1 ≠ [] from List.cons_ne_nil _ _) (keyArray pPRK) memory
  obtain ⟨key2, derived₂, tag₂⟩ := build.generateKrawczyk128KDF_eq (keyBuf pKey.key2)
    (show labelKey2 ≠ [] from List.cons_ne_nil _ _) (keyArray pPRK) memory
  obtain ⟨key3, derived₃, tag₃⟩ := build.generateKrawczyk128KDF_eq (keyBuf pKey.key3)
    (show labelKey3 ≠ [] from List.cons_ne_nil _ _) (keyArray pPRK) memory
  rw [← pseudoRandom, genMasterKey, extracted]
  simp only [bind, Option.bind_some, derived₁, derived₂, derived₃, tag₁, tag₂, tag₃]

/-! ### What is derived -/

section Derived

variable (next : Block → Block)

theorem genRowKey_primitives (key3 : BlockKey) (row counter : Nat) :
    (build.primitives next).genRowKey key3 row counter =
      tagKey (build.aes key3) (rowKeyInput row counter) := by
  obtain ⟨key, run, tag⟩ := build.genRowKey_eq zeroBuf row counter (soleKey key3)
  show keyArray ((build.genRowKey zeroBuf blockCipherSize (rowKeyInput row counter)
    (soleKey key3)).getD zeroBuf) = _
  rw [run]
  exact tag

theorem omac_primitives (key2 : BlockKey) {s : Str} (some : s ≠ []) :
    ((build.primitives next).trapdoor key2).omac s = tagKey (build.aes key2) s := by
  obtain ⟨trapdoor, run, tag⟩ := build.generateTrapdoorSingleInput_eq zeroBuf some (soleKey key2)
  show keyArray ((build.generateTrapdoorSingleInput zeroBuf blockCipherSize s
    (soleKey key2)).getD zeroBuf) = _
  rw [run]
  exact tag

theorem keystream_ksByte (key : BlockKey) (blockIdx counter : Nat) {i : Nat} (hi : i < 16) :
    (build.primitives next).cipher.keystream key blockIdx counter i =
      Ctr.ksByte (build.aes key) (fun n => next^[n] (blockOf (ucharCounter blockIdx counter))) i :=
  (Ctr.ctrXor_inside (show i < 16 * 1 from hi)).trans BitVec.zero_xor

/-- What the code encrypts a block with is the cipher of the primitives. -/
theorem aes128CtrEncdec_primitives (pt ct : Buf) (key : BlockKey) (blockIdx counter : Nat) {i : Nat}
    (hi : i < 16) :
    (build.primitives next).cipher.aes128CtrEncdec pt key blockIdx counter i =
      Seu.aes128CtrEncdec build.aes next .aesNi pt ct key (ucharCounter blockIdx counter) 1 i := by
  unfold Cipher.aes128CtrEncdec
  rw [if_pos (show i < blockCipherSize from hi), keystream_ksByte build next key blockIdx counter hi]
  exact (Ctr.ctrXor_inside (show i < 16 * 1 from hi)).symm

/-- The keystream is the counter block enciphered. -/
theorem keystream_primitives (key : BlockKey) (blockIdx counter : Nat) {i : Nat} (hi : i < 16) :
    (build.primitives next).cipher.keystream key blockIdx counter i =
      bytesOf (build.aes key (blockOf (ucharCounter blockIdx counter))) i := by
  rw [keystream_ksByte build next key blockIdx counter hi, Ctr.ksByte, Nat.div_eq_of_lt hi,
    Nat.mod_eq_of_lt hi]
  rfl

variable {build} (permutes : ∀ key, Function.Injective (build.aes key))
include permutes

theorem genRowKey_injective {key3 : BlockKey} {row counter row' counter' : Nat}
    (hr : row < 2 ^ 64) (hc : counter < 2 ^ 64) (hr' : row' < 2 ^ 64) (hc' : counter' < 2 ^ 64)
    (same : (build.primitives next).genRowKey key3 row counter =
      (build.primitives next).genRowKey key3 row' counter') : row = row' ∧ counter = counter' := by
  rw [genRowKey_primitives, genRowKey_primitives] at same
  exact words_injective hr hc hr' hc' (tagKey_injective_of_block (permutes key3)
    (length_rowKeyInput row counter) (length_rowKeyInput row' counter') same)

/-- Under one key, another block or counter has another keystream. -/
theorem keystream_injective {key : BlockKey} {b c b' c' : Nat} (hb : b < 2 ^ 64) (hc : c < 2 ^ 64)
    (hb' : b' < 2 ^ 64) (hc' : c' < 2 ^ 64)
    (same : (build.primitives next).cipher.keystream key b c =
      (build.primitives next).cipher.keystream key b' c') : b = b' ∧ c = c' := by
  have bytes : ∀ i, i < 16 → bytesOf (build.aes key (blockOf (ucharCounter b c))) i =
      bytesOf (build.aes key (blockOf (ucharCounter b' c'))) i := by
    intro i hi
    rw [← keystream_primitives build next key b c hi, same, keystream_primitives build next key b' c' hi]
  have blocks := blockOf_congr bytes
  rw [blockOf_bytesOf, blockOf_bytesOf] at blocks
  exact ucharCounter_injective hb hc hb' hc' (permutes key blocks)

/-- Derived keys do not collide: the three keys of a master key are different, whatever is
read from the generator; rows and counters have row keys of their own; and strings of less
than a block have trapdoors of their own. -/
theorem derived_keys_distinct :
    (∀ (pKey : MasterKey) (pXTS pSKM : BlockKey) (memory : Buf), ∃ masterKey,
      build.genMasterKey pKey pXTS pSKM memory = some masterKey ∧
        [masterKey.key1, masterKey.key2, masterKey.key3].Nodup) ∧
    (∀ (masterKey : MasterKey) (row counter row' counter' : Nat), row < 2 ^ 64 → counter < 2 ^ 64 →
      row' < 2 ^ 64 → counter' < 2 ^ 64 →
      ((build.primitives next).cipherOf masterKey).genRowKey row counter =
        ((build.primitives next).cipherOf masterKey).genRowKey row' counter' →
      row = row' ∧ counter = counter') ∧
    ∀ (masterKey : MasterKey) (s s' : Str), s ≠ [] → s' ≠ [] → s.length < 16 → s'.length < 16 →
      ((build.primitives next).trapdoorOf masterKey).omac s =
        ((build.primitives next).trapdoorOf masterKey).omac s' → s = s' := by
  refine ⟨?master, ?rows, ?trapdoors⟩
  case master =>
    intro pKey pXTS pSKM memory
    refine ⟨_, build.genMasterKey_eq pKey pXTS pSKM memory, ?_⟩
    have apart (label label' : List Byte) (short : label.length < 16) (short' : label'.length < 16)
        (different : label ≠ label') (PRK : BlockKey) :
        tagKey (build.aes PRK) label ≠ tagKey (build.aes PRK) label' := fun same =>
      different (tagKey_injective_of_short (permutes PRK) short short' same)
    have first := apart labelKey1 labelKey2 (by decide) (by decide) (by decide)
    have outer := apart labelKey1 labelKey3 (by decide) (by decide) (by decide)
    have last := apart labelKey2 labelKey3 (by decide) (by decide) (by decide)
    simp [first, outer, last]
  case rows =>
    intro masterKey row counter row' counter' hr hc hr' hc' same
    exact genRowKey_injective next permutes hr hc hr' hc' same
  case trapdoors =>
    intro masterKey s s' some some' short short' same
    simp only [Primitives.trapdoorOf] at same
    rw [omac_primitives build next _ some, omac_primitives build next _ some'] at same
    exact tagKey_injective_of_short (permutes _) short short' same

end Derived

end OmacBuild

/-- A cipher that adds the key. -/
def smallOmac : OmacBuild where
  aes key x := x ^^^ blockOf (keyBuf key)
  fast := some .ulong64
  blockLength _ := some 16
  rijndael := 0
  registered := rfl
  stack := freshOmac

theorem smallOmac_permutes (key : BlockKey) : Function.Injective (smallOmac.aes key) :=
  fun _ _ same => (BitVec.xor_left_inj _).mp same

/-- The keys from one salt and key material, two counters of a row, and "a" and "b". -/
theorem derived_keys_distinct_small :
    (∃ masterKey, smallOmac.genMasterKey (OmacBuild.soleKey fun _ => 0) (fun _ => 1) (fun _ => 2) zeroBuf =
        some masterKey ∧ [masterKey.key1, masterKey.key2, masterKey.key3].Nodup) ∧
      ((smallOmac.primitives id).cipherOf (OmacBuild.soleKey fun _ => 3)).genRowKey 0 1 ≠
        ((smallOmac.primitives id).cipherOf (OmacBuild.soleKey fun _ => 3)).genRowKey 0 2 ∧
      ((smallOmac.primitives id).trapdoorOf (OmacBuild.soleKey fun _ => 3)).omac [0x61#8] ≠
        ((smallOmac.primitives id).trapdoorOf (OmacBuild.soleKey fun _ => 3)).omac [0x62#8] := by
  obtain ⟨master, rows, trapdoors⟩ := OmacBuild.derived_keys_distinct id smallOmac_permutes
  refine ⟨master _ _ _ _, fun same => ?_, fun same => ?_⟩
  · obtain ⟨-, counter⟩ := rows _ 0 1 0 2 (by decide) (by decide) (by decide) (by decide) same
    exact absurd counter (by decide)
  · have letter := trapdoors _ [0x61#8] [0x62#8] (by decide) (by decide) (by decide) (by decide) same
    exact absurd letter (by decide)

end ImDsse
