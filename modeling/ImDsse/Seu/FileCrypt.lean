import ImDsse.Kit.Ctr
import Mathlib.Logic.Function.Iterate

/-!
Files in counter mode (`encryptFile_using_aes_ctr`, `decryptFile_using_aes_ctr`).

`aes128_ctr_encdec` is told a number of blocks. The build with AES-NI passes it on; the
one with libtomcrypt encrypts `BLOCK_CIPHER_SIZE` bytes whatever the number is, if it finds the
cipher. The index registers it and only ever asks for one block, where the builds agree. The
files do not register it, and ask for as many blocks as they have: what is not encrypted is left
as it was in the buffer.
-/

namespace ImDsse.Seu

open Kit.Loop Kit.Bits Kit.Cmac Kit.Ctr

variable {Key : Type}

/-! ### Counter mode of libtomcrypt -/

/-- `symmetric_CTR` of a big-endian counter, whose bytes are those from `ctrlen` on. -/
structure SymmetricCtr where
  ctrlen : Nat
  padlen : Nat
  ctr : Buf
  pad : Buf

/-- `for (x = 15; x >= ctrlen; x--)`, at position `x + 1`: the loop ends with the first
byte that is not 0 after it is incremented. -/
def increment (ctrlen : Nat) : Nat → Buf → Buf
  | 0, ctr => ctr
  | x + 1, ctr =>
    if x < ctrlen then ctr
    else
      let v := ctr x + 1
      let ctr := putByte ctr x v
      if v ≠ 0 then ctr else increment ctrlen x ctr

/-- The sixteen bytes of a cipher block. -/
def ecbEncrypt (E : Block → Block) (pt : Buf) : Buf := bytesOf (E (blockOf pt))

/-- `ctr_start` with `CTR_COUNTER_BIG_ENDIAN | width`. Without a cipher it fails. -/
def ctrStart (cipher : Option (Block → Block)) (IV : Buf) (width : Nat) : Option SymmetricCtr :=
  cipher.bind fun E =>
    let ctrlen := if width = 0 then 16 else width
    if 16 < ctrlen then none else some ⟨16 - ctrlen, 0, IV, ecbEncrypt E IV⟩

/-- A byte of `ctr_encrypt`: a used pad is made new from the next counter. -/
def ctrByte (E : Block → Block) (pt : Buf) (i : Nat) (s : SymmetricCtr × Buf) :
    SymmetricCtr × Buf :=
  let c := if s.1.padlen = 16 then
      let ctr := increment s.1.ctrlen 16 s.1.ctr
      { s.1 with ctr := ctr, pad := ecbEncrypt E ctr, padlen := 0 }
    else s.1
  ({ c with padlen := c.padlen + 1 }, putByte s.2 i (pt i ^^^ c.pad c.padlen))

/-- `ctr_encrypt` -/
def ctrEncrypt (E : Block → Block) (pt ct : Buf) (len : Nat) (s : SymmetricCtr) :
    SymmetricCtr × Buf := forLoop len (ctrByte E pt) (s, ct)

/-- The state after `m` bytes, and the bytes. -/
structure Counted (E : Block → Block) (pt ct IV : Buf) (first m : Nat) (s : SymmetricCtr × Buf) :
    Prop where
  ctrlen : s.1.ctrlen = first
  padlen : s.1.padlen = if m = 0 then 0 else (m - 1) % 16 + 1
  ctr : s.1.ctr = (increment first 16)^[(m - 1) / 16] IV
  pad : s.1.pad = ecbEncrypt E s.1.ctr
  bytes : s.2 = ctrXor E (fun b => blockOf ((increment first 16)^[b] IV)) m pt ct

section CtrEncrypt

variable {E : Block → Block} {pt ct IV : Buf} {first m : Nat} {s : SymmetricCtr × Buf}

theorem ctrXor_succ (counter : Nat → Block) : ctrXor E counter (m + 1) pt ct =
    putByte (ctrXor E counter m pt ct) m (pt m ^^^ ksByte E counter m) := by
  funext i
  unfold putByte
  by_cases last : i = m
  · subst last
    rw [Function.update_self, ctrXor_inside (Nat.lt_succ_self i)]
  · rw [Function.update_of_ne last]
    by_cases before : i < m
    · rw [ctrXor_inside before, ctrXor_inside (Nat.lt_succ_of_lt before)]
    · rw [ctrXor_outside (by omega), ctrXor_outside (by omega)]

/-- One more byte, from the state with the pad it needs. -/
theorem Counted.byte (counted : Counted E pt ct IV first m s) {c : SymmetricCtr}
    (ctrlen : c.ctrlen = first) (padlen : c.padlen = m % 16)
    (ctr : c.ctr = (increment first 16)^[m / 16] IV) (pad : c.pad = ecbEncrypt E c.ctr) :
    Counted E pt ct IV first (m + 1)
      ({ c with padlen := c.padlen + 1 }, putByte s.2 m (pt m ^^^ c.pad c.padlen)) where
  ctrlen := ctrlen
  padlen := congrArg (· + 1) padlen
  ctr := ctr
  pad := pad
  bytes := by
    rw [ctrXor_succ, counted.bytes, pad, ctr, padlen]
    rfl

theorem Counted.step (counted : Counted E pt ct IV first m s) :
    Counted E pt ct IV first (m + 1) (ctrByte E pt m s) := by
  have padlen := counted.padlen
  unfold ctrByte
  by_cases used : s.1.padlen = 16
  · -- the byte is the first of a block
    have pos : m ≠ 0 := by
      rintro rfl
      rw [padlen, if_pos rfl] at used
      cases used
    rw [padlen, if_neg pos] at used
    have renewed : increment s.1.ctrlen 16 s.1.ctr = (increment first 16)^[m / 16] IV := by
      rw [counted.ctrlen, counted.ctr, ← Function.iterate_succ_apply' (increment first 16),
        show ((m - 1) / 16).succ = m / 16 by omega]
    rw [if_pos (by rw [padlen, if_neg pos]; exact used)]
    exact counted.byte counted.ctrlen (show 0 = m % 16 by omega) renewed rfl
  · rw [if_neg used]
    by_cases start : m = 0
    · subst start
      exact counted.byte counted.ctrlen padlen counted.ctr counted.pad
    · rw [padlen, if_neg start] at used
      rw [if_neg start] at padlen
      refine counted.byte counted.ctrlen (padlen.trans (by omega)) ?_ counted.pad
      rw [counted.ctr, show (m - 1) / 16 = m / 16 by omega]

/-- `ctr_encrypt` is counter mode. -/
theorem ctrEncrypt_eq {width : Nat} {s : SymmetricCtr} (start : ctrStart (some E) IV width = some s)
    (len : Nat) : (ctrEncrypt E pt ct len s).2 =
      ctrXor E (fun b => blockOf ((increment s.ctrlen 16)^[b] IV)) len pt ct := by
  have begun : Counted E pt ct IV s.ctrlen 0 (s, ct) := by
    simp only [ctrStart, Option.bind_some, Option.ite_none_left_eq_some, Option.some.injEq] at start
    obtain ⟨-, rfl⟩ := start
    exact ⟨rfl, rfl, rfl, rfl, rfl⟩
  have run := forLoop_inv (n := len) (f := ctrByte E pt)
    (fun m s' => Counted E pt ct IV s.ctrlen m s') begun fun m _ s' counted => counted.step
  exact run.bytes

end CtrEncrypt

/-! ### The two builds -/

/-- Which library encrypts, and with libtomcrypt in which tree, and whether the cipher is
registered at the time of the call. `IM-DSSE` counts in the whole block, `SEU-DSSE` in its last
four bytes. -/
inductive Crypto where
  | aesNi
  | tomcrypt (seu registered : Bool)
deriving DecidableEq, Repr

/-- The cipher is there. `aes128_ctr_encdec` of `IM-DSSE` registers it itself; in that of
`SEU-DSSE` the lines that do are commented out. -/
def Crypto.findsCipher : Crypto → Bool
  | .aesNi => true
  | .tomcrypt seu registered => !seu || registered

section Crypto

variable (aes : Key → Block → Block) (next : Block → Block)

/-- `aes128_ctr_encdec`. `next` is how `intel_AES_encdec128_CTR` counts. -/
def aes128CtrEncdec (crypto : Crypto) (pt ct : Buf) (key : Key) (ctr : Buf) (numBlocks : Nat) : Buf :=
  match crypto with
  | .aesNi => ctrXor (aes key) (fun b => next^[b] (blockOf ctr)) (16 * numBlocks) pt ct
  | .tomcrypt seu _ =>
    match ctrStart (if crypto.findsCipher then some (aes key) else none) ctr
      (if seu then 4 else 0) with
    | none => ct
    | some s => (ctrEncrypt (aes key) pt ct 16 s).2

/-- `longint_to_ucarray` into a zeroed array of 16 bytes, which is then reversed. -/
def prepareInitialCounter (fileIndex : Nat) : Buf :=
  let initial : Buf := fun i =>
    if i < 8 then (BitVec.ofNat 64 fileIndex).extractLsb' (8 * i) 8 else 0
  forLoop 8 (fun indx b => putByte (putByte b indx (b (15 - indx))) (15 - indx) (b indx)) initial

/-- What the arrays of a call hold that nothing was written to. -/
structure Heap where
  pInData : Buf
  pOutData : Buf

/-- What both functions do with the content of a file, up to what they write. The sizes are
`int`; `new` throws for a negative one, and then nothing is written. -/
def ctrFile (crypto : Crypto) (key : Key) (fileIndex : Nat) (content : List Byte) (heap : Heap) :
    Option (List Byte) :=
  let numChar := (content.length : Int).bmod (2 ^ 32)
  if numChar < 0 then none
  else
    let numChar := numChar.toNat
    let numBlocks := if numChar % 16 = 0 then numChar / 16 else numChar / 16 + 1
    let ptrSize := ((numBlocks * 16 : Nat) : Int).bmod (2 ^ 32)
    if ptrSize < 0 then none
    else
      let inData := ofBytes content numChar heap.pInData
      let outData := aes128CtrEncdec aes next crypto inData heap.pOutData key
        (prepareInitialCounter fileIndex) numBlocks
      some (toBytes outData numChar)

/-- `FileCrypt::encryptFile_using_aes_ctr`: what it writes to `encFile<fileIndex>.txt`,
with `fileIndex` the bucket of the file. -/
def encryptFileUsingAesCtr (crypto : Crypto) (tFEmpty : Bool) (key : Option Key) (fileIndex : Nat)
    (content : List Byte) (heap : Heap) : Option (List Byte) :=
  if tFEmpty then none
  else key.bind fun key => ctrFile aes next crypto key fileIndex content heap

/-- `FileCrypt::decryptFile_using_aes_ctr`: what it writes back. -/
def decryptFileUsingAesCtr (crypto : Crypto) (key : Option Key) (fileIndex : Nat)
    (content : List Byte) (heap : Heap) : Option (List Byte) :=
  key.bind fun key => ctrFile aes next crypto key fileIndex content heap

end Crypto

section Builds

variable (aes : Key → Block → Block) (next : Block → Block) (key : Key)

/-- The counters of a build. -/
def Crypto.counter (crypto : Crypto) (ctr : Buf) (b : Nat) : Block :=
  match crypto with
  | .aesNi => next^[b] (blockOf ctr)
  | .tomcrypt seu _ => blockOf ((increment (if seu then 12 else 0) 16)^[b] ctr)

/-- The bytes a build writes when it is asked for `numBlocks` blocks. -/
def Crypto.written (crypto : Crypto) (numBlocks : Nat) : Nat :=
  match crypto with
  | .aesNi => 16 * numBlocks
  | .tomcrypt _ _ => if crypto.findsCipher then 16 else 0

section Tomcrypt

variable {seu registered : Bool} (numBlocks : Nat)

theorem Crypto.written_found (finds : (tomcrypt seu registered).findsCipher = true) :
    (tomcrypt seu registered).written numBlocks = 16 := if_pos finds

theorem Crypto.written_missing (missing : ¬ (tomcrypt seu registered).findsCipher = true) :
    (tomcrypt seu registered).written numBlocks = 0 := if_neg missing

end Tomcrypt

theorem Crypto.counter_zero (crypto : Crypto) (ctr : Buf) :
    crypto.counter next ctr 0 = blockOf ctr := by
  cases crypto <;> rfl

theorem aes128CtrEncdec_eq (crypto : Crypto) (pt ct ctr : Buf) (numBlocks : Nat) :
    aes128CtrEncdec aes next crypto pt ct key ctr numBlocks =
      ctrXor (aes key) (crypto.counter next ctr) (crypto.written numBlocks) pt ct := by
  cases crypto with
  | aesNi => rfl
  | tomcrypt seu registered =>
    unfold aes128CtrEncdec Crypto.written
    by_cases finds : (Crypto.tomcrypt seu registered).findsCipher = true
    · simp only [if_pos finds]
      cases seu with
      | true =>
        have start : ctrStart (some (aes key)) ctr 4 = some ⟨12, 0, ctr, ecbEncrypt (aes key) ctr⟩ :=
          rfl
        exact ctrEncrypt_eq start 16
      | false =>
        have start : ctrStart (some (aes key)) ctr 0 = some ⟨0, 0, ctr, ecbEncrypt (aes key) ctr⟩ :=
          rfl
        exact ctrEncrypt_eq start 16
    · simp only [if_neg finds]
      exact (funext fun i => ctrXor_outside (Nat.zero_le i)).symm

variable (seu registered : Bool) (pt ctr : Buf)

/-- The builds write the same first block. -/
theorem builds_first {numBlocks : Nat} (some : 0 < numBlocks)
    (finds : (Crypto.tomcrypt seu registered).findsCipher = true) (ct : Buf) {i : Nat}
    (inside : i < 16) :
    aes128CtrEncdec aes next .aesNi pt ct key ctr numBlocks i =
      aes128CtrEncdec aes next (.tomcrypt seu registered) pt ct key ctr numBlocks i := by
  have left : i < Crypto.aesNi.written numBlocks := show i < 16 * numBlocks by omega
  have right : i < (Crypto.tomcrypt seu registered).written numBlocks := by
    rw [Crypto.written_found numBlocks finds]
    exact inside
  rw [aes128CtrEncdec_eq, aes128CtrEncdec_eq, ctrXor_inside left, ctrXor_inside right,
    ksByte_first _ inside]
  rw [Crypto.counter_zero, Crypto.counter_zero]

theorem ne_complement : ∀ x : Byte, ~~~x ≠ x := by
  decide

/-- Where one build writes and the other does not, the buffer can have held another byte. -/
theorem unwritten_differs {crypto crypto' : Crypto} {numBlocks i : Nat}
    (outside : crypto.written numBlocks ≤ i) (inside : i < crypto'.written numBlocks) :
    ∃ ct, aes128CtrEncdec aes next crypto pt ct key ctr numBlocks i ≠
      aes128CtrEncdec aes next crypto' pt ct key ctr numBlocks i := by
  refine ⟨fun _ => ~~~(pt i ^^^ ksByte (aes key) (crypto'.counter next ctr) i), ?_⟩
  rw [aes128CtrEncdec_eq, aes128CtrEncdec_eq, ctrXor_outside outside, ctrXor_inside inside]
  exact ne_complement _

/-- The bytes asked for are the same exactly for no block, and for one if its cipher is found. -/
theorem builds_output_iff (numBlocks : Nat) :
    (∀ ct, ∀ i < 16 * numBlocks, aes128CtrEncdec aes next .aesNi pt ct key ctr numBlocks i =
      aes128CtrEncdec aes next (.tomcrypt seu registered) pt ct key ctr numBlocks i) ↔
    numBlocks = 0 ∨ numBlocks = 1 ∧ (Crypto.tomcrypt seu registered).findsCipher = true := by
  constructor
  · intro agree
    have whole : 16 * numBlocks ≤ (Crypto.tomcrypt seu registered).written numBlocks := by
      refine Nat.le_of_not_lt fun less => ?_
      have more : (Crypto.tomcrypt seu registered).written numBlocks <
          Crypto.aesNi.written numBlocks := less
      obtain ⟨ct, differs⟩ := unwritten_differs aes next key pt ctr (Nat.le_refl _) more
      exact differs (agree ct _ less).symm
    by_cases finds : (Crypto.tomcrypt seu registered).findsCipher = true
    · rw [Crypto.written_found numBlocks finds] at whole
      by_cases none : numBlocks = 0
      · exact Or.inl none
      · exact Or.inr ⟨by omega, finds⟩
    · rw [Crypto.written_missing numBlocks finds] at whole
      exact Or.inl (by omega)
  · rintro (rfl | ⟨rfl, finds⟩) ct i inside
    · exact absurd inside (Nat.not_lt_zero i)
    · exact builds_first aes next key seu registered pt ctr Nat.one_pos finds ct inside

/-- The buffer is the same exactly for the one block that libtomcrypt writes whatever it is asked
for, or for none if it writes nothing. -/
theorem builds_buffer_iff (numBlocks : Nat) :
    (∀ ct, aes128CtrEncdec aes next .aesNi pt ct key ctr numBlocks =
      aes128CtrEncdec aes next (.tomcrypt seu registered) pt ct key ctr numBlocks) ↔
    numBlocks = if (Crypto.tomcrypt seu registered).findsCipher then 1 else 0 := by
  constructor
  · intro agree
    have one := (builds_output_iff aes next key seu registered pt ctr numBlocks).mp
      fun ct i _ => congrFun (agree ct) i
    by_cases finds : (Crypto.tomcrypt seu registered).findsCipher = true
    · rw [if_pos finds]
      refine (one.resolve_left fun none => ?_).1
      subst none
      have nothing : Crypto.aesNi.written 0 ≤ 0 := Nat.le_refl 0
      have written : 0 < (Crypto.tomcrypt seu registered).written 0 := by
        rw [Crypto.written_found 0 finds]
        decide
      obtain ⟨ct, differs⟩ := unwritten_differs aes next key pt ctr nothing written
      exact differs (congrFun (agree ct) 0)
    · rw [if_neg finds]
      exact one.resolve_right fun both => finds both.2
  · intro same ct
    funext i
    by_cases finds : (Crypto.tomcrypt seu registered).findsCipher = true
    · rw [if_pos finds] at same
      subst same
      by_cases inside : i < 16
      · exact builds_first aes next key seu registered pt ctr Nat.one_pos finds ct inside
      · have behind : 16 ≤ i := Nat.le_of_not_lt inside
        have behind' : (Crypto.tomcrypt seu registered).written 1 ≤ i := by
          rw [Crypto.written_found 1 finds]
          exact behind
        rw [aes128CtrEncdec_eq, aes128CtrEncdec_eq]
        exact (ctrXor_outside behind).trans (ctrXor_outside behind').symm
    · rw [if_neg finds] at same
      subst same
      have nothing : (Crypto.tomcrypt seu registered).written 0 ≤ i := by
        rw [Crypto.written_missing 0 finds]
        exact Nat.zero_le i
      rw [aes128CtrEncdec_eq, aes128CtrEncdec_eq]
      exact (ctrXor_outside (Nat.zero_le i)).trans (ctrXor_outside nothing).symm

end Builds

/-! ### Files -/

section Files

variable (aes : Key → Block → Block) (next : Block → Block) (key : Key)

theorem int_of_small {n : Nat} (small : n < 2 ^ 31) : (n : Int).bmod (2 ^ 32) = n :=
  Int.bmod_eq_of_le (by omega) (by omega)

/-- The sizes fit `int` for all files but those of 2 GiB and more. -/
theorem ctrFile_eq (crypto : Crypto) (fileIndex : Nat) {content : List Byte} (heap : Heap)
    (fits : content.length + 16 ≤ 2 ^ 31) :
    ctrFile aes next crypto key fileIndex content heap =
      some (toBytes (aes128CtrEncdec aes next crypto (ofBytes content content.length heap.pInData)
        heap.pOutData key (prepareInitialCounter fileIndex) ((content.length + 15) / 16))
        content.length) := by
  have blocks : (if content.length % 16 = 0 then content.length / 16 else content.length / 16 + 1) =
      (content.length + 15) / 16 := by
    split <;> omega
  have size := int_of_small (show content.length < 2 ^ 31 by omega)
  have room := int_of_small (show (content.length + 15) / 16 * 16 < 2 ^ 31 by omega)
  have nonneg : ∀ n : Nat, ¬ (n : Int) < 0 := fun n => by omega
  unfold ctrFile
  simp only [size, Int.toNat_natCast, blocks]
  rw [if_neg (nonneg _), if_neg]
  rw [room]
  exact nonneg _

/-- Of the others less than all is written, or nothing. -/
theorem ctrFile_large {crypto : Crypto} {fileIndex : Nat} {content out : List Byte} {heap : Heap}
    (large : ¬ content.length + 16 ≤ 2 ^ 31)
    (written : ctrFile aes next crypto key fileIndex content heap = some out) :
    out.length < content.length := by
  unfold ctrFile at written
  obtain ⟨size, written⟩ := Option.ite_none_left_eq_some.mp written
  obtain ⟨room, written⟩ := Option.ite_none_left_eq_some.mp written
  rw [← Option.some.inj written, length_toBytes]
  by_contra whole
  -- a size that is not cut off fits `int`, and its blocks do not
  have same : (content.length : Int).bmod (2 ^ 32) = content.length := by
    rw [Int.bmod_def] at size whole ⊢
    split at size <;> omega
  rw [same, Int.toNat_natCast] at room
  have small : content.length < 2 ^ 31 := by
    rw [Int.bmod_def] at same
    split at same <;> omega
  refine room ?_
  rw [Int.bmod_def]
  split <;> omega

theorem encryptFile_eq (crypto : Crypto) (fileIndex : Nat) (content : List Byte) (heap : Heap) :
    encryptFileUsingAesCtr aes next crypto false (some key) fileIndex content heap =
      ctrFile aes next crypto key fileIndex content heap := by
  rw [encryptFileUsingAesCtr, if_neg Bool.false_ne_true, Option.bind_some]

theorem decryptFile_eq (crypto : Crypto) (fileIndex : Nat) (content : List Byte) (heap : Heap) :
    decryptFileUsingAesCtr aes next crypto (some key) fileIndex content heap =
      ctrFile aes next crypto key fileIndex content heap := by
  rw [decryptFileUsingAesCtr, Option.bind_some]

/-- The bytes of the file that is written. -/
theorem ctrFile_byte (crypto : Crypto) (fileIndex : Nat) {content : List Byte} (heap : Heap)
    (fits : content.length + 16 ≤ 2 ^ 31) :
    ∃ out, ctrFile aes next crypto key fileIndex content heap = some out ∧
      out.length = content.length ∧ ∀ i < content.length,
        out.getD i 0 = if i < crypto.written ((content.length + 15) / 16)
          then content.getD i 0 ^^^ ksByte (aes key)
            (crypto.counter next (prepareInitialCounter fileIndex)) i
          else heap.pOutData i := by
  refine ⟨_, ctrFile_eq aes next key crypto fileIndex heap fits, length_toBytes _ _, ?_⟩
  intro i inside
  rw [getD_toBytes _ inside, aes128CtrEncdec_eq, ctrXor]
  have read : ofBytes content content.length heap.pInData i = content.getD i 0 := by
    rw [ofBytes, if_pos inside, List.getD_eq_getElem?_getD, List.getD_eq_getElem?_getD,
      List.getElem?_eq_getElem inside]
    rfl
  rw [read]

/-- A file encrypted and then decrypted has its content again, whatever the arrays of
the two calls held. -/
def RoundTrips (crypto crypto' : Crypto) (fileIndex : Nat) (content : List Byte) : Prop :=
  ∀ heap heap', (encryptFileUsingAesCtr aes next crypto false (some key) fileIndex content heap).bind
    (fun file => decryptFileUsingAesCtr aes next crypto' (some key) fileIndex file heap') =
      some content

section Both

variable {aes next key} {crypto crypto' : Crypto} {fileIndex : Nat} {content : List Byte}

variable (aes next key crypto crypto' fileIndex) in
/-- The bytes after both calls. -/
theorem roundTrip_byte (fits : content.length + 16 ≤ 2 ^ 31) (heap heap' : Heap) :
    ∃ out, (encryptFileUsingAesCtr aes next crypto false (some key) fileIndex content heap).bind
        (fun file => decryptFileUsingAesCtr aes next crypto' (some key) fileIndex file heap') =
          some out ∧
      out.length = content.length ∧ ∀ i < content.length,
        out.getD i 0 = if i < crypto'.written ((content.length + 15) / 16)
          then (if i < crypto.written ((content.length + 15) / 16)
              then content.getD i 0 ^^^ ksByte (aes key)
                (crypto.counter next (prepareInitialCounter fileIndex)) i
              else heap.pOutData i) ^^^
            ksByte (aes key) (crypto'.counter next (prepareInitialCounter fileIndex)) i
          else heap'.pOutData i := by
  obtain ⟨file, encrypted, length, bytes⟩ := ctrFile_byte aes next key crypto fileIndex heap fits
  have fits' : file.length + 16 ≤ 2 ^ 31 := length.symm ▸ fits
  obtain ⟨out, decrypted, length', bytes'⟩ := ctrFile_byte aes next key crypto' fileIndex heap' fits'
  refine ⟨out, ?_, length'.trans length, fun i inside => ?_⟩
  · rw [encryptFile_eq, encrypted, Option.bind_some, decryptFile_eq, decrypted]
  · rw [bytes' i (length.symm ▸ inside), bytes i inside, length]

/-- A file comes back when both calls write all of it. -/
theorem roundTrips_of_written (fits : content.length + 16 ≤ 2 ^ 31)
    (written : content.length ≤ crypto.written ((content.length + 15) / 16))
    (written' : content.length ≤ crypto'.written ((content.length + 15) / 16))
    (same : content.length ≤ 16 ∨ crypto = crypto') :
    RoundTrips aes next key crypto crypto' fileIndex content := by
  intro heap heap'
  obtain ⟨out, run, length, bytes⟩ :=
    roundTrip_byte aes next key crypto crypto' fileIndex fits heap heap'
  have keystream : ∀ i < content.length,
      ksByte (aes key) (crypto.counter next (prepareInitialCounter fileIndex)) i =
        ksByte (aes key) (crypto'.counter next (prepareInitialCounter fileIndex)) i := by
    intro i inside
    rcases same with short | rfl
    · refine ksByte_first ?_ (Nat.lt_of_lt_of_le inside short)
      rw [Crypto.counter_zero, Crypto.counter_zero]
    · rfl
  rw [run]
  refine congrArg some (List.ext_getElem length fun i hi hi' => ?_)
  have byte := bytes i hi'
  rw [if_pos (Nat.lt_of_lt_of_le hi' written'), if_pos (Nat.lt_of_lt_of_le hi' written),
    ksByte_cancel _ (keystream i hi'), List.getD_eq_getElem?_getD, List.getD_eq_getElem?_getD,
    List.getElem?_eq_getElem hi, List.getElem?_eq_getElem hi'] at byte
  exact byte

/-- A byte is lost when one of the calls does not write it. -/
theorem not_roundTrips (fits : content.length + 16 ≤ 2 ^ 31) {i : Nat} (inside : i < content.length)
    (unwritten : crypto.written ((content.length + 15) / 16) ≤ i ∨
      crypto'.written ((content.length + 15) / 16) ≤ i) :
    ¬ RoundTrips aes next key crypto crypto' fileIndex content := by
  intro trips
  have kept : ∀ heap heap' : Heap, content.getD i 0 =
      if i < crypto'.written ((content.length + 15) / 16)
      then (if i < crypto.written ((content.length + 15) / 16)
          then content.getD i 0 ^^^ ksByte (aes key)
            (crypto.counter next (prepareInitialCounter fileIndex)) i
          else heap.pOutData i) ^^^
        ksByte (aes key) (crypto'.counter next (prepareInitialCounter fileIndex)) i
      else heap'.pOutData i := by
    intro heap heap'
    obtain ⟨out, run, -, bytes⟩ :=
      roundTrip_byte aes next key crypto crypto' fileIndex fits heap heap'
    have same : content = out := Option.some.inj ((trips heap heap').symm.trans run)
    rw [← bytes i inside, same]
  by_cases second : i < crypto'.written ((content.length + 15) / 16)
  · -- the second call decrypts what the first has left in its array
    have first := unwritten.resolve_right (Nat.not_le.mpr second)
    set k := ksByte (aes key) (crypto'.counter next (prepareInitialCounter fileIndex)) i
    have byte := kept ⟨zeroBuf, fun _ => ~~~(content.getD i 0 ^^^ k)⟩ ⟨zeroBuf, zeroBuf⟩
    rw [if_pos second, if_neg (Nat.not_lt.mpr first)] at byte
    have cancelled := congrArg (· ^^^ k) byte
    dsimp only at cancelled
    rw [BitVec.xor_assoc (~~~_), BitVec.xor_self, BitVec.xor_zero] at cancelled
    exact ne_complement _ cancelled.symm
  · have byte := kept ⟨zeroBuf, zeroBuf⟩ ⟨zeroBuf, fun _ => ~~~content.getD i 0⟩
    rw [if_neg second] at byte
    exact ne_complement _ byte.symm

/-- A file of 2 GiB comes back shorter, or not at all. -/
theorem not_roundTrips_large (large : ¬ content.length + 16 ≤ 2 ^ 31) :
    ¬ RoundTrips aes next key crypto crypto' fileIndex content := by
  intro trips
  have back := trips ⟨zeroBuf, zeroBuf⟩ ⟨zeroBuf, zeroBuf⟩
  obtain ⟨file, encrypted, decrypted⟩ := Option.bind_eq_some_iff.mp back
  rw [encryptFile_eq] at encrypted
  rw [decryptFile_eq] at decrypted
  have shorter : file.length < content.length := ctrFile_large aes next key large encrypted
  have notLonger : content.length ≤ file.length := by
    by_cases fits : file.length + 16 ≤ 2 ^ 31
    · obtain ⟨out, run, length, -⟩ := ctrFile_byte aes next key crypto' fileIndex
        ⟨zeroBuf, zeroBuf⟩ fits
      have same : content = out := Option.some.inj (decrypted.symm.trans run)
      rw [same]
      exact Nat.le_of_eq length
    · exact Nat.le_of_lt (ctrFile_large aes next key fits decrypted)
  exact absurd shorter (Nat.not_lt.mpr notLonger)

/-- A build writes a file of `n` bytes whole: with AES-NI any, with libtomcrypt one of at most a
block if it finds the cipher. -/
theorem Crypto.written_all {crypto : Crypto} {n : Nat} :
    n ≤ crypto.written ((n + 15) / 16) ↔
      n = 0 ∨ crypto.findsCipher = true ∧ (n ≤ 16 ∨ crypto = .aesNi) := by
  cases crypto with
  | aesNi =>
    have all : n ≤ 16 * ((n + 15) / 16) := by omega
    exact iff_of_true all (Or.inr ⟨rfl, Or.inr rfl⟩)
  | tomcrypt seu registered =>
    by_cases finds : (Crypto.tomcrypt seu registered).findsCipher = true
    · rw [Crypto.written_found _ finds]
      constructor
      · exact fun one => Or.inr ⟨finds, Or.inl one⟩
      · rintro (rfl | ⟨-, one | ni⟩)
        · exact Nat.zero_le 16
        · exact one
        · cases ni
    · rw [Crypto.written_missing _ finds, Nat.le_zero]
      exact (or_iff_left fun both => finds both.1).symm

/-- The files that come back: the empty one, those of one block where both calls find the cipher,
and with AES-NI on both sides those whose size fits. -/
theorem roundTrips_iff : RoundTrips aes next key crypto crypto' fileIndex content ↔
    content = [] ∨
      content.length ≤ 16 ∧ crypto.findsCipher = true ∧ crypto'.findsCipher = true ∨
      content.length + 16 ≤ 2 ^ 31 ∧ crypto = .aesNi ∧ crypto' = .aesNi := by
  constructor
  · intro trips
    by_cases fits : content.length + 16 ≤ 2 ^ 31
    · have written : content.length ≤ crypto.written ((content.length + 15) / 16) :=
        Nat.le_of_not_lt fun less => not_roundTrips fits less (Or.inl (Nat.le_refl _)) trips
      have written' : content.length ≤ crypto'.written ((content.length + 15) / 16) :=
        Nat.le_of_not_lt fun less => not_roundTrips fits less (Or.inr (Nat.le_refl _)) trips
      rw [Crypto.written_all, List.length_eq_zero_iff] at written written'
      rcases written with empty | ⟨finds, short | first⟩
      · exact Or.inl empty
      · rcases written' with empty | ⟨finds', -⟩
        · exact Or.inl empty
        · exact Or.inr (Or.inl ⟨short, finds, finds'⟩)
      · rcases written' with empty | ⟨finds', short | second⟩
        · exact Or.inl empty
        · exact Or.inr (Or.inl ⟨short, finds, finds'⟩)
        · exact Or.inr (Or.inr ⟨fits, first, second⟩)
    · exact absurd trips (not_roundTrips_large fits)
  · rintro (rfl | ⟨short, finds, finds'⟩ | ⟨fits, rfl, rfl⟩)
    · exact roundTrips_of_written (by decide) (Nat.zero_le _) (Nat.zero_le _) (Or.inl (by decide))
    · exact roundTrips_of_written (by omega)
        (Crypto.written_all.mpr (Or.inr ⟨finds, Or.inl short⟩))
        (Crypto.written_all.mpr (Or.inr ⟨finds', Or.inl short⟩)) (Or.inl short)
    · exact roundTrips_of_written fits (Crypto.written_all.mpr (Or.inr ⟨rfl, Or.inr rfl⟩))
        (Crypto.written_all.mpr (Or.inr ⟨rfl, Or.inr rfl⟩)) (Or.inr rfl)

end Both

end Files

/-- The builds agree for no block and for one if libtomcrypt finds its cipher; it writes one
whatever it is asked for. A file comes back if it is empty, if it has at most one block and both
calls find the cipher, or if both are those of AES-NI and its size fits. -/
theorem aes_ctr_agree_iff (aes : Key → Block → Block) (next : Block → Block) (key : Key)
    (seu registered : Bool) (pt ctr : Buf) (numBlocks : Nat) (crypto crypto' : Crypto)
    (fileIndex : Nat) (content : List Byte) :
    ((∀ ct, ∀ i < 16 * numBlocks, aes128CtrEncdec aes next .aesNi pt ct key ctr numBlocks i =
        aes128CtrEncdec aes next (.tomcrypt seu registered) pt ct key ctr numBlocks i) ↔
      numBlocks = 0 ∨ numBlocks = 1 ∧ (Crypto.tomcrypt seu registered).findsCipher = true) ∧
    ((∀ ct, aes128CtrEncdec aes next .aesNi pt ct key ctr numBlocks =
        aes128CtrEncdec aes next (.tomcrypt seu registered) pt ct key ctr numBlocks) ↔
      numBlocks = if (Crypto.tomcrypt seu registered).findsCipher then 1 else 0) ∧
    (RoundTrips aes next key crypto crypto' fileIndex content ↔
      content = [] ∨
        content.length ≤ 16 ∧ crypto.findsCipher = true ∧ crypto'.findsCipher = true ∨
        content.length + 16 ≤ 2 ^ 31 ∧ crypto = .aesNi ∧ crypto' = .aesNi) :=
  ⟨builds_output_iff aes next key seu registered pt ctr numBlocks,
    builds_buffer_iff aes next key seu registered pt ctr numBlocks, roundTrips_iff⟩

/-- Without the cipher a file of one byte is lost, and with it one of 17: what comes back has bytes
of the second call's array. -/
theorem ctr_files_lost :
    ¬ RoundTrips (fun key x => x.rotateLeft key) (fun x => x + 1) 5 (.tomcrypt true false)
        (.tomcrypt true false) 3 [0x61#8] ∧
      ¬ RoundTrips (fun key x => x.rotateLeft key) (fun x => x + 1) 5 (.tomcrypt true true)
        (.tomcrypt true true) 3 (List.replicate 17 0x61#8) :=
  ⟨not_roundTrips (i := 0) (by decide) (by decide) (Or.inl (by decide)),
    not_roundTrips (i := 16) (by decide) (by decide) (Or.inl (by decide))⟩

end ImDsse.Seu
