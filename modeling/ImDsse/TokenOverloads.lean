import ImDsse.Client
import ImDsse.SetupCorrect

/-!
The two overloads of `DSSE::addToken` and of `DSSE::delToken`.

Both overloads look up the column and the rows in the same way. One then goes through
the fetched block row by row and derives the keys from the keyword counters; the other
has the keystream of the whole block in two buffers. While no keyword has been
searched, and the buffers are those of the file's block, `recodedBit` is what both
leave of every bit.
-/

namespace ImDsse

open Kit Kit.Bits Kit.Pool

variable {Key : Type} {τ : Type} [DecidableEq τ]

/-- What a token leaves: `file_index`, `I_prime`, and the tables with the free lists. -/
structure TokenOut (τ : Type) where
  fileIndex : Nat
  IPrime : Buf
  tables : Tables τ

section Overloads

variable (cfg : Config) (cr : Cipher Key) (td : Trapdoor τ)

/-- `DSSE::addToken` with the counters and the state bits. -/
def addToken (path : Str) (IPrime : Buf) (content : Option (List Byte)) (T : Tables τ)
    (keywordCounterArr blockCounterArr : Nat → Nat) (blockStateArr : Nat → Bool)
    (draws : Nat → Nat) : Option (TokenOut τ) :=
  (addTokenIndex td path content T draws).map fun (fileIndex, IBar, T) =>
    ⟨fileIndex, (addTokenBlock cfg cr keywordCounterArr blockCounterArr blockStateArr fileIndex
      IBar IPrime).1, T⟩

/-- `DSSE::addToken` with the precomputed keys. -/
def addTokenPre (path : Str) (IPrime : Buf) (content : Option (List Byte)) (T : Tables τ)
    (decryptKeyArr reencryptKeyArr : Buf) (draws : Nat → Nat) : Option (TokenOut τ) :=
  (addTokenIndex td path content T draws).map fun (fileIndex, IBar, T) =>
    ⟨fileIndex, addTokenBlockPre cfg fileIndex IBar IPrime decryptKeyArr reencryptKeyArr, T⟩

/-- `DSSE::delToken` with the counters and the state bits. -/
def delToken (path : Str) (IPrime : Buf) (T : Tables τ)
    (keywordCounterArr blockCounterArr : Nat → Nat) (blockStateArr : Nat → Bool) : TokenOut τ :=
  let (fileIndex, T) := delTokenIndex td path T
  ⟨fileIndex, (delTokenBlock cfg cr keywordCounterArr blockCounterArr blockStateArr fileIndex
    IPrime).1, T⟩

/-- `DSSE::delToken` with the precomputed keys. -/
def delTokenPre (path : Str) (IPrime : Buf) (T : Tables τ)
    (decryptKeyArr reencryptKeyArr : Buf) : TokenOut τ :=
  let (fileIndex, T) := delTokenIndex td path T
  ⟨fileIndex, delTokenBlockPre cfg fileIndex IPrime decryptKeyArr reencryptKeyArr, T⟩

end Overloads

/-- The keys a client prepares for block `b`, from the row keys it keeps: those the block
is decrypted with, and those it is encrypted with again. -/
def blockKeys (cfg : Config) (cr : Cipher Key) (kc bc : Nat → Nat) (b : Nat) (output : Buf)
    (isIncremental : Bool) : Buf :=
  (precomputeAESCTRKeys cfg cr output b .col isIncremental bc (pregenerateRowKeys cfg cr kc)).1

/-- Two blocks with the same `MATRIX_ROW_SIZE * ENCRYPT_BLOCK_SIZE` bits. -/
def SameBits (cfg : Config) (X Y : Buf) : Prop :=
  ∀ k < cfg.matrixRowSize * cfg.encryptBlockSize, bit X k = bit Y k

/-- The same column and tables, and for a column of block `b` the same block. -/
structure SameToken (cfg : Config) (b : Nat) (out out' : TokenOut τ) : Prop where
  fileIndex : out.fileIndex = out'.fileIndex
  tables : out.tables = out'.tables
  IPrime : out.fileIndex / cfg.encryptBlockSize = b → SameBits cfg out.IPrime out'.IPrime

theorem recodedBit_congr {B f : Nat} {newCol newCol' old dec dec' re re' : Nat → Bool} {k : Nat}
    (newCols : newCol (k / B) = newCol' (k / B)) (decs : dec k = dec' k) (res : re k = re' k) :
    recodedBit B f newCol old dec re k = recodedBit B f newCol' old dec' re' k := by
  unfold recodedBit
  rw [newCols, decs, res]

section Agreement

variable {cfg : Config} (hB : BlockSize cfg.encryptBlockSize) (h8 : 8 ∣ cfg.matrixRowSize)
  (cr : Cipher Key) {kc : Nat → Nat} (bc : Nat → Nat) (st : Nat → Bool)

section Keys

variable (once : ∀ row < cfg.matrixRowSize, kc row = 1) (b : Nat) (output output' : Buf)
include hB once

/-- A key buffer of block `b` holds, row by row, the keystream under the row's current
key, which is also the one a fetched row is under. -/
theorem bit_blockKeys (isIncremental : Bool) {k : Nat}
    (hk : k < cfg.matrixRowSize * cfg.encryptBlockSize) :
    bit (blockKeys cfg cr kc bc b output isIncremental) k =
      cr.ks (cr.genRowKey (k / cfg.encryptBlockSize)
          (fetchedCounter kc st (k / cfg.encryptBlockSize))) b
        (if isIncremental then nextCounter (bc b) else bc b) (k % cfg.encryptBlockSize) := by
  have hrow := (Nat.div_lt_iff_lt_mul hB.pos).mpr hk
  unfold blockKeys
  rw [bit_precomputeAESCTRKeys_col hB _ _ _ _ _ _ hk, pregenerateRowKeys_apply cfg cr kc hrow,
    fetchedCounter_one _ (once _ hrow), once _ hrow]

include h8

/-- The block of a file of block `b` is the same on both ways. -/
theorem tokenBlock_sameBits {f : Nat} (home : f / cfg.encryptBlockSize = b)
    {newBit : Buf → Nat → Bool} {IBar : Buf}
    (reads : ∀ X row, bit X row = bit IBar row → newBit X row = bit IBar row) (IPrime : Buf) :
    SameBits cfg (tokenBlock cfg cr kc bc st f newBit IBar IPrime).1
      (tokenBlockPre cfg f IBar IPrime (blockKeys cfg cr kc bc b output false)
        (blockKeys cfg cr kc bc b output' true)) := by
  intro k hk
  have hrow := (Nat.div_lt_iff_lt_mul hB.pos).mpr hk
  rw [bit_tokenBlock hB cr kc bc st f reads h8 IPrime hk, bit_tokenBlockPre hB h8 f IBar _ _ _ hk,
    home]
  refine recodedBit_congr rfl ?decrypt ?reencrypt
  case decrypt =>
    exact (bit_blockKeys hB cr bc st once b output false hk).symm
  case reencrypt =>
    rw [bit_blockKeys hB cr bc st once b output' true hk, fetchedCounter_one _ (once _ hrow),
      once _ hrow]
    rfl

end Keys

include hB h8

/-- Deleting the file of a column leaves the block that adding a file without keywords
there would. -/
theorem delTokenBlock_sameBits (f : Nat) (IPrime : Buf) :
    SameBits cfg (delTokenBlock cfg cr kc bc st f IPrime).1
      (addTokenBlock cfg cr kc bc st f zeroBuf IPrime).1 := by
  intro k hk
  -- both write the column without a bit
  have nothing : ∀ (X : Buf) (row : Nat), bit X row = bit zeroBuf row → false = false :=
    fun _ _ _ => rfl
  have same : ∀ (X : Buf) (row : Nat), bit X row = bit zeroBuf row → bit X row = false :=
    fun _ row same => same.trans (bit_zeroBuf row)
  have deleted := bit_tokenBlock hB cr kc bc st f nothing h8 IPrime hk
  have added := bit_tokenBlock hB cr kc bc st f same h8 IPrime hk
  exact deleted.trans added.symm

end Agreement

/-- A file without keywords has no bit in its column. -/
theorem addTokenIndex_noKeywords {td : Trapdoor τ} {path : Str} {content : Option (List Byte)}
    {T T' : Tables τ} {draws : Nat → Nat} {f : Nat} {IBar : Buf}
    (empty : extractKeywords [] content = [])
    (token : addTokenIndex td path content T draws = some (f, IBar, T')) : IBar = zeroBuf := by
  unfold addTokenIndex at token
  rw [empty] at token
  simp only [assignRows, Option.bind_some, Option.bind_eq_some_iff] at token
  obtain ⟨columns, -, same⟩ := token
  cases same
  rfl

section Overloads

variable {cfg : Config} (hB : BlockSize cfg.encryptBlockSize) (h8 : 8 ∣ cfg.matrixRowSize)
  (cr : Cipher Key) (td : Trapdoor τ) {kc : Nat → Nat} (bc : Nat → Nat) (st : Nat → Bool)
  (path : Str) (IPrime : Buf) (content : Option (List Byte)) (T : Tables τ) (draws : Nat → Nat)
include hB h8

theorem addToken_agrees (once : ∀ row < cfg.matrixRowSize, kc row = 1) (b : Nat)
    (output output' : Buf) :
    Option.Rel (SameToken cfg b) (addToken cfg cr td path IPrime content T kc bc st draws)
      (addTokenPre cfg td path IPrime content T (blockKeys cfg cr kc bc b output false)
        (blockKeys cfg cr kc bc b output' true) draws) := by
  unfold addToken addTokenPre
  cases addTokenIndex td path content T draws with
  | none => exact .none
  | some token =>
    refine .some ⟨rfl, rfl, fun home => ?_⟩
    exact tokenBlock_sameBits hB h8 cr bc st once b output output' home
      (fun _ _ same => same) IPrime

theorem delToken_agrees (once : ∀ row < cfg.matrixRowSize, kc row = 1) (b : Nat)
    (output output' : Buf) :
    SameToken cfg b (delToken cfg cr td path IPrime T kc bc st)
      (delTokenPre cfg td path IPrime T (blockKeys cfg cr kc bc b output false)
        (blockKeys cfg cr kc bc b output' true)) :=
  ⟨rfl, rfl, fun home => tokenBlock_sameBits hB h8 cr bc st once b output output' home
    (fun _ row _ => (bit_zeroBuf row).symm) IPrime⟩

/-- A file without keywords, added at the column a file is deleted from. -/
theorem delToken_eq_addToken (empty : extractKeywords [] content = []) {path' : Str}
    {T' : Tables τ} {out : TokenOut τ}
    (added : addToken cfg cr td path' IPrime content T' kc bc st draws = some out)
    (same : out.fileIndex = (delToken cfg cr td path IPrime T kc bc st).fileIndex) :
    SameBits cfg (delToken cfg cr td path IPrime T kc bc st).IPrime out.IPrime := by
  obtain ⟨⟨f, IBar, T''⟩, token, rfl⟩ := Option.map_eq_some_iff.mp added
  cases addTokenIndex_noKeywords empty token
  dsimp only at same ⊢
  rw [same]
  exact delTokenBlock_sameBits hB h8 cr bc st _ IPrime

omit hB h8 in
theorem delTokenPre_eq_addTokenPre (empty : extractKeywords [] content = []) (dec re : Buf)
    {path' : Str} {T' : Tables τ} {out : TokenOut τ}
    (added : addTokenPre cfg td path' IPrime content T' dec re draws = some out)
    (same : out.fileIndex = (delTokenPre cfg td path IPrime T dec re).fileIndex) :
    (delTokenPre cfg td path IPrime T dec re).IPrime = out.IPrime := by
  obtain ⟨⟨f, IBar, T''⟩, token, rfl⟩ := Option.map_eq_some_iff.mp added
  cases addTokenIndex_noKeywords empty token
  dsimp only at same ⊢
  rw [same]
  rfl

/-- While no keyword has been searched, the overloads agree, and deleting a file leaves
the block that adding one without keywords in its column does. -/
theorem token_overloads_agree (once : ∀ row < cfg.matrixRowSize, kc row = 1) (b : Nat)
    (output output' : Buf) :
    Option.Rel (SameToken cfg b) (addToken cfg cr td path IPrime content T kc bc st draws)
        (addTokenPre cfg td path IPrime content T (blockKeys cfg cr kc bc b output false)
          (blockKeys cfg cr kc bc b output' true) draws) ∧
      SameToken cfg b (delToken cfg cr td path IPrime T kc bc st)
        (delTokenPre cfg td path IPrime T (blockKeys cfg cr kc bc b output false)
          (blockKeys cfg cr kc bc b output' true)) ∧
      (extractKeywords [] content = [] → ∀ path' T' out,
        (addToken cfg cr td path' IPrime content T' kc bc st draws = some out →
          out.fileIndex = (delToken cfg cr td path IPrime T kc bc st).fileIndex →
          SameBits cfg (delToken cfg cr td path IPrime T kc bc st).IPrime out.IPrime) ∧
        ∀ dec re, addTokenPre cfg td path' IPrime content T' dec re draws = some out →
          out.fileIndex = (delTokenPre cfg td path IPrime T dec re).fileIndex →
          SameBits cfg (delTokenPre cfg td path IPrime T dec re).IPrime out.IPrime) := by
  refine ⟨addToken_agrees hB h8 cr td bc st path IPrime content T draws once b output output',
    delToken_agrees hB h8 cr td bc st path IPrime T once b output output',
    fun empty path' T' out => ⟨fun added same => ?_, fun dec re added same k _ => ?_⟩⟩
  · exact delToken_eq_addToken hB h8 cr td bc st path IPrime content T draws empty added same
  · rw [delTokenPre_eq_addTokenPre td path IPrime content T draws empty dec re added same]

end Overloads

/-- "f" has column 5 and "a" row 3; columns 1 and 6 and rows 0 and 2 are free. -/
def oneFile : Tables Str :=
  ⟨(∅ : Table Str).insert [0x61#8] 3, (∅ : Table Str).insert [0x66#8] 5, [1, 6], [0, 2]⟩

/-- A file "h" with the words "a" and "b" is added in the second block, and "f" deleted
from it. -/
theorem token_overloads_agree_small :
    (addToken (smallConfig 4 true) smallCipher smallTrapdoor [0x68#8] (fun i => BitVec.ofNat 8 i)
      (some [0x62#8, 0x20#8, 0x61#8]) oneFile (fun _ => 1) (fun _ => 2) (fun _ => false)
      fun _ => 1).map (·.fileIndex) = some 6 ∧
    Option.Rel (SameToken (smallConfig 4 true) 1)
      (addToken (smallConfig 4 true) smallCipher smallTrapdoor [0x68#8] (fun i => BitVec.ofNat 8 i)
        (some [0x62#8, 0x20#8, 0x61#8]) oneFile (fun _ => 1) (fun _ => 2) (fun _ => false)
        fun _ => 1)
      (addTokenPre (smallConfig 4 true) smallTrapdoor [0x68#8] (fun i => BitVec.ofNat 8 i)
        (some [0x62#8, 0x20#8, 0x61#8]) oneFile
        (blockKeys (smallConfig 4 true) smallCipher (fun _ => 1) (fun _ => 2) 1 zeroBuf false)
        (blockKeys (smallConfig 4 true) smallCipher (fun _ => 1) (fun _ => 2) 1 zeroBuf true)
        fun _ => 1) ∧
    SameToken (smallConfig 4 true) 1
      (delToken (smallConfig 4 true) smallCipher smallTrapdoor [0x66#8]
        (fun i => BitVec.ofNat 8 i) oneFile (fun _ => 1) (fun _ => 2) fun _ => false)
      (delTokenPre (smallConfig 4 true) smallTrapdoor [0x66#8] (fun i => BitVec.ofNat 8 i) oneFile
        (blockKeys (smallConfig 4 true) smallCipher (fun _ => 1) (fun _ => 2) 1 zeroBuf false)
        (blockKeys (smallConfig 4 true) smallCipher (fun _ => 1) (fun _ => 2) 1 zeroBuf true)) := by
  have size : BlockSize (smallConfig 4 true).encryptBlockSize := by decide
  have bytes : 8 ∣ (smallConfig 4 true).matrixRowSize := by decide
  refine ⟨by decide, ?_, ?_⟩
  · exact (token_overloads_agree size bytes smallCipher smallTrapdoor (fun _ => 2) (fun _ => false)
      [0x68#8] _ _ oneFile (fun _ => 1) (fun _ _ => rfl) 1 zeroBuf zeroBuf).1
  · exact (token_overloads_agree size bytes smallCipher smallTrapdoor (fun _ => 2) (fun _ => false)
      [0x66#8] _ none oneFile (fun _ => 1) (fun _ _ => rfl) 1 zeroBuf zeroBuf).2.1

end ImDsse
