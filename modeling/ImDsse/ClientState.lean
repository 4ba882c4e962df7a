import ImDsse.Kit.Text
import ImDsse.Lookups

/-!
The client's state on disk (`Client_DSSE::saveState` and `Client_DSSE::loadState`, with
the functions of `Miscellaneous` they call).

Keys and hash tables are saved as bytes, lists and counters as numbers in text. The
number of entries of a hash table is saved as `load_factor() * bucket_count()`, a
product of floats, and a load reads as many entries as this number says. A table is
written in the order of its buckets, which no operation can see.
`loadState_saveState` says when a load brings back what was saved: while the numbers
of entries are floats.
-/

namespace ImDsse

open Kit Kit.Bits Kit.Pool Kit.Loop Kit.Text

variable {Key : Type} {τ : Type}

/-! ### Keys -/

/-- A key of `BLOCK_CIPHER_SIZE` bytes. -/
abbrev BlockKey := Fin blockCipherSize → Byte

/-- `MasterKey` -/
structure MasterKey where
  key1 : BlockKey
  key2 : BlockKey
  key3 : BlockKey

/-- The cipher and what is derived from the master key: row keys from `key3` and
trapdoors from `key2`. -/
structure Primitives (τ Key : Type) where
  cipher : Cipher Key
  genRowKey : BlockKey → Nat → Nat → Key
  trapdoor : BlockKey → Trapdoor τ

/-- The cipher under a master key. -/
def Primitives.cipherOf (prim : Primitives τ Key) (masterKey : MasterKey) : Cipher Key :=
  { prim.cipher with genRowKey := prim.genRowKey masterKey.key3 }

/-- The trapdoors under a master key. -/
def Primitives.trapdoorOf (prim : Primitives τ Key) (masterKey : MasterKey) : Trapdoor τ :=
  prim.trapdoor masterKey.key2

/-- `Miscellaneous::write_file_cpp` -/
def writeFileCpp (key : BlockKey) : List Byte := List.ofFn key

/-- `Miscellaneous::read_file_cpp`. Bytes the file does not have stay. -/
def readFileCpp (key : BlockKey) (file : List Byte) : BlockKey := fun i => file.getD i (key i)

/-! ### Tables and lists -/

/-- `n * 1.0f`: to 24 significant bits, ties to even. -/
def floatOfNat (n : Nat) : Nat :=
  let unit := 2 ^ (Nat.log2 n - 23)
  let q := n / unit
  let r := n % unit
  if 2 * r < unit ∨ (2 * r = unit ∧ q % 2 = 0) then q * unit else (q + 1) * unit

/-- `load_factor()*bucket_count()` of a hash table. Bucket counts are powers of two,
so that only the conversion of the size rounds. -/
def totalEntries (t : Table τ) : Nat := floatOfNat t.keys.length

/-- The entries of a hash table in the order of its buckets, which can be any. -/
structure Buckets (τ : Type) where
  entries : Table τ → List (τ × Nat)
  perm : ∀ t, (entries t).Perm (t.entries.map fun e => (e.1, e.2))

/-- `Miscellaneous::writeHash_table` -/
def writeHashTable (buckets : Buckets τ) (t : Table τ) : List (τ × Nat) := buckets.entries t

/-- `Miscellaneous::readHash_table`. At the end of the file the trapdoor read last
stays in `tmp`, and the index is 0. -/
def readHashTable [DecidableEq τ] : Nat → List (τ × Nat) → τ → Table τ → Table τ
  | 0, _, _, t => t
  | n + 1, [], tmp, t => readHashTable n [] tmp (t.insert tmp 0)
  | n + 1, (trapdoor, curIdx) :: rest, _, t =>
    readHashTable n rest trapdoor (t.insert trapdoor curIdx)

/-- `Miscellaneous::write_list_to_file` -/
def writeListToFile (lst : List Nat) : TextFile :=
  if lst.length = 0 then decimal ulongMax else spaced lst

/-- `Miscellaneous::read_list_from_file` into an empty list. -/
def readListFromFile (text : TextFile) : List Nat := (readAll text).filter (· ≠ ulongMax)

/-! ### The client -/

/-- A client process: the members of `Client_DSSE` that outlive an operation. `hasRowKeys`
says that `row_keys`, which no constructor sets, points to an array. -/
structure ClientProcess (τ Key : Type) where
  masterKey : MasterKey
  client : Client τ Key
  hasRowKeys : Bool

/-- The files in `gcsDataStructureFilepath`. -/
structure ClientFiles (τ : Type) where
  key1 : List Byte
  key2 : List Byte
  key3 : List Byte
  kwHashtable : List (τ × Nat)
  fileHashtable : List (τ × Nat)
  lstFreeFileIdx : TextFile
  lstFreeKwIdx : TextFile
  blockCounterArr : TextFile
  keywordCounterArr : TextFile
  keywordsFiles : TextFile

section State

variable (cfg : Config) (prim : Primitives τ Key)

/-- `Client_DSSE::saveState` -/
def ClientProcess.saveState (p : ClientProcess τ Key) (buckets : Buckets τ) : ClientFiles τ :=
  let T := p.client.tables
  { key1 := writeFileCpp p.masterKey.key1
    key2 := writeFileCpp p.masterKey.key2
    key3 := writeFileCpp p.masterKey.key3
    kwHashtable := writeHashTable buckets T.tW
    fileHashtable := writeHashTable buckets T.tF
    lstFreeFileIdx := writeListToFile T.lstFreeColumnIdx
    lstFreeKwIdx := writeListToFile T.lstFreeRowIdx
    blockCounterArr := writeArray cfg.numBlocks p.client.index.blockCounterArr
    keywordCounterArr := writeArray cfg.matrixRowSize p.client.index.keywordCounterArr
    keywordsFiles := writeArray 2 fun i => if i = 0 then totalEntries T.tW else totalEntries T.tF }

/-- `Client_DSSE::loadState`. `tmp` is what the buffers of `readHash_table` start with.
Client-decrypting builds delete the row keys they had, which has no meaning for a pointer
that nothing has set. -/
def ClientProcess.loadState [DecidableEq τ] (p : ClientProcess τ Key) (files : ClientFiles τ) (tmp : τ × τ) :
    Option (ClientProcess τ Key) :=
  let masterKey : MasterKey :=
    { key1 := readFileCpp p.masterKey.key1 files.key1
      key2 := readFileCpp p.masterKey.key2 files.key2
      key3 := readFileCpp p.masterKey.key3 files.key3 }
  let totalKeywordsFiles := readArray 2 files.keywordsFiles fun _ => 0
  let keywordCounterArr :=
    readArray cfg.matrixRowSize files.keywordCounterArr p.client.index.keywordCounterArr
  if cfg.decryptAtClientSide && !p.hasRowKeys then none
  else some
    { masterKey := masterKey
      client :=
        { tables :=
            { tW := readHashTable (totalKeywordsFiles 0) files.kwHashtable tmp.1 ∅
              tF := readHashTable (totalKeywordsFiles 1) files.fileHashtable tmp.2 ∅
              lstFreeColumnIdx := readListFromFile files.lstFreeFileIdx
              lstFreeRowIdx := readListFromFile files.lstFreeKwIdx }
          index :=
            { keywordCounterArr := keywordCounterArr
              blockCounterArr :=
                readArray cfg.numBlocks files.blockCounterArr p.client.index.blockCounterArr
              rowKeys :=
                if cfg.decryptAtClientSide then
                  pregenerateRowKeys cfg (prim.cipherOf masterKey) keywordCounterArr
                else p.client.index.rowKeys } }
      hasRowKeys := cfg.decryptAtClientSide }

/-- The first `n` entries of an array, which has no others. -/
def firstEntries (n : Nat) (arr : Nat → Nat) : Nat → Nat := fun i => if i < n then arr i else 0

/-- A process just started, with whatever is in its memory. It has no row keys: in
client-decrypting builds before the first build or load, in the others at all. -/
def ClientProcess.start (memory : ClientProcess τ Key) : ClientProcess τ Key :=
  { memory with
    client.index :=
      { keywordCounterArr := firstEntries cfg.matrixRowSize memory.client.index.keywordCounterArr
        blockCounterArr := firstEntries cfg.numBlocks memory.client.index.blockCounterArr
        rowKeys := fun _ => prim.cipher.zeroKey }
    hasRowKeys := false }

end State

/-! ### Reading back what was written -/

theorem readFileCpp_writeFileCpp (key old : BlockKey) : readFileCpp old (writeFileCpp key) = key := by
  funext i
  simp [readFileCpp, writeFileCpp]

/-- Numbers of at most 24 bits are floats. -/
theorem floatOfNat_of_lt {n : Nat} (h : n < 2 ^ 24) : floatOfNat n = n := by
  have bits : Nat.log2 n - 23 = 0 := by
    rcases Nat.eq_zero_or_pos n with rfl | pos
    · rfl
    · have := (Nat.log2_lt (Nat.ne_of_gt pos)).mpr h
      omega
  simp [floatOfNat, bits, Nat.mod_one]

theorem readHashTable_all [DecidableEq τ] (records : List (τ × Nat)) (tmp : τ) (t : Table τ) :
    readHashTable records.length records tmp t =
      records.foldl (fun t r => t.insert r.1 r.2) t := by
  induction records generalizing tmp t with
  | nil => rfl
  | cons r records ih => exact ih r.1 _

/-- Keys that are not inserted keep what they had. -/
theorem lookup_foldl_of_notMem [DecidableEq τ] {records : List (τ × Nat)} {key : τ}
    (absent : key ∉ records.map Prod.fst) (t : Table τ) :
    (records.foldl (fun t r => t.insert r.1 r.2) t).lookup key = t.lookup key := by
  induction records generalizing t with
  | nil => rfl
  | cons r records ih =>
    rw [List.map_cons, List.mem_cons, not_or] at absent
    exact (ih absent.2 _).trans (AList.lookup_insert_ne absent.1)

/-- Of records with different keys each is found. -/
theorem lookup_foldl_of_mem [DecidableEq τ] {records : List (τ × Nat)} {key : τ} {v : Nat}
    (nodup : (records.map Prod.fst).Nodup) (mem : (key, v) ∈ records) (t : Table τ) :
    (records.foldl (fun t r => t.insert r.1 r.2) t).lookup key = some v := by
  induction records generalizing t with
  | nil => cases mem
  | cons r records ih =>
    rw [List.map_cons, List.nodup_cons] at nodup
    rcases List.mem_cons.mp mem with rfl | later
    · exact (lookup_foldl_of_notMem nodup.1 _).trans (AList.lookup_insert _)
    · exact ih nodup.2 later _

/-- A table is read back from a file that has its entries, in any order. -/
theorem readHashTable_writeHashTable [DecidableEq τ] (buckets : Buckets τ) (t : Table τ) (tmp : τ) :
    SameTable (readHashTable t.keys.length (writeHashTable buckets t) tmp ∅) t := by
  have perm := buckets.perm t
  have keys : ((writeHashTable buckets t).map Prod.fst).Perm t.keys := by
    have mapped := perm.map Prod.fst
    rwa [List.map_map] at mapped
  have length : t.keys.length = (writeHashTable buckets t).length := by
    rw [← keys.length_eq, List.length_map]
  intro key
  rw [length, readHashTable_all]
  cases found : t.lookup key with
  | none =>
    have absent : key ∉ (writeHashTable buckets t).map Prod.fst := fun mem =>
      AList.lookup_eq_none.mp found (keys.mem_iff.mp mem)
    exact (lookup_foldl_of_notMem absent _).trans (AList.lookup_empty key)
  | some v =>
    refine lookup_foldl_of_mem (keys.nodup_iff.mpr t.keys_nodup) (perm.mem_iff.mpr ?_) _
    exact List.mem_map.mpr ⟨⟨key, v⟩, AList.mem_lookup_iff.mp found, rfl⟩

/-- A list of indices is read back. -/
theorem readListFromFile_writeListToFile {lst : List Nat} (fits : ∀ v ∈ lst, v < ulongMax) :
    readListFromFile (writeListToFile lst) = lst := by
  unfold readListFromFile writeListToFile
  split
  · next empty =>
    rw [readAll_decimal (by decide), List.length_eq_zero_iff.mp empty]
    rfl
  · rw [readAll_spaced fun v mem => Nat.lt_trans (fits v mem) (by decide)]
    refine List.filter_eq_self.mpr fun v mem => ?_
    exact decide_eq_true (Nat.ne_of_lt (fits v mem))

/-- The counters of an array of `n` entries. -/
structure Counters (n : Nat) (arr : Nat → Nat) : Prop where
  fits : ∀ i, arr i < 2 ^ 64
  ends : ∀ i, n ≤ i → arr i = 0

/-- Counters are read back into an array of their size. -/
theorem Counters.readArray_writeArray {n : Nat} {arr old : Nat → Nat} (h : Counters n arr)
    (ends : ∀ i, n ≤ i → old i = 0) : readArray n (writeArray n arr) old = arr := by
  funext i
  rw [Text.readArray_writeArray fun i _ => h.fits i]
  by_cases inside : i < n
  · rw [if_pos inside]
  · rw [if_neg inside, ends i (Nat.le_of_not_lt inside), h.ends i (Nat.le_of_not_lt inside)]

theorem firstEntries_ends (n : Nat) (arr : Nat → Nat) {i : Nat} (h : n ≤ i) :
    firstEntries n arr i = 0 := if_neg (Nat.not_lt.mpr h)

/-! ### What a client keeps -/

/-- `TYPE_INDEX` has room for every index, and one value more. -/
structure Config.Addressable (cfg : Config) : Prop where
  files : cfg.maxNumOfFiles < 2 ^ 64
  keywords : cfg.maxNumKeywords < 2 ^ 64

/-- The tables hold rows and columns, and the arrays counters and row keys. -/
structure Client.Sound [DecidableEq τ] (cfg : Config) (cr : Cipher Key) (c : Client τ Key) : Prop where
  tables : c.tables.InRange cfg
  keywordCounters : Counters cfg.matrixRowSize c.index.keywordCounterArr
  blockCounters : Counters cfg.numBlocks c.index.blockCounterArr
  rowKeys : c.index.rowKeys =
    if cfg.decryptAtClientSide then pregenerateRowKeys cfg cr c.index.keywordCounterArr
    else fun _ => cr.zeroKey

/-- The order of the tables does not matter. -/
theorem Client.Sound.of_same [DecidableEq τ] {cfg : Config} {cr : Cipher Key} {c c' : Client τ Key}
    (sound : c.Sound cfg cr) (same : c'.Same c) : c'.Sound cfg cr where
  tables :=
    { someRow := sound.tables.someRow
      someColumn := sound.tables.someColumn
      rows :=
        { lookup := fun found => sound.tables.rows.lookup ((same.tables.tW _).symm.trans found)
          free := fun mem => sound.tables.rows.free (same.tables.lstFreeRowIdx ▸ mem) }
      columns :=
        { lookup := fun found => sound.tables.columns.lookup ((same.tables.tF _).symm.trans found)
          free := fun mem => sound.tables.columns.free (same.tables.lstFreeColumnIdx ▸ mem) } }
  keywordCounters := same.index ▸ sound.keywordCounters
  blockCounters := same.index ▸ sound.blockCounters
  rowKeys := same.index ▸ sound.rowKeys

/-- What a process has in its memory, whatever it did before. -/
structure ClientProcess.Started (cfg : Config) (prim : Primitives τ Key) (p : ClientProcess τ Key) :
    Prop where
  keywordCounters : ∀ i, cfg.matrixRowSize ≤ i → p.client.index.keywordCounterArr i = 0
  blockCounters : ∀ i, cfg.numBlocks ≤ i → p.client.index.blockCounterArr i = 0
  rowKeys : cfg.decryptAtClientSide = false →
    p.client.index.rowKeys = fun _ => prim.cipher.zeroKey

/-- Where the client decrypts, the process has row keys: a load deletes them. -/
def ClientProcess.Keyed (cfg : Config) (p : ClientProcess τ Key) : Prop :=
  cfg.decryptAtClientSide = true → p.hasRowKeys = true

/-- The numbers of entries are floats. -/
structure Countable (T : Tables τ) : Prop where
  keywords : totalEntries T.tW = T.tW.keys.length ∧ T.tW.keys.length < 2 ^ 64
  files : totalEntries T.tF = T.tF.keys.length ∧ T.tF.keys.length < 2 ^ 64

/-- Tables of less than 2^24 entries each. -/
theorem countable_of_lt {T : Tables τ} (keywords : T.tW.keys.length < 2 ^ 24)
    (files : T.tF.keys.length < 2 ^ 24) : Countable T where
  keywords := ⟨floatOfNat_of_lt keywords, Nat.lt_trans keywords (by decide)⟩
  files := ⟨floatOfNat_of_lt files, Nat.lt_trans files (by decide)⟩

section Load

variable {cfg : Config} {prim : Primitives τ Key}

theorem ClientProcess.start_started (memory : ClientProcess τ Key) :
    (memory.start cfg prim).Started cfg prim where
  keywordCounters _ h := firstEntries_ends _ _ h
  blockCounters _ h := firstEntries_ends _ _ h
  rowKeys _ := rfl

theorem Client.Sound.started [DecidableEq τ] {p : ClientProcess τ Key}
    (sound : p.client.Sound cfg (prim.cipherOf p.masterKey)) : p.Started cfg prim where
  keywordCounters := sound.keywordCounters.ends
  blockCounters := sound.blockCounters.ends
  rowKeys server := by
    rw [sound.rowKeys, server]
    rfl

/-- Processes that differ in the order of their tables at most. -/
structure ClientProcess.Same [DecidableEq τ] (p q : ClientProcess τ Key) : Prop where
  masterKey : p.masterKey = q.masterKey
  client : p.client.Same q.client

/-- A load into a process without the row keys it deletes does not go on. -/
theorem ClientProcess.loadState_stops [DecidableEq τ] {p : ClientProcess τ Key} (unkeyed : ¬ p.Keyed cfg)
    (files : ClientFiles τ) (tmp : τ × τ) : p.loadState cfg prim files tmp = none := by
  obtain ⟨client, unset⟩ := Classical.not_imp.mp unkeyed
  simp [ClientProcess.loadState, client, unset]

/-- A load after a save brings the client back, into any process with row keys to delete. -/
theorem loadState_saveState [DecidableEq τ] (bounds : cfg.Addressable) {p old : ClientProcess τ Key}
    (sound : p.client.Sound cfg (prim.cipherOf p.masterKey)) (countable : Countable p.client.tables)
    (started : old.Started cfg prim) (keyed : old.Keyed cfg) (buckets : Buckets τ) (tmp : τ × τ) :
    ∃ q, old.loadState cfg prim (p.saveState cfg buckets) tmp = some q ∧ q.Same p ∧ q.Keyed cfg := by
  let totals := fun i => if i = 0 then totalEntries p.client.tables.tW
    else totalEntries p.client.tables.tF
  have fits : ∀ i, i < 2 → totals i < 2 ^ 64 := by
    intro i _
    dsimp only [totals]
    split
    · rw [countable.keywords.1]
      exact countable.keywords.2
    · rw [countable.files.1]
      exact countable.files.2
  have total : ∀ i, i < 2 → readArray 2 (p.saveState cfg buckets).keywordsFiles (fun _ => 0) i =
      totals i := fun i hi => (Text.readArray_writeArray fits _ i).trans (if_pos hi)
  have masterKey : (⟨readFileCpp old.masterKey.key1 (p.saveState cfg buckets).key1,
      readFileCpp old.masterKey.key2 (p.saveState cfg buckets).key2,
      readFileCpp old.masterKey.key3 (p.saveState cfg buckets).key3⟩ : MasterKey) = p.masterKey := by
    simp only [ClientProcess.saveState, readFileCpp_writeFileCpp]
  have keywords : readArray cfg.matrixRowSize (p.saveState cfg buckets).keywordCounterArr
      old.client.index.keywordCounterArr = p.client.index.keywordCounterArr :=
    sound.keywordCounters.readArray_writeArray started.keywordCounters
  have deletes : ¬ (cfg.decryptAtClientSide && !old.hasRowKeys) = true := by
    rw [Bool.and_eq_true, Bool.not_eq_true']
    exact fun ⟨client, unset⟩ => absurd (keyed client) (Bool.eq_false_iff.mp unset)
  refine ⟨_, if_neg deletes, ⟨masterKey, ⟨?tW, ?tF, ?columns, ?rows⟩, ?index⟩, id⟩
  case tW =>
    have loaded := readHashTable_writeHashTable buckets p.client.tables.tW tmp.1
    rw [← countable.keywords.1] at loaded
    rw [total 0 (by decide)]
    exact loaded
  case tF =>
    have loaded := readHashTable_writeHashTable buckets p.client.tables.tF tmp.2
    rw [← countable.files.1] at loaded
    rw [total 1 (by decide)]
    exact loaded
  case columns =>
    refine readListFromFile_writeListToFile fun v mem => ?_
    have := sound.tables.columns.free mem
    have := bounds.files
    unfold ulongMax
    omega
  case rows =>
    refine readListFromFile_writeListToFile fun v mem => ?_
    have := sound.tables.rows.free mem
    have := bounds.keywords
    unfold ulongMax
    omega
  case index =>
    have blocks : readArray cfg.numBlocks (p.saveState cfg buckets).blockCounterArr
        old.client.index.blockCounterArr = p.client.index.blockCounterArr :=
      sound.blockCounters.readArray_writeArray started.blockCounters
    have rowKeys : (if cfg.decryptAtClientSide then
          pregenerateRowKeys cfg (prim.cipherOf p.masterKey) p.client.index.keywordCounterArr
        else old.client.index.rowKeys) = p.client.index.rowKeys := by
      rw [sound.rowKeys]
      cases build : cfg.decryptAtClientSide with
      | true => rfl
      | false => exact started.rowKeys build
    rw [masterKey, keywords, blocks, rowKeys]

end Load

end ImDsse
