import ImDsse.Database
import ImDsse.Seu.Columns
import ImDsse.Seu.Freshness
import ImDsse.Kit.DenseHash

/-!
The encrypted files of the Android client, in builds with `ENCRYPT_PHYSICAL_FILE`.

A file's archive is named by `rT_F.bucket(trapdoor)`, the bucket the file has in the hash
table at the time, and its nonce is made from the same number. A search and a deletion go
by `rT_F[trapdoor]`, the column of the file. `fileMachine` runs the client together with
the buckets of `T_F`, and `ByColumn` says of a call that the two numbers agree where a file
is encrypted. Runs of such calls give every archive a number that is the column of its file
or of none (`Filed`), and leave it there until its file is deleted.
-/

namespace ImDsse.Seu

open Kit Kit.Bits Kit.Pool Kit.Text

variable {Key : Type} {σ : Type} {τ : Type}

/-! ### The hash table -/

/-- The loop of `settings.min_buckets`: the table is doubled until less than half of it is
full. -/
def minBucketsFrom (numElts minBucketsWanted : Nat) : Nat → Nat → Nat
  | 0, sz => sz
  | fuel + 1, sz =>
    if sz < minBucketsWanted ∨ sz / 2 ≤ numElts then
      minBucketsFrom numElts minBucketsWanted fuel (sz * 2)
    else sz

/-- `settings.min_buckets` with `FILE_LOADING_FACTOR`, from `HT_MIN_BUCKETS` on. -/
def minBuckets (numElts minBucketsWanted : Nat) : Nat :=
  minBucketsFrom numElts minBucketsWanted (numElts + minBucketsWanted) 4

/-- The loop ends with its condition. -/
theorem minBucketsFrom_ends {numElts minBucketsWanted fuel sz : Nat} (pos : 2 ≤ sz)
    (enough : 2 * numElts + 2 + minBucketsWanted ≤ sz + 2 * fuel) :
    minBucketsWanted ≤ minBucketsFrom numElts minBucketsWanted fuel sz ∧
      numElts < minBucketsFrom numElts minBucketsWanted fuel sz / 2 := by
  induction fuel generalizing sz with
  | zero =>
    unfold minBucketsFrom
    omega
  | succ fuel ih =>
    unfold minBucketsFrom
    split
    · exact ih (by omega) (by omega)
    · omega

theorem minBuckets_ends (numElts minBucketsWanted : Nat) :
    minBucketsWanted ≤ minBuckets numElts minBucketsWanted ∧
      numElts < minBuckets numElts minBucketsWanted / 2 :=
  minBucketsFrom_ends (by decide) (by omega)

/-- `T_F`, whose hash function is the class of its keys: `resize_delta(1)` with
`max_load_factor(FILE_LOADING_FACTOR)` and `min_load_factor(0.0)`, which never shrinks. -/
def fileTable (hash : τ → Nat) : DenseHash.Scheme τ where
  hash := hash
  resizeTo numElements numDeleted bucketCount :=
    if 4 ≤ bucketCount ∧ numElements + 1 ≤ bucketCount / 2 then none
    else if minBuckets (numElements + 1) 0 ≤ bucketCount then none
    else
      let resizeTo := minBuckets (numElements - numDeleted + 1) bucketCount
      let neededSize := minBuckets (numElements - numDeleted / 4 + 1) 0
      some (minBuckets (numElements - numDeleted)
        (if resizeTo < neededSize then resizeTo * 2 else resizeTo))

section Definitions

variable [DecidableEq τ]

/-- What `rT_F.bucket` gives for the keys of the table. -/
def buckets (S : DenseHash.Scheme τ) (L : DenseHash.Layout τ) (key : τ) : Nat :=
  (DenseHash.bucket S L key).getD 0

/-- The hash table holds the keys of `T_F`, and finds them. -/
structure Current (S : DenseHash.Scheme τ) (b : Books τ) (L : DenseHash.Layout τ) : Prop where
  sound : DenseHash.Sound S L
  keys : ∀ key, key ∈ DenseHash.keys L ↔ key ∈ b.tables.tF

/-- `bucket(k)` is the position of the bucket of `k`. -/
theorem Current.bucket {S : DenseHash.Scheme τ} {b : Books τ} {L : DenseHash.Layout τ}
    (h : Current S b L) {key : τ} (mem : key ∈ b.tables.tF) :
    L[buckets S L key]? = some (.full key) := by
  obtain ⟨b, bucket, here⟩ := h.sound.bucket ((h.keys key).mpr mem)
  rw [buckets, bucket]
  exact here

/-! ### Setup -/

/-- `FileCrypt::encryptFiles`, and `sendFile` of all it has made. `encryptFile_using_ccm`
does nothing with an empty table. -/
def encryptFiles (td : Trapdoor τ) (tF : Table τ) (buckets : τ → Nat)
    (contents : Str → Option (List Byte)) (rFileNames : List Str) : TextFile → Option Archive :=
  rFileNames.foldl (fun folder name =>
    if name = [] ∨ tF.entries = [] then folder
    else
      let archive := encryptFileUsingCcm td buckets name (contents name)
      Function.update folder (archiveName archive.fileIndex) (some archive)) fun _ => none

/-! ### The client with its hash table -/

section Machine

variable (S : DenseHash.Scheme τ) (build : Build) (cfg : Config) (cr : Cipher Key)
  (td : Trapdoor τ) (srv : Machine σ (Command Key) (Response Key))

/-- The hash table once a call has looked its file up. -/
def tableInCall (b : Books τ) (L : DenseHash.Layout τ) : Op τ → Option (DenseHash.Layout τ)
  | .searchKeyword _ _ => some L
  | .addFile path _ _ _ _ => DenseHash.findOrInsert S L (td.omac path)
  | .delFile path _ _ =>
    if b.dataStructureConstructed then DenseHash.findOrInsert S L (td.omac path) else some L

/-- `delToken` was called: it erases the file. -/
def erases : Except Err (Report Key) → Bool
  | .ok (.deleted _ _) => true
  | .error .clientDeleteFile => true
  | _ => false

/-- The hash table once the call has ended. -/
def tableAfterCall (L : DenseHash.Layout τ) (res : Except Err (Report Key)) :
    Op τ → Option (DenseHash.Layout τ)
  | .delFile path _ _ => if erases res then DenseHash.erase S L (td.omac path) else some L
  | _ => some L

/-- The call, with the buckets of this table. -/
def Op.withBuckets (buckets : τ → Nat) : Op τ → Op τ
  | .addFile path content draws _ links => .addFile path content draws buckets links
  | op => op

/-- One call after the other, with the hash table of `T_F`. -/
def fileMachine : Machine (World σ τ Key × DenseHash.Layout τ) (Op τ) (Except Err (Report Key)) where
  step w op := do
    let L ← tableInCall S td w.1.books w.2 op
    let (w', res) ← (clientMachine build cfg cr td srv).step w.1 (op.withBuckets (buckets S L))
    let L ← tableAfterCall S td L res op
    pure ((w', L), res)

end Machine

/-! ### The condition -/

/-- With these buckets, the call leaves the archives under the columns of their files: the
lookups of an addition do not meet the column 0, and the file, if it can be read, is in
the bucket with the number of its column. A deletion does not meet the column 0 either. -/
def ByColumn (build : Build) (cfg : Config) (td : Trapdoor τ) (buckets : τ → Nat) (b : Books τ) :
    Op τ → Prop
  | .searchKeyword _ _ => True
  | .addFile path content draws _ links => FetchFails build cfg links ∨ content = none ∨
      ColumnReads td b.tables path draws ∧
        ∀ s ∈ assignIndex 0 ⟨b.tables.tF, b.tables.lstFreeColumnIdx, draws⟩ (td.omac path),
          s.table.lookup (td.omac path) = some (buckets (td.omac path))
  | .delFile path _ _ => b.dataStructureConstructed = false ∨
      b.tables.tF.lookup (td.omac path) ≠ some 0

instance (build : Build) (cfg : Config) (td : Trapdoor τ) (buckets : τ → Nat) (b : Books τ)
    (op : Op τ) : Decidable (ByColumn build cfg td buckets b op) :=
  match op with
  | .searchKeyword .. => by unfold ByColumn; infer_instance
  | .addFile .. => by unfold ByColumn; infer_instance
  | .delFile .. => by unfold ByColumn; infer_instance

end Definitions

/-! ### The keys of `T_F` -/

section Keys

variable [DecidableEq τ] {S : DenseHash.Scheme τ} {build : Build} {cfg : Config}
  {cr : Cipher Key} {td : Trapdoor τ} {srv : Machine σ (Command Key) (Response Key)} {path : Str}
  {draws : Nat → Nat} {links : Links} {b b' b₁ b₂ : Books τ} {s : Picks τ} {j : Nat}
  {res : Except Err (Report Key)} {L L' : DenseHash.Layout τ}

theorem begun_mem (begun : Begun build cfg td path b draws s j b₁) {key : τ} :
    key ∈ b₁.tables.tF ↔ key = td.omac path ∨ key ∈ b.tables.tF := by
  rw [begun_tables begun]
  exact begun.assigned.mem_table

theorem addFile_mem {content : Option (List Byte)} {buckets : τ → Nat}
    (ends : AddEnds build cfg td path content draws buckets links b res b') {key : τ} :
    key ∈ b'.tables.tF ↔ key = td.omac path ∨ key ∈ b.tables.tF := by
  cases ends with
  | notFetched _ _ _ begun => exact begun_mem begun
  | tokened _ _ _ _ _ _ _ begun _ token rest =>
    obtain ⟨columns, again, tF, -⟩ := tokened_columns token
    rw [addRest_tables rest, tF, again.mem_table]
    exact (or_congr_right (begun_mem begun)).trans or_self_left

theorem delFile_mem (ends : DelEnds build cfg td path draws links b res b')
    (built : b.dataStructureConstructed = true) {key : τ} :
    key ∈ b'.tables.tF ↔ if erases res then key ≠ td.omac path ∧ key ∈ b.tables.tF
      else key = td.omac path ∨ key ∈ b.tables.tF := by
  cases ends with
  | notBuilt absent => cases absent.symm.trans built
  | noBlock s j assigned => exact assigned.mem_table
  | notFetched s j _ begun => exact begun_mem begun
  | erased s j b₁ b₂ _ _ begun _ _ _ token rest =>
    have erased : erases res = true := by cases rest <;> rfl
    rw [if_pos erased, delRest_tables rest, token]
    change key ∈ b₁.tables.tF.erase (td.omac path) ↔ _
    rw [AList.mem_erase, begun_mem begun]
    constructor
    · rintro ⟨ne, same | mem⟩
      · exact absurd same ne
      · exact ⟨ne, mem⟩
    · rintro ⟨ne, mem⟩
      exact ⟨ne, .inr mem⟩

theorem delFile_notBuilt (ends : DelEnds build cfg td path draws links b res b')
    (absent : b.dataStructureConstructed = false) :
    res = .error .dataStructureNotBuilt ∧ b' = b := by
  cases ends with
  | notBuilt => exact ⟨rfl, rfl⟩
  | noBlock _ _ _ _ _ built => cases absent.symm.trans built
  | notFetched _ _ _ _ _ _ built => cases absent.symm.trans built
  | erased _ _ _ _ _ _ _ _ _ built => cases absent.symm.trans built

/-- After the lookup of the file the table holds it. -/
theorem Current.findOrInsert (h : Current S b L)
    (inserted : DenseHash.findOrInsert S L (td.omac path) = some L')
    (mem : ∀ key, key ∈ b'.tables.tF ↔ key = td.omac path ∨ key ∈ b.tables.tF) :
    Current S b' L' := by
  obtain ⟨sound, keys⟩ := h.sound.findOrInsert inserted
  refine ⟨sound, fun key => ?_⟩
  rw [keys, mem, h.keys]

/-- The hash table follows `T_F`, whatever is called. -/
theorem Current.step {w w' : World σ τ Key × DenseHash.Layout τ} {op : Op τ}
    (h : Current S w.1.books w.2)
    (step : (fileMachine S build cfg cr td srv).step w op = some (w', res)) :
    Current S w'.1.books w'.2 := by
  obtain ⟨L, during, step⟩ := Option.bind_eq_some_iff.mp step
  obtain ⟨⟨w₁, res'⟩, called, step⟩ := Option.bind_eq_some_iff.mp step
  obtain ⟨L', after, step⟩ := Option.bind_eq_some_iff.mp step
  cases step
  cases op with
  | searchKeyword keyword links =>
    cases during
    cases after
    obtain ⟨tF, -⟩ := search_columns (searchKeyword_ends called)
    refine ⟨h.sound, fun key => ?_⟩
    rw [tF]
    exact h.keys key
  | addFile path content draws _ links =>
    cases after
    exact h.findOrInsert during fun key => addFile_mem (addFile_ends called)
  | delFile path draws links =>
    have ends := delFile_ends called
    cases built : w.1.books.dataStructureConstructed with
    | false =>
      obtain ⟨rfl, same⟩ := delFile_notBuilt ends built
      simp only [tableInCall, built] at during
      cases during
      cases after
      dsimp only
      rw [same]
      exact h
    | true =>
      simp only [tableInCall, built, if_true] at during
      cases erased : erases res with
      | false =>
        simp only [tableAfterCall, erased] at after
        cases after
        refine h.findOrInsert during fun key => (delFile_mem ends built).trans ?_
        rw [if_neg (by rw [erased]; decide)]
      | true =>
        simp only [tableAfterCall, erased, if_true] at after
        obtain ⟨sound, keys⟩ := h.sound.findOrInsert during
        obtain ⟨sound, keys'⟩ := sound.erase after
        refine ⟨sound, fun key => ?_⟩
        rw [keys', keys, h.keys]
        refine Iff.trans ?_ (delFile_mem ends built).symm
        rw [if_pos erased]
        tauto

end Keys

/-! ### Names -/

theorem archiveName_injective {i j : Nat} (same : archiveName i = archiveName j) : i = j := by
  have number := congrArg (List.takeWhile Char.isDigit) (List.append_cancel_left same)
  refine decimal_injective ?_
  rwa [show ".tar.gz".toList = '.' :: "tar.gz".toList from rfl, takeWhile_decimal i (by decide),
    takeWhile_decimal j (by decide)] at number

theorem nonceSource_injective {i j : Nat} (same : nonceSource i = nonceSource j) : i = j := by
  have number := congrArg (List.takeWhile Char.isDigit) (List.append_cancel_left same)
  refine decimal_injective ?_
  rwa [show ".txt".toList = '.' :: "txt".toList from rfl, List.cons_append, List.cons_append,
    takeWhile_decimal i (by decide), takeWhile_decimal j (by decide)] at number

/-! ### Archives under the columns of their files -/

section Filed

variable [DecidableEq τ] {td : Trapdoor τ} {path : Str} {b b' : Books τ}

/-- The number of an archive is not free, and no file's column but its own file's. -/
structure Numbered (td : Trapdoor τ) (T : Tables τ) (archive : Archive) : Prop where
  column : archive.fileIndex ≠ 0
  taken : archive.fileIndex ∉ T.lstFreeColumnIdx
  owner : ∀ key, T.tF.lookup key = some archive.fileIndex → key = td.omac archive.path

/-- No column but 0 is given to two files, or given and free, and every archive has a number
of its own. -/
structure Filed (td : Trapdoor τ) (b : Books τ) : Prop where
  columns : ∃ all, Split (· ≠ 0) all b.tables.tF b.tables.lstFreeColumnIdx
  named : ∀ {name archive}, b.encFiles name = some archive →
    name = archiveName archive.fileIndex ∧ Numbered td b.tables archive
  folder : ∀ {archive}, b.encryptedUpdate = some archive → Numbered td b.tables archive

/-- A file is looked up, and given a column if it has none: not one of an archive. -/
theorem Numbered.lookup {archive : Archive} {T : Tables τ} {draws : Nat → Nat} {s : Picks τ}
    {key : τ} (h : Numbered td T archive)
    (assigned : Assigned 0 ⟨T.tF, T.lstFreeColumnIdx, draws⟩ key s) :
    Numbered td { T with tF := s.table, lstFreeColumnIdx := s.free } archive := by
  cases assigned with
  | kept => exact h
  | picked v free draws' _ pick =>
    have perm : T.lstFreeColumnIdx.Perm (v :: free) := pickRandomElement_perm pick
    have other : archive.fileIndex ≠ v := by
      rintro rfl
      exact h.taken (perm.mem_iff.mpr List.mem_cons_self)
    refine ⟨h.column, fun isFree => h.taken (perm.mem_iff.mpr (List.mem_cons_of_mem _ isFree)),
      fun key' found => ?_⟩
    dsimp only at found
    rw [lookup_insert_if] at found
    split at found
    · exact absurd (Option.some.inj found).symm other
    · exact h.owner key' found

/-- A file is taken out. -/
theorem Numbered.erase {archive : Archive} {T : Tables τ} (h : Numbered td T archive) (key : τ) :
    Numbered td { T with tF := T.tF.erase key } archive := by
  refine ⟨h.column, h.taken, fun key' found => h.owner key' ?_⟩
  by_cases same : key' = key
  · rw [same] at found
    cases (AList.lookup_erase key T.tF).symm.trans found
  · exact (AList.lookup_erase_ne same).symm.trans found

namespace Filed

/-- Other files have other columns, names and nonces. -/
theorem apart (h : Filed td b) {key key' : τ} {i j : Nat} (ne : key ≠ key')
    (found : b.tables.tF.lookup key = some i) (found' : b.tables.tF.lookup key' = some j)
    (column : i ≠ 0) : archiveName i ≠ archiveName j ∧ nonceSource i ≠ nonceSource j := by
  obtain ⟨all, split⟩ := h.columns
  have other : i ≠ j := by
    rintro rfl
    exact ne (split.injective found found' (decide_eq_true column))
  exact ⟨fun same => other (archiveName_injective same),
    fun same => other (nonceSource_injective same)⟩

/-- The archive with a number. -/
theorem numbered (h : Filed td b) {i : Nat} {archive : Archive}
    (stored : b.encFiles (archiveName i) = some archive) :
    archive.fileIndex = i ∧ Numbered td b.tables archive := by
  obtain ⟨name, numbered⟩ := h.named stored
  exact ⟨(archiveName_injective name).symm, numbered⟩

/-- The archive with a file's number is that file's. -/
theorem owner (h : Filed td b) {i : Nat} {archive : Archive}
    (found : b.tables.tF.lookup (td.omac path) = some i)
    (stored : b.encFiles (archiveName i) = some archive) : td.omac archive.path = td.omac path := by
  obtain ⟨rfl, numbered⟩ := h.numbered stored
  exact (numbered.owner _ found).symm

/-- It is about the columns and the archives. -/
theorem congr (h : Filed td b) (tF : b'.tables.tF = b.tables.tF)
    (free : b'.tables.lstFreeColumnIdx = b.tables.lstFreeColumnIdx)
    (encFiles : b'.encFiles = b.encFiles) (folder : b'.encryptedUpdate = b.encryptedUpdate) :
    Filed td b' := by
  have same : ∀ {archive}, Numbered td b.tables archive → Numbered td b'.tables archive := by
    intro archive numbered
    refine ⟨numbered.column, ?_, ?_⟩
    · rw [free]
      exact numbered.taken
    · rw [tF]
      exact numbered.owner
  refine ⟨?_, fun {name archive} stored => ?_, fun {archive} left => same (h.folder ?_)⟩
  · rw [tF, free]
    exact h.columns
  · rw [encFiles] at stored
    exact ⟨(h.named stored).1, same (h.named stored).2⟩
  · rw [← folder]
    exact left

theorem lookup {draws : Nat → Nat} {s : Picks τ} (h : Filed td b)
    (assigned : Assigned 0 ⟨b.tables.tF, b.tables.lstFreeColumnIdx, draws⟩ (td.omac path) s) :
    Filed td (b.withColumns s) := by
  obtain ⟨all, split⟩ := h.columns
  exact ⟨⟨all, assigned.split split fun _ => rfl⟩,
    fun {name archive} stored => ⟨(h.named stored).1, (h.named stored).2.lookup assigned⟩,
    fun {archive} left => (h.folder left).lookup assigned⟩

/-- The column of a file is a number for its archive. -/
theorem own (h : Filed td b) {i : Nat} {content : List Byte}
    (found : b.tables.tF.lookup (td.omac path) = some i) (column : i ≠ 0) :
    Numbered td b.tables ⟨i, path, content⟩ := by
  obtain ⟨all, split⟩ := h.columns
  have given : decide (i ≠ 0) = true := decide_eq_true column
  exact ⟨column, split.not_free found given, fun key found' => split.injective found' found given⟩

/-- A file is encrypted into the folder. -/
theorem encrypt (h : Filed td b) {archive : Archive} (numbered : Numbered td b.tables archive) :
    Filed td { b with encryptedUpdate := some archive } := by
  refine ⟨h.columns, h.named, fun {archive'} left => ?_⟩
  cases left
  exact numbered

/-- An archive is stored under its number. -/
theorem store (h : Filed td b) {archive : Archive} (numbered : Numbered td b.tables archive) :
    Filed td { b with
      encFiles := Function.update b.encFiles (archiveName archive.fileIndex) (some archive) } := by
  refine ⟨h.columns, fun {name archive'} stored => ?_, h.folder⟩
  dsimp only at stored ⊢
  by_cases same : name = archiveName archive.fileIndex
  · rw [same, Function.update_self] at stored
    cases stored
    exact ⟨same, numbered⟩
  · rw [Function.update_of_ne same] at stored
    exact h.named stored

/-- The file in the folder is stored. -/
theorem withFile (h : Filed td b) : Filed td b.withFile := by
  cases left : b.encryptedUpdate with
  | none =>
    rw [Books.withFile, left]
    exact h
  | some archive =>
    rw [b.withFile_of_some left]
    exact h.store (h.folder left)

theorem erase (h : Filed td b) {i : Nat} (found : b.tables.tF.lookup (td.omac path) = some i) :
    Filed td { b with tables := { b.tables with tF := b.tables.tF.erase (td.omac path) } } := by
  obtain ⟨all, split⟩ := h.columns
  exact ⟨split.drop found, fun {name archive} stored => ⟨(h.named stored).1,
    (h.named stored).2.erase _⟩, fun {archive} left => (h.folder left).erase _⟩

/-- An archive is removed. -/
theorem withoutFile (h : Filed td b) (i : Nat) : Filed td (b.withoutFile i) := by
  refine ⟨h.columns, fun {name archive} stored => ?_, h.folder⟩
  unfold Books.withoutFile at stored
  dsimp only at stored
  by_cases same : name = archiveName i
  · rw [same, Function.update_self] at stored
    cases stored
  · rw [Function.update_of_ne same] at stored
    exact h.named stored

end Filed

end Filed

/-! ### One call -/

/-- The server has the archive with the column of the file. -/
def Archived [DecidableEq τ] (td : Trapdoor τ) (b : Books τ) (path : Str) (i : Nat) : Prop :=
  b.tables.tF.lookup (td.omac path) = some i ∧ (b.encFiles (archiveName i)).isSome = true

/-- The call deletes the file. -/
def Op.Deletes (td : Trapdoor τ) (path : Str) : Op τ → Prop
  | .delFile path' _ _ => td.omac path' = td.omac path
  | _ => False

/-- However the call ends, the files it does not delete keep their archives. -/
def KeepsOthers [DecidableEq τ] (td : Trapdoor τ) (b b' : Books τ) (op : Op τ) : Prop :=
  ∀ path i, ¬ op.Deletes td path → Archived td b path i → Archived td b' path i

/-- What an addition that succeeds has done to the archives: the file's is stored under its
column, and those of other files are as they were. -/
structure Stored [DecidableEq τ] (td : Trapdoor τ) (path : Str) (content : Option (List Byte))
    (b b' : Books τ) (i : Nat) : Prop where
  column : b'.tables.tF.lookup (td.omac path) = some i
  stored : b'.encFiles (archiveName i) = some ⟨i, path, content.getD []⟩
  others : ∀ {name archive}, b.encFiles name = some archive →
    td.omac archive.path ≠ td.omac path → b'.encFiles name = some archive

/-- Once a block is in its place, a search of a keyword of the file finds column `i`. -/
def Reported [DecidableEq τ] (cfg : Config) (cr : Cipher Key) (td : Trapdoor τ)
    (content : Option (List Byte)) (upload : Upload Key) (tW : Table τ) (i : Nat) : Prop :=
  ∀ word ∈ extractKeywords [] content, ∀ row ∈ tW.lookup (td.omac word), row ≠ 0 →
    row < cfg.matrixRowSize → ∀ M, withUpload cfg cr M upload row i = true

/-- What a deletion that succeeds has done: it has sent the column of the file, and the
server has removed the archive with this number, which is the file's. -/
structure Deleted [DecidableEq τ] (td : Trapdoor τ) (path : Str) (i : Nat) (b b' : Books τ) :
    Prop where
  sent : ∀ j ∈ b.tables.tF.lookup (td.omac path), i = j
  owner : ∀ {archive}, b.encFiles (archiveName i) = some archive →
    td.omac archive.path = td.omac path
  removed : b'.encFiles = Function.update b.encFiles (archiveName i) none

/-- The call, if it succeeds, goes by the column of its file. -/
def GoesByColumn [DecidableEq τ] (build : Build) (cfg : Config) (cr : Cipher Key) (td : Trapdoor τ)
    (b b' : Books τ) : Op τ → Except Err (Report Key) → Prop
  | .addFile path content _ _ _, .ok (.added upload) => content.isSome = true →
    ∃ i, Stored td path content b b' i ∧
      (cfg.Sized → build.Encrypts cfg → Reported cfg cr td content upload b'.tables.tW i)
  | .delFile path _ _, .ok (.deleted i _) => Deleted td path i b b'
  | _, _ => True

/-- Columns but 0 stay, and so do archives. -/
structure Extends [DecidableEq τ] (b b' : Books τ) : Prop where
  column : ∀ {key v}, b.tables.tF.lookup key = some v → v ≠ 0 →
    b'.tables.tF.lookup key = some v
  archive : ∀ {name}, (b.encFiles name).isSome = true → (b'.encFiles name).isSome = true

section Calls

variable [DecidableEq τ] {build : Build} {cfg : Config} {cr : Cipher Key} {td : Trapdoor τ}
  {srv : Machine σ (Command Key) (Response Key)} {path : Str} {draws : Nat → Nat} {links : Links}
  {b b' b₁ b₂ : Books τ} {s : Picks τ} {j : Nat} {res : Except Err (Report Key)}

theorem Extends.of_eq (tF : b'.tables.tF = b.tables.tF) (encFiles : b'.encFiles = b.encFiles) :
    Extends b b' := by
  refine ⟨fun {key v} found _ => ?_, fun {name} some => ?_⟩
  · rw [tF]
    exact found
  · rw [encFiles]
    exact some

theorem Extends.trans (h : Extends b b₁) (h' : Extends b₁ b') : Extends b b' :=
  ⟨fun found ne => h'.column (h.column found ne) ne, fun some => h'.archive (h.archive some)⟩

theorem Extends.archived (extends_ : Extends b b') (h : Filed td b) {i : Nat}
    (archived : Archived td b path i) : Archived td b' path i := by
  obtain ⟨archive, stored⟩ := Option.isSome_iff_exists.mp archived.2
  obtain ⟨rfl, numbered⟩ := h.numbered stored
  exact ⟨extends_.column archived.1 numbered.column, extends_.archive archived.2⟩

theorem lookup_extends
    (assigned : Assigned 0 ⟨b.tables.tF, b.tables.lstFreeColumnIdx, draws⟩ (td.omac path) s) :
    Extends b (b.withColumns s) :=
  ⟨fun found ne => assigned.lookup_kept found ne, fun some => some⟩

theorem withFile_extends : Extends b b.withFile := by
  cases left : b.encryptedUpdate with
  | none =>
    rw [Books.withFile, left]
    exact .of_eq rfl rfl
  | some archive =>
    rw [b.withFile_of_some left]
    refine ⟨fun found _ => found, fun {name} some => ?_⟩
    dsimp only
    by_cases same : name = archiveName archive.fileIndex
    · rw [same, Function.update_self]
      rfl
    · rw [Function.update_of_ne same]
      exact some

theorem begun_encFiles (begun : Begun build cfg td path b draws s j b₁) :
    b₁.encFiles = b.encFiles := by
  rw [begun.books]
  rfl

theorem begun_extends (begun : Begun build cfg td path b draws s j b₁) : Extends b b₁ := by
  have rest : Extends (b.withColumns s) b₁ :=
    .of_eq (congrArg Tables.tF (begun_tables begun)) (begun_encFiles begun :)
  exact (lookup_extends begun.assigned).trans rest

theorem begun_filed (h : Filed td b) (begun : Begun build cfg td path b draws s j b₁) :
    Filed td b₁ := by
  have tables := begun_tables begun
  have encFiles : b₁.encFiles = b.encFiles := begun_encFiles begun
  have folder : b₁.encryptedUpdate = b.encryptedUpdate := by
    rw [begun.books]
    rfl
  exact (h.lookup begun.assigned).congr (congrArg Tables.tF tables)
    (congrArg Tables.lstFreeColumnIdx tables) encFiles folder

theorem search_filed {keyword : Str} (h : Filed td b)
    (ends : SearchEnds build cfg td keyword b res b') : Filed td b' ∧ Extends b b' := by
  obtain ⟨tF, free⟩ := search_columns ends
  have same : b'.encFiles = b.encFiles ∧ b'.encryptedUpdate = b.encryptedUpdate := by
    cases ends <;> exact ⟨rfl, rfl⟩
  exact ⟨h.congr tF free same.1 same.2, .of_eq tF same.1⟩

/-- Once the file is out of the table, its archive may go. -/
theorem erased_keeps (h : Filed td b) {path' : Str} {i : Nat} (ne : td.omac path ≠ td.omac path')
    (found : b.tables.tF.lookup (td.omac path) = some j)
    (tF : b'.tables.tF = b.tables.tF.erase (td.omac path))
    (encFiles : b'.encFiles = b.encFiles ∨
      b'.encFiles = Function.update b.encFiles (archiveName j) none)
    (archived : Archived td b path' i) : Archived td b' path' i := by
  obtain ⟨lookup, some⟩ := archived
  refine ⟨?_, ?_⟩
  · rw [tF, AList.lookup_erase_ne (Ne.symm ne)]
    exact lookup
  · rcases encFiles with encFiles | encFiles
    · rw [encFiles]
      exact some
    · obtain ⟨archive, stored⟩ := Option.isSome_iff_exists.mp some
      obtain ⟨rfl, numbered⟩ := h.numbered stored
      rw [encFiles, Function.update_of_ne (h.apart (Ne.symm ne) lookup found numbered.column).1]
      exact some

theorem delFile_filed (physical : build.encryptPhysicalFile = true) {buckets : τ → Nat}
    (h : Filed td b) (good : ByColumn build cfg td buckets b (.delFile path draws links))
    (ends : DelEnds build cfg td path draws links b res b') :
    Filed td b' ∧ KeepsOthers td b b' (.delFile path draws links) ∧
      ∀ i upload, res = .ok (.deleted i upload) → Deleted td path i b b' := by
  cases ends with
  | notBuilt => exact ⟨h, fun _ _ _ archived => archived, fun _ _ ok => by cases ok⟩
  | noBlock s j assigned =>
    exact ⟨h.lookup assigned, fun _ _ _ archived => (lookup_extends assigned).archived h archived,
      fun _ _ ok => by cases ok⟩
  | notFetched s j _ begun =>
    exact ⟨begun_filed h begun, fun _ _ _ archived => (begun_extends begun).archived h archived,
      fun _ _ ok => by cases ok⟩
  | erased s j b₁ b₂ _ _ begun _ fetched built token rest =>
    have h₁ := begun_filed h begun
    have found : b₁.tables.tF.lookup (td.omac path) = some j := by
      rw [begun_tables begun]
      exact begun.found
    have before : b₁.encFiles = b.encFiles := begun_encFiles begun
    have encFiles : b₂.encFiles = b₁.encFiles := by rw [token]; rfl
    have tF : b₂.tables.tF = b₁.tables.tF.erase (td.omac path) := by rw [token]
    have h₂ : Filed td b₂ := (h₁.erase found).congr (by rw [token]) (by rw [token])
      (by rw [token]; rfl) (by rw [token]; rfl)
    have keeps : ∀ b₃ : Books τ, b₃.tables = b₂.tables → (b₃.encFiles = b₁.encFiles ∨
        b₃.encFiles = Function.update b₁.encFiles (archiveName j) none) →
        KeepsOthers td b b₃ (.delFile path draws links) := by
      intro b₃ tables files path' i other archived
      refine erased_keeps h₁ other found ?_ files ((begun_extends begun).archived h archived)
      rw [tables]
      exact tF
    cases rest with
    | notSent => exact ⟨h₂, keeps _ rfl (.inl encFiles), fun _ _ ok => by cases ok⟩
    | deleted upload _ _ _ removed =>
      rw [physical, if_pos rfl] at removed
      have gone : b'.encFiles = Function.update b₁.encFiles (archiveName j) none := by
        rw [removed, Books.withoutFile, encFiles]
      refine ⟨?_, keeps b' ?_ (.inr gone), fun i upload' ok => ?_⟩
      · rw [removed]
        exact h₂.withoutFile j
      · rw [removed]
        rfl
      · cases ok
        have present := good.resolve_left (by rw [built]; decide)
        refine ⟨fun v lookup => ?_, fun {archive} stored => ?_, ?_⟩
        · have ne : v ≠ 0 := by
            rintro rfl
            exact present lookup
          exact Option.some.inj (begun.found.symm.trans (begun.assigned.lookup_kept lookup ne))
        · rw [← before] at stored
          exact h₁.owner found stored
        · rw [gone, before]

/-- The column of an added file, after both lookups. -/
theorem column_kept {columns : Picks τ} {i : Nat}
    (begun : Begun build cfg td path b draws s j b₁) (reads : ColumnReads td b.tables path draws)
    (again : Assigned 0 ⟨b₁.tables.tF, b₁.tables.lstFreeColumnIdx, s.draws⟩ (td.omac path) columns)
    (found : columns.table.lookup (td.omac path) = some i) : i = j ∧ j ≠ 0 := by
  have ne := reads.column_ne begun.assigned begun.found
  rw [begun_tables begun] at again
  exact ⟨Option.some.inj (found.symm.trans (again.lookup_kept begun.found ne)), ne⟩

/-- A file that cannot be read leaves the archives as they are. -/
theorem unread_filed {content : Option (List Byte)} {buckets : τ → Nat} {draws' : Nat → Nat}
    {ret : Option Err} (h : Filed td b₁) (unread : content = none)
    (token : Tokened build cfg td path content buckets b₁ draws' ret b₂) :
    Filed td b₂ ∧ Extends b₁ b₂ := by
  cases token with
  | unread columns _ again => exact ⟨h.lookup again, lookup_extends again⟩
  | read _ _ _ _ read =>
    rw [unread] at read
    cases read

/-- One that can be read is encrypted under its column, if it is in the bucket with this
number. -/
theorem read_filed (physical : build.encryptPhysicalFile = true) {content : Option (List Byte)}
    {buckets : τ → Nat} {ret : Option Err} (h : Filed td b)
    (begun : Begun build cfg td path b draws s j b₁) (read : content.isSome = true)
    (reads : ColumnReads td b.tables path draws)
    (bucket : s.table.lookup (td.omac path) = some (buckets (td.omac path)))
    (token : Tokened build cfg td path content buckets b₁ s.draws ret b₂) :
    Filed td b₂ ∧ Extends b₁ b₂ ∧ b₂.encFiles = b.encFiles ∧
      b₂.tables.tF.lookup (td.omac path) = some j ∧
      b₂.encryptedUpdate = some ⟨j, path, content.getD []⟩ := by
  cases token with
  | unread _ unread =>
    rw [unread] at read
    cases read
  | read columns rows i IBar _ again found words =>
    obtain ⟨rfl, column⟩ := column_kept begun reads again found
    have same : i = buckets (td.omac path) := Option.some.inj (begun.found.symm.trans bucket)
    have looked := (begun_filed h begun).lookup again
    have folder : (if build.encryptPhysicalFile
        then some (encryptFileUsingCcm td buckets path content) else b₁.encryptedUpdate) =
          some ⟨i, path, content.getD []⟩ := by
      rw [same]
      exact if_pos physical
    have before : b₁.encFiles = b.encFiles := begun_encFiles begun
    exact ⟨(looked.encrypt (looked.own found column)).congr rfl rfl rfl folder,
      (lookup_extends again).trans (.of_eq rfl rfl), before, found, folder⟩

/-- What is left of an addition after `addToken` stores what is in the folder, or nothing. -/
theorem addRest_filed {blockIndex : Nat} {ret : Option Err} (h : Filed td b₂)
    (rest : AddRest build cfg links blockIndex b₂ ret res b') :
    Filed td b' ∧ Extends b₂ b' := by
  have stored : b' = b₂ ∨ b' = b₂.withFile := by
    cases rest with
    | notRead => exact .inl rfl
    | notSent => exact .inl rfl
    | notStored _ _ _ _ sent => exact sent
    | added _ upload _ _ _ _ done =>
      rw [done]
      split
      · exact .inr rfl
      · exact .inl rfl
  rcases stored with rfl | rfl
  · exact ⟨h, .of_eq rfl rfl⟩
  · exact ⟨h.withFile, withFile_extends⟩

/-- And an addition that succeeds has stored it. -/
theorem addRest_stored (physical : build.encryptPhysicalFile = true) {blockIndex : Nat}
    {ret : Option Err} {content : Option (List Byte)} (h : Filed td b₂)
    (encFiles : b₂.encFiles = b.encFiles) (lookup : b₂.tables.tF.lookup (td.omac path) = some j)
    (folder : b₂.encryptedUpdate = some ⟨j, path, content.getD []⟩) {upload : Upload Key}
    (rest : AddRest build cfg links blockIndex b₂ ret (.ok (.added upload)) b') :
    Stored td path content b b' j := by
  cases rest with
  | added _ upload _ _ _ _ done =>
    rw [if_pos physical, b₂.withFile_of_some folder] at done
    rw [done]
    refine ⟨lookup, Function.update_self .., fun {name archive} kept other => ?_⟩
    rw [← encFiles] at kept
    refine (Function.update_of_ne ?_ _ _).trans kept
    rintro rfl
    exact other (h.owner lookup kept)

theorem addFile_filed (physical : build.encryptPhysicalFile = true)
    {content : Option (List Byte)} {buckets buckets' : τ → Nat} (h : Filed td b)
    (good : ByColumn build cfg td buckets b (.addFile path content draws buckets' links))
    (ends : AddEnds build cfg td path content draws buckets links b res b') :
    Filed td b' ∧ Extends b b' ∧ ∀ upload, res = .ok (.added upload) → content.isSome = true →
      ColumnReads td b.tables path draws ∧ ∃ i, Stored td path content b b' i := by
  cases ends with
  | notFetched s j _ begun =>
    exact ⟨begun_filed h begun, begun_extends begun, fun _ ok => by cases ok⟩
  | tokened s j b₁ b₂ _ ret _ begun fetched token rest =>
    by_cases read : content.isSome = true
    · obtain ⟨reads, encrypted⟩ :=
        (good.resolve_left fetched).resolve_left (Option.ne_none_iff_isSome.mpr read)
      obtain ⟨filed, extends₁, encFiles, lookup, folder⟩ := read_filed physical h begun read reads
        (encrypted s (assignIndex_of_assigned begun.assigned)) token
      obtain ⟨filed', extends₂⟩ := addRest_filed filed rest
      refine ⟨filed', ((begun_extends begun).trans extends₁).trans extends₂, ?_⟩
      rintro upload rfl -
      exact ⟨reads, j, addRest_stored physical filed encFiles lookup folder rest⟩
    · obtain ⟨filed, extends₁⟩ := unread_filed (begun_filed h begun)
        (Option.not_isSome_iff_eq_none.mp read) token
      obtain ⟨filed', extends₂⟩ := addRest_filed filed rest
      exact ⟨filed', ((begun_extends begun).trans extends₁).trans extends₂,
        fun _ _ some => absurd some read⟩

end Calls

/-! ### The column a search finds -/

section Blocks

variable [DecidableEq τ] {build : Build} {cfg : Config} {cr : Cipher Key} {td : Trapdoor τ}
  {srv : Machine σ (Command Key) (Response Key)} {path : Str} {draws : Nat → Nat} {links : Links}
  {w w' : World σ τ Key} {content : Option (List Byte)} {bucket : τ → Nat} {keys : BlockKeys Key}

omit [DecidableEq τ] in
/-- The second key buffer holds the keystreams of the encryptions. -/
theorem blockKeys_stream (size : cfg.Sized) (client : cfg.decryptAtClientSide = true)
    (finds : build.findsCipher = true) {decrypts : Bool} {blockIndex : Nat}
    (h : blockKeys build cfg cr links decrypts blockIndex w = .ok keys w') {r : Nat}
    (hr : r < cfg.matrixRowSize) : ∃ e, keys.encryptions[r]? = some e ∧
      ∀ k < cfg.encryptBlockSize, bit keys.reencryptKey (r * cfg.encryptBlockSize + k) =
        cr.ks e.key e.blockIdx e.counter k := by
  unfold blockKeys at h
  rw [if_pos client] at h
  cases h
  dsimp only
  rw [if_pos finds, Build.cipher_of_finds finds, precomputeAESCTRKeys_col_blocks, List.getElem?_map,
    List.getElem?_range hr]
  refine ⟨_, rfl, fun k hk => ?_⟩
  rw [bit_precomputeAESCTRKeys_col size.blockSize cr _ _ _ _ _ (tile_lt hr hk), tile_div hk,
    tile_mod hk]

omit [DecidableEq τ] in
/-- The new block has the new column in the column of the file. -/
theorem recodeBlock_column (size : cfg.Sized) (c : Client τ Key) (i : Nat) (IBar : Buf)
    {r : Nat} (hr : r < cfg.matrixRowSize)
    (stream : cfg.decryptAtClientSide = true → ∃ e, keys.encryptions[r]? = some e ∧
      ∀ k < cfg.encryptBlockSize, bit keys.reencryptKey (r * cfg.encryptBlockSize + k) =
        cr.ks e.key e.blockIdx e.counter k) :
    ∃ e, (recodeBlock cfg cr c keys i (.add IBar)).2[r]? = some e ∧
      bit (recodeBlock cfg cr c keys i (.add IBar)).1
          (r * cfg.encryptBlockSize + i % cfg.encryptBlockSize) =
        (bit IBar r ^^ cr.ks e.key e.blockIdx e.counter (i % cfg.encryptBlockSize)) := by
  have hi : i % cfg.encryptBlockSize < cfg.encryptBlockSize := Nat.mod_lt _ size.tiled.pos
  unfold recodeBlock
  cases client : cfg.decryptAtClientSide with
  | true =>
    obtain ⟨e, sealing, stream⟩ := stream client
    rw [if_pos rfl]
    refine ⟨e, sealing, ?_⟩
    dsimp only
    rw [addTokenBlockPre, bit_tokenBlockPre size.blockSize size.rowBytes _ _ _ _ _ (tile_lt hr hi),
      recodedBit, tile_div hi, tile_mod hi, if_pos rfl, stream _ hi]
  | false =>
    rw [if_neg Bool.false_ne_true]
    dsimp only
    rw [addTokenBlock, tokenBlock_encryptions _ _ _ _ _ size.tiled.pos, List.getElem?_map,
      List.getElem?_range hr]
    refine ⟨_, rfl, ?_⟩
    rw [bit_tokenBlock size.blockSize cr _ _ _ _ (fun _ _ same => same) size.rowBytes _
      (tile_lt hr hi), recodedBit, tile_div hi, tile_mod hi, if_pos rfl]

/-- `addToken` of a file that can be read. -/
theorem addToken_block {ret : Option Err} {encryptions : List (Encryption Key)}
    (read : content.isSome = true)
    (h : addToken build cfg cr td path content draws bucket keys w = .ok (ret, encryptions) w') :
    ∃ columns rows i IBar,
      Assigned 0 ⟨w.client.tables.tF, w.client.tables.lstFreeColumnIdx, draws⟩ (td.omac path)
        columns ∧
      columns.table.lookup (td.omac path) = some i ∧
      AssignedRows td ⟨w.client.tables.tW, w.client.tables.lstFreeRowIdx, columns.draws⟩ zeroBuf
        (extractKeywords [] content) rows IBar ∧
      w'.client.tables = ⟨rows.table, columns.table, columns.free, rows.free⟩ ∧
      w'.client.IPrime = (recodeBlock cfg cr w.client keys i (.add IBar)).1 ∧
      encryptions = (recodeBlock cfg cr w.client keys i (.add IBar)).2 := by
  cases addToken_run h with
  | unread _ unread =>
    rw [unread] at read
    cases read
  | read columns rows i IBar _ assigned found words =>
    exact ⟨columns, rows, i, IBar, assigned, found, words, rfl, rfl, rfl⟩

/-- The block of an addition, and where its file is. -/
theorem addBlock_reported (size : cfg.Sized) (encrypts : build.Encrypts cfg) {u : Upload Key}
    (read : content.isSome = true)
    (reads : ColumnReads td w.client.tables path draws)
    (h : addBlock build cfg cr td srv path content draws bucket links w = .ok u w') :
    u.data = toBytes w'.client.IPrime cfg.blockBytes ∧
      ∃ i, w'.client.tables.tF.lookup (td.omac path) = some i ∧
        Reported cfg cr td content u w'.client.tables.tW i := by
  obtain ⟨ret, draws', keys, fetched, _, w₁, w₂, w₃, request, precompute, fetch, token, data⟩ :=
    addBlock_run h
  obtain ⟨s, j, assigned, found, block, -, rfl, rfl⟩ := requestBlockIndex_cases request
  obtain ⟨columns, rows, i, IBar, again, found', words, tables, IPrime, encryptions⟩ :=
    addToken_block read token
  have before : w₃.client.tables = { w.client.tables with
      tF := s.table, lstFreeColumnIdx := s.free } := by
    have kept := (requestBlockData_keeps books_aside _).of_ok fetch
    exact congrArg Books.tables (kept.trans (blockKeys_books precompute))
  rw [before] at again words
  have ne := reads.column_ne assigned found
  cases Option.some.inj (found'.symm.trans (again.lookup_kept found ne))
  rw [tables]
  refine ⟨data, j, found', fun word mem row lookup ne inside M => ?_⟩
  obtain ⟨e, sealing, column⟩ := recodeBlock_column size w₃.client j IBar inside
    fun client => blockKeys_stream size client (encrypts client) precompute inside
  have hj : j % cfg.encryptBlockSize < cfg.encryptBlockSize := Nat.mod_lt _ size.tiled.pos
  have bitSet : bit IBar row = true :=
    (words.bit_iff ne).mpr (.inr ⟨word, mem, lookup⟩)
  rw [withUpload, if_pos block.symm, Upload.plain, encryptions, sealing]
  dsimp only
  rw [data, IPrime, bit_ofBytes_toBytes, size.blockBytes_mul, if_pos (tile_lt inside hj), column,
    Bool.xor_assoc, Bool.xor_self, Bool.xor_false, bitSet]

/-- And of an addition that succeeds. -/
theorem addFile_reported (size : cfg.Sized) (encrypts : build.Encrypts cfg) {u : Upload Key}
    (read : content.isSome = true)
    (reads : ColumnReads td w.client.tables path draws)
    (h : returned (addFile build cfg cr td srv path content draws bucket links w) =
      some (w', .ok (.added u))) :
    ∃ i, w'.client.tables.tF.lookup (td.omac path) = some i ∧
      Reported cfg cr td content u w'.client.tables.tW i := by
  rw [addFile_eq] at h
  rcases returned_bind h with ⟨upload, w₁, block, h⟩ | ⟨e, -, error⟩
  · obtain ⟨data, i, found, reported⟩ := addBlock_reported size encrypts read reads block
    have client := (sent_of_returned data (fun sent => .bind (failWith_keeps sent.1) fun _ =>
      .bind (physical_keeps (sendFile_keeps links.file)) fun _ => .pure _) h).2
    obtain ⟨⟨ret, sent⟩, w₂, send, h⟩ := (sendBlockData_sure _).returned_bind h
    obtain ⟨_, _, looked, send⟩ := Prog.bind_eq_ok.mp send
    cases looked
    obtain ⟨reply, w₃, exchanged, send⟩ := Prog.bind_eq_ok.mp send
    cases send
    have same : u = upload := by
      rcases failWith_returned h with ⟨-, h⟩ | ⟨e, -, -, error⟩
      · rcases returned_bind h with ⟨_, w₄, -, h⟩ | ⟨e, -, error⟩
        · cases h
          rw [← data]
        · cases error
      · cases error
    rw [client, same]
    exact ⟨i, found, reported⟩
  · cases error

end Blocks

/-! ### Every run -/

section Runs

variable [DecidableEq τ]

/-- A client that was set up, with no two files in one column other than 0, and no file left
in the folder for the archives of added files. -/
structure Installed (S : DenseHash.Scheme τ) (td : Trapdoor τ)
    (contents : Str → Option (List Byte)) (rFileNames : List Str)
    (w : World σ τ Key × DenseHash.Layout τ) : Prop where
  columns : ∃ all, Split (· ≠ 0) all w.1.books.tables.tF w.1.books.tables.lstFreeColumnIdx
  current : Current S w.1.books w.2
  encFiles : w.1.books.encFiles =
    encryptFiles td w.1.books.tables.tF (buckets S w.2) contents rFileNames
  folder : w.1.books.encryptedUpdate = none

/-- The files encrypted by the setup are in the buckets with the numbers of their columns. -/
def SetupByColumn (S : DenseHash.Scheme τ) (td : Trapdoor τ) (rFileNames : List Str)
    (w : World σ τ Key × DenseHash.Layout τ) : Prop :=
  ∀ name ∈ rFileNames, name ≠ [] → buckets S w.2 (td.omac name) ≠ 0 ∧
    w.1.books.tables.tF.lookup (td.omac name) = some (buckets S w.2 (td.omac name))

variable {S : DenseHash.Scheme τ} {build : Build} {cfg : Config} {cr : Cipher Key}
  {td : Trapdoor τ} {srv : Machine σ (Command Key) (Response Key)}
  {contents : Str → Option (List Byte)} {rFileNames : List Str}
  {w w' : World σ τ Key × DenseHash.Layout τ}

theorem Installed.filed (h : Installed S td contents rFileNames w)
    (named : SetupByColumn S td rFileNames w) : Filed td w.1.books := by
  have each : ∀ (names : List Str) (folder : TextFile → Option Archive),
      (∀ name ∈ names, name ≠ [] → buckets S w.2 (td.omac name) ≠ 0 ∧
        w.1.books.tables.tF.lookup (td.omac name) = some (buckets S w.2 (td.omac name))) →
      Filed td { w.1.books with encFiles := folder } →
      Filed td { w.1.books with encFiles := names.foldl (fun folder name =>
        if name = [] ∨ w.1.books.tables.tF.entries = [] then folder
        else
          let archive := encryptFileUsingCcm td (buckets S w.2) name (contents name)
          Function.update folder (archiveName archive.fileIndex) (some archive)) folder } := by
    intro names
    induction names with
    | nil => exact fun folder _ filed => filed
    | cons name names ih =>
      intro folder named filed
      obtain ⟨here, later⟩ := List.forall_mem_cons.mp named
      refine ih _ later ?_
      dsimp only
      split
      · exact filed
      · next some =>
        obtain ⟨column, found⟩ := here fun empty => some (.inl empty)
        exact filed.store (filed.own found column)
  have start : Filed td { w.1.books with encFiles := fun _ => none } := by
    refine ⟨h.columns, fun {name archive} stored => ?_, fun {archive} left => ?_⟩
    · cases stored
    · cases h.folder.symm.trans left
  exact (each rFileNames _ named start).congr rfl rfl h.encFiles rfl

variable (S build cfg td) in
/-- The call goes by columns, in the hash table as it is when a file is encrypted. -/
def CallByColumn (w : World σ τ Key × DenseHash.Layout τ) (op : Op τ) : Prop :=
  ∀ L ∈ tableInCall S td w.1.books w.2 op, ByColumn build cfg td (buckets S L) w.1.books op

instance (w : World σ τ Key × DenseHash.Layout τ) (op : Op τ) :
    Decidable (CallByColumn S build cfg td w op) := by
  unfold CallByColumn
  infer_instance

theorem filed_step (physical : build.encryptPhysicalFile = true) {op : Op τ}
    {res : Except Err (Report Key)} (h : Filed td w.1.books)
    (good : CallByColumn S build cfg td w op)
    (step : (fileMachine S build cfg cr td srv).step w op = some (w', res)) :
    Filed td w'.1.books ∧ KeepsOthers td w.1.books w'.1.books op ∧
      GoesByColumn build cfg cr td w.1.books w'.1.books op res := by
  obtain ⟨L, during, step⟩ := Option.bind_eq_some_iff.mp step
  obtain ⟨⟨w₁, res'⟩, called, step⟩ := Option.bind_eq_some_iff.mp step
  obtain ⟨L', after, step⟩ := Option.bind_eq_some_iff.mp step
  cases step
  have good := good L during
  cases op with
  | searchKeyword keyword links =>
    obtain ⟨filed, extends_⟩ := search_filed h (searchKeyword_ends called)
    exact ⟨filed, fun _ _ _ archived => extends_.archived h archived, trivial⟩
  | addFile path content draws _ links =>
    obtain ⟨filed, extends_, added⟩ := addFile_filed physical h good (addFile_ends called)
    refine ⟨filed, fun _ _ _ archived => extends_.archived h archived, ?_⟩
    rcases res with e | report
    · trivial
    · cases report with
      | added upload =>
        intro read
        obtain ⟨reads, i, stored⟩ := added upload rfl read
        refine ⟨i, stored, fun size encrypts => ?_⟩
        obtain ⟨j, found, reported⟩ := addFile_reported size encrypts read reads called
        rw [Option.some.inj (found.symm.trans stored.column)] at reported
        exact reported
      | _ => trivial
  | delFile path draws links =>
    obtain ⟨filed, keeps, deleted⟩ := delFile_filed physical h good (delFile_ends called)
    refine ⟨filed, keeps, ?_⟩
    rcases res with e | report
    · trivial
    · cases report with
      | deleted i upload => exact deleted i upload rfl
      | _ => trivial

variable (S build cfg cr td srv)

/-- In every run whose calls go by columns, from a setup that does, `bucket` is the position
of a key in the table as it is; no file but its own has the number of an archive as its
column, and no two files share a name or the source of a nonce. Every call leaves the
archives of the files it does not delete under their columns; an addition stores the archive
of its file under the column that a search reports; and a deletion sends this column, and
removes the archive of its file. -/
theorem archives_by_column (physical : build.encryptPhysicalFile = true)
    (contents : Str → Option (List Byte)) (rFileNames : List Str)
    (w w' : World σ τ Key × DenseHash.Layout τ) (ops : List (Op τ))
    (setUp : Installed S td contents rFileNames w) (named : SetupByColumn S td rFileNames w)
    (good : (fileMachine S build cfg cr td srv).Along (CallByColumn S build cfg td) w ops)
    (run : (fileMachine S build cfg cr td srv).exec w ops = some w') :
    (∀ key ∈ w'.1.books.tables.tF, w'.2[buckets S w'.2 key]? = some (.full key)) ∧
    (∀ name archive, w'.1.books.encFiles name = some archive →
      name = archiveName archive.fileIndex ∧
      ∀ key, w'.1.books.tables.tF.lookup key = some archive.fileIndex →
        key = td.omac archive.path) ∧
    (∀ key key' i j, key ≠ key' → w'.1.books.tables.tF.lookup key = some i →
      w'.1.books.tables.tF.lookup key' = some j → i ≠ 0 →
      archiveName i ≠ archiveName j ∧ nonceSource i ≠ nonceSource j) ∧
    (fileMachine S build cfg cr td srv).Along (fun w op => ∀ w' res,
      (fileMachine S build cfg cr td srv).step w op = some (w', res) →
      KeepsOthers td w.1.books w'.1.books op ∧
      GoesByColumn build cfg cr td w.1.books w'.1.books op res) w ops := by
  have start : Filed td w.1.books ∧ Current S w.1.books w.2 := ⟨setUp.filed named, setUp.current⟩
  have keeps : ∀ (w : World σ τ Key × DenseHash.Layout τ) (op : Op τ) w' res,
      Filed td w.1.books ∧ Current S w.1.books w.2 → CallByColumn S build cfg td w op →
      (fileMachine S build cfg cr td srv).step w op = some (w', res) →
      Filed td w'.1.books ∧ Current S w'.1.books w'.2 := by
    intro w op w' res inv good step
    exact ⟨(filed_step physical inv.1 good step).1, inv.2.step step⟩
  obtain ⟨filed, current⟩ := Machine.invariant (fun w : World σ τ Key × DenseHash.Layout τ =>
    Filed td w.1.books ∧ Current S w.1.books w.2) keeps start good run
  refine ⟨fun key mem => current.bucket mem, fun name archive stored => ?_,
    fun key key' i j ne found found' column => filed.apart ne found found' column, ?_⟩
  · exact ⟨(filed.named stored).1, (filed.named stored).2.owner⟩
  · refine Machine.Along.of_invariant (fun w : World σ τ Key × DenseHash.Layout τ =>
      Filed td w.1.books ∧ Current S w.1.books w.2) keeps ?_ start good
    exact fun w op inv good w' res step => (filed_step physical inv.1 good step).2

end Runs

/-! ### A small run -/

/-- Keys by their first byte. -/
def smallTable : DenseHash.Scheme Str := fileTable fun key => (key.headD 0).toNat

/-- "f" and "g" in eight buckets. -/
def smallLayout : DenseHash.Layout Str :=
  List.replicate 6 .empty ++ [.full [0x66#8], .full [0x67#8]]

def smallPhysical : Build := { smallBuild with encryptPhysicalFile := true }

def smallStart : World RamServer Str (Option (Nat × Nat)) × DenseHash.Layout Str :=
  (smallWorld (smallConfig 1 false) blankServer, smallLayout)

/-- The machine of the small client with its hash table. -/
def smallFiles : Machine (World RamServer Str (Option (Nat × Nat)) × DenseHash.Layout Str) (Op Str)
    (Except Err (Report (Option (Nat × Nat)))) :=
  fileMachine smallTable smallPhysical (smallConfig 1 false) smallCipher smallTrapdoor
    (ramServer (smallConfig 1 false) smallCipher)

theorem smallStart_installed (contents : Str → Option (List Byte)) :
    Installed smallTable smallTrapdoor contents [] smallStart := by
  have f : DenseHash.findOrInsert smallTable (List.replicate 8 .empty) [0x66#8] =
      some (List.replicate 6 .empty ++ [.full [0x66#8], .empty]) := by decide
  have g : DenseHash.findOrInsert smallTable (List.replicate 6 .empty ++ [.full [0x66#8], .empty])
      [0x67#8] = some smallLayout := by decide
  obtain ⟨sound, keys⟩ := (DenseHash.Sound.replicate smallTable 8).findOrInsert f
  obtain ⟨sound', keys'⟩ := sound.findOrInsert g
  have columns : Split (· ≠ 0) ([4, 1] ++ [2, 3, 5, 6, 7]) smallTables.tF
      smallTables.lstFreeColumnIdx := ⟨by decide, List.Perm.refl _⟩
  refine ⟨⟨_, columns⟩, ⟨sound', fun key => ?_⟩, rfl, rfl⟩
  have none_left : key ∈ DenseHash.keys (List.replicate 8 .empty) ↔ key ∈ (∅ : Table Str) :=
    ⟨fun mem => (by cases mem), fun mem => absurd mem (AList.notMem_empty key)⟩
  have first : _ ↔ key ∈ (∅ : Table Str).insert [0x66#8] 1 :=
    ((keys key).trans (or_congr_right none_left)).trans (AList.mem_insert _).symm
  exact ((keys' key).trans (or_congr_right first)).trans (AList.mem_insert _).symm

/-- Adds a file with the keyword "c". -/
def smallAddOf (path : Str) : Op Str :=
  .addFile path (some [0x63#8]) (fun _ => 1) List.length goodLinks

/-- "j" is added, in bucket 2 with column 2, and deleted. -/
theorem archives_by_column_small : ∃ w',
    smallFiles.exec smallStart [smallAddOf [0x6a#8], .delFile [0x6a#8] (fun _ => 0) goodLinks] =
      some w' ∧
    smallFiles.Along (fun w op => ∀ w' res, smallFiles.step w op = some (w', res) →
      KeepsOthers smallTrapdoor w.1.books w'.1.books op ∧
      GoesByColumn smallPhysical (smallConfig 1 false) smallCipher smallTrapdoor w.1.books w'.1.books op res)
      smallStart [smallAddOf [0x6a#8], .delFile [0x6a#8] (fun _ => 0) goodLinks] := by
  have evaluated : (smallFiles.check (fun w op => decide
      (CallByColumn smallTable smallPhysical (smallConfig 1 false) smallTrapdoor w op)) smallStart
      [smallAddOf [0x6a#8], .delFile [0x6a#8] (fun _ => 0) goodLinks] &&
    (smallFiles.exec smallStart
      [smallAddOf [0x6a#8], .delFile [0x6a#8] (fun _ => 0) goodLinks]).isSome) = true := by
    decide +kernel
  obtain ⟨good, goes⟩ := Bool.and_eq_true_iff.mp evaluated
  obtain ⟨w', run⟩ := Option.isSome_iff_exists.mp goes
  exact ⟨w', run, (archives_by_column smallTable smallPhysical (smallConfig 1 false) smallCipher
    smallTrapdoor (ramServer (smallConfig 1 false) smallCipher) rfl (fun _ => none) [] smallStart w'
    _ (smallStart_installed _) (fun _ mem => by cases mem)
    (Machine.along_of_check (fun _ _ h => of_decide_eq_true h) good) run).2.2.2⟩

/-- "h" is in bucket 0 and has column 2, "j" in bucket 2 with column 3: the deletion of "h"
removes the archive of "j", and leaves that of "h". -/
theorem archives_mixed_up : Installed smallTable smallTrapdoor (fun _ => none) [] smallStart ∧
    ∃ w w', smallFiles.exec smallStart [smallAddOf [0x68#8], smallAddOf [0x6a#8]] = some w ∧
      smallFiles.exec w [.delFile [0x68#8] (fun _ => 0) goodLinks] = some w' ∧
      w.1.client.tables.tF.lookup [0x68#8] = some 2 ∧
      w.1.client.tables.tF.lookup [0x6a#8] = some 3 ∧
      w.1.encFiles (archiveName 0) = some ⟨0, [0x68#8], [0x63#8]⟩ ∧
      w.1.encFiles (archiveName 2) = some ⟨2, [0x6a#8], [0x63#8]⟩ ∧
      w'.1.client.tables.tF.lookup [0x6a#8] = some 3 ∧
      w'.1.encFiles (archiveName 0) = some ⟨0, [0x68#8], [0x63#8]⟩ ∧
      w'.1.encFiles (archiveName 2) = none := by
  have evaluated : ((smallFiles.exec smallStart
      [smallAddOf [0x68#8], smallAddOf [0x6a#8]]).bind fun w =>
        (smallFiles.exec w [.delFile [0x68#8] (fun _ => 0) goodLinks]).map fun w' => decide (
          w.1.client.tables.tF.lookup [0x68#8] = some 2 ∧
          w.1.client.tables.tF.lookup [0x6a#8] = some 3 ∧
          w.1.encFiles (archiveName 0) = some ⟨0, [0x68#8], [0x63#8]⟩ ∧
          w.1.encFiles (archiveName 2) = some ⟨2, [0x6a#8], [0x63#8]⟩ ∧
          w'.1.client.tables.tF.lookup [0x6a#8] = some 3 ∧
          w'.1.encFiles (archiveName 0) = some ⟨0, [0x68#8], [0x63#8]⟩ ∧
          w'.1.encFiles (archiveName 2) = none)) = some true := by
    decide +kernel
  obtain ⟨w, added, evaluated⟩ := Option.bind_eq_some_iff.mp evaluated
  obtain ⟨w', deleted, evaluated⟩ := Option.map_eq_some_iff.mp evaluated
  exact ⟨smallStart_installed _, w, w', added, deleted, of_decide_eq_true evaluated⟩

end ImDsse.Seu
