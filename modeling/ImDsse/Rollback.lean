import ImDsse.Deployment

/-!
Loading a previous state (`Load previous state` of `main`).

With the index in memory, a load takes client and server back to their last save,
whatever was searched, added or deleted since. In `DISK_STORAGE_MODE` the keyword
counters, the tables and the block counters go back, but the piece files are where the
requests since the save have left them: searches write rows under newer keys, updates
blocks under newer counters.
-/

namespace ImDsse

open Kit Kit.Bits Kit.Files Kit.Text

variable {Key : Type} {σ : Type} {τ : Type} [DecidableEq τ]

/-- A load goes on, and the numbers of entries it reads are those that were saved. -/
def RestorableInMemory (cfg : Config) (p : World σ τ Key × World σ τ Key) : Action σ τ Key → Prop
  | .loadState client .. => MayLoad cfg client ∧ Countable p.2.process.client.tables
  | _ => True

/-- Beside it, the piece files are those of the save. -/
def RestorableOnDisk (cfg : Config) (p : World DiskServer τ Key × World DiskServer τ Key) :
    Action DiskServer τ Key → Prop
  | .loadState client .. => MayLoad cfg client ∧ Countable p.2.process.client.tables ∧
      SameFiles cfg p.2.server.files p.1.server.files
  | _ => True

/-- In every run of good actions from a build on, every good load is a rollback to the
last save, by running parties and by parties just started. -/
def RollsBack (cfg : Config) (prim : Primitives τ Key) (S : Storage σ Key) (sameMachine : Bool)
    (Good : World σ τ Key × World σ τ Key → Action σ τ Key → Prop) : Prop :=
  ∀ (memory : World σ τ Key) (masterKey : MasterKey) (path : Str) (db : Listing) (dict : List Str)
    (draws : Nat → Nat) (files : PieceFiles) (buckets : Buckets τ) (actions : List (Action σ τ Key))
    (w saved : World σ τ Key) (client : Option (ClientProcess τ Key)) (server : Option σ)
    (tmp : τ × τ),
    ((deployment cfg prim S sameMachine).mark Action.saves).Along Good
      (memory.start cfg prim S, memory.start cfg prim S)
      (.build masterKey path db dict draws files buckets :: actions) →
    ((deployment cfg prim S sameMachine).mark Action.saves).exec
      (memory.start cfg prim S, memory.start cfg prim S)
      (.build masterKey path db dict draws files buckets :: actions) = some (w, saved) →
    Good (w, saved) (.loadState client server tmp) →
    ∃ w', (deployment cfg prim S sameMachine).step w (.loadState client server tmp) =
        some (w', none) ∧ RolledBack cfg prim S sameMachine w' saved

section Rollback

variable {cfg : Config} {prim : Primitives τ Key} {S : Storage σ Key} {sameMachine : Bool}

/-- A server that restores rolls back wherever it finds what was saved. -/
theorem Storage.Restores.rollsBack (restores : S.Restores cfg prim.cipher)
    (bounds : cfg.Addressable) (pieces : cfg.InPieces)
    {Good : World σ τ Key × World σ τ Key → Action σ τ Key → Prop}
    (restorable : ∀ p a, Good p a → Restorable cfg S p.1 p.2 a) :
    RollsBack cfg prim S sameMachine Good := by
  intro memory masterKey path db dict draws files buckets actions w saved client server tmp good run
    load
  have kept : Kept restores w saved := run_kept bounds pieces (good.imp restorable) run
  obtain ⟨w', step, rolledBack, -⟩ := kept.rolledBack sameMachine bounds pieces
    (restorable (w, saved) _ load)
  exact ⟨w', step, rolledBack⟩

omit [DecidableEq τ] in
/-- Requests to the server in memory leave the piece files to the saves. -/
theorem RestorableInMemory.restorable {cr : Cipher Key}
    {p : World RamProcess τ Key × World RamProcess τ Key} {a : Action RamProcess τ Key}
    (good : RestorableInMemory cfg p a) : Restorable cfg (ramStorage cfg cr) p.1 p.2 a := by
  cases a with
  | loadState => exact ⟨good.1, good.2, .inl fun s c s' r step => ramStorage_files step⟩
  | _ => trivial

omit [DecidableEq τ] in
theorem RestorableOnDisk.restorable {cr : Cipher Key}
    {p : World DiskServer τ Key × World DiskServer τ Key} {a : Action DiskServer τ Key}
    (good : RestorableOnDisk cfg p a) : Restorable cfg (diskStorage cfg cr) p.1 p.2 a := by
  cases a with
  | loadState => exact ⟨good.1, good.2.1, .inr good.2.2⟩
  | _ => trivial

omit [DecidableEq τ] in
/-- A load of the index into memory has computed the size of `I_piece`. -/
theorem pieceBytes_of_loadState {cr : Cipher Key} {p p' : RamProcess} {text : TextFile}
    (load : (ramStorage cfg cr).loadState p text = some p') : cfg.pieceBytes.isSome := by
  obtain ⟨s, read, -⟩ := Option.map_eq_some_iff.mp load
  obtain ⟨I, matrix, -⟩ := Option.bind_eq_some_iff.mp read
  obtain ⟨bytes, computed, -⟩ := Option.bind_eq_some_iff.mp matrix
  rw [computed]
  rfl

/-- A run that starts with a build has at least eight blocks where the server decrypts, and
its server has loaded the index. -/
theorem inMemory_of_run (pieces : cfg.InPieces) {masterKey : MasterKey} {path : Str} {db : Listing}
    {dict : List Str} {draws : Nat → Nat} {files : PieceFiles} {buckets : Buckets τ}
    {actions : List (Action RamProcess τ Key)} {p p' : World RamProcess τ Key × World RamProcess τ Key}
    (run : ((deployment cfg prim (ramStorage cfg prim.cipher) sameMachine).mark Action.saves).exec p
      (.build masterKey path db dict draws files buckets :: actions) = some p') : cfg.InMemory := by
  obtain ⟨q, o, step, -⟩ := Machine.step_of_exec_cons run
  obtain ⟨w, build, -⟩ := Option.map_eq_some_iff.mp (Machine.mark_step.mp step).1
  obtain ⟨out, setup, build⟩ := Option.bind_eq_some_iff.mp build
  obtain ⟨s, loaded, -⟩ := Option.bind_eq_some_iff.mp build
  obtain ⟨-, states⟩ := setup_files pieces.size.blockSize pieces.cols setup
  exact ⟨fun server => Nat.ne_zero_of_lt (states server).1, pieceBytes_of_loadState loaded⟩

end Rollback

/-- A load is a rollback to the last save: with the index in memory in every run, and in
`DISK_STORAGE_MODE` where the piece files are still those of the save. In both the
numbers of entries saved have to be floats, and where the client decrypts it is the running
one that loads. -/
theorem load_rolls_back {cfg : Config} (bounds : cfg.Addressable) (pieces : cfg.InPieces)
    (prim : Primitives τ Key) (sameMachine : Bool) :
    RollsBack cfg prim (ramStorage cfg prim.cipher) sameMachine (RestorableInMemory cfg) ∧
      (cfg.OnDisk →
        RollsBack cfg prim (diskStorage cfg prim.cipher) sameMachine (RestorableOnDisk cfg)) := by
  constructor
  · intro memory masterKey path db dict draws files buckets actions w saved client server tmp good run
    have restores := ramRestores pieces prim.cipher (inMemory_of_run pieces run)
    exact restores.rollsBack bounds pieces (fun _ _ good => good.restorable) memory masterKey path db
      dict draws files buckets actions w saved client server tmp good run
  · intro onDisk
    have restores := diskRestores pieces onDisk prim.cipher
    exact restores.rollsBack bounds pieces fun _ _ good => good.restorable

/-! ### A small deployment -/

def smallPrimitives : Primitives Str (Option (Nat × Nat)) where
  cipher := smallCipher
  genRowKey _ r c := some (r, c)
  trapdoor _ := smallTrapdoor

def smallKey : MasterKey := ⟨fun _ => 0, fun _ => 0, fun _ => 0⟩

/-- Entries in the order of the model. -/
def listed : Buckets Str := ⟨fun t => t.entries.map fun e => (e.1, e.2), fun _ => .refl _⟩

/-- Empty memory and files, and a server. -/
def smallWorld (server : σ) : World σ Str (Option (Nat × Nat)) where
  process := ⟨smallKey, ⟨⟨∅, ∅, [], []⟩, ⟨fun _ => 0, fun _ => 0, fun _ => none⟩⟩, false⟩
  clientFiles := ⟨[], [], [], [], [], [], [], [], [], []⟩
  server := server
  blockCounterFile := []

def smallRam : RamProcess := ⟨blankRam, fun _ => none⟩

def smallDisk : DiskServer := { blankDisk with files := fun _ => none }

/-- The build of the small collection. -/
def smallBuild : Action σ Str (Option (Nat × Nat)) :=
  .build smallKey [0x2f#8] smallDb [] (fun n => 3 * n + 1) (fun _ => none) listed

/-- Both parties on one machine, with the last save beside them. -/
def smallDeployment (S : Storage σ (Option (Nat × Nat))) :=
  (deployment (smallConfig 1 false) smallPrimitives S true).mark Action.saves

def smallStart (S : Storage σ (Option (Nat × Nat))) (server : σ) :=
  (smallWorld server).start (smallConfig 1 false) smallPrimitives S

/-- "a" searched twice, "f" deleted. -/
def smallActions : List (Action σ Str (Option (Nat × Nat))) :=
  [.operate (.searchKeyword [0x61#8]), .operate (.searchKeyword [0x61#8]),
    .operate (.delFile [0x2f#8, 0x66#8] fun n => n)]

theorem smallConfig_inPieces : (smallConfig 1 false).InPieces :=
  ⟨⟨by decide, by decide, by decide⟩, by decide, fun _ => by decide⟩

theorem smallConfig_addressable : (smallConfig 1 false).Addressable := ⟨by decide, by decide⟩

/-- Few entries in both tables. -/
def fewEntries (w : World σ Str (Option (Nat × Nat))) : Bool :=
  decide (w.process.client.tables.tW.keys.length < 2 ^ 24) &&
    decide (w.process.client.tables.tF.keys.length < 2 ^ 24)

theorem countable_of_few {w : World σ Str (Option (Nat × Nat))} (few : fewEntries w = true) :
    Countable w.process.client.tables := by
  obtain ⟨keywords, files⟩ := Bool.and_eq_true_iff.mp few
  exact countable_of_lt (of_decide_eq_true keywords) (of_decide_eq_true files)

/-- A file has the same bytes in both directories. -/
def sameFile (files files' : PieceFiles) (name : PieceName) : Bool :=
  match files name, files' name with
  | some f, some f' => f'.size == f.size && (List.range f.size).all fun i => f'.data i == f.data i
  | _, _ => false

theorem sameFile_spec {files files' : PieceFiles} {name : PieceName}
    (same : sameFile files files' name = true) {f : File} (file : files name = some f) :
    ∃ f', files' name = some f' ∧ f'.size = f.size ∧ ∀ i, i < f.size → f'.data i = f.data i := by
  unfold sameFile at same
  rw [file] at same
  split at same
  · next f₀ f' eq file' =>
    cases eq
    obtain ⟨size, bytes⟩ := Bool.and_eq_true_iff.mp same
    exact ⟨f', file', beq_iff_eq.mp size, fun i hi =>
      beq_iff_eq.mp (List.all_eq_true.mp bytes i (List.mem_range.mpr hi))⟩
  · cases same

/-- The small matrices have one piece each. -/
theorem smallConfig_sameFiles {files files' : PieceFiles}
    (matrix : sameFile files files' (.matrix 0 0) = true)
    (state : sameFile files files' (.state 0 0) = true) :
    SameFiles (smallConfig 1 false) files files' := by
  have only : ∀ k n : Nat, 0 < n → k * n < n → k = 0 := by
    intro k n pos h
    rcases Nat.eq_zero_or_pos k with zero | some_
    · exact zero
    · exact absurd h (Nat.not_lt.mpr (Nat.le_mul_of_pos_left n some_))
  refine ⟨fun k l hk hl f file => ?_, fun _ k l hk hl f file => ?_⟩
  · cases only k 8 (by decide) hk
    cases only l 1 (by decide) hl
    exact sameFile_spec matrix file
  · cases only k 8 (by decide) hk
    cases only l 1 (by decide) hl
    exact sameFile_spec state file

/-- Parties just started load the state of the build: with the index in memory after two
searches and a deletion, on disk after one search. -/
theorem load_rolls_back_small :
    (∃ w saved w', (smallDeployment (ramStorage (smallConfig 1 false) smallCipher)).exec
        (smallStart (ramStorage (smallConfig 1 false) smallCipher) smallRam,
          smallStart (ramStorage (smallConfig 1 false) smallCipher) smallRam)
        (smallBuild :: smallActions) = some (w, saved) ∧
      RolledBack (smallConfig 1 false) smallPrimitives (ramStorage (smallConfig 1 false) smallCipher)
        true w' saved) ∧
    ∃ w saved w', (smallDeployment (diskStorage (smallConfig 1 false) smallCipher)).exec
        (smallStart (diskStorage (smallConfig 1 false) smallCipher) smallDisk,
          smallStart (diskStorage (smallConfig 1 false) smallCipher) smallDisk)
        [smallBuild, .operate (.searchKeyword [0x61#8])] = some (w, saved) ∧
      RolledBack (smallConfig 1 false) smallPrimitives (diskStorage (smallConfig 1 false) smallCipher)
        true w' saved := by
  have inMemory : ((smallDeployment (ramStorage (smallConfig 1 false) smallCipher)).exec
      (smallStart (ramStorage (smallConfig 1 false) smallCipher) smallRam,
        smallStart (ramStorage (smallConfig 1 false) smallCipher) smallRam)
      (smallBuild :: smallActions)).map (fun p => fewEntries p.2) = some true := by
    decide +kernel
  have onDisk : ((smallDeployment (diskStorage (smallConfig 1 false) smallCipher)).exec
      (smallStart (diskStorage (smallConfig 1 false) smallCipher) smallDisk,
        smallStart (diskStorage (smallConfig 1 false) smallCipher) smallDisk)
      [smallBuild, .operate (.searchKeyword [0x61#8])]).map (fun p => fewEntries p.2 &&
        (sameFile p.2.server.files p.1.server.files (.matrix 0 0) &&
          sameFile p.2.server.files p.1.server.files (.state 0 0))) = some true := by
    decide +kernel
  have both := load_rolls_back smallConfig_addressable smallConfig_inPieces smallPrimitives true
  constructor
  · obtain ⟨⟨w, saved⟩, run, few⟩ := Option.map_eq_some_iff.mp inMemory
    have good : (smallDeployment (ramStorage (smallConfig 1 false) smallCipher)).Along
        (RestorableInMemory (smallConfig 1 false))
        (smallStart (ramStorage (smallConfig 1 false) smallCipher) smallRam,
          smallStart (ramStorage (smallConfig 1 false) smallCipher) smallRam)
        (smallBuild :: smallActions) :=
      ⟨trivial, fun _ _ _ => ⟨trivial, fun _ _ _ => ⟨trivial, fun _ _ _ =>
        ⟨trivial, fun _ _ _ => trivial⟩⟩⟩⟩
    obtain ⟨w', -, rolledBack⟩ := both.1 (smallWorld smallRam) _ _ _ _ _ _ _ _ w saved
      (some (smallWorld smallRam).process) (some smallRam) ([], []) good run
      ⟨nofun, countable_of_few few⟩
    exact ⟨w, saved, w', run, rolledBack⟩
  · obtain ⟨⟨w, saved⟩, run, checked⟩ := Option.map_eq_some_iff.mp onDisk
    obtain ⟨few, pieces⟩ := Bool.and_eq_true_iff.mp checked
    obtain ⟨matrix, state⟩ := Bool.and_eq_true_iff.mp pieces
    have good : (smallDeployment (diskStorage (smallConfig 1 false) smallCipher)).Along
        (RestorableOnDisk (smallConfig 1 false))
        (smallStart (diskStorage (smallConfig 1 false) smallCipher) smallDisk,
          smallStart (diskStorage (smallConfig 1 false) smallCipher) smallDisk)
        [smallBuild, .operate (.searchKeyword [0x61#8])] :=
      ⟨trivial, fun _ _ _ => ⟨trivial, fun _ _ _ => trivial⟩⟩
    obtain ⟨w', -, rolledBack⟩ := both.2 ⟨by decide, by decide, by decide, by decide⟩
      (smallWorld smallDisk) _ _ _ _ _ _ _ _ w saved (some (smallWorld smallDisk).process)
      (some smallDisk) ([], []) good run
      ⟨nofun, countable_of_few few, smallConfig_sameFiles matrix state⟩
    exact ⟨w, saved, w', run, rolledBack⟩

/-- On disk, after "a" was searched twice, the state of the build is loaded. A search for
"a" then gives other columns than right after the build: the client is back at its first
row key, and the row is on disk under the second. -/
theorem load_not_rolled_back : ∃ w saved w',
    (smallDeployment (diskStorage (smallConfig 1 false) smallCipher)).exec
        (smallStart (diskStorage (smallConfig 1 false) smallCipher) smallDisk,
          smallStart (diskStorage (smallConfig 1 false) smallCipher) smallDisk)
        [smallBuild, .operate (.searchKeyword [0x61#8]), .operate (.searchKeyword [0x61#8])] =
      some (w, saved) ∧
    (deployment (smallConfig 1 false) smallPrimitives (diskStorage (smallConfig 1 false) smallCipher)
      true).step w (.loadState none none ([], [])) = some (w', none) ∧
    Countable saved.process.client.tables ∧
    ¬ RolledBack (smallConfig 1 false) smallPrimitives (diskStorage (smallConfig 1 false) smallCipher)
      true w' saved := by
  have evaluated : (((smallDeployment (diskStorage (smallConfig 1 false) smallCipher)).exec
      (smallStart (diskStorage (smallConfig 1 false) smallCipher) smallDisk,
        smallStart (diskStorage (smallConfig 1 false) smallCipher) smallDisk)
      [smallBuild, .operate (.searchKeyword [0x61#8]),
        .operate (.searchKeyword [0x61#8])]).bind fun p =>
      ((deployment (smallConfig 1 false) smallPrimitives
        (diskStorage (smallConfig 1 false) smallCipher) true).step p.1
          (.loadState none none ([], []))).map fun q =>
        (fewEntries p.2, q.2.isNone,
          ((deployment (smallConfig 1 false) smallPrimitives
            (diskStorage (smallConfig 1 false) smallCipher) true).outputs q.1
              [.operate (.searchKeyword [0x61#8])]).map (Option.map Prod.fst),
          ((deployment (smallConfig 1 false) smallPrimitives
            (diskStorage (smallConfig 1 false) smallCipher) true).outputs p.2
              [.operate (.searchKeyword [0x61#8])]).map (Option.map Prod.fst))) =
      some (true, true, [some (.searched [0, 2, 3, 5, 6, 7])], [some (.searched [1, 4])]) := by
    decide +kernel
  obtain ⟨⟨w, saved⟩, run, evaluated⟩ := Option.bind_eq_some_iff.mp evaluated
  obtain ⟨⟨w', o⟩, load, results⟩ := Option.map_eq_some_iff.mp evaluated
  obtain ⟨few, results⟩ := Prod.mk.inj results
  obtain ⟨silent, results⟩ := Prod.mk.inj results
  obtain ⟨later, before⟩ := Prod.mk.inj results
  cases Option.isNone_iff_eq_none.mp silent
  refine ⟨w, saved, w', run, load, countable_of_few few, fun rolledBack => ?_⟩
  have same := rolledBack.outputs [.searchKeyword [0x61#8]]
  have same := congrArg (List.map (Option.map Prod.fst)) same
  rw [List.map_singleton, later, before] at same
  exact absurd same (by decide)

end ImDsse
