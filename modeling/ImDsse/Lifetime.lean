import ImDsse.Menu

/-!
The counts over the life of a collection.

Beside the files a user has there are those of the last save, which a load brings back
(`lifetimeMachine`). Builds, operations, saves and loads keep both parties on the first and
the last save on the second (`Tells.step`), a load by a client just started too, whose
tables come back in another order (`Holds.of_same`). So from the first build on, the
client shows over the sockets what the collection counts (`lifetime_counts`).
-/

namespace ImDsse

open Kit Kit.Bits Kit.Files Kit.Pool

variable {σ : Type} {τ : Type} {Key : Type} [DecidableEq τ]

/-! ### The collection -/

/-- The files of a user, and those of the last save. -/
structure Collection where
  files : List FileEntry
  saved : List FileEntry

/-- The collection after an action. -/
def Collection.after (fs : Collection) : Action σ τ Key → Collection
  | .build _ path db .. => ⟨db.files path, db.files path⟩
  | .operate op => { fs with files := filesAfter fs.files op }
  | .saveState _ => { fs with saved := fs.files }
  | .loadState .. => { fs with files := fs.saved }

/-- What an action counts. -/
def Collection.count (fs : Collection) : Action σ τ Key → Option Nat
  | .operate (.searchKeyword keyword) => some (having fs.files (lowerCase keyword)).length
  | _ => none

/-- The collection on its own. -/
def lifetimeMachine : Machine Collection (Action σ τ Key) (Option Nat) where
  step fs a := some (fs.after a, fs.count a)

omit [DecidableEq τ] in
theorem Collection.count_operate {fs : Collection} {op : ClientOp} {n : Option Nat}
    (step : collectionMachine.step fs.files op = some (filesAfter fs.files op, n)) :
    n = fs.count (.operate op : Action σ τ Key) := by
  cases op <;>
  · cases step
    rfl

/-- The number an action shows. -/
def countOf (cfg : Config) {α : Type} (o : Option (Report × α)) : Option Nat :=
  (shownOf cfg o).bind Shown.count

/-! ### Tables in another order -/

section Same

variable {cfg : Config} {cr : Cipher Key} {td : Trapdoor τ} {fs : List FileEntry}

/-- Tables with the same lookups have the same entries. -/
theorem SameTable.perm {t t' : Table τ} (same : SameTable t t') : t.entries.Perm t'.entries :=
  List.lookup_ext t.nodupKeys t'.nodupKeys fun key v => by
    have here : t.entries.dlookup key = t'.entries.dlookup key := same key
    rw [here]

theorem SameTable.split {p : Nat → Bool} {all free : List Nat} {t t' : Table τ}
    (split : Split p all t free) (same : SameTable t' t) : Split p all t' free where
  nodup := split.nodup
  perm := ((same.perm.map Sigma.snd).filter p |>.append_right _).trans split.perm

theorem SameTable.mem {t t' : Table τ} (same : SameTable t' t) (key : τ) : key ∈ t' ↔ key ∈ t := by
  rw [← AList.lookup_isSome, ← AList.lookup_isSome, same key]

/-- The order of the tables does not matter to what they hold. -/
theorem Indexed.of_same {T T' : Tables τ} {M : Plain} (indexed : Indexed cfg td fs T M)
    (same : T'.Same T) : Indexed cfg td fs T' M where
  columns := by
    rw [same.lstFreeColumnIdx]
    exact same.tF.split indexed.columns
  rows := by
    rw [same.lstFreeRowIdx]
    exact same.tW.split indexed.rows
  paths k := (same.tF.mem k).trans (indexed.paths k)
  words w extracted := (same.tW.mem _).mpr (indexed.words w extracted)
  cells r j ne hr hj := by
    rw [indexed.cells r j ne hr hj]
    simp only [same.tF _, same.tW _]

/-- Nor to client and server, whatever the server does to be the same store. -/
theorem Holds.of_same {srv : Machine σ (Command Key) (Response Key)} {ref : Refinement cfg cr srv}
    {s s' : σ} {c c' : Client τ Key} (holds : Holds ref td (s, c) fs)
    (store : ∀ t, ref.Rel s t → ref.Rel s' t) (same : c'.Same c) : Holds ref td (s', c') fs := by
  obtain ⟨M, t, rel, consistent, indexed⟩ := holds
  refine ⟨M, t, store t rel, ?_, indexed.of_same same.tables⟩
  rw [same.index]
  exact consistent

/-- Where nothing was searched yet the states do not matter. -/
theorem Consistent.unsearched {M : Plain} {t t' : CellStore} {c c' : IndexClient Key}
    (consistent : Consistent cfg cr M t c)
    (one : ∀ r, r < cfg.matrixRowSize → c.keywordCounterArr r = 1)
    (cell : ∀ r j, r < cfg.matrixRowSize → j < cfg.maxNumOfFiles → t'.cell r j = t.cell r j)
    (counters : SameCounters cfg t' c') (searches : c'.keywordCounterArr = c.keywordCounterArr)
    (updates : c'.blockCounterArr = c.blockCounterArr)
    (keys : cfg.decryptAtClientSide = true → c'.rowKeys = c.rowKeys) : Consistent cfg cr M t' c' where
  cells r j hr hj := by
    rw [cell r j hr hj, consistent.cells r j hr hj, searches, updates, fetchedCounter_one _ (one r hr),
      fetchedCounter_one _ (one r hr)]
  counters := counters
  searched r hr := by
    rw [searches]
    exact consistent.searched r hr
  pinned client r hr := by
    rw [searches, keys client]
    exact consistent.pinned client r hr

end Same

/-! ### Both parties and the collection -/

section Steps

variable {cfg : Config} {prim : Primitives τ Key} {S : Storage σ Key}
  (restores : S.Restores cfg prim.cipher) {w w' saved : World σ τ Key}

/-- Client and server hold the files, under the master key of the client. -/
def World.Holds (w : World σ τ Key) (fs : List FileEntry) : Prop :=
  ImDsse.Holds (restores.ref.under w.process.masterKey) (prim.trapdoorOf w.process.masterKey)
    (w.server, w.process.client) fs

/-- Both parties have the files of the collection, and the last save those it had. -/
structure Tells (w saved : World σ τ Key) (fs : Collection) : Prop where
  kept : Kept restores w saved
  files : w.Holds restores fs.files
  saved : saved.Holds restores fs.saved

/-- An operation reads indices as they were assigned. -/
def Reads (prim : Primitives τ Key) (w : World σ τ Key) (fs : Collection) : Action σ τ Key → Prop
  | .operate op =>
    ReadsIndices (prim.trapdoorOf w.process.masterKey) w.process.client.tables fs.files op
  | _ => True

variable {restores}

/-- Worlds with the same client on the same store. -/
theorem World.Holds.of_same {fs : List FileEntry} (holds : w.Holds restores fs)
    (same : w'.process.Same w.process) (live : restores.ref.Rel w'.server ((S.index w'.server).cells cfg))
    (store : (S.index w'.server).cells cfg = (S.index w.server).cells cfg) : w'.Holds restores fs := by
  unfold World.Holds
  rw [same.masterKey]
  refine ImDsse.Holds.of_same holds (fun t rel => ?_) same.client
  have cells : (S.index w.server).cells cfg = t := restores.cells rel
  rw [store, cells] at live
  exact live

variable (receives : Storage.Receives restores) (size : cfg.Sized) (whole : cfg.Pieces)
  (pieces : cfg.InPieces) (bounds : cfg.Addressable)
  (distinct : ∀ masterKey, Function.Injective (prim.trapdoorOf masterKey).omac)

include receives size whole pieces in
/-- A build leaves both parties with the files of the listing. -/
theorem build_holds (started : w.process.Started cfg prim) {masterKey : MasterKey} {path : Str}
    {db : Listing} {dict : List Str} {draws : Nat → Nat} {files : PieceFiles} {buckets : Buckets τ}
    (build : w.build cfg prim S false masterKey path db dict draws files buckets = some w') :
    w'.Holds restores (db.files path) := by
  have kept : Kept restores w' w' := build_kept pieces started build
  obtain ⟨out, setup, build⟩ := Option.bind_eq_some_iff.mp build
  obtain ⟨s, loaded, build⟩ := Option.bind_eq_some_iff.mp build
  obtain ⟨s', again, rfl⟩ := Option.map_eq_some_iff.mp build
  cases again
  have setUp := (setupDataStructure_spec size.blockSize whole _ (sizesPass_of_setup setup) _ _ draws
    files).1 out setup
  obtain ⟨M, consistent, indexed⟩ := setUp.indexed size
  -- the server has loaded the matrix of the setup
  have held : S.files s = out.files := (receives.loads loaded).trans (restores.started _ _).2
  have cell : ∀ r j, r < cfg.matrixRowSize → j < cfg.maxNumOfFiles →
      ((S.index s).cells cfg).cell r j = ((out.server cfg).cells cfg).cell r j := by
    intro r j hr hj
    have files := congrArg (fun t => t.cell r j) kept.pieces.cells
    calc ((S.index s).cells cfg).cell r j
        = (((heldIndex cfg (S.files s) ((S.index s).cells cfg).counter).allocated cfg).cells
            cfg).cell r j := files.symm
      _ = bit (cfg.matrixGrid.matrix (S.files s) r) j := cellsOf_cell hr hj
      _ = bit (cfg.matrixGrid.matrix out.files r) j := by rw [held]
      _ = ((out.server cfg).cells cfg).cell r j := (cellsOf_cell hr hj).symm
  exact ⟨M, _, kept.live.server, consistent.unsearched (fun r hr => setUp.keywordCounters r hr) cell
    kept.live.counters rfl rfl fun client => if_pos client, indexed⟩

include size distinct in
/-- An operation takes the collection along. -/
theorem World.Holds.operate {fs : List FileEntry} (holds : w.Holds restores fs)
    (live : Live restores w) {op : ClientOp}
    (reads : ReadsIndices (prim.trapdoorOf w.process.masterKey) w.process.client.tables fs op)
    {o : Report × List (Command Key)} (step : w.operate cfg prim S op = some (w', o)) :
    w'.Holds restores (filesAfter fs op) := by
  obtain ⟨⟨⟨s, c⟩, o'⟩, traced, eq⟩ := Option.map_eq_some_iff.mp step
  cases eq
  have alone := tracedClient_step size.tiled live.sound.tables traced
  exact ImDsse.Holds.step size (distinct _) holds reads alone

include size distinct bounds in
/-- And shows what it counts. -/
theorem World.Holds.counted {fs : List FileEntry} (holds : w.Holds restores fs)
    (live : Live restores w) {op : ClientOp}
    (reads : ReadsIndices (prim.trapdoorOf w.process.masterKey) w.process.client.tables fs op)
    {o : Report × List (Command Key)} (step : w.operate cfg prim S op = some (w', o)) :
    collectionMachine.step fs op = some (filesAfter fs op, (o.1.shown cfg).count) := by
  obtain ⟨⟨⟨s, c⟩, o'⟩, traced, eq⟩ := Option.map_eq_some_iff.mp step
  cases eq
  have alone := tracedClient_step size.tiled live.sound.tables traced
  exact ImDsse.Holds.counted size (distinct _) bounds holds reads alone

include receives size whole pieces bounds distinct

/-- Every action takes the collection along, and shows what it counts. -/
theorem Tells.step {p p' : World σ τ Key × World σ τ Key} {fs : Collection} {a : Action σ τ Key}
    {o : Option (Report × List (Command Key))} (tells : Tells restores p.1 p.2 fs)
    (good : Restorable cfg S p.1 p.2 a) (reads : Reads prim p.1 fs a)
    (step : ((deployment cfg prim S false).mark Action.saves).step p a = some (p', o)) :
    Tells restores p'.1 p'.2 (fs.after a) ∧ countOf cfg o = fs.count a := by
  have kept' : Kept restores p'.1 p'.2 := tells.kept.step bounds pieces good step
  obtain ⟨step, mark⟩ := Machine.mark_step.mp step
  obtain ⟨w', saved'⟩ := p'
  cases a with
  | build masterKey path db dict draws files buckets =>
    obtain ⟨w, build, eq⟩ := Option.map_eq_some_iff.mp step
    cases eq
    cases mark
    have holds := build_holds receives size whole pieces tells.kept.live.sound.started build
    exact ⟨⟨kept', holds, holds⟩, rfl⟩
  | operate op =>
    obtain ⟨⟨w, o'⟩, operate, eq⟩ := Option.map_eq_some_iff.mp step
    cases eq
    cases mark
    have holds := tells.files.operate size distinct tells.kept.live reads operate
    have counted := tells.files.counted size bounds distinct tells.kept.live reads operate
    exact ⟨⟨kept', holds, tells.saved⟩, Collection.count_operate counted⟩
  | saveState buckets =>
    obtain ⟨w, save, eq⟩ := Option.map_eq_some_iff.mp step
    cases eq
    cases mark
    obtain ⟨process, cells⟩ := tells.kept.live.saveState_same save
    have same : w'.process.Same p.1.process := by
      rw [process]
      exact ⟨rfl, .refl _⟩
    have holds := tells.files.of_same same kept'.live.server cells
    exact ⟨⟨kept', holds, holds⟩, rfl⟩
  | loadState client server tmp =>
    obtain ⟨w, load, eq⟩ := Option.map_eq_some_iff.mp step
    cases eq
    cases mark
    obtain ⟨-, same, cells⟩ := tells.kept.loaded bounds pieces good load
    exact ⟨⟨kept', tells.saved.of_same same kept'.live.server cells, tells.saved⟩, rfl⟩

/-- A run of the deployment counts what the collection counts. -/
theorem Tells.counts {p p' : World σ τ Key × World σ τ Key} {fs : Collection}
    {actions : List (Action σ τ Key)} (tells : Tells restores p.1 p.2 fs)
    (good : (((deployment cfg prim S false).mark Action.saves).track Collection.after).Along
      (fun q a => Restorable cfg S q.1.1 q.1.2 a ∧ Reads prim q.1.1 q.2 a) (p, fs) actions)
    (run : ((deployment cfg prim S false).mark Action.saves).exec p actions = some p') :
    ((deployment cfg prim S false).outputs p.1 actions).map (countOf cfg) =
      lifetimeMachine.outputs fs actions := by
  induction actions generalizing p fs with
  | nil => rfl
  | cons a actions ih =>
    obtain ⟨q, o, step, rest⟩ := Machine.step_of_exec_cons run
    obtain ⟨tells', counted⟩ :=
      tells.step receives size whole pieces bounds distinct good.1.1 good.1.2 step
    have later := good.2 (q, fs.after a) o (Machine.track_step.mpr ⟨step, rfl⟩)
    rw [Machine.outputs_cons_of_step _ (Machine.mark_step.mp step).1, List.map_cons, counted,
      ih tells' later rest]
    rfl

/-- From a build by parties just started. -/
theorem lifetime_outputs {memory : World σ τ Key} {masterKey : MasterKey} {path : Str} {db : Listing}
    {dict : List Str} {draws : Nat → Nat} {files : PieceFiles} {buckets : Buckets τ}
    {actions : List (Action σ τ Key)} {p : World σ τ Key × World σ τ Key} {fs : Collection}
    (good : (((deployment cfg prim S false).mark Action.saves).track Collection.after).Along
      (fun q a => Restorable cfg S q.1.1 q.1.2 a ∧ Reads prim q.1.1 q.2 a)
      ((memory.start cfg prim S, memory.start cfg prim S), fs)
      (.build masterKey path db dict draws files buckets :: actions))
    (run : ((deployment cfg prim S false).mark Action.saves).exec
      (memory.start cfg prim S, memory.start cfg prim S)
      (.build masterKey path db dict draws files buckets :: actions) = some p) :
    ((deployment cfg prim S false).outputs (memory.start cfg prim S)
        (.build masterKey path db dict draws files buckets :: actions)).map (countOf cfg) =
      lifetimeMachine.outputs fs (.build masterKey path db dict draws files buckets :: actions) := by
  obtain ⟨⟨w₁, saved₁⟩, o, step, rest⟩ := Machine.step_of_exec_cons run
  have later := good.2 ((w₁, saved₁), _) o (Machine.track_step.mpr ⟨step, rfl⟩)
  obtain ⟨step, mark⟩ := Machine.mark_step.mp step
  obtain ⟨w₂, build, eq⟩ := Option.map_eq_some_iff.mp step
  cases eq
  cases mark
  have started : (memory.process.start cfg prim).Started cfg prim := memory.process.start_started
  have holds := build_holds receives size whole pieces started build
  have tells : Tells restores w₁ w₁ ⟨db.files path, db.files path⟩ :=
    ⟨build_kept pieces started build, holds, holds⟩
  rw [Machine.outputs_cons_of_step _ step, List.map_cons,
    tells.counts receives size whole pieces bounds distinct later rest]
  rfl

end Steps

/-! ### Over the sockets -/

/-- In every run of the menu that begins with a build, and whose operations read indices as
they were assigned, the client shows over the sockets what the collection counts. -/
def LifetimeCounts (cfg : Config) (prim : Primitives τ BlockKey) (S : Storage σ BlockKey)
    (setFiles : σ → PieceFiles → σ) (opens : List Byte → Bool) (padding : Nat → Byte)
    (Good : World σ τ BlockKey × World σ τ BlockKey → Action σ τ BlockKey → Prop) : Prop :=
  ∀ (memory : World σ τ BlockKey) (masterKey : MasterKey) (path : Str) (db : Listing)
    (dict : List Str) (draws : Nat → Nat) (files : PieceFiles) (buckets : Buckets τ)
    (choices : List (Choice τ)) (p : World σ τ BlockKey × World σ τ BlockKey) (localFiles : LocalFiles)
    (buffer : Buf),
    (((deployment cfg prim S false).mark Action.saves).track Collection.after).Along
      (fun q a => Good q.1 a ∧ Reads prim q.1.1 q.2 a)
      ((memory.start cfg prim S, memory.start cfg prim S), ⟨[], []⟩)
      ((.build masterKey path db dict draws files buckets :: choices).map Choice.action) →
    ((deployment cfg prim S false).mark Action.saves).exec
      (memory.start cfg prim S, memory.start cfg prim S)
      ((.build masterKey path db dict draws files buckets :: choices).map Choice.action) = some p →
    ∃ shown l' requests buffer' h' replies,
      Meeting.Settles (Remote.loop (siteBackend cfg S setFiles opens))
        (menuStart cfg prim S setFiles opens padding memory localFiles buffer
          (.build masterKey path db dict draws files buckets :: choices))
        (Meeting.idle (Remote.loop (siteBackend cfg S setFiles opens)) (pure shown) l' requests buffer' h'
          replies) ∧
      shown.map (fun s => s.bind Shown.count) =
        (lifetimeMachine : Machine Collection (Action σ τ BlockKey) (Option Nat)).outputs ⟨[], []⟩
          ((.build masterKey path db dict draws files buckets :: choices).map Choice.action)

section Runs

variable {cfg : Config} (size : cfg.Sized) (whole : cfg.Pieces) (pieces : cfg.InPieces)
  (bounds : cfg.Addressable) (sendable : cfg.Sendable) {prim : Primitives τ BlockKey}
  (distinct : ∀ masterKey, Function.Injective (prim.trapdoorOf masterKey).omac)
  {opens : List Byte → Bool} (writable : Opens cfg opens) (padding : Nat → Byte)
include size whole pieces bounds distinct

/-- Where the menu settles over a server that restores and receives. -/
theorem MenuSettles.counts {S : Storage σ BlockKey} {restores : S.Restores cfg prim.cipher}
    (receives : Storage.Receives restores) {setFiles : σ → PieceFiles → σ}
    {Good : World σ τ BlockKey × World σ τ BlockKey → Action σ τ BlockKey → Prop}
    (restorable : ∀ p a, Good p a → Restorable cfg S p.1 p.2 a)
    (settles : MenuSettles cfg prim S setFiles opens padding Good) :
    LifetimeCounts cfg prim S setFiles opens padding Good := by
  intro memory masterKey path db dict draws files buckets choices p localFiles buffer good run
  obtain ⟨w, saved⟩ := p
  have going := (good.imp fun _ _ h => h.1).untrack
  obtain ⟨l', requests, buffer', h', replies, settles, -⟩ := settles memory masterKey path db dict draws
    files buckets choices w saved localFiles buffer going run
  refine ⟨_, l', requests, buffer', h', replies, settles, ?_⟩
  rw [List.map_map]
  exact lifetime_outputs receives size whole pieces bounds distinct
    (good.imp fun q a h => ⟨restorable q.1 a h.1, h.2⟩) run

include sendable writable

variable (prim) in
/-- Over the sockets, from the first build on, each search shows how many files of the
collection have the keyword then, where a load takes the collection back to its last
save: with the index in memory, and in `DISK_STORAGE_MODE` while loads find the piece files
of that save. -/
theorem lifetime_counts :
    LifetimeCounts cfg prim (ramStorage cfg prim.cipher) (fun p files => { p with files := files }) opens
        padding (RestorableInMemory cfg) ∧
      (cfg.OnDisk → LifetimeCounts cfg prim (diskStorage cfg prim.cipher)
        (fun s files => { s with files := files }) opens padding (RestorableOnDisk cfg)) := by
  constructor
  · intro memory masterKey path db dict draws files buckets choices p localFiles buffer good run
    have inMemory : cfg.InMemory := by
      rw [List.map_cons] at run
      exact inMemory_of_run pieces run
    have receives := ramReceives pieces prim.cipher inMemory
    exact (ramMenuSettles bounds pieces sendable writable padding).counts size whole pieces bounds
      distinct padding receives (fun _ _ good => good.restorable) memory masterKey path db dict draws
      files buckets choices p localFiles buffer good run
  · intro onDisk
    exact (diskMenuSettles bounds pieces sendable writable padding onDisk).counts size whole pieces
      bounds distinct padding (diskReceives pieces onDisk prim.cipher) fun _ _ good => good.restorable

end Runs

/-! ### A small life -/

/-- "f" is deleted after the build. A client just started loads the build, and searches "a". -/
def smallLife : List (Choice Str) :=
  [.build smallKey [0x2f#8] smallDb [] (fun n => 3 * n + 1) (fun _ => none) listed,
    .operate (.delFile [0x2f#8, 0x66#8] fun n => n),
    .loadState (some (smallMemory ()).process) ([], []), .operate (.searchKeyword [0x61#8])]

/-- The small deployment, with the last save and the collection beside it. -/
def smallLifetime (S : Storage σ BlockKey) :=
  ((deployment (smallConfig 1 false) smallBlockPrimitives S false).mark Action.saves).track
    Collection.after

/-- A load as in the small menu, or an operation that reads indices as they were assigned. -/
def goodAction (filesHold : World σ Str BlockKey × World σ Str BlockKey → Bool)
    (q : (World σ Str BlockKey × World σ Str BlockKey) × Collection) : Action σ Str BlockKey → Bool
  | .operate op => decide (ReadsIndices smallTrapdoor q.1.1.process.client.tables q.2.files op)
  | a => goodLoad filesHold q.1 a

theorem goodAction_sound {filesHold : World σ Str BlockKey × World σ Str BlockKey → Bool}
    {Good : World σ Str BlockKey × World σ Str BlockKey → Action σ Str BlockKey → Prop}
    (sound : ∀ p a, goodLoad filesHold p a = true → Good p a)
    (q : (World σ Str BlockKey × World σ Str BlockKey) × Collection) (a : Action σ Str BlockKey)
    (good : goodAction filesHold q a = true) : Good q.1 a ∧ Reads smallBlockPrimitives q.1.1 q.2 a := by
  cases a with
  | operate op =>
    have reads : ReadsIndices smallTrapdoor q.1.1.process.client.tables q.2.files op :=
      of_decide_eq_true good
    exact ⟨sound q.1 _ rfl, reads⟩
  | _ => exact ⟨sound q.1 _ good, trivial⟩

/-- The small menu or life ends, and what it has shown are these counts. -/
def SmallCounts (S : Storage σ BlockKey) (setFiles : σ → PieceFiles → σ) (server : σ)
    (choices : List (Choice Str)) (counts : List (Option Nat)) : Prop :=
  ∃ shown l' requests buffer' h' replies, Meeting.Settles (smallLoop S setFiles)
    (menuStart (smallConfig 1 false) smallBlockPrimitives S setFiles (fun _ => true) (fun _ => 0)
      (smallMemory server) (fun _ => none) zeroBuf choices)
    (Meeting.idle (smallLoop S setFiles) (pure shown) l' requests buffer' h' replies) ∧
    shown.map (fun s => s.bind Shown.count) = counts

/-- Both files have "a" again after the load, and one after the save of the deletion. -/
theorem lifetime_counts_small :
    SmallCounts (ramStorage (smallConfig 1 false) Remote.smallBlockCipher)
        (fun p files => { p with files := files }) smallRam smallLife [none, none, none, some 2] ∧
      SmallCounts (diskStorage (smallConfig 1 false) Remote.smallBlockCipher)
        (fun s files => { s with files := files }) smallDisk smallMenu
          [none, none, none, none, some 1] := by
  have writable : Opens (smallConfig 1 false) fun _ => true := ⟨fun _ _ => rfl, fun _ => rfl⟩
  have both := lifetime_counts (smallConfig_sized false (.inl rfl) (Nat.one_dvd 8))
    (smallConfig_pieces false (Nat.one_dvd 8)) smallConfig_inPieces smallConfig_addressable
    smallConfig_sendable smallBlockPrimitives (fun _ => Function.injective_id) writable fun _ => 0
  constructor
  · let S := ramStorage (smallConfig 1 false) Remote.smallBlockCipher
    have checked : (smallLifetime S).check (goodAction fun _ => true)
        (smallMenuStart S smallRam, ⟨[], []⟩) (smallLife.map Choice.action) = true := by
      decide +kernel
    have evaluated : (((deployment (smallConfig 1 false) smallBlockPrimitives S false).mark
        Action.saves).exec (smallMenuStart S smallRam) (smallLife.map Choice.action)).isSome := by
      decide +kernel
    obtain ⟨p, run⟩ := Option.isSome_iff_exists.mp evaluated
    obtain ⟨shown, l', requests, buffer', h', replies, settles, counted⟩ := both.1 (smallMemory smallRam)
      _ _ _ _ _ _ _ _ p (fun _ => none) zeroBuf
      (Machine.along_of_check (goodAction_sound goodLoad_inMemory) checked) run
    refine ⟨shown, l', requests, buffer', h', replies, settles, counted.trans ?_⟩
    decide +kernel
  · let S := diskStorage (smallConfig 1 false) Remote.smallBlockCipher
    have checked : (smallLifetime S).check (goodAction smallFilesHold)
        (smallMenuStart S smallDisk, ⟨[], []⟩) (smallMenu.map Choice.action) = true := by
      decide +kernel
    have evaluated : (((deployment (smallConfig 1 false) smallBlockPrimitives S false).mark
        Action.saves).exec (smallMenuStart S smallDisk) (smallMenu.map Choice.action)).isSome := by
      decide +kernel
    obtain ⟨p, run⟩ := Option.isSome_iff_exists.mp evaluated
    obtain ⟨shown, l', requests, buffer', h', replies, settles, counted⟩ := both.2
      ⟨by decide, by decide, by decide, by decide⟩ (smallMemory smallDisk) _ _ _ _ _ _ _ _ p
      (fun _ => none) zeroBuf (Machine.along_of_check (goodAction_sound goodLoad_onDisk) checked) run
    refine ⟨shown, l', requests, buffer', h', replies, settles, counted.trans ?_⟩
    decide +kernel

end ImDsse
