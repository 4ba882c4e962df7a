import ImDsse.ClientRuns
import ImDsse.ServerState
import ImDsse.SetupCorrect

/-!
Client and server with their files (`main`, `Client_DSSE::createEncrypted_data_structure`,
and the pairs of `saveState` and `loadState`).

A run is any sequence of builds, operations, saves and loads, where a load may be made
by processes just started. What a run may look like from the last save on is `Kept`: the
world then, the world now, and what the files still have of the former. Every action
keeps it, but for a load that does not find the piece files as the save left them.
-/

namespace ImDsse

open Kit Kit.Bits Kit.Pool Kit.Text

variable {Key : Type} {σ : Type} {τ : Type} [DecidableEq τ]

/-! ### Actions -/

/-- Both parties with their files. `clientFiles` and `blockCounterFile` are in the
parties' own `gcsDataStructureFilepath`, the piece files belong to the server. -/
structure World (σ τ Key : Type) where
  process : ClientProcess τ Key
  clientFiles : ClientFiles τ
  server : σ
  blockCounterFile : TextFile

/-- What a user can do. A build has the key it generates, the database, the random
numbers and the directory it writes to; a load the memory of the parties that are
started for it, and the buffers of `readHash_table`. -/
inductive Action (σ τ Key : Type) where
  | build (masterKey : MasterKey) (path : Str) (db : Listing) (keywordsDictionary : List Str)
      (draws : Nat → Nat) (files : PieceFiles) (buckets : Buckets τ)
  | operate (op : ClientOp)
  | saveState (buckets : Buckets τ)
  | loadState (client : Option (ClientProcess τ Key)) (server : Option σ) (tmp : τ × τ)

/-- The action ends with the state of both parties in the files. -/
def Action.saves : Action σ τ Key → Bool
  | .build .. => true
  | .operate _ => false
  | .saveState _ => true
  | .loadState .. => false

section Actions

variable (cfg : Config) (prim : Primitives τ Key) (S : Storage σ Key) (sameMachine : Bool)
  (w : World σ τ Key)

/-- The client of a setup. -/
def SetupState.process (out : SetupState τ) (masterKey : MasterKey) (rowKeys : Nat → Key) :
    ClientProcess τ Key where
  masterKey := masterKey
  client :=
    { tables := out.tables
      index :=
        { keywordCounterArr := out.keywordCounterArr
          blockCounterArr := out.blockCounterArr
          rowKeys :=
            if cfg.decryptAtClientSide then
              pregenerateRowKeys cfg (prim.cipherOf masterKey) out.keywordCounterArr
            else rowKeys } }
  hasRowKeys := cfg.decryptAtClientSide

/-- `Client_DSSE::createEncrypted_data_structure`, with the index uploaded or, on the
same machine, loaded by the server once more. -/
def World.build (masterKey : MasterKey) (path : Str) (db : Listing) (keywordsDictionary : List Str)
    (draws : Nat → Nat) (files : PieceFiles) (buckets : Buckets τ) : Option (World σ τ Key) :=
  let index := w.process.client.index
  (setupDataStructure cfg (prim.cipherOf masterKey) (prim.trapdoorOf masterKey) path db
      keywordsDictionary index.keywordCounterArr index.blockCounterArr draws files).bind fun out =>
    let process := out.process cfg prim masterKey index.rowKeys
    let clientFiles := process.saveState cfg buckets
    let blockCounterFile :=
      if cfg.decryptAtClientSide && !sameMachine then w.blockCounterFile
      else clientFiles.blockCounterArr
    (S.loadState (S.start out.files w.server) blockCounterFile).bind fun s =>
      (if sameMachine then S.loadState s blockCounterFile else some s).map fun s =>
        ⟨process, clientFiles, s, blockCounterFile⟩

/-- `searchKeyword`, `addFile` or `delFile`, with the requests sent. -/
def World.operate (op : ClientOp) : Option (World σ τ Key × Report × List (Command Key)) :=
  let masterKey := w.process.masterKey
  ((tracedClient cfg (prim.cipherOf masterKey) (prim.trapdoorOf masterKey) S.machine).step
      (w.server, w.process.client) op).map fun ((s, c), o) =>
    ({ w with process := { w.process with client := c }, server := s }, o)

/-- `Client_DSSE::saveState` and `CMD_SAVESTATE`. On one machine the server writes the
block counters after the client, into the same file. -/
def World.saveState (buckets : Buckets τ) : Option (World σ τ Key) :=
  (S.saveState w.server).map fun s =>
    let clientFiles := w.process.saveState cfg buckets
    if cfg.decryptAtClientSide then
      { w with
        clientFiles := clientFiles
        server := s
        blockCounterFile :=
          if sameMachine then clientFiles.blockCounterArr else w.blockCounterFile }
    else
      let blockCounterFile := writeArray cfg.numBlocks (S.index w.server).blockCounterArr
      { w with
        clientFiles :=
          if sameMachine then { clientFiles with blockCounterArr := blockCounterFile }
          else clientFiles
        server := s
        blockCounterFile := blockCounterFile }

/-- `Client_DSSE::loadState` and `CMD_LOADSTATE`. -/
def World.loadState (client : Option (ClientProcess τ Key)) (server : Option σ) (tmp : τ × τ) :
    Option (World σ τ Key) :=
  let process := (client.map fun memory => memory.start cfg prim).getD w.process
  let s := (server.map fun memory => S.start (S.files w.server) memory).getD w.server
  (process.loadState cfg prim w.clientFiles tmp).bind fun process =>
    (S.loadState s w.blockCounterFile).map fun s => { w with process := process, server := s }

/-- Client and server with their files. An operation gives its report and the requests
it sent. -/
def deployment : Machine (World σ τ Key) (Action σ τ Key) (Option (Report × List (Command Key))) where
  step w
    | .build masterKey path db keywordsDictionary draws files buckets =>
      (w.build cfg prim S sameMachine masterKey path db keywordsDictionary draws files buckets).map
        fun w => (w, none)
    | .operate op => (w.operate cfg prim S op).map fun (w, o) => (w, some o)
    | .saveState buckets => (w.saveState cfg S sameMachine buckets).map fun w => (w, none)
    | .loadState client server tmp => (w.loadState cfg prim S client server tmp).map fun w => (w, none)

/-- Both parties just started, with whatever is in their memory and in their files. -/
def World.start : World σ τ Key :=
  { w with
    process := w.process.start cfg prim
    server := S.start (S.files w.server) w.server }

end Actions

/-- Requests leave the piece files alone. -/
def Storage.KeepsFiles (S : Storage σ Key) : Prop :=
  ∀ s c s' r, S.machine.step s c = some (s', r) → S.files s' = S.files s

/-! ### Under a master key -/

/-- A server never uses the master key. -/
def Refinement.under {cfg : Config} {prim : Primitives τ Key}
    {srv : Machine σ (Command Key) (Response Key)} (ref : Refinement cfg prim.cipher srv)
    (masterKey : MasterKey) : Refinement cfg (prim.cipherOf masterKey) srv where
  Rel := ref.Rel
  Ready := ref.Ready
  step := ref.step
  fetched := ref.fetched
  single := ref.single

/-! ### From the last save on -/

section Runs

variable {cfg : Config} {prim : Primitives τ Key} {S : Storage σ Key} {sameMachine : Bool}

/-- Client and server run on the same index. -/
structure Live (restores : S.Restores cfg prim.cipher) (w : World σ τ Key) : Prop where
  sound : w.process.client.Sound cfg (prim.cipherOf w.process.masterKey)
  keyed : w.process.Keyed cfg
  server : restores.ref.Rel w.server ((S.index w.server).cells cfg)
  counters : SameCounters cfg ((S.index w.server).cells cfg) w.process.client.index

/-- The files of a world are those of a save. -/
structure Kept (restores : S.Restores cfg prim.cipher) (w saved : World σ τ Key) : Prop where
  live : Live restores w
  savedLive : Live restores saved
  clientFiles : ∃ buckets, w.clientFiles = saved.process.saveState cfg buckets
  pieces : PiecesHold cfg (S.files saved.server) ((S.index saved.server).cells cfg)
  blockCounters : cfg.decryptAtClientSide = false →
    CountersHold cfg w.blockCounterFile ((S.index saved.server).cells cfg)
  files : S.KeepsFiles → S.files w.server = S.files saved.server

/-- Where the client decrypts, the client that loads is the running one: one just started
has no row keys to delete. -/
def MayLoad (cfg : Config) (client : Option (ClientProcess τ Key)) : Prop :=
  cfg.decryptAtClientSide = true → client = none

/-- A load goes on and finds what the save wrote: numbers of entries that are floats, and
the piece files, unless requests never touch them. -/
def Restorable (cfg : Config) (S : Storage σ Key) (w saved : World σ τ Key) : Action σ τ Key → Prop
  | .loadState client .. => MayLoad cfg client ∧ Countable saved.process.client.tables ∧
      (S.KeepsFiles ∨ SameFiles cfg (S.files saved.server) (S.files w.server))
  | _ => True

/-- The world is that of the save again, but for the order of the tables. -/
structure RolledBack (cfg : Config) (prim : Primitives τ Key) (S : Storage σ Key) (sameMachine : Bool)
    (w saved : World σ τ Key) : Prop where
  process : w.process.Same saved.process
  server : (S.index w.server).cells cfg = (S.index saved.server).cells cfg
  counters : SameCounters cfg ((S.index w.server).cells cfg) w.process.client.index
  outputs : ∀ ops : List ClientOp,
    (deployment cfg prim S sameMachine).outputs w (ops.map .operate) =
      (deployment cfg prim S sameMachine).outputs saved (ops.map .operate)

/-! ### Every action keeps it -/

variable (size : cfg.Tiled) {restores : S.Restores cfg prim.cipher} {w w' saved : World σ τ Key}

section Operate

include size

/-- An operation keeps client and server on the same index. -/
theorem Live.operate {op : ClientOp} {o : Report × List (Command Key)} (live : Live restores w)
    (step : w.operate cfg prim S op = some (w', o)) : Live restores w' := by
  obtain ⟨⟨⟨s, c⟩, o'⟩, traced, h⟩ := Option.map_eq_some_iff.mp step
  cases h
  have inRange := live.sound.tables
  have alone := tracedClient_step size inRange traced
  obtain ⟨⟨t, c'⟩, report, store, ⟨rel, same⟩, -⟩ :=
    ((restores.ref.under w.process.masterKey).sim.clientMachine_lockstep _ _ size live.server
      inRange op).of_left alone
  cases same
  have cells : (S.index s).cells cfg = t := restores.cells rel
  refine ⟨live.sound.step size alone, live.keyed, ?_, ?_⟩
  · rw [cells]
    exact rel
  · rw [cells]
    exact SameCounters.step size inRange live.counters store

/-- An operation leaves the piece files alone where requests do. -/
theorem files_operate {op : ClientOp} {o : Report × List (Command Key)} (live : Live restores w)
    (keeps : S.KeepsFiles) (step : w.operate cfg prim S op = some (w', o)) :
    S.files w'.server = S.files w.server := by
  obtain ⟨⟨⟨s, c⟩, o'⟩, traced, h⟩ := Option.map_eq_some_iff.mp step
  cases h
  have alone := tracedClient_step size live.sound.tables traced
  obtain ⟨commands, exec⟩ := clientMachine_requests size live.sound.tables alone
  have always : S.machine.Along (fun _ _ => True) w.server commands :=
    Machine.along_of_forall (fun _ _ => trivial) _ _
  exact Machine.invariant (fun s => S.files s = S.files w.server)
    (fun s c s' r same _ step => (keeps s c s' r step).trans same) rfl always exec

end Operate

/-- The block counters of the server as text are those of the client. -/
theorem Live.blockCounters (live : Live restores w) (server : cfg.decryptAtClientSide = false) :
    CountersHold cfg (writeArray cfg.numBlocks w.process.client.index.blockCounterArr)
      ((S.index w.server).cells cfg) := by
  have same := live.counters server
  refine ⟨fun b hb => ?_, writeArray_congr fun b hb => (same b hb).symm⟩
  rw [same b hb]
  exact live.sound.blockCounters.fits b

/-- A save changes neither party. -/
theorem Live.saveState_same {buckets : Buckets τ} (live : Live restores w)
    (save : w.saveState cfg S sameMachine buckets = some w') :
    w'.process = w.process ∧ (S.index w'.server).cells cfg = (S.index w.server).cells cfg := by
  obtain ⟨s, saved, h⟩ := Option.map_eq_some_iff.mp save
  have cells := restores.cells (restores.save live.server saved).1
  dsimp only at h
  split at h
  all_goals
    subst h
    exact ⟨rfl, cells⟩

/-- After a save the files are those of the save. -/
theorem Live.saveState {buckets : Buckets τ} (live : Live restores w)
    (save : w.saveState cfg S sameMachine buckets = some w') : Kept restores w' w' := by
  obtain ⟨s, saved, h⟩ := Option.map_eq_some_iff.mp save
  obtain ⟨rel, pieces⟩ := restores.save live.server saved
  have cells : (S.index s).cells cfg = (S.index w.server).cells cfg := restores.cells rel
  have live' : ∀ {clientFiles blockCounterFile},
      Live restores ⟨w.process, clientFiles, s, blockCounterFile⟩ := by
    intro clientFiles blockCounterFile
    refine ⟨live.sound, live.keyed, ?_, ?_⟩
    · rw [cells]
      exact rel
    · rw [cells]
      exact live.counters
  rw [← cells] at pieces
  cases build : cfg.decryptAtClientSide with
  | true =>
    rw [build, if_pos rfl] at h
    subst h
    refine ⟨live', live', ⟨buckets, rfl⟩, pieces, fun server => ?_, fun _ => rfl⟩
    rw [build] at server
    cases server
  | false =>
    have text : writeArray cfg.numBlocks (S.index w.server).blockCounterArr =
        writeArray cfg.numBlocks w.process.client.index.blockCounterArr :=
      writeArray_congr fun b hb =>
        (RamServer.cells_counter _ hb).symm.trans (live.counters build b hb)
    rw [build, if_neg (by decide), text] at h
    subst h
    refine ⟨live', live', ⟨buckets, ?_⟩, pieces, fun server => ?_, fun _ => rfl⟩
    · dsimp only
      split <;> rfl
    · exact live'.blockCounters (w := ⟨w.process, w.clientFiles, s, w.blockCounterFile⟩) server

/-- A load goes on, and takes both parties back to the save. -/
theorem Kept.loadState (bounds : cfg.Addressable) (pieces : cfg.InPieces)
    (kept : Kept restores w saved) {client : Option (ClientProcess τ Key)} {server : Option σ}
    {tmp : τ × τ} (good : Restorable cfg S w saved (.loadState client server tmp)) :
    ∃ w', w.loadState cfg prim S client server tmp = some w' ∧ w'.process.Same saved.process ∧
      w'.process.Keyed cfg ∧ restores.ref.Rel w'.server ((S.index saved.server).cells cfg) ∧
      S.files w'.server = S.files w.server ∧ w'.clientFiles = w.clientFiles ∧
      w'.blockCounterFile = w.blockCounterFile := by
  obtain ⟨mayLoad, countable, same⟩ := good
  obtain ⟨buckets, clientFiles⟩ := kept.clientFiles
  have old : ((client.map fun memory => memory.start cfg prim).getD w.process).Started cfg prim ∧
      ((client.map fun memory => memory.start cfg prim).getD w.process).Keyed cfg := by
    cases client with
    | none => exact ⟨kept.live.sound.started, kept.live.keyed⟩
    | some memory => exact ⟨memory.start_started, fun client => absurd (mayLoad client) nofun⟩
  obtain ⟨process, read, sameProcess, keyed⟩ :=
    loadState_saveState bounds kept.savedLive.sound countable old.1 old.2 buckets tmp
  have alive : ∀ s, s = ((server.map fun memory => S.start (S.files w.server) memory).getD w.server) →
      restores.Alive s ∧ S.files s = S.files w.server := by
    rintro s rfl
    cases server with
    | none => exact ⟨restores.alive kept.live.server, rfl⟩
    | some memory => exact restores.started _ memory
  obtain ⟨alive, files⟩ := alive _ rfl
  have sameFiles : SameFiles cfg (S.files saved.server) (S.files w.server) := by
    rcases same with keeps | same
    · rw [kept.files keeps]
      exact .refl _ _
    · exact same
  have holds := kept.pieces.of_same pieces sameFiles
  rw [← files] at holds
  obtain ⟨s', loaded, rel, files'⟩ := restores.load alive holds kept.blockCounters
  refine ⟨{ w with process := process, server := s' }, ?_, sameProcess, keyed, rel,
    files'.trans files, rfl, rfl⟩
  rw [← clientFiles] at read
  exact (congrArg (Option.bind · _) read).trans (congrArg (Option.map _) loaded)

/-- A load leaves the files as the save did. -/
theorem Kept.loaded (bounds : cfg.Addressable) (pieces : cfg.InPieces) (kept : Kept restores w saved)
    {client : Option (ClientProcess τ Key)} {server : Option σ} {tmp : τ × τ}
    (good : Restorable cfg S w saved (.loadState client server tmp))
    (load : w.loadState cfg prim S client server tmp = some w') :
    Kept restores w' saved ∧ w'.process.Same saved.process ∧
      (S.index w'.server).cells cfg = (S.index saved.server).cells cfg := by
  obtain ⟨_, load', same, keyed, rel, files, clientFiles, blockCounterFile⟩ :=
    kept.loadState bounds pieces good
  cases load.symm.trans load'
  have cells := restores.cells rel
  have live : Live restores w' := by
    refine ⟨?_, keyed, ?_, ?_⟩
    · rw [same.masterKey]
      exact kept.savedLive.sound.of_same same.client
    · rw [cells]
      exact rel
    · rw [cells, same.client.index]
      exact kept.savedLive.counters
  refine ⟨⟨live, kept.savedLive, ?_, kept.pieces, ?_, fun keeps => ?_⟩, same, cells⟩
  · rw [clientFiles]
    exact kept.clientFiles
  · rw [blockCounterFile]
    exact kept.blockCounters
  · rw [files]
    exact kept.files keeps

/-- Counters are all 1 after a setup. -/
theorem counters_fillOnes {n : Nat} {arr : Nat → Nat} (ends : ∀ i, n ≤ i → arr i = 0) :
    Counters n (fillOnes n arr) where
  fits i := by
    rw [fillOnes_apply]
    split
    · decide
    · next outside =>
      rw [ends i (Nat.not_lt.mp outside)]
      decide
  ends i outside := by
    rw [fillOnes_apply, if_neg (Nat.not_lt.mpr outside)]
    exact ends i outside

/-- The client of a setup is sound. -/
theorem SetupState.process_sound {p : ClientProcess τ Key} (started : p.Started cfg prim)
    {masterKey : MasterKey} {path : Str} {db : Listing} {dict : List Str} {draws : Nat → Nat}
    {files : PieceFiles} {out : SetupState τ}
    (setup : setupDataStructure cfg (prim.cipherOf masterKey) (prim.trapdoorOf masterKey) path db dict
      p.client.index.keywordCounterArr p.client.index.blockCounterArr draws files = some out) :
    (out.process cfg prim masterKey p.client.index.rowKeys).client.Sound cfg
      (prim.cipherOf masterKey) := by
  have pass := sizesPass_of_setup setup
  obtain ⟨columns, rows⟩ := setup_tables setup
  obtain ⟨-, -, -, -, -, -, keywordCounters, blockCounters⟩ := setupDataStructure_cases setup
  refine ⟨⟨Nat.zero_lt_of_lt pass.keywords, Nat.zero_lt_of_lt pass.files, rows.within,
    columns.within⟩, ?_, ?_, ?_⟩
  · change Counters _ out.keywordCounterArr
    rw [keywordCounters]
    exact counters_fillOnes started.keywordCounters
  · change Counters _ out.blockCounterArr
    rw [blockCounters]
    exact counters_fillOnes started.blockCounters
  · dsimp only [SetupState.process]
    cases build : cfg.decryptAtClientSide with
    | true => rfl
    | false => exact started.rowKeys build

/-- A build leaves both parties on the index it made, and in the files. -/
theorem build_kept (pieces : cfg.InPieces) (started : w.process.Started cfg prim)
    {masterKey : MasterKey} {path : Str} {db : Listing} {dict : List Str} {draws : Nat → Nat}
    {files : PieceFiles} {buckets : Buckets τ}
    (build : w.build cfg prim S sameMachine masterKey path db dict draws files buckets = some w') :
    Kept restores w' w' := by
  obtain ⟨out, setup, build⟩ := Option.bind_eq_some_iff.mp build
  have sound := SetupState.process_sound started setup
  obtain ⟨formed, states⟩ := setup_files pieces.size.blockSize pieces.cols setup
  have held := PiecesHold.held pieces formed (fun server => (states server).2) out.blockCounterArr
  set t := ((heldIndex cfg out.files out.blockCounterArr).allocated cfg).cells cfg
  have counters : cfg.decryptAtClientSide = false → ∀ b, b < cfg.numBlocks →
      t.counter b = out.blockCounterArr b := fun server b hb => by
    rw [RamServer.cells_counter _ hb, allocated_server server]
    rfl
  obtain ⟨s, loaded, build⟩ := Option.bind_eq_some_iff.mp build
  obtain ⟨s', again, rfl⟩ := Option.map_eq_some_iff.mp build
  set blockCounterFile := if cfg.decryptAtClientSide && !sameMachine then w.blockCounterFile
    else ((out.process cfg prim masterKey w.process.client.index.rowKeys).saveState cfg
      buckets).blockCounterArr with text
  have written : cfg.decryptAtClientSide = false → CountersHold cfg blockCounterFile t := by
    intro server
    refine ⟨fun b hb => ?_, ?_⟩
    · rw [counters server b hb]
      exact sound.blockCounters.fits b
    · rw [text, server, if_neg (by simp)]
      exact writeArray_congr fun b hb => (counters server b hb).symm
  -- loaded once or twice, the server is on the index of the setup
  obtain ⟨alive, startFiles⟩ := restores.started out.files w.server
  obtain ⟨_, loaded', rel, files₁⟩ := restores.load alive (startFiles.symm ▸ held) written
  cases loaded.symm.trans loaded'
  have files₁ : S.files s = out.files := files₁.trans startFiles
  have second : restores.ref.Rel s' t ∧ S.files s' = out.files := by
    cases sameMachine with
    | false =>
      cases again
      exact ⟨rel, files₁⟩
    | true =>
      obtain ⟨_, again', rel', files₂⟩ :=
        restores.load (restores.alive rel) (files₁.symm ▸ held) written
      cases again.symm.trans again'
      exact ⟨rel', files₂.trans files₁⟩
  obtain ⟨rel', files₂⟩ := second
  have cells := restores.cells rel'
  have live : Live restores ⟨out.process cfg prim masterKey w.process.client.index.rowKeys,
      (out.process cfg prim masterKey w.process.client.index.rowKeys).saveState cfg buckets, s',
      blockCounterFile⟩ := by
    refine ⟨sound, id, ?_, ?_⟩
    · rw [cells]
      exact rel'
    · rw [cells]
      exact counters
  refine ⟨live, live, ⟨buckets, rfl⟩, ?_, ?_, fun _ => rfl⟩
  · rw [cells, files₂]
    exact held
  · rw [cells]
    exact written

/-! ### Runs -/

/-- An operation leaves the files of the save alone. -/
theorem Kept.operate (size : cfg.Tiled) (kept : Kept restores w saved) {op : ClientOp}
    {o : Report × List (Command Key)} (step : w.operate cfg prim S op = some (w', o)) :
    Kept restores w' saved := by
  have live := kept.live.operate size step
  have files := fun keeps => (files_operate size kept.live keeps step).trans (kept.files keeps)
  obtain ⟨_, -, h⟩ := Option.map_eq_some_iff.mp step
  cases h
  exact ⟨live, kept.savedLive, kept.clientFiles, kept.pieces, kept.blockCounters, files⟩

variable (bounds : cfg.Addressable) (pieces : cfg.InPieces)
include bounds pieces

/-- Every action keeps the world and its last save together. -/
theorem Kept.step {p p' : World σ τ Key × World σ τ Key} {a : Action σ τ Key}
    {o : Option (Report × List (Command Key))} (kept : Kept restores p.1 p.2)
    (good : Restorable cfg S p.1 p.2 a)
    (step : ((deployment cfg prim S sameMachine).mark Action.saves).step p a = some (p', o)) :
    Kept restores p'.1 p'.2 := by
  obtain ⟨step, mark⟩ := Machine.mark_step.mp step
  cases a with
  | build masterKey path db dict draws files buckets =>
    obtain ⟨w, build, h⟩ := Option.map_eq_some_iff.mp step
    obtain ⟨rfl, -⟩ := Prod.mk.inj h
    rw [mark]
    exact build_kept pieces kept.live.sound.started build
  | operate op =>
    obtain ⟨⟨w, o'⟩, operate, h⟩ := Option.map_eq_some_iff.mp step
    obtain ⟨rfl, -⟩ := Prod.mk.inj h
    rw [mark]
    exact kept.operate pieces.size operate
  | saveState buckets =>
    obtain ⟨w, save, h⟩ := Option.map_eq_some_iff.mp step
    obtain ⟨rfl, -⟩ := Prod.mk.inj h
    rw [mark]
    exact kept.live.saveState save
  | loadState client server tmp =>
    obtain ⟨w, load, h⟩ := Option.map_eq_some_iff.mp step
    obtain ⟨rfl, -⟩ := Prod.mk.inj h
    rw [mark]
    exact (kept.loaded bounds pieces good load).1

/-- From a build on, by parties just started, the world and its last save stay together. -/
theorem run_kept {masterKey : MasterKey} {path : Str} {db : Listing} {dict : List Str}
    {draws : Nat → Nat} {files : PieceFiles} {buckets : Buckets τ} {memory : World σ τ Key}
    {actions : List (Action σ τ Key)}
    (good : ((deployment cfg prim S sameMachine).mark Action.saves).Along
      (fun p => Restorable cfg S p.1 p.2) (memory.start cfg prim S, memory.start cfg prim S)
      (.build masterKey path db dict draws files buckets :: actions))
    (run : ((deployment cfg prim S sameMachine).mark Action.saves).exec
      (memory.start cfg prim S, memory.start cfg prim S)
      (.build masterKey path db dict draws files buckets :: actions) = some (w, saved)) :
    Kept restores w saved := by
  obtain ⟨⟨w₁, saved₁⟩, o, step, run⟩ := Machine.step_of_exec_cons run
  have rest := good.2 _ _ step
  obtain ⟨built, mark⟩ := Machine.mark_step.mp step
  obtain ⟨w₂, build, h⟩ := Option.map_eq_some_iff.mp built
  cases h
  cases mark
  have start : Kept restores w₁ w₁ := build_kept pieces memory.process.start_started build
  exact Machine.invariant (fun p => Kept restores p.1 p.2)
    (fun p a p' o kept good step => kept.step bounds pieces good step) start rest run

omit bounds pieces in
/-- The operations of a world are those of its client, over its server. -/
theorem deployment_outputs (w : World σ τ Key) (ops : List ClientOp) :
    (deployment cfg prim S sameMachine).outputs w (ops.map .operate) =
      ((tracedClient cfg (prim.cipherOf w.process.masterKey) (prim.trapdoorOf w.process.masterKey)
        S.machine).outputs (w.server, w.process.client) ops).map some := by
  induction ops generalizing w with
  | nil => rfl
  | cons op ops ih =>
    rw [List.map_cons]
    cases step : (tracedClient cfg (prim.cipherOf w.process.masterKey)
        (prim.trapdoorOf w.process.masterKey) S.machine).step (w.server, w.process.client) op with
    | none =>
      have stop : (deployment cfg prim S sameMachine).step w (.operate op) = none := by
        simp only [deployment, World.operate, step, Option.map_none]
      rw [Machine.outputs_cons_of_stop _ step, Machine.outputs_cons_of_stop _ stop]
      rfl
    | some q =>
      obtain ⟨⟨s, c⟩, o⟩ := q
      have next : (deployment cfg prim S sameMachine).step w (.operate op) =
          some ({ w with process := { w.process with client := c }, server := s }, some o) := by
        simp only [deployment, World.operate, step, Option.map_some]
      rw [Machine.outputs_cons_of_step _ step, Machine.outputs_cons_of_step _ next, ih, List.map_cons]

omit bounds pieces in
/-- Worlds on the same index, with clients that have the same lookups, report and send the
same. -/
theorem Live.outputs (size : cfg.Tiled) (live : Live restores w) (live' : Live restores w')
    (same : w'.process.Same w.process)
    (cells : (S.index w'.server).cells cfg = (S.index w.server).cells cfg) (ops : List ClientOp) :
    (deployment cfg prim S sameMachine).outputs w' (ops.map .operate) =
      (deployment cfg prim S sameMachine).outputs w (ops.map .operate) := by
  rw [deployment_outputs, deployment_outputs, same.masterKey]
  refine congrArg (List.map some) ?_
  have rel := live'.server
  rw [cells] at rel
  exact Refinement.same_outputs size (restores.ref.under w.process.masterKey) rel live.server
    same.client live'.sound.tables live.sound.tables ops

variable (sameMachine) in
/-- A load is a rollback. -/
theorem Kept.rolledBack (kept : Kept restores w saved)
    {client : Option (ClientProcess τ Key)} {server : Option σ} {tmp : τ × τ}
    (good : Restorable cfg S w saved (.loadState client server tmp)) :
    ∃ w', (deployment cfg prim S sameMachine).step w (.loadState client server tmp) =
        some (w', none) ∧ RolledBack cfg prim S sameMachine w' saved ∧ Live restores w' := by
  obtain ⟨w', load, -⟩ := kept.loadState bounds pieces good
  obtain ⟨after, same, cells⟩ := kept.loaded bounds pieces good load
  exact ⟨w', congrArg (Option.map _) load, ⟨same, cells, after.live.counters,
    kept.savedLive.outputs pieces.size after.live same cells⟩, after.live⟩

end Runs

end ImDsse
