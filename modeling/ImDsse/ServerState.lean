import ImDsse.Kit.Text
import ImDsse.MatrixFiles
import ImDsse.DiskCorrect

/-!
The server's state on disk (`Server_DSSE::saveState` and `Server_DSSE::loadState`).

With the index in memory both move the whole index between memory and the piece files.
In `DISK_STORAGE_MODE` the piece files are the index, every request works on them in
place, and only the block counters are saved and loaded. `Storage` is what a run needs
of either server, and `Storage.Restores` what saves and loads do in terms of the store
of cells: a save leaves the store in the piece files, and a load takes the server to the
store that is in the piece files then.
-/

namespace ImDsse

open Kit Kit.Loop Kit.Bits Kit.Files Kit.Text

variable {Key : Type} {σ : Type}

/-! ### The index in the piece files -/

/-- Nothing reads the states and counters of a server whose clients decrypt, and its
constructor does not allocate them: they stand as zero. -/
def RamServer.allocated (cfg : Config) (s : RamServer) : RamServer :=
  { s with
    blockStateMat := if cfg.decryptAtClientSide then fun _ => zeroBuf else s.blockStateMat
    blockCounterArr := if cfg.decryptAtClientSide then fun _ => 0 else s.blockCounterArr }

/-- The index in a directory of piece files, with block counters. -/
def heldIndex (cfg : Config) (files : PieceFiles) (counter : Nat → Nat) : RamServer :=
  ⟨cfg.matrixGrid.matrix files, cfg.stateGrid.matrix files, counter⟩

/-- The piece files hold a store. -/
structure PiecesHold (cfg : Config) (files : PieceFiles) (t : CellStore) : Prop where
  matrix : cfg.matrixGrid.Formed files
  state : cfg.decryptAtClientSide = false → cfg.stateGrid.Formed files
  cells : ((heldIndex cfg files t.counter).allocated cfg).cells cfg = t

/-- The pieces of the matrix are the same in two directories, and those of the state
matrix where there is one. -/
structure SameFiles (cfg : Config) (files files' : PieceFiles) : Prop where
  matrix : cfg.matrixGrid.SamePieces files files'
  state : cfg.decryptAtClientSide = false → cfg.stateGrid.SamePieces files files'

/-- The text of `block_counter_arr` holds the counters of a store. -/
structure CountersHold (cfg : Config) (blockCounterFile : TextFile) (t : CellStore) : Prop where
  fits : ∀ b, b < cfg.numBlocks → t.counter b < 2 ^ 64
  written : blockCounterFile = writeArray cfg.numBlocks t.counter

/-- The counters in the text are read back. -/
theorem CountersHold.read {cfg : Config} {blockCounterFile : TextFile} {t : CellStore}
    (holds : CountersHold cfg blockCounterFile t) (old : Nat → Nat) {b : Nat}
    (hb : b < cfg.numBlocks) : readArray cfg.numBlocks blockCounterFile old b = t.counter b := by
  rw [holds.written, readArray_writeArray holds.fits, if_pos hb]

theorem SameFiles.refl (cfg : Config) (files : PieceFiles) : SameFiles cfg files files :=
  ⟨Grid.SamePieces.refl, fun _ => Grid.SamePieces.refl⟩

/-- What the files need of the sizes: pieces that cover the matrix, and whole bytes of
states where there are states. -/
structure Config.InPieces (cfg : Config) : Prop where
  size : cfg.Tiled
  cols : cfg.matrixPieceColSize ∣ cfg.matrixColSize
  stateBytes : cfg.decryptAtClientSide = false → 8 ∣ cfg.numBlocks

/-- Under these sizes the index moves between memory and the piece files: there are pieces
of states where there are states, and the size of `I_piece` is an `int`. -/
structure Config.InMemory (cfg : Config) : Prop where
  states : cfg.decryptAtClientSide = false → cfg.numBlocks ≠ 0
  pieceBytes : cfg.pieceBytes.isSome

section Held

variable {cfg : Config} {s t : RamServer}

theorem allocated_server (server : cfg.decryptAtClientSide = false) (s : RamServer) :
    s.allocated cfg = s := by
  simp [RamServer.allocated, server]

@[simp] theorem allocated_allocated (s : RamServer) :
    (s.allocated cfg).allocated cfg = s.allocated cfg := by
  cases build : cfg.decryptAtClientSide <;> simp [RamServer.allocated, build]

theorem SameIndex.allocated (s : RamServer) : SameIndex cfg s (s.allocated cfg) where
  I _ _ _ _ := rfl
  blockStateMat server _ _ _ _ := by rw [allocated_server server]
  blockCounterArr server _ _ := by rw [allocated_server server]

theorem RamServer.cells_counter (s : RamServer) {b : Nat} (hb : b < cfg.numBlocks) :
    (s.cells cfg).counter b = s.blockCounterArr b := cellsOf_counter hb

variable (pieces : cfg.InPieces)
include pieces

/-- Indexes that agree are the same store. -/
theorem SameIndex.cells (same : SameIndex cfg s t) :
    (s.allocated cfg).cells cfg = (t.allocated cfg).cells cfg := by
  have width := pieces.size.matrixColSize_mul
  refine cellsOf_eq_of_agree (fun r j => ?_) (fun r b => ?_) fun b => ?_
  · simp only [RamServer.cells, cellsOf, RamServer.allocated]
    by_cases inside : r < cfg.matrixRowSize ∧ j < cfg.maxNumOfFiles
    · rw [bit, bit, same.I r _ inside.1 (by omega)]
    · simp [inside]
  · simp only [RamServer.cells, cellsOf, RamServer.allocated]
    cases server : cfg.decryptAtClientSide with
    | true => rfl
    | false =>
      have whole := pieces.stateBytes server
      by_cases inside : r < cfg.matrixRowSize ∧ b < cfg.numBlocks
      · simp only [Bool.false_eq_true, if_false]
        rw [bit, bit, same.blockStateMat server r _ inside.1 (by omega)]
      · simp [inside]
  · simp only [RamServer.cells, cellsOf, RamServer.allocated]
    cases server : cfg.decryptAtClientSide with
    | true => rfl
    | false =>
      by_cases inside : b < cfg.numBlocks
      · rw [if_pos inside, if_pos inside]
        exact (same.blockCounterArr server b inside).symm
      · rw [if_neg inside, if_neg inside]

theorem Config.InPieces.matrixGrid_even : cfg.matrixGrid.Even :=
  Config.matrixGrid_even pieces.cols

theorem Config.InPieces.statePieces (inMemory : cfg.InMemory)
    (server : cfg.decryptAtClientSide = false) : cfg.blockStatePieceColSize ≠ 0 := by
  have whole := pieces.stateBytes server
  have := inMemory.states server
  unfold Config.blockStatePieceColSize
  omega

/-- Pieces of the right size hold some store, with any counters. -/
theorem PiecesHold.held {files : PieceFiles} (matrix : cfg.matrixGrid.Formed files)
    (state : cfg.decryptAtClientSide = false → cfg.stateGrid.Formed files) (counter : Nat → Nat) :
    PiecesHold cfg files (((heldIndex cfg files counter).allocated cfg).cells cfg) where
  matrix := matrix
  state := state
  cells := by
    refine SameIndex.cells pieces ⟨fun _ _ _ _ => rfl, fun _ _ _ _ _ => rfl, fun server b hb => ?_⟩
    refine (RamServer.cells_counter _ hb).trans ?_
    rw [allocated_server server]

/-- Files with the same pieces hold the same store. -/
theorem PiecesHold.of_same {files files' : PieceFiles} {t : CellStore}
    (holds : PiecesHold cfg files t) (same : SameFiles cfg files files') :
    PiecesHold cfg files' t where
  matrix := same.matrix.formed holds.matrix
  state server := (same.state server).formed (holds.state server)
  cells := by
    refine Eq.trans (SameIndex.cells pieces ?_) holds.cells
    exact
      { I := fun r j hr hj => same.matrix.matrix pieces.matrixGrid_even holds.matrix hr hj
        blockStateMat := fun server r j hr hj =>
          (same.state server).matrix cfg.stateGrid_even (holds.state server) hr hj
        blockCounterArr := fun _ _ _ => rfl }

end Held

/-! ### Servers with their files -/

/-- A server as a run sees it. `start` is a process just started in a directory, with
whatever is in its memory; `loadState` is given the text of `block_counter_arr`. -/
structure Storage (σ Key : Type) where
  machine : Machine σ (Command Key) (Response Key)
  files : σ → PieceFiles
  start : PieceFiles → σ → σ
  index : σ → RamServer
  loadState : σ → TextFile → Option σ
  saveState : σ → Option σ

/-- A server with the index in memory, and its directory. -/
structure RamProcess where
  server : RamServer
  files : PieceFiles

section Servers

variable (cfg : Config) (cr : Cipher Key)

/-- `Server_DSSE::loadState` without `DISK_STORAGE_MODE`. -/
def RamServer.loadState (s : RamServer) (files : PieceFiles) (blockCounterFile : TextFile) :
    Option RamServer :=
  (loadEncryptedMatrix cfg files s.I).bind fun I =>
    if cfg.decryptAtClientSide then some { s with I := I }
    else (loadBlockStateMatrix cfg files s.blockStateMat).map fun blockStateMat =>
      { I := I
        blockStateMat := blockStateMat
        blockCounterArr := readArray cfg.numBlocks blockCounterFile s.blockCounterArr }

/-- The piece files after `Server_DSSE::saveState` without `DISK_STORAGE_MODE`. -/
def RamServer.saveState (s : RamServer) (files : PieceFiles) : Option PieceFiles :=
  (saveEncryptedMatrix cfg files s.I).bind fun files =>
    if cfg.decryptAtClientSide then some files else saveBlockStateMatrix cfg files s.blockStateMat

/-- The server with the index in memory. -/
def ramStorage : Storage RamProcess Key where
  machine :=
    { step := fun p c => ((ramServer cfg cr).step p.server c).map fun (s, r) =>
        ({ p with server := s }, r) }
  files p := p.files
  start files p := ⟨p.server.allocated cfg, files⟩
  index p := p.server
  loadState p blockCounterFile :=
    (p.server.loadState cfg p.files blockCounterFile).map fun s => { p with server := s }
  saveState p := (p.server.saveState cfg p.files).map fun files => { p with files := files }

/-- `Server_DSSE::loadState` with `DISK_STORAGE_MODE`. -/
def DiskServer.loadState (s : DiskServer) (blockCounterFile : TextFile) : DiskServer :=
  if cfg.decryptAtClientSide then s
  else { s with blockCounterArr := readArray cfg.numBlocks blockCounterFile s.blockCounterArr }

/-- The server in `DISK_STORAGE_MODE`, which saves no piece files: they are there. -/
def diskStorage : Storage DiskServer Key where
  machine := diskServer cfg cr
  files s := s.files
  start files s := { s with files := files }
  index s := (s.index cfg).allocated cfg
  loadState s blockCounterFile := some (s.loadState cfg blockCounterFile)
  saveState s := some s

end Servers

/-- What saves and loads do, in terms of the store the server is in. -/
structure Storage.Restores (S : Storage σ Key) (cfg : Config) (cr : Cipher Key) where
  ref : Refinement cfg cr S.machine
  /-- What a load needs of the process it is made in. -/
  Alive : σ → Prop
  alive : ∀ {s t}, ref.Rel s t → Alive s
  started : ∀ files s, Alive (S.start files s) ∧ S.files (S.start files s) = files
  cells : ∀ {s t}, ref.Rel s t → (S.index s).cells cfg = t
  save : ∀ {s t s'}, ref.Rel s t → S.saveState s = some s' →
    ref.Rel s' t ∧ PiecesHold cfg (S.files s') t
  load : ∀ {s t blockCounterFile}, Alive s → PiecesHold cfg (S.files s) t →
    (cfg.decryptAtClientSide = false → CountersHold cfg blockCounterFile t) →
    ∃ s', S.loadState s blockCounterFile = some s' ∧ ref.Rel s' t ∧ S.files s' = S.files s

/-! ### The server in memory -/

section Ram

variable {cfg : Config} (pieces : cfg.InPieces) {s : RamServer}

/-- The server in memory is a store, and allocates nothing on the way. -/
theorem ramServer_allocated_refines (size : cfg.Tiled) (cr : Cipher Key)
    (allocated : s.allocated cfg = s) {c : Command Key} (valid : c.Valid cfg) :
    Machine.Lockstep (fun s t => s.cells cfg = t ∧ s.allocated cfg = s) Eq
      ((ramServer cfg cr).step s c) ((cellStore cfg cr).step (s.cells cfg) c) := by
  refine (ramServer_refines size cr s valid).and_left fun s' r step => ?_
  cases build : cfg.decryptAtClientSide with
  | false => exact allocated_server build s'
  | true =>
    have states := congrArg RamServer.blockStateMat allocated
    have counters := congrArg RamServer.blockCounterArr allocated
    cases c with
    | searchOperation tau =>
      simp only [ramServer, build, if_true] at step
      cases step
    | requestSearchData row => cases step; exact allocated
    | requestBlockData b => cases step; exact allocated
    | updateBlockData b data =>
      cases step
      rw [updateBlockData_eq]
      simp only [RamServer.allocated, build, if_true] at states counters ⊢
      rw [states, counters]

include pieces

/-- A save leaves the index in the files. -/
theorem RamServer.saveState_holds {files files' : PieceFiles} (allocated : s.allocated cfg = s)
    (save : s.saveState cfg files = some files') : PiecesHold cfg files' (s.cells cfg) := by
  obtain ⟨formed, matrix, -⟩ := Grid.saveMatrix_spec files pieces.matrixGrid_even s.I
  have cells : ∀ {files'}, SameIndex cfg (heldIndex cfg files' (s.cells cfg).counter) s →
      ((heldIndex cfg files' (s.cells cfg).counter).allocated cfg).cells cfg = s.cells cfg := by
    intro files' same
    rw [same.cells pieces, allocated]
  obtain ⟨_, saved, save⟩ := Option.bind_eq_some_iff.mp save
  obtain ⟨-, -, rfl⟩ := Option.map_eq_some_iff.mp saved
  cases build : cfg.decryptAtClientSide with
  | true =>
    have client : ¬ cfg.decryptAtClientSide = false := by rw [build]; decide
    rw [build, if_pos rfl] at save
    cases save
    refine ⟨formed, fun server => absurd server client, cells ?_⟩
    exact ⟨matrix, fun server => absurd server client,
      fun server => absurd server client⟩
  | false =>
    rw [build, if_neg (by decide)] at save
    unfold saveBlockStateMatrix at save
    split at save
    · cases save
    · cases save
      obtain ⟨formed', states, untouched⟩ := Grid.saveMatrix_spec
        (cfg.matrixGrid.saveMatrix files s.I) cfg.stateGrid_even s.blockStateMat
      obtain ⟨kept, same⟩ := formed.of_untouched
        (fun m n m' n' => (state_ne_matrix cfg m' n' m n).symm) untouched
      refine ⟨kept, fun _ => formed', cells ⟨fun r j hr hj => ?_, fun _ => states, ?_⟩⟩
      · exact (congrFun (congrFun same r) j).trans (matrix r j hr hj)
      · exact fun _ b hb => s.cells_counter hb

/-- A save goes on. -/
theorem RamServer.saveState_goes_on (inMemory : cfg.InMemory) (s : RamServer) (files : PieceFiles) :
    ∃ files', s.saveState cfg files = some files' := by
  obtain ⟨bytes, computed⟩ := Option.isSome_iff_exists.mp inMemory.pieceBytes
  unfold RamServer.saveState saveEncryptedMatrix
  rw [computed, Option.map_some, Option.bind_some]
  cases build : cfg.decryptAtClientSide with
  | true => exact ⟨_, rfl⟩
  | false => exact ⟨_, if_neg (pieces.statePieces inMemory build)⟩

/-- A load takes the index in the files. -/
theorem RamServer.loadState_holds {files : PieceFiles} {t : CellStore}
    {blockCounterFile : TextFile} (allocated : s.allocated cfg = s)
    (holds : PiecesHold cfg files t)
    (counters : cfg.decryptAtClientSide = false → CountersHold cfg blockCounterFile t)
    (inMemory : cfg.InMemory) :
    ∃ s', s.loadState cfg files blockCounterFile = some s' ∧ s'.cells cfg = t ∧
      s'.allocated cfg = s' := by
  have even := pieces.matrixGrid_even
  have matrix : ∀ r j, r < cfg.matrixRowSize → j < cfg.matrixColSize →
      cfg.matrixGrid.loadMatrix files s.I r j = cfg.matrixGrid.matrix files r j := by
    intro r j hr hj
    rw [Grid.loadMatrix_apply even holds.matrix]
    exact if_pos ⟨hr, hj⟩
  obtain ⟨bytes, computed⟩ := Option.isSome_iff_exists.mp inMemory.pieceBytes
  unfold RamServer.loadState loadEncryptedMatrix
  rw [computed, Option.bind_some, if_pos (holds.matrix.present even), Option.bind_some]
  cases build : cfg.decryptAtClientSide with
  | true =>
    have client : ¬ cfg.decryptAtClientSide = false := by rw [build]; decide
    have states := congrArg RamServer.blockStateMat allocated
    have updates := congrArg RamServer.blockCounterArr allocated
    simp only [RamServer.allocated, build, if_true] at states updates
    have kept : ({ s with I := cfg.matrixGrid.loadMatrix files s.I } : RamServer).allocated cfg =
        { s with I := cfg.matrixGrid.loadMatrix files s.I } := by
      simp only [RamServer.allocated, build, if_true]
      rw [← states, ← updates]
    refine ⟨_, rfl, ?_, kept⟩
    have same : SameIndex cfg { s with I := cfg.matrixGrid.loadMatrix files s.I }
        (heldIndex cfg files t.counter) :=
      ⟨matrix, fun server => absurd server client,
        fun server => absurd server client⟩
    have cells := (same.cells pieces).trans holds.cells
    rwa [kept] at cells
  | false =>
    have pos := pieces.statePieces inMemory build
    unfold loadBlockStateMatrix
    rw [if_neg (by decide), if_neg pos, Option.map_some]
    refine ⟨_, rfl, ?_, allocated_server build _⟩
    have same : SameIndex cfg
        ⟨cfg.matrixGrid.loadMatrix files s.I, cfg.stateGrid.loadMatrix files s.blockStateMat,
          readArray cfg.numBlocks blockCounterFile s.blockCounterArr⟩
        (heldIndex cfg files t.counter) := by
      refine ⟨matrix, fun _ r j hr hj => ?_, fun _ b hb => ?_⟩
      · have loaded := Grid.loadMatrix_apply cfg.stateGrid_even (holds.state build)
          s.blockStateMat r j
        exact loaded.trans (if_pos ⟨hr, hj⟩)
      · exact (counters build).read _ hb
    have cells := (same.cells pieces).trans holds.cells
    rwa [allocated_server build] at cells

/-- The server in memory saves its index and loads it back. -/
def ramRestores (cr : Cipher Key) (inMemory : cfg.InMemory) : (ramStorage cfg cr).Restores cfg cr where
  ref :=
    { Rel := fun p t => p.server.cells cfg = t ∧ p.server.allocated cfg = p.server
      Ready := fun _ _ => True
      step := by
        rintro p t c ⟨rfl, allocated⟩ valid -
        have step := ramServer_allocated_refines pieces.size cr allocated valid
        cases goes : (cellStore cfg cr).step (p.server.cells cfg) c with
        | none =>
          rw [goes] at step
          cases hs : (ramServer cfg cr).step p.server c with
          | none =>
            simp only [ramStorage, hs]
            exact .none
          | some q => rw [hs] at step; cases step
        | some q =>
          rw [goes] at step
          cases hs : (ramServer cfg cr).step p.server c with
          | none => rw [hs] at step; cases step
          | some q' =>
            rw [hs] at step
            cases step with
            | some both =>
              simp only [ramStorage, hs]
              exact .some both
      fetched := fun _ _ _ => trivial
      single := fun _ _ _ => trivial }
  Alive p := p.server.allocated cfg = p.server
  alive rel := rel.2
  started files p := ⟨allocated_allocated p.server, rfl⟩
  cells rel := rel.1
  save := by
    rintro p _ p' ⟨rfl, allocated⟩ save
    obtain ⟨files, saved, rfl⟩ := Option.map_eq_some_iff.mp save
    exact ⟨⟨rfl, allocated⟩, RamServer.saveState_holds pieces allocated saved⟩
  load := by
    intro p t blockCounterFile allocated holds counters
    obtain ⟨s', load, cells, allocated'⟩ :=
      RamServer.loadState_holds pieces allocated holds counters inMemory
    refine ⟨{ p with server := s' }, ?_, ⟨cells, allocated'⟩, rfl⟩
    exact congrArg (Option.map fun s => { p with server := s }) load

end Ram

/-- Requests leave the directory of the server in memory alone. -/
theorem ramStorage_files {cfg : Config} {cr : Cipher Key} {p p' : RamProcess} {c : Command Key}
    {r : Response Key} (step : (ramStorage cfg cr).machine.step p c = some (p', r)) :
    p'.files = p.files := by
  simp only [ramStorage, Option.map_eq_some_iff] at step
  obtain ⟨⟨s, r'⟩, -, h⟩ := step
  cases h
  rfl

/-! ### The server on disk -/

section Disk

variable {cfg : Config} (pieces : cfg.InPieces) (h : cfg.OnDisk)
include pieces h

/-- The server on disk saves its counters and loads them back; its piece files are what
they are. -/
def diskRestores (cr : Cipher Key) : (diskStorage cfg cr).Restores cfg cr where
  ref :=
    { Rel := fun s u => ∃ t, OnFiles cfg s t ∧ t.cells cfg = u ∧ t.allocated cfg = t
      Ready := fun b s => cfg.encryptBlockSize = 1 ∨ s.Current cfg b
      step := by
        rintro s _ c ⟨t, rel, rfl, allocated⟩ valid ready
        exact (diskServer_lockstep h rel cr valid ready).trans
          (ramServer_allocated_refines pieces.size cr allocated valid)
      fetched := by
        rintro s _ b s' o ⟨t, rel, -⟩ hb step
        cases step
        exact .inr (current_loaded h rel.formed hb)
      single := DiskServer.ready_of_single }
  Alive _ := True
  alive _ := trivial
  started _ _ := ⟨trivial, rfl⟩
  cells := by
    rintro s _ ⟨t, rel, rfl, allocated⟩
    exact (rel.same.cells pieces).trans (by rw [allocated])
  save := by
    rintro s _ s' ⟨t, rel, rfl, allocated⟩ save
    cases save
    refine ⟨⟨t, rel, rfl, allocated⟩, rel.formed.matrix, rel.formed.state, ?_⟩
    have same : SameIndex cfg (heldIndex cfg s.files (t.cells cfg).counter) t :=
      ⟨rel.same.I, rel.same.blockStateMat, fun _ b hb => t.cells_counter hb⟩
    exact (same.cells pieces).trans (by rw [allocated])
  load := by
    intro s t blockCounterFile _ holds counters
    have files : (s.loadState cfg blockCounterFile).files = s.files := by
      unfold DiskServer.loadState
      split <;> rfl
    refine ⟨_, rfl, ⟨_, ⟨?_, SameIndex.allocated _⟩, ?_, allocated_allocated _⟩, files⟩
    · exact ⟨by rw [files]; exact holds.matrix, fun server => by rw [files]; exact holds.state server⟩
    · have same : SameIndex cfg ((s.loadState cfg blockCounterFile).index cfg)
          (heldIndex cfg s.files t.counter) := by
        refine ⟨fun r j _ _ => ?_, fun _ r j _ _ => ?_, fun server b hb => ?_⟩
        · simp only [DiskServer.index, DiskServer.I, files, heldIndex]
        · simp only [DiskServer.index, DiskServer.blockStateMat, files, heldIndex]
        · simp only [DiskServer.index, DiskServer.loadState, server, Bool.false_eq_true, if_false]
          exact (counters server).read _ hb
      exact (same.cells pieces).trans holds.cells

end Disk

end ImDsse
