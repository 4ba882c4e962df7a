import ImDsse.Delivery
import ImDsse.Restart
import ImDsse.Sessions

/-!
The menu of `main` over the sockets.

A user of the client loads, builds, searches, adds, deletes and saves. `deployment` makes
each choice in one step of both parties; here the client sends what the source sends and
the server is its loop, on another machine with files of its own. A build is then some
dozens of requests that bring the index file by file, and a load that finds it.

The two sides together keep to the deployment (`Agrees.step`), so what is proved of its
runs holds over the sockets (`menu_settles`): however client, server and lines take
turns, a run of the menu comes to the end the deployment comes to and shows what it
reports.
-/

namespace ImDsse

open Kit Kit.Loop Kit.Bits Kit.Files Kit.Text

variable {σ : Type} {τ : Type} [DecidableEq τ]

/-! ### The client -/

/-- A client with its files: those of `saveState`, and what an upload reads. -/
structure ClientSite (τ : Type) where
  process : ClientProcess τ BlockKey
  clientFiles : ClientFiles τ
  files : LocalFiles

/-- What a user can choose. A load may be made by a client just started, with this in its
memory. -/
inductive Choice (τ : Type) where
  | loadState (memory : Option (ClientProcess τ BlockKey)) (tmp : τ × τ)
  | build (masterKey : MasterKey) (path : Str) (db : Listing) (keywordsDictionary : List Str)
      (draws : Nat → Nat) (files : PieceFiles) (buckets : Buckets τ)
  | operate (op : ClientOp)
  | saveState (buckets : Buckets τ)

/-- What a choice is to both parties together. -/
def Choice.action : Choice τ → Action σ τ BlockKey
  | .loadState memory tmp => .loadState memory none tmp
  | .build masterKey path db keywordsDictionary draws files buckets =>
    .build masterKey path db keywordsDictionary draws files buckets
  | .operate op => .operate op
  | .saveState buckets => .saveState buckets

namespace ClientSite

/-- The files of a client. -/
def filesPart : Portion LocalFiles (ClientSite τ) where
  get l := l.files
  put files l := { l with files := files }
  get_put _ _ := rfl
  put_get _ := rfl
  put_put _ _ _ := rfl

/-- What operations work on. -/
def clientPart : Portion (Client τ BlockKey) (ClientSite τ) where
  get l := l.process.client
  put c l := { l with process := { l.process with client := c } }
  get_put _ _ := rfl
  put_get _ := rfl
  put_put _ _ _ := rfl

variable (cfg : Config) (prim : Primitives τ BlockKey) (padding : Nat → Byte)

/-- `Client_DSSE::createEncrypted_data_structure` up to what it sends. -/
def build (masterKey : MasterKey) (path : Str) (db : Listing) (keywordsDictionary : List Str)
    (draws : Nat → Nat) (files : PieceFiles) (buckets : Buckets τ) (l : ClientSite τ) :
    Option (ClientSite τ) :=
  let index := l.process.client.index
  (setupDataStructure cfg (prim.cipherOf masterKey) (prim.trapdoorOf masterKey) path db
      keywordsDictionary index.keywordCounterArr index.blockCounterArr draws files).map fun out =>
    let process := out.process cfg prim masterKey index.rowKeys
    let clientFiles := process.saveState cfg buckets
    { process := process
      clientFiles := clientFiles
      files := indexFiles out.files clientFiles.blockCounterArr }

/-- A choice of the menu. -/
def choiceCalls : Choice τ → Talk (ClientSite τ) Part (Option Shown)
  | .loadState memory tmp =>
    .work (fun l =>
      let process := (memory.map fun memory => memory.start cfg prim).getD l.process
      (process.loadState cfg prim l.clientFiles tmp).map fun process =>
        ({ l with process := process }, ())) fun _ => do
        sendCommandOnly cmdLoadState
        pure none
  | .build masterKey path db keywordsDictionary draws files buckets =>
    .work (fun l => (build cfg prim masterKey path db keywordsDictionary draws files buckets l).map
      fun l => (l, ())) fun _ => do
        (sendEncryptedIndex cfg).within filesPart
        sendCommandOnly cmdLoadState
        pure none
  | .operate op =>
    .work (fun l => some (l, l.process.masterKey)) fun masterKey => do
      let shown ← (Remote.opCalls cfg (prim.cipherOf masterKey) (prim.trapdoorOf masterKey) padding
        op).within clientPart
      pure (some shown)
  | .saveState buckets =>
    .work (fun l => some ({ l with clientFiles := l.process.saveState cfg buckets }, ())) fun _ => do
      sendCommandOnly cmdSaveState
      pure none

/-- Choice by choice, with what each shows. -/
def menuCalls : List (Choice τ) → Talk (ClientSite τ) Part (List (Option Shown))
  | [] => pure []
  | choice :: choices => do
    let shown ← choiceCalls cfg prim padding choice
    let rest ← menuCalls choices
    pure (shown :: rest)

end ClientSite

/-- What a choice shows of what the deployment reports. -/
def shownOf (cfg : Config) {α : Type} (o : Option (Report × α)) : Option Shown :=
  o.map fun o => o.1.shown cfg

/-! ### A server with its files as a store -/

section Site

variable {cfg : Config} {cr : Cipher BlockKey} {S : Storage σ BlockKey}
  {setFiles : σ → PieceFiles → σ} {opens : List Byte → Bool} {h h' : ServerSite σ}

/-- The files beside a server change nothing in how it answers. -/
def Refinement.site (ref : Refinement cfg cr S.machine) (setFiles : σ → PieceFiles → σ)
    (opens : List Byte → Bool) : Refinement cfg cr (siteBackend cfg S setFiles opens).index where
  Rel h t := ref.Rel h.server t
  Ready b h := ref.Ready b h.server
  step := by
    intro h t c rel valid ready
    have agree := ref.step rel valid ready
    cases step : S.machine.step h.server c with
    | none =>
      rw [step] at agree
      have stop : (siteBackend cfg S setFiles opens).index.step h c = none := by
        simp only [siteBackend, step, Option.map_none]
      cases store : (cellStore cfg cr).step t c with
      | none =>
        rw [stop]
        exact .none
      | some q =>
        rw [store] at agree
        cases agree
    | some p =>
      rw [step] at agree
      have goes : (siteBackend cfg S setFiles opens).index.step h c =
          some ({ h with server := p.1 }, p.2) := by
        simp only [siteBackend, step, Option.map_some]
      cases store : (cellStore cfg cr).step t c with
      | none =>
        rw [store] at agree
        cases agree
      | some q =>
        rw [store] at agree
        rw [goes]
        cases agree with
        | some both => exact .some both
  fetched := by
    intro h t b h' o rel inside step
    obtain ⟨⟨s, r⟩, step, eq⟩ := Option.map_eq_some_iff.mp step
    cases eq
    exact ref.fetched rel inside step
  single one b h := ref.single one b h.server

/-- Requests leave the text of the counters alone, and the pieces where the server does. -/
theorem ServerSite.exec_files {commands : List (Command BlockKey)}
    (run : (siteBackend cfg S setFiles opens).index.exec h commands = some h') :
    h'.blockCounterFile = h.blockCounterFile ∧
      (S.KeepsFiles → S.files h'.server = S.files h.server) := by
  have always : (siteBackend cfg S setFiles opens).index.Along (fun _ _ => True) h commands :=
    Machine.along_of_forall (fun _ _ => trivial) _ _
  refine Machine.invariant (fun h₁ => h₁.blockCounterFile = h.blockCounterFile ∧
    (S.KeepsFiles → S.files h₁.server = S.files h.server)) ?_ ⟨rfl, fun _ => rfl⟩ always run
  rintro h₁ c h₂ r ⟨counters, files⟩ - step
  obtain ⟨⟨s, r'⟩, step, eq⟩ := Option.map_eq_some_iff.mp step
  cases eq
  exact ⟨counters, fun keeps => (keeps _ _ _ _ step).trans (files keeps)⟩

end Site

/-! ### Both sides and the deployment -/

/-- The two sides are those of the deployment: the client is the same with the same files,
the server is in the same state of the store, and its files have the last save. -/
structure Agrees {cfg : Config} {prim : Primitives τ BlockKey} {S : Storage σ BlockKey}
    (restores : S.Restores cfg prim.cipher) (l : ClientSite τ) (h : ServerSite σ)
    (w saved : World σ τ BlockKey) : Prop where
  kept : Kept restores w saved
  process : l.process = w.process
  clientFiles : l.clientFiles = w.clientFiles
  server : restores.ref.Rel h.server ((S.index w.server).cells cfg)
  pieces : S.KeepsFiles → PiecesHold cfg (S.files h.server) ((S.index saved.server).cells cfg)
  blockCounters : cfg.decryptAtClientSide = false → h.blockCounterFile = w.blockCounterFile

/-- The files of the index open for writing. -/
structure Opens (cfg : Config) (opens : List Byte → Bool) : Prop where
  pieces : ∀ piece ∈ cfg.sentPieces, opens piece.path = true
  counters : cfg.decryptAtClientSide = false → opens blockCounterPath = true

/-- Directories that hold the same store hold the same matrices. -/
theorem PiecesHold.transfer {cfg : Config} {files files' : PieceFiles} {t u : CellStore}
    (holds : PiecesHold cfg files t) (holds' : PiecesHold cfg files' t)
    (other : PiecesHold cfg files u) : PiecesHold cfg files' u where
  matrix := holds'.matrix
  state := holds'.state
  cells := by
    let held (files : PieceFiles) (counter : Nat → Nat) : CellStore :=
      ((heldIndex cfg files counter).allocated cfg).cells cfg
    have same : held files' t.counter = held files t.counter := holds'.cells.trans holds.cells.symm
    have cells : held files u.counter = u := other.cells
    -- cells and states do not depend on the counters
    have cell : (held files' u.counter).cell = u.cell :=
      calc (held files' u.counter).cell = (held files' t.counter).cell := rfl
        _ = (held files t.counter).cell := congrArg CellStore.cell same
        _ = (held files u.counter).cell := rfl
        _ = u.cell := congrArg CellStore.cell cells
    have state : (held files' u.counter).state = u.state :=
      calc (held files' u.counter).state = (held files' t.counter).state := rfl
        _ = (held files t.counter).state := congrArg CellStore.state same
        _ = (held files u.counter).state := rfl
        _ = u.state := congrArg CellStore.state cells
    have counter : (held files' u.counter).counter = u.counter :=
      calc (held files' u.counter).counter = (held files u.counter).counter := rfl
        _ = u.counter := congrArg CellStore.counter cells
    cases u
    exact congr (congr (congrArg CellStore.mk cell) state) counter

section Steps

variable {cfg : Config} {prim : Primitives τ BlockKey} {S : Storage σ BlockKey}
  {restores : S.Restores cfg prim.cipher} (receives : Storage.Receives restores)
  {opens : List Byte → Bool} {l : ClientSite τ} {h : ServerSite σ} {w w' saved : World σ τ BlockKey}

/-- The loop of the server over its files. -/
abbrev siteLoop (receives : Storage.Receives restores) (opens : List Byte → Bool) :
    Buf → Talk (ServerSite σ) Part Buf :=
  Remote.loop (siteBackend cfg S receives.setFiles opens)

/-- An operation. -/
theorem Agrees.operate (padding : Nat → Byte) (bounds : cfg.Addressable) (size : cfg.Tiled)
    (agrees : Agrees restores l h w saved) {op : ClientOp} {o : Report × List (Command BlockKey)}
    (step : w.operate cfg prim S op = some (w', o)) :
    ∃ l' h', Meeting.Returns (siteLoop receives opens)
        (ClientSite.choiceCalls cfg prim padding (.operate op)) l h (some (o.1.shown cfg)) l' h' ∧
      Agrees restores l' h' w' saved := by
  have kept' := agrees.kept.operate size step
  obtain ⟨process, clientFiles, localFiles⟩ := l
  obtain rfl : process = w.process := agrees.process
  obtain ⟨⟨⟨s, c⟩, o'⟩, traced, eq⟩ := Option.map_eq_some_iff.mp step
  cases eq
  have inRange := agrees.kept.live.sound.tables
  have alone := tracedClient_step size inRange traced
  -- the server over its files answers as the one of the deployment
  obtain ⟨⟨t, c'⟩, report, store, ⟨rel, same⟩, rfl⟩ :=
    ((restores.ref.under w.process.masterKey).sim.clientMachine_lockstep _ _ size
      agrees.kept.live.server inRange op).of_left alone
  cases same
  obtain ⟨⟨h', c'⟩, report', beside, ⟨rel', same⟩, rfl⟩ :=
    (((restores.ref.under w.process.masterKey).site receives.setFiles opens).sim.clientMachine_lockstep
      _ _ size agrees.server inRange op).of_right store
  cases same
  obtain ⟨commands, run⟩ := clientMachine_requests size inRange beside
  obtain ⟨counters, files⟩ := ServerSite.exec_files run
  have cells : (S.index s).cells cfg = t := restores.cells rel
  have returns : Meeting.Returns (siteLoop receives opens)
      ((Remote.opCalls cfg (prim.cipherOf w.process.masterKey) (prim.trapdoorOf w.process.masterKey)
        padding op).within ClientSite.clientPart) ⟨w.process, clientFiles, localFiles⟩ h
      (o.1.shown cfg) ⟨{ w.process with client := c }, clientFiles, localFiles⟩ h' :=
    (Remote.op_returns rfl bounds inRange beside).within ClientSite.clientPart
  refine ⟨_, h', .work rfl (returns.bind (.pure _)), kept', rfl, agrees.clientFiles, ?_, ?_, ?_⟩
  · rw [cells]
    exact rel'
  · intro keeps
    rw [files keeps]
    exact agrees.pieces keeps
  · intro server
    rw [counters]
    exact agrees.blockCounters server

/-- A save. -/
theorem Agrees.saveState (padding : Nat → Byte) (agrees : Agrees restores l h w saved)
    {buckets : Buckets τ} (save : w.saveState cfg S false buckets = some w') :
    ∃ l' h', Meeting.Returns (siteLoop receives opens)
        (ClientSite.choiceCalls cfg prim padding (.saveState buckets)) l h none l' h' ∧
      Agrees restores l' h' w' w' := by
  obtain ⟨process, clientFiles, localFiles⟩ := l
  obtain rfl : process = w.process := agrees.process
  have kept' : Kept restores w' w' := agrees.kept.live.saveState save
  obtain ⟨sameProcess, cells⟩ := agrees.kept.live.saveState_same save
  obtain ⟨s, savedServer, eq⟩ := Option.map_eq_some_iff.mp save
  obtain ⟨s', saves⟩ := receives.saves h.server savedServer
  obtain ⟨rel, pieces⟩ := restores.save agrees.server saves
  -- both servers write the same counters
  have text : writeArray cfg.numBlocks (S.index h.server).blockCounterArr =
      writeArray cfg.numBlocks (S.index w.server).blockCounterArr :=
    writeArray_congr fun b inside => by
      rw [← RamServer.cells_counter (S.index h.server) inside, restores.cells agrees.server,
        RamServer.cells_counter (S.index w.server) inside]
  have saved' : (siteBackend cfg S receives.setFiles opens).saveState h = some
      { server := s'
        blockCounterFile :=
          if cfg.decryptAtClientSide then h.blockCounterFile
          else writeArray cfg.numBlocks (S.index h.server).blockCounterArr } :=
    congrArg (Option.map _) saves
  let l' : ClientSite τ := ⟨w.process, w.process.saveState cfg buckets, localFiles⟩
  have sent : Meeting.Returns (siteLoop receives opens) (sendCommandOnly cmdSaveState) l' h () l' _ :=
    sendCommandOnly_returns (by decide) rfl saved' l'
  refine ⟨l', _, .work rfl (sent.bind (.pure none)), kept', ?_, ?_, ?_, ?_, ?_⟩
  · exact sameProcess.symm
  · cases build : cfg.decryptAtClientSide <;>
    · rw [build] at eq
      subst eq
      rfl
  · rw [cells]
    exact rel
  · intro _
    rw [cells]
    exact pieces
  · intro server
    dsimp only
    rw [server] at eq ⊢
    subst eq
    exact text

/-- A load. -/
theorem Agrees.loadState (padding : Nat → Byte) (bounds : cfg.Addressable) (pieces : cfg.InPieces)
    (inPlace : S.KeepsFiles ∨ ∀ s, S.saveState s = some s) (agrees : Agrees restores l h w saved)
    {memory : Option (ClientProcess τ BlockKey)} {tmp : τ × τ}
    (good : Restorable cfg S w saved (.loadState memory none tmp))
    (load : w.loadState cfg prim S memory none tmp = some w') :
    ∃ l' h', Meeting.Returns (siteLoop receives opens)
        (ClientSite.choiceCalls cfg prim padding (.loadState memory tmp)) l h none l' h' ∧
      Agrees restores l' h' w' saved := by
  obtain ⟨process, clientFiles, localFiles⟩ := l
  obtain rfl : process = w.process := agrees.process
  obtain rfl : clientFiles = w.clientFiles := agrees.clientFiles
  obtain ⟨kept', -, cells⟩ := agrees.kept.loaded bounds pieces good load
  obtain ⟨process, read, loadServer⟩ := Option.bind_eq_some_iff.mp load
  obtain ⟨s, -, eq⟩ := Option.map_eq_some_iff.mp loadServer
  -- the files have the last save
  have holds : PiecesHold cfg (S.files h.server) ((S.index saved.server).cells cfg) := by
    rcases inPlace with keeps | same
    · exact agrees.pieces keeps
    · rcases good.2.2 with keeps | files
      · exact agrees.pieces keeps
      · have current := (restores.save agrees.kept.live.server (same w.server)).2
        have current' := (restores.save agrees.server (same h.server)).2
        exact current.transfer current' (agrees.kept.pieces.of_same pieces files)
  have counters : cfg.decryptAtClientSide = false →
      CountersHold cfg h.blockCounterFile ((S.index saved.server).cells cfg) := by
    intro server
    rw [agrees.blockCounters server]
    exact agrees.kept.blockCounters server
  obtain ⟨s', loaded, rel, files⟩ := restores.load (restores.alive agrees.server) holds counters
  have loads : (siteBackend cfg S receives.setFiles opens).loadState h =
      some { h with server := s' } := congrArg (Option.map _) loaded
  let l' : ClientSite τ := ⟨process, w.clientFiles, localFiles⟩
  have sent : Meeting.Returns (siteLoop receives opens) (sendCommandOnly cmdLoadState) l' h () l' _ :=
    sendCommandOnly_returns (by decide) rfl loads l'
  refine ⟨l', _, .work (congrArg (Option.map _) read) (sent.bind (.pure none)), kept', ?_, ?_, ?_, ?_, ?_⟩
  · subst eq
    rfl
  · subst eq
    rfl
  · rw [cells]
    exact rel
  · intro _
    rw [files]
    exact holds
  · subst eq
    exact agrees.blockCounters

/-- A build, whatever the server had before. -/
theorem build_agrees (padding : Nat → Byte) (bounds : cfg.Addressable) (pieces : cfg.InPieces)
    (sendable : cfg.Sendable) (writable : Opens cfg opens) (same : l.process = w.process)
    (started : w.process.Started cfg prim) (alive : restores.Alive h.server) {masterKey : MasterKey}
    {path : Str} {db : Listing} {dict : List Str} {draws : Nat → Nat} {files : PieceFiles}
    {buckets : Buckets τ}
    (build : w.build cfg prim S false masterKey path db dict draws files buckets = some w') :
    ∃ l' h', Meeting.Returns (siteLoop receives opens)
        (ClientSite.choiceCalls cfg prim padding
          (.build masterKey path db dict draws files buckets)) l h none l' h' ∧
      Agrees restores l' h' w' w' := by
  have kept' : Kept restores w' w' := build_kept pieces started build
  obtain ⟨process, clientFiles, localFiles⟩ := l
  obtain rfl : process = w.process := same
  obtain ⟨out, setup, build⟩ := Option.bind_eq_some_iff.mp build
  obtain ⟨s, loaded, build⟩ := Option.bind_eq_some_iff.mp build
  obtain ⟨s', again, rfl⟩ := Option.map_eq_some_iff.mp build
  cases again
  obtain ⟨formed, states⟩ := setup_files pieces.size.blockSize pieces.cols setup
  have state := fun server => (states server).2
  set process := out.process cfg prim masterKey w.process.client.index.rowKeys
  set arr := process.client.index.blockCounterArr
  have fits : ∀ b, b < cfg.numBlocks → arr b < 2 ^ 64 := fun b _ =>
    kept'.live.sound.blockCounters.fits b
  -- what the upload leaves, and what a load of it finds
  have narrow := narrow_writeArray cfg.numBlocks arr
  have filesOut : S.files s = out.files :=
    (receives.loads loaded).trans (restores.started out.files w.server).2
  have held : PiecesHold cfg out.files ((S.index s).cells cfg) := filesOut ▸ kept'.pieces
  have counters : cfg.decryptAtClientSide = false →
      CountersHold cfg (writeArray cfg.numBlocks arr) ((S.index s).cells cfg) := by
    intro server
    have held := kept'.blockCounters server
    dsimp only at held
    rw [server] at held
    exact held
  set delivered := h.delivered receives out.files (writeArray cfg.numBlocks arr)
  obtain ⟨s₁, loaded₁, rel, found⟩ := ServerSite.delivered_loads receives (h := h) pieces bounds
    sendable formed state narrow alive held counters
  obtain ⟨-, -, text⟩ := ServerSite.delivered_spec receives (h := h) pieces bounds sendable formed
    state narrow
  have loads : (siteBackend cfg S receives.setFiles opens).loadState delivered =
      some { delivered with server := s₁ } := congrArg (Option.map _) loaded₁
  let l' : ClientSite τ :=
    ⟨process, process.saveState cfg buckets, indexFiles out.files (writeArray cfg.numBlocks arr)⟩
  have sent : Meeting.Returns (siteLoop receives opens)
      ((sendEncryptedIndex cfg).within ClientSite.filesPart) l' h () l' delivered :=
    (sendEncryptedIndex_returns receives pieces bounds sendable formed state writable.pieces
      writable.counters fits fun server => Nat.ne_zero_of_lt (states server).1).within
        ClientSite.filesPart
  have taken : Meeting.Returns (siteLoop receives opens) (sendCommandOnly cmdLoadState) l' delivered ()
      l' { delivered with server := s₁ } := sendCommandOnly_returns (by decide) rfl loads l'
  have works : (ClientSite.build cfg prim masterKey path db dict draws files buckets
      ⟨w.process, clientFiles, localFiles⟩).map (fun l => (l, ())) = some (l', ()) := by
    unfold ClientSite.build
    dsimp only
    rw [setup]
    rfl
  refine ⟨l', _, .work works (sent.bind (taken.bind (.pure none))), kept', rfl, rfl, rel,
    fun _ => found, fun server => ?_⟩
  dsimp only
  rw [text, server, if_neg (by decide), if_neg (by decide)]
  rfl

variable (padding : Nat → Byte) (bounds : cfg.Addressable) (pieces : cfg.InPieces)
  (sendable : cfg.Sendable) (writable : Opens cfg opens)
  (inPlace : S.KeepsFiles ∨ ∀ s, S.saveState s = some s)
include bounds pieces sendable writable inPlace

/-- Every choice keeps the two sides and the deployment together. -/
theorem Agrees.step (agrees : Agrees restores l h w saved) {choice : Choice τ}
    {o : Option (Report × List (Command BlockKey))}
    (good : Restorable cfg S w saved choice.action)
    (step : (deployment cfg prim S false).step w choice.action = some (w', o)) :
    ∃ l' h', Meeting.Returns (siteLoop receives opens) (ClientSite.choiceCalls cfg prim padding choice)
        l h (shownOf cfg o) l' h' ∧
      Agrees restores l' h' w'
        (if (choice.action : Action σ τ BlockKey).saves then w' else saved) := by
  cases choice with
  | loadState memory tmp =>
    obtain ⟨w₁, load, eq⟩ := Option.map_eq_some_iff.mp step
    cases eq
    exact agrees.loadState receives padding bounds pieces inPlace good load
  | build masterKey path db dict draws files buckets =>
    obtain ⟨w₁, build, eq⟩ := Option.map_eq_some_iff.mp step
    cases eq
    exact build_agrees receives padding bounds pieces sendable writable agrees.process
      agrees.kept.live.sound.started (restores.alive agrees.server) build
  | operate op =>
    obtain ⟨⟨w₁, o'⟩, operate, eq⟩ := Option.map_eq_some_iff.mp step
    cases eq
    exact agrees.operate receives padding bounds pieces.size operate
  | saveState buckets =>
    obtain ⟨w₁, save, eq⟩ := Option.map_eq_some_iff.mp step
    cases eq
    exact agrees.saveState receives padding save

/-- And so does every run. -/
theorem Agrees.run (agrees : Agrees restores l h w saved) {choices : List (Choice τ)}
    {p : World σ τ BlockKey × World σ τ BlockKey}
    (good : ((deployment cfg prim S false).mark Action.saves).Along
      (fun p => Restorable cfg S p.1 p.2) (w, saved) (choices.map Choice.action))
    (run : ((deployment cfg prim S false).mark Action.saves).exec (w, saved)
      (choices.map Choice.action) = some p) :
    ∃ l' h', Meeting.Returns (siteLoop receives opens) (ClientSite.menuCalls cfg prim padding choices)
        l h (((deployment cfg prim S false).outputs w (choices.map Choice.action)).map (shownOf cfg))
        l' h' ∧
      Agrees restores l' h' p.1 p.2 := by
  induction choices generalizing l h w saved with
  | nil =>
    cases run
    exact ⟨l, h, .pure [], agrees⟩
  | cons choice choices ih =>
    obtain ⟨⟨w₁, saved₁⟩, o, step, rest⟩ := Machine.step_of_exec_cons run
    have later := good.2 _ _ step
    obtain ⟨step, mark⟩ := Machine.mark_step.mp step
    obtain ⟨l₁, h₁, returns, agrees₁⟩ :=
      agrees.step receives padding bounds pieces sendable writable inPlace good.1 step
    rw [← mark] at agrees₁
    obtain ⟨l', h', returns', agrees'⟩ := ih agrees₁ later rest
    refine ⟨l', h', ?_, agrees'⟩
    rw [List.map_cons, Machine.outputs_cons_of_step _ step, List.map_cons]
    exact returns.bind (returns'.bind (.pure _))

/-- From a build on, by parties just started. -/
theorem menu_returns {memory : World σ τ BlockKey} {masterKey : MasterKey} {path : Str} {db : Listing}
    {dict : List Str} {draws : Nat → Nat} {files : PieceFiles} {buckets : Buckets τ}
    {choices : List (Choice τ)} {p : World σ τ BlockKey × World σ τ BlockKey}
    (localFiles : LocalFiles)
    (good : ((deployment cfg prim S false).mark Action.saves).Along
      (fun p => Restorable cfg S p.1 p.2) (memory.start cfg prim S, memory.start cfg prim S)
      ((.build masterKey path db dict draws files buckets :: choices).map Choice.action))
    (run : ((deployment cfg prim S false).mark Action.saves).exec
      (memory.start cfg prim S, memory.start cfg prim S)
      ((.build masterKey path db dict draws files buckets :: choices).map Choice.action) = some p) :
    ∃ l' h', Meeting.Returns (siteLoop receives opens)
        (ClientSite.menuCalls cfg prim padding
          (.build masterKey path db dict draws files buckets :: choices))
        ⟨(memory.start cfg prim S).process, memory.clientFiles, localFiles⟩
        ⟨(memory.start cfg prim S).server, memory.blockCounterFile⟩
        (((deployment cfg prim S false).outputs (memory.start cfg prim S)
          ((.build masterKey path db dict draws files buckets :: choices).map Choice.action)).map
            (shownOf cfg)) l' h' ∧
      Agrees restores l' h' p.1 p.2 := by
  obtain ⟨⟨w₁, saved₁⟩, o, step, rest⟩ := Machine.step_of_exec_cons run
  have later := good.2 _ _ step
  obtain ⟨step, mark⟩ := Machine.mark_step.mp step
  obtain ⟨w₂, build, eq⟩ := Option.map_eq_some_iff.mp step
  cases eq
  cases mark
  obtain ⟨l₁, h₁, returns, agrees⟩ := build_agrees receives padding bounds pieces sendable writable
    (l := ⟨(memory.start cfg prim S).process, memory.clientFiles, localFiles⟩)
    (h := ⟨(memory.start cfg prim S).server, memory.blockCounterFile⟩) rfl
    memory.process.start_started (restores.started _ memory.server).1 build
  obtain ⟨l', h', returns', agrees'⟩ :=
    agrees.run receives padding bounds pieces sendable writable inPlace later rest
  refine ⟨l', h', ?_, agrees'⟩
  rw [List.map_cons, Machine.outputs_cons_of_step _ step, List.map_cons]
  exact returns.bind (returns'.bind (.pure _))

end Steps

/-! ### Runs of the menu -/

/-- A client that begins, and a server in its loop. -/
def menuStart (cfg : Config) (prim : Primitives τ BlockKey) (S : Storage σ BlockKey)
    (setFiles : σ → PieceFiles → σ) (opens : List Byte → Bool) (padding : Nat → Byte)
    (memory : World σ τ BlockKey) (localFiles : LocalFiles) (buffer : Buf)
    (choices : List (Choice τ)) :
    Meeting (ClientSite τ) (ServerSite σ) Part (List (Option Shown)) Buf :=
  Meeting.idle (Remote.loop (siteBackend cfg S setFiles opens))
    (ClientSite.menuCalls cfg prim padding choices)
    ⟨(memory.start cfg prim S).process, memory.clientFiles, localFiles⟩ [] buffer
    ⟨(memory.start cfg prim S).server, memory.blockCounterFile⟩ []

/-- Every run of the deployment that begins with a build is a run over the sockets: however
the two sides and the lines take turns no call is illegal, and the run ends with the client
and its files, the store of the server and its counters as the deployment has them, after
showing what it reports. -/
def MenuSettles (cfg : Config) (prim : Primitives τ BlockKey) (S : Storage σ BlockKey)
    (setFiles : σ → PieceFiles → σ) (opens : List Byte → Bool) (padding : Nat → Byte)
    (Good : World σ τ BlockKey × World σ τ BlockKey → Action σ τ BlockKey → Prop) : Prop :=
  ∀ (memory : World σ τ BlockKey) (masterKey : MasterKey) (path : Str) (db : Listing)
    (dict : List Str) (draws : Nat → Nat) (files : PieceFiles) (buckets : Buckets τ)
    (choices : List (Choice τ)) (w saved : World σ τ BlockKey) (localFiles : LocalFiles) (buffer : Buf),
    ((deployment cfg prim S false).mark Action.saves).Along Good
      (memory.start cfg prim S, memory.start cfg prim S)
      ((.build masterKey path db dict draws files buckets :: choices).map Choice.action) →
    ((deployment cfg prim S false).mark Action.saves).exec
      (memory.start cfg prim S, memory.start cfg prim S)
      ((.build masterKey path db dict draws files buckets :: choices).map Choice.action) =
        some (w, saved) →
    ∃ l' requests buffer' h' replies, Meeting.Settles (Remote.loop (siteBackend cfg S setFiles opens))
        (menuStart cfg prim S setFiles opens padding memory localFiles buffer
          (.build masterKey path db dict draws files buckets :: choices))
        (Meeting.idle (Remote.loop (siteBackend cfg S setFiles opens))
          (pure (((deployment cfg prim S false).outputs (memory.start cfg prim S)
            ((.build masterKey path db dict draws files buckets :: choices).map Choice.action)).map
              (shownOf cfg))) l' requests buffer' h' replies) ∧
      l'.process = w.process ∧ l'.clientFiles = w.clientFiles ∧
      (S.index h'.server).cells cfg = (S.index w.server).cells cfg ∧
      (cfg.decryptAtClientSide = false → h'.blockCounterFile = w.blockCounterFile)

section Runs

variable {cfg : Config} (bounds : cfg.Addressable) (pieces : cfg.InPieces)
  (sendable : cfg.Sendable) {prim : Primitives τ BlockKey} {opens : List Byte → Bool}
  (writable : Opens cfg opens) (padding : Nat → Byte)
include bounds pieces sendable writable

/-- Over a server that restores and receives. -/
theorem Storage.Receives.menuSettles {S : Storage σ BlockKey} {restores : S.Restores cfg prim.cipher}
    (receives : Storage.Receives restores) (inPlace : S.KeepsFiles ∨ ∀ s, S.saveState s = some s)
    {Good : World σ τ BlockKey × World σ τ BlockKey → Action σ τ BlockKey → Prop}
    (restorable : ∀ p a, Good p a → Restorable cfg S p.1 p.2 a) :
    MenuSettles cfg prim S receives.setFiles opens padding Good := by
  intro memory masterKey path db dict draws files buckets choices w saved localFiles buffer good run
  obtain ⟨l', h', returns, agrees⟩ := menu_returns receives padding bounds pieces sendable writable
    inPlace localFiles (good.imp restorable) run
  obtain ⟨buffer', requests, replies, settles⟩ := returns.settles (Remote.loop_waits _) buffer
  exact ⟨l', requests, buffer', h', replies, settles, agrees.process, agrees.clientFiles,
    restores.cells agrees.server, agrees.blockCounters⟩

/-- With the index in memory. -/
theorem ramMenuSettles : MenuSettles cfg prim (ramStorage cfg prim.cipher)
    (fun p files => { p with files := files }) opens padding (RestorableInMemory cfg) := by
  intro memory masterKey path db dict draws files buckets choices w saved localFiles buffer good run
  have inMemory : cfg.InMemory := by
    rw [List.map_cons] at run
    exact inMemory_of_run pieces run
  exact (ramReceives pieces prim.cipher inMemory).menuSettles bounds pieces sendable writable padding
    (.inl fun _ _ _ _ step => ramStorage_files step) (fun _ _ good => good.restorable) memory masterKey path db dict draws files buckets choices w saved
    localFiles buffer good run

/-- In `DISK_STORAGE_MODE`. -/
theorem diskMenuSettles (onDisk : cfg.OnDisk) : MenuSettles cfg prim (diskStorage cfg prim.cipher)
    (fun s files => { s with files := files }) opens padding (RestorableOnDisk cfg) :=
  (diskReceives pieces onDisk prim.cipher).menuSettles bounds pieces sendable writable padding
    (.inr fun _ => rfl) fun _ _ good => good.restorable

variable (prim) in
/-- The menu over the sockets does what the deployment does in one step of both parties:
with the index in memory, and in `DISK_STORAGE_MODE` while loads find the piece files of
the last save. -/
theorem menu_settles :
    MenuSettles cfg prim (ramStorage cfg prim.cipher) (fun p files => { p with files := files }) opens
        padding (RestorableInMemory cfg) ∧
      (cfg.OnDisk → MenuSettles cfg prim (diskStorage cfg prim.cipher)
        (fun s files => { s with files := files }) opens padding (RestorableOnDisk cfg)) :=
  ⟨ramMenuSettles bounds pieces sendable writable padding,
    diskMenuSettles bounds pieces sendable writable padding⟩

end Runs

/-! ### A small menu -/

/-- The row keys are the same under every master key. -/
def smallBlockPrimitives : Primitives Str BlockKey where
  cipher := Remote.smallBlockCipher
  genRowKey _ := Remote.smallBlockCipher.genRowKey
  trapdoor _ := smallTrapdoor

/-- Empty memory and files, and a server. -/
def smallMemory (server : σ) : World σ Str BlockKey where
  process := ⟨smallKey, ⟨⟨∅, ∅, [], []⟩, ⟨fun _ => 0, fun _ => 0, fun _ _ => 0⟩⟩, false⟩
  clientFiles := ⟨[], [], [], [], [], [], [], [], [], []⟩
  server := server
  blockCounterFile := []

/-- The small collection is built and "f" deleted; the state is saved, and loaded by a
client just started, who searches "a". -/
def smallMenu : List (Choice Str) :=
  [.build smallKey [0x2f#8] smallDb [] (fun n => 3 * n + 1) (fun _ => none) listed,
    .operate (.delFile [0x2f#8, 0x66#8] fun n => n), .saveState listed,
    .loadState (some (smallMemory ()).process) ([], []), .operate (.searchKeyword [0x61#8])]

/-- A load finds few entries in the tables of the save, and files that hold for it. -/
def goodLoad (filesHold : World σ Str BlockKey × World σ Str BlockKey → Bool)
    (p : World σ Str BlockKey × World σ Str BlockKey) : Action σ Str BlockKey → Bool
  | .loadState .. => decide (p.2.process.client.tables.tW.keys.length < 2 ^ 24) &&
      decide (p.2.process.client.tables.tF.keys.length < 2 ^ 24) && filesHold p
  | _ => true

theorem goodLoad_countable {filesHold : World σ Str BlockKey × World σ Str BlockKey → Bool}
    {p : World σ Str BlockKey × World σ Str BlockKey} {client : Option (ClientProcess Str BlockKey)}
    {server : Option σ} {tmp : Str × Str}
    (good : goodLoad filesHold p (.loadState client server tmp) = true) :
    Countable p.2.process.client.tables ∧ filesHold p = true := by
  obtain ⟨few, files⟩ := Bool.and_eq_true_iff.mp good
  obtain ⟨keywords, names⟩ := Bool.and_eq_true_iff.mp few
  exact ⟨countable_of_lt (of_decide_eq_true keywords) (of_decide_eq_true names), files⟩

theorem goodLoad_inMemory (p : World RamProcess Str BlockKey × World RamProcess Str BlockKey)
    (a : Action RamProcess Str BlockKey) (good : goodLoad (fun _ => true) p a = true) :
    RestorableInMemory (smallConfig 1 false) p a := by
  cases a with
  | loadState => exact ⟨nofun, (goodLoad_countable good).1⟩
  | _ => trivial

/-- Both files of the small index are those of the save. -/
def smallFilesHold (p : World DiskServer Str BlockKey × World DiskServer Str BlockKey) : Bool :=
  sameFile p.2.server.files p.1.server.files (.matrix 0 0) &&
    sameFile p.2.server.files p.1.server.files (.state 0 0)

theorem goodLoad_onDisk (p : World DiskServer Str BlockKey × World DiskServer Str BlockKey)
    (a : Action DiskServer Str BlockKey) (good : goodLoad smallFilesHold p a = true) :
    RestorableOnDisk (smallConfig 1 false) p a := by
  cases a with
  | loadState =>
    obtain ⟨countable, files⟩ := goodLoad_countable good
    obtain ⟨matrix, state⟩ := Bool.and_eq_true_iff.mp files
    exact ⟨nofun, countable, smallConfig_sameFiles matrix state⟩
  | _ => trivial

/-- Both parties of the small menu have their memory just started. -/
def smallMenuStart (S : Storage σ BlockKey) (server : σ) :
    World σ Str BlockKey × World σ Str BlockKey :=
  ((smallMemory server).start (smallConfig 1 false) smallBlockPrimitives S,
    (smallMemory server).start (smallConfig 1 false) smallBlockPrimitives S)

theorem smallConfig_sendable : (smallConfig 1 false).Sendable :=
  ⟨by decide, fun _ => by decide, fun _ => by decide⟩

/-- The loop of the server beside the small menu. -/
def smallLoop (S : Storage σ BlockKey) (setFiles : σ → PieceFiles → σ) :
    Buf → Talk (ServerSite σ) Part Buf :=
  Remote.loop (siteBackend (smallConfig 1 false) S setFiles fun _ => true)

/-- The small menu ends, having shown what the deployment reports. -/
def SmallMenuSettles (S : Storage σ BlockKey) (setFiles : σ → PieceFiles → σ) (server : σ) : Prop :=
  ∃ l' requests buffer' h' replies, Meeting.Settles (smallLoop S setFiles)
    (menuStart (smallConfig 1 false) smallBlockPrimitives S setFiles (fun _ => true) (fun _ => 0)
      (smallMemory server) (fun _ => none) zeroBuf smallMenu)
    (Meeting.idle (smallLoop S setFiles) (pure [none, some (.updated 1 1), none, none,
      some (.searched 1 [])]) l' requests buffer' h' replies)

theorem menu_settles_small :
    SmallMenuSettles (ramStorage (smallConfig 1 false) Remote.smallBlockCipher)
        (fun p files => { p with files := files }) smallRam ∧
      SmallMenuSettles (diskStorage (smallConfig 1 false) Remote.smallBlockCipher)
        (fun s files => { s with files := files }) smallDisk := by
  have writable : Opens (smallConfig 1 false) fun _ => true := ⟨fun _ _ => rfl, fun _ => rfl⟩
  have both := menu_settles smallConfig_addressable smallConfig_inPieces smallConfig_sendable
    smallBlockPrimitives writable fun _ => 0
  constructor
  · let S := ramStorage (smallConfig 1 false) Remote.smallBlockCipher
    have checked : ((deployment (smallConfig 1 false) smallBlockPrimitives S false).mark
        Action.saves).check (goodLoad fun _ => true) (smallMenuStart S smallRam)
          (smallMenu.map Choice.action) = true := by
      decide +kernel
    have evaluated : (((deployment (smallConfig 1 false) smallBlockPrimitives S false).mark
        Action.saves).exec (smallMenuStart S smallRam) (smallMenu.map Choice.action)).isSome := by
      decide +kernel
    have shown : ((deployment (smallConfig 1 false) smallBlockPrimitives S false).outputs
        (smallMenuStart S smallRam).1 (smallMenu.map Choice.action)).map (shownOf (smallConfig 1 false)) =
          [none, some (.updated 1 1), none, none, some (.searched 1 [])] := by
      decide +kernel
    obtain ⟨⟨w, saved⟩, run⟩ := Option.isSome_iff_exists.mp evaluated
    obtain ⟨l', requests, buffer', h', replies, settles, -⟩ := both.1 (smallMemory smallRam) _ _ _ _ _ _ _
      _ w saved (fun _ => none) zeroBuf (Machine.along_of_check goodLoad_inMemory checked) run
    exact ⟨l', requests, buffer', h', replies, shown ▸ settles⟩
  · let S := diskStorage (smallConfig 1 false) Remote.smallBlockCipher
    have checked : ((deployment (smallConfig 1 false) smallBlockPrimitives S false).mark
        Action.saves).check (goodLoad smallFilesHold) (smallMenuStart S smallDisk)
          (smallMenu.map Choice.action) = true := by
      decide +kernel
    have evaluated : (((deployment (smallConfig 1 false) smallBlockPrimitives S false).mark
        Action.saves).exec (smallMenuStart S smallDisk) (smallMenu.map Choice.action)).isSome := by
      decide +kernel
    have shown : ((deployment (smallConfig 1 false) smallBlockPrimitives S false).outputs
        (smallMenuStart S smallDisk).1 (smallMenu.map Choice.action)).map (shownOf (smallConfig 1 false)) =
          [none, some (.updated 1 1), none, none, some (.searched 1 [])] := by
      decide +kernel
    obtain ⟨⟨w, saved⟩, run⟩ := Option.isSome_iff_exists.mp evaluated
    obtain ⟨l', requests, buffer', h', replies, settles, -⟩ := both.2
      ⟨by decide, by decide, by decide, by decide⟩ (smallMemory smallDisk) _ _ _ _ _ _ _
      _ w saved (fun _ => none) zeroBuf (Machine.along_of_check goodLoad_onDisk checked) run
    exact ⟨l', requests, buffer', h', replies, shown ▸ settles⟩

end ImDsse
