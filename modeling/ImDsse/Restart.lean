import ImDsse.Rollback

/-!
Saving, restarting and loading (`Client_DSSE::saveState` and `loadState`,
`Server_DSSE::saveState` and `loadState`).

A save that is loaded at once restores both parties, from any state that a build,
operations and earlier saves and loads lead to, and nothing that is searched, sent or
reported afterwards tells the run from one without the restart. Where the client
decrypts this takes the running client: one just started deletes row keys it does not
have.
-/

namespace ImDsse

open Kit Kit.Bits

variable {Key : Type} {τ : Type} [DecidableEq τ]

section Cells

variable {cfg : Config} (size : cfg.Tiled) {s t : RamServer}
include size

/-- Servers that are the same store have the same index. -/
theorem SameIndex.of_cells (stateBytes : cfg.decryptAtClientSide = false → 8 ∣ cfg.numBlocks)
    (cells : s.cells cfg = t.cells cfg) : SameIndex cfg s t where
  I r j hr hj := by
    refine byte_eq_of_bit fun p hp => ?_
    have column : 8 * j + p < cfg.maxNumOfFiles := by
      have := size.matrixColSize_mul
      omega
    have cell := congrFun (congrFun (congrArg CellStore.cell cells) r) (8 * j + p)
    simpa only [RamServer.cells, cellsOf_cell hr column] using cell
  blockStateMat server r j hr hj := by
    refine byte_eq_of_bit fun p hp => ?_
    have block : 8 * j + p < cfg.numBlocks := by
      have := stateBytes server
      omega
    have state := congrFun (congrFun (congrArg CellStore.state cells) r) (8 * j + p)
    simpa only [RamServer.cells, cellsOf_state hr block] using state
  blockCounterArr server b hb := by
    have counter := congrFun (congrArg CellStore.counter cells) b
    simpa only [RamServer.cells, cellsOf_counter hb] using counter

end Cells

section Restart

variable {cfg : Config} (prim : Primitives τ Key) (sameMachine : Bool) {w : World RamProcess τ Key}

omit [DecidableEq τ] in
/-- A server in memory can be saved. -/
theorem saveState_goes_on (pieces : cfg.InPieces) (inMemory : cfg.InMemory) (buckets : Buckets τ) :
    ∃ w', w.saveState cfg (ramStorage cfg prim.cipher) sameMachine buckets = some w' := by
  obtain ⟨files, saved⟩ :=
    RamServer.saveState_goes_on pieces inMemory w.server.server w.server.files
  refine ⟨_, congrArg (Option.map _) (?_ : _ = some { w.server with files := files })⟩
  exact congrArg (Option.map _) saved

/-- A client that decrypts does not load when it is just started. -/
theorem deployment_load_stops {S : Storage σ Key} (client : cfg.decryptAtClientSide = true)
    (w : World σ τ Key) (memory : ClientProcess τ Key) (server : Option σ) (tmp : τ × τ) :
    (deployment cfg prim S sameMachine).step w (.loadState (some memory) server tmp) = none := by
  have unkeyed : ¬ (memory.start cfg prim).Keyed cfg := fun keyed => absurd (keyed client) nofun
  have stops : w.loadState cfg prim S (some memory) server tmp = none :=
    congrArg (Option.bind · _) (ClientProcess.loadState_stops unkeyed w.clientFiles tmp)
  simp only [deployment, stops, Option.map_none]

/-- A save and a load restore the client's keys, tables, free lists, counters and row keys
and the server's matrix, states and counters; and all later operations report what they
would have reported and send what they would have sent. -/
def RestartTransparent (cfg : Config) (prim : Primitives τ Key) (sameMachine : Bool)
    (w : World RamProcess τ Key) (buckets : Buckets τ) (client : Option (ClientProcess τ Key))
    (server : Option RamProcess) (tmp : τ × τ) : Prop :=
  ∃ w', (deployment cfg prim (ramStorage cfg prim.cipher) sameMachine).exec w
      [.saveState buckets, .loadState client server tmp] = some w' ∧
    w'.process.Same w.process ∧ SameIndex cfg w'.server.server w.server.server ∧
    ∀ ops : List ClientOp,
      (deployment cfg prim (ramStorage cfg prim.cipher) sameMachine).outputs w' (ops.map .operate) =
        (deployment cfg prim (ramStorage cfg prim.cipher) sameMachine).outputs w (ops.map .operate)

/-- On the index of a build a save and a load are transparent to whoever may load. -/
theorem Live.restartTransparent {restores : (ramStorage cfg prim.cipher).Restores cfg prim.cipher}
    (bounds : cfg.Addressable) (pieces : cfg.InPieces) (inMemory : cfg.InMemory)
    (live : Live restores w) (exact_ : Countable w.process.client.tables) (buckets : Buckets τ)
    {client : Option (ClientProcess τ Key)} (mayLoad : MayLoad cfg client) (server : Option RamProcess)
    (tmp : τ × τ) : RestartTransparent cfg prim sameMachine w buckets client server tmp := by
  obtain ⟨w₁, save⟩ := saveState_goes_on prim sameMachine pieces inMemory buckets
  obtain ⟨process, cells⟩ := live.saveState_same save
  have kept : Kept restores w₁ w₁ := live.saveState save
  have load : RestorableInMemory cfg (w₁, w₁) (.loadState client server tmp) := by
    refine ⟨mayLoad, ?_⟩
    change Countable w₁.process.client.tables
    rw [process]
    exact exact_
  obtain ⟨w', step, rolledBack, live'⟩ := kept.rolledBack sameMachine bounds pieces load.restorable
  have same : w'.process.Same w.process := process ▸ rolledBack.process
  have index := rolledBack.server.trans cells
  refine ⟨w', ?_, same, SameIndex.of_cells pieces.size pieces.stateBytes index, ?_⟩
  · exact (Machine.exec_cons_of_step _ (congrArg (Option.map _) save)).trans
      (Machine.exec_cons_of_step _ step)
  · exact live.outputs pieces.size live' same index

end Restart

/-- At any point of any run from a build on, a save and a load are transparent if and only
if the server decrypts or the client that loads is the running one, which has row keys. -/
theorem restart_transparent_iff {cfg : Config} (bounds : cfg.Addressable) (pieces : cfg.InPieces)
    (prim : Primitives τ Key) (sameMachine : Bool) {memory : World RamProcess τ Key}
    {masterKey : MasterKey} {path : Str} {db : Listing} {dict : List Str} {draws : Nat → Nat}
    {files : PieceFiles} {buckets : Buckets τ} {actions : List (Action RamProcess τ Key)}
    {w saved : World RamProcess τ Key}
    (good : ((deployment cfg prim (ramStorage cfg prim.cipher) sameMachine).mark Action.saves).Along
      (RestorableInMemory cfg)
      (memory.start cfg prim (ramStorage cfg prim.cipher),
        memory.start cfg prim (ramStorage cfg prim.cipher))
      (.build masterKey path db dict draws files buckets :: actions))
    (run : ((deployment cfg prim (ramStorage cfg prim.cipher) sameMachine).mark Action.saves).exec
      (memory.start cfg prim (ramStorage cfg prim.cipher),
        memory.start cfg prim (ramStorage cfg prim.cipher))
      (.build masterKey path db dict draws files buckets :: actions) = some (w, saved))
    (exact_ : Countable w.process.client.tables) (buckets' : Buckets τ)
    (client : Option (ClientProcess τ Key)) (server : Option RamProcess) (tmp : τ × τ) :
    RestartTransparent cfg prim sameMachine w buckets' client server tmp ↔
      cfg.decryptAtClientSide = false ∨ client = none := by
  have inMemory := inMemory_of_run pieces run
  have restores := ramRestores pieces prim.cipher inMemory
  have kept : Kept restores w saved := run_kept bounds pieces (good.imp fun _ _ h => h.restorable) run
  constructor
  · rintro ⟨w', restart, -⟩
    cases build : cfg.decryptAtClientSide with
    | false => exact .inl rfl
    | true =>
      cases client with
      | none => exact .inr rfl
      | some memory =>
        obtain ⟨w₁, _, -, rest⟩ := Machine.step_of_exec_cons restart
        obtain ⟨_, _, load, -⟩ := Machine.step_of_exec_cons rest
        rw [deployment_load_stops prim sameMachine build] at load
        cases load
  · intro running
    have mayLoad : MayLoad cfg client := fun client =>
      running.resolve_left fun server => absurd (client.symm.trans server) nofun
    exact kept.live.restartTransparent prim sameMachine bounds pieces inMemory exact_ buckets' mayLoad
      server tmp

/-- The small deployment is saved and restarted after two searches and a deletion. -/
theorem restart_transparent_small : ∃ w saved,
    (smallDeployment (ramStorage (smallConfig 1 false) smallCipher)).exec
        (smallStart (ramStorage (smallConfig 1 false) smallCipher) smallRam,
          smallStart (ramStorage (smallConfig 1 false) smallCipher) smallRam)
        (smallBuild :: smallActions) = some (w, saved) ∧
    RestartTransparent (smallConfig 1 false) smallPrimitives true w listed
      (some (smallWorld smallRam).process) (some smallRam) ([], []) := by
  have evaluated : ((smallDeployment (ramStorage (smallConfig 1 false) smallCipher)).exec
      (smallStart (ramStorage (smallConfig 1 false) smallCipher) smallRam,
        smallStart (ramStorage (smallConfig 1 false) smallCipher) smallRam)
      (smallBuild :: smallActions)).map (fun p => fewEntries p.1) = some true := by
    decide +kernel
  obtain ⟨⟨w, saved⟩, run, few⟩ := Option.map_eq_some_iff.mp evaluated
  have good : (smallDeployment (ramStorage (smallConfig 1 false) smallCipher)).Along
      (RestorableInMemory (smallConfig 1 false))
      (smallStart (ramStorage (smallConfig 1 false) smallCipher) smallRam,
        smallStart (ramStorage (smallConfig 1 false) smallCipher) smallRam)
      (smallBuild :: smallActions) :=
    ⟨trivial, fun _ _ _ => ⟨trivial, fun _ _ _ => ⟨trivial, fun _ _ _ =>
      ⟨trivial, fun _ _ _ => trivial⟩⟩⟩⟩
  exact ⟨w, saved, run, (restart_transparent_iff smallConfig_addressable smallConfig_inPieces
    smallPrimitives true good run (countable_of_few few) listed _ _ _).mpr (.inl rfl)⟩

/-- Both parties of a client-decrypting build, with the index in memory. -/
def smallClientSide :=
  deployment (smallConfig 1 true) smallPrimitives (ramStorage (smallConfig 1 true) smallCipher) true

/-- Where the client decrypts, the small collection is built and saved, and a client just
started does not load it. -/
theorem restart_not_transparent : ∃ w w',
    smallClientSide.exec ((smallWorld smallRam).start (smallConfig 1 true) smallPrimitives
      (ramStorage (smallConfig 1 true) smallCipher)) [smallBuild] = some w ∧
    Countable w.process.client.tables ∧
    smallClientSide.step w (.saveState listed) = some (w', none) ∧
    smallClientSide.step w'
      (.loadState (some (smallWorld smallRam).process) (some smallRam) ([], [])) = none ∧
    ¬ RestartTransparent (smallConfig 1 true) smallPrimitives true w listed
      (some (smallWorld smallRam).process) (some smallRam) ([], []) := by
  have evaluated : (smallClientSide.exec ((smallWorld smallRam).start (smallConfig 1 true)
      smallPrimitives (ramStorage (smallConfig 1 true) smallCipher)) [smallBuild]).bind (fun w =>
        (smallClientSide.step w (.saveState listed)).map fun q => (fewEntries w, q.2.isNone)) =
      some (true, true) := by
    decide +kernel
  obtain ⟨w, build, evaluated⟩ := Option.bind_eq_some_iff.mp evaluated
  obtain ⟨⟨w', o⟩, save, results⟩ := Option.map_eq_some_iff.mp evaluated
  obtain ⟨few, silent⟩ := Prod.mk.inj results
  cases Option.isNone_iff_eq_none.mp silent
  have client : (smallConfig 1 true).decryptAtClientSide = true := rfl
  have stops : smallClientSide.step w'
      (.loadState (some (smallWorld smallRam).process) (some smallRam) ([], [])) = none :=
    deployment_load_stops smallPrimitives true client _ _ _ _
  refine ⟨w, w', build, countable_of_few few, save, stops, fun ⟨w₂, restart, _⟩ => ?_⟩
  have ends := (Machine.exec_cons_of_step [_] save).trans (Machine.exec_cons_of_stop [] stops)
  cases ends.symm.trans restart

end ImDsse
