import ImDsse.Token
import ImDsse.CellStore

/-!
The exchanges between client and server that touch the index
(`Client_DSSE::searchKeyword` once the row is known, `addFile` and `delFile`
once block and column are known, with `requestBlock_data`, `sendBlock_data` and
`requestSearch_data`).

The client is written over any server machine. `Refinement` says that a server
behaves as a `CellStore` towards a client that fetches a block before it sends
it back; `indexMachine_lockstep` then carries every run of the client over that
server to a run over the store.
-/

namespace ImDsse

open Kit Kit.Loop Kit.Bits

variable {Key : Type} {σ σ' : Type}

/-- The members of `Client_DSSE` that an exchange reads or changes. -/
structure IndexClient (Key : Type) where
  keywordCounterArr : Nat → Nat
  blockCounterArr : Nat → Nat
  rowKeys : Nat → Key

/-- What becomes of a column: the bits of an added file's keywords, or none. -/
inductive ColumnUpdate where
  | add (IBar : Buf)
  | del

/-- The new bit of the column in a row. -/
def ColumnUpdate.newCol : ColumnUpdate → Nat → Bool
  | .add IBar => bit IBar
  | .del => fun _ => false

/-- What an exchange leaves behind: the result of a search and the token that
was sent, and the encryptions made by client and server. -/
inductive Event (Key : Type) where
  | searched (fileIds : List Nat) (token : Option (SearchToken Key))
      (encryptions : List (Encryption Key))
  | updated (blockIndex : Nat) (encryptions : List (Encryption Key))

namespace Event

/-- The result of a search, `none` for an update. -/
def result : Event Key → Option (List Nat)
  | .searched ids _ _ => some ids
  | .updated _ _ => none

def encryptions : Event Key → List (Encryption Key)
  | .searched _ _ es => es
  | .updated _ es => es

end Event

section Client

variable (cfg : Config) (cr : Cipher Key) (srv : Machine σ (Command Key) (Response Key))

/-! ### Searching a row -/

/-- The client's side of a search where the client decrypts. -/
def decryptRow (c : IndexClient Key) (row : Nat) (msg : List Byte) : List Nat :=
  let searchData := ofBytes msg cfg.matrixColSize zeroBuf
  let aesKeys :=
    (precomputeAESCTRKeys cfg cr zeroBuf row .row false c.blockCounterArr c.rowKeys).1
  let searchRes := encDecPreAESKey zeroBuf searchData aesKeys cfg.matrixColSize
  scanBytes cfg.matrixColSize searchRes 0 []

/-- `Client_DSSE::searchKeyword` for a keyword that has row `row`. The keyword
counter advances only when the server decrypts. -/
def searchRow (s : σ) (c : IndexClient Key) (row : Nat) :
    Option ((σ × IndexClient Key) × Event Key) :=
  (rowToken cr c.keywordCounterArr row).bind fun tau =>
    if cfg.decryptAtClientSide then
      (srv.step s (.requestSearchData row)).bind fun (s', r) =>
        r.data?.bind fun msg =>
          some ((s', c), .searched (decryptRow cfg cr c row msg) none r.encryptions)
    else
      let counters := Function.update c.keywordCounterArr row (nextCounter (c.keywordCounterArr row))
      (srv.step s (.searchOperation tau)).bind fun (s', r) =>
        r.found?.bind fun ids =>
          some ((s', { c with keywordCounterArr := counters }),
            .searched ids (some tau) r.encryptions)

/-! ### Updating a column -/

/-- `Client_DSSE::requestBlock_data`, skipped for blocks of one column: the block
and the state bits behind it. -/
def requestBlockData (s : σ) (blockIndex : Nat) : Option (σ × Buf × (Nat → Bool)) :=
  if 1 < cfg.encryptBlockSize then
    (srv.step s (.requestBlockData blockIndex)).bind fun (s', r) =>
      r.data?.bind fun msg =>
        let buffer := ofBytes msg cfg.blockMessageLen zeroBuf
        some (s', copyBytes cfg.blockBytes zeroBuf 0 buffer 0, fun row =>
          !cfg.decryptAtClientSide && bit buffer (cfg.matrixRowSize * cfg.encryptBlockSize + row))
  else some (s, zeroBuf, fun _ => false)

/-- The second half of `addToken` or `delToken`, in the overload of the build.
The keys of the client-decrypting builds are those of the block that was fetched;
the other overload derives its block from the column. -/
def recodeBlock (c : IndexClient Key) (blockIndex fileIndex : Nat) (u : ColumnUpdate)
    (IPrime : Buf) (blockStateArr : Nat → Bool) : Buf × List (Encryption Key) :=
  if cfg.decryptAtClientSide then
    let keys := fun inc => precomputeAESCTRKeys cfg cr zeroBuf blockIndex .col inc
      c.blockCounterArr c.rowKeys
    let decryptKey := if 1 < cfg.encryptBlockSize then (keys false).1 else zeroBuf
    match u with
    | .add IBar => (addTokenBlockPre cfg fileIndex IBar IPrime decryptKey (keys true).1, (keys true).2)
    | .del => (delTokenBlockPre cfg fileIndex IPrime decryptKey (keys true).1, (keys true).2)
  else
    match u with
    | .add IBar => addTokenBlock cfg cr c.keywordCounterArr c.blockCounterArr blockStateArr
        fileIndex IBar IPrime
    | .del => delTokenBlock cfg cr c.keywordCounterArr c.blockCounterArr blockStateArr
        fileIndex IPrime

/-- `Client_DSSE::addFile` or `delFile` from the block index on: fetch the block,
replace the column, count the update, send the block back. -/
def updateColumn (s : σ) (c : IndexClient Key) (blockIndex fileIndex : Nat) (u : ColumnUpdate) :
    Option ((σ × IndexClient Key) × Event Key) :=
  (requestBlockData cfg srv s blockIndex).bind fun (s', IPrime, blockStateArr) =>
    let out := recodeBlock cfg cr c blockIndex fileIndex u IPrime blockStateArr
    let counters := Function.update c.blockCounterArr blockIndex
      (nextCounter (c.blockCounterArr blockIndex))
    (srv.step s' (.updateBlockData blockIndex (toBytes out.1 cfg.blockBytes))).bind fun (s'', _) =>
      some ((s'', { c with blockCounterArr := counters }), .updated blockIndex out.2)

end Client

/-! ### Runs of searches and updates -/

/-- A search of a row or an update of a column. -/
inductive IndexStep where
  | search (row : Nat)
  | update (column : Nat) (u : ColumnUpdate)

def IndexStep.Valid (cfg : Config) : IndexStep → Prop
  | .search row => row < cfg.matrixRowSize
  | .update column _ => column < cfg.maxNumOfFiles

/-- Client and server together. The block of an update is the one its column lies in. -/
def indexMachine (cfg : Config) (cr : Cipher Key) (srv : Machine σ (Command Key) (Response Key)) :
    Machine (σ × IndexClient Key) IndexStep (Event Key) where
  step s
    | .search row => searchRow cfg cr srv s.1 s.2 row
    | .update column u =>
      updateColumn cfg cr srv s.1 s.2 (column / cfg.encryptBlockSize) column u

/-- The step updates a column of block `b`. -/
def IndexStep.updates (cfg : Config) (b : Nat) : IndexStep → Bool
  | .search _ => false
  | .update column _ => column / cfg.encryptBlockSize = b

/-- The client counts the updates of a block and nothing else in its block counter. -/
theorem step_blockCounterArr {cfg : Config} {cr : Cipher Key}
    {srv : Machine σ (Command Key) (Response Key)} {p p' : σ × IndexClient Key} {i : IndexStep}
    {e : Event Key} (step : (indexMachine cfg cr srv).step p i = some (p', e)) (b : Nat) :
    p'.2.blockCounterArr b =
      if i.updates cfg b then nextCounter (p.2.blockCounterArr b) else p.2.blockCounterArr b := by
  cases i with
  | search row =>
    simp only [indexMachine, searchRow, Option.bind_eq_some_iff] at step
    obtain ⟨tau, -, step⟩ := step
    split at step
    all_goals
      simp only [Option.bind_eq_some_iff] at step
      obtain ⟨⟨s', r⟩, -, _, -, step⟩ := step
      cases step
      rfl
  | update j u =>
    simp only [indexMachine, updateColumn, Option.bind_eq_some_iff] at step
    obtain ⟨⟨s', IPrime, st⟩, -, ⟨s'', r⟩, -, step⟩ := step
    cases step
    simp only [IndexStep.updates, decide_eq_true_eq]
    by_cases hb : j / cfg.encryptBlockSize = b
    · rw [if_pos hb, ← hb, Function.update_self]
    · rw [if_neg hb, Function.update_of_ne (Ne.symm hb)]

/-! ### Servers that answer alike -/

/-- Servers that give a client the same replies. One may rely on a block being fetched
before it is sent back (`Ready`), unless blocks are single columns. -/
structure ServerSim (cfg : Config) (srv : Machine σ (Command Key) (Response Key))
    (srv' : Machine σ' (Command Key) (Response Key)) where
  Rel : σ → σ' → Prop
  Ready : Nat → σ → Prop
  step : ∀ {s t c}, Rel s t → c.Valid cfg → (∀ b data, c = .updateBlockData b data → Ready b s) →
    Machine.Lockstep Rel Eq (srv.step s c) (srv'.step t c)
  fetched : ∀ {s t b s' o}, Rel s t → b < cfg.numBlocks →
    srv.step s (.requestBlockData b) = some (s', o) → Ready b s'
  single : cfg.encryptBlockSize = 1 → ∀ b s, Ready b s

/-- A server with the requests it was sent, the last one last. -/
def logged (srv : Machine σ (Command Key) (Response Key)) :
    Machine (σ × List (Command Key)) (Command Key) (Response Key) :=
  srv.track fun log c => log ++ [c]

namespace ServerSim

variable {cfg : Config} {cr : Cipher Key} {srv : Machine σ (Command Key) (Response Key)}
  {srv' : Machine σ' (Command Key) (Response Key)} (sim : ServerSim cfg srv srv')

/-- Servers that answer alike answer alike when their requests are recorded. -/
def logged : ServerSim cfg (ImDsse.logged srv) (ImDsse.logged srv') where
  Rel p q := sim.Rel p.1 q.1 ∧ p.2 = q.2
  Ready b p := sim.Ready b p.1
  step := by
    rintro ⟨s, log⟩ ⟨t, _⟩ c ⟨rel, rfl⟩ valid ready
    refine (sim.step rel valid ready).map ?_
    rintro s' t' r _ rel' rfl -
    exact ⟨⟨rel', rfl⟩, rfl⟩
  fetched := by
    rintro ⟨s, log⟩ ⟨t, _⟩ b p' o ⟨rel, rfl⟩ valid step
    exact sim.fetched rel valid (Machine.track_step.mp step).1
  single one b p := sim.single one b p.1

/-- The relation of a client and its server to the same client and another server. -/
def ClientRel (p : σ × IndexClient Key) (q : σ' × IndexClient Key) : Prop :=
  sim.Rel p.1 q.1 ∧ p.2 = q.2

theorem searchRow_lockstep {s : σ} {t : σ'} (c : IndexClient Key) {row : Nat}
    (rel : sim.Rel s t) (valid : row < cfg.matrixRowSize) :
    Machine.Lockstep sim.ClientRel Eq (searchRow cfg cr srv s c row)
      (searchRow cfg cr srv' t c row) := by
  unfold searchRow
  cases htau : rowToken cr c.keywordCounterArr row with
  | none => exact .none
  | some tau =>
    simp only [Option.bind_some]
    split
    · refine (sim.step rel (c := .requestSearchData row) valid ?_).bind ?_
      · rintro b data ⟨⟩
      · rintro s' t' r _ rel' rfl -
        exact .bind_same _ fun msg _ => .some ⟨⟨rel', rfl⟩, rfl⟩
    · have hrow : tau.rowIndex = row := rowToken_rowIndex htau
      refine (sim.step rel (c := .searchOperation tau) (lt_of_eq_of_lt hrow valid) ?_).bind ?_
      · rintro b data ⟨⟩
      · rintro s' t' r _ rel' rfl -
        exact .bind_same _ fun ids _ => .some ⟨⟨rel', rfl⟩, rfl⟩

theorem requestBlockData_lockstep {s : σ} {t : σ'} {b : Nat} (rel : sim.Rel s t)
    (valid : b < cfg.numBlocks) (pos : 0 < cfg.encryptBlockSize) :
    Machine.Lockstep (fun s' t' => sim.Rel s' t' ∧ sim.Ready b s') Eq
      (requestBlockData cfg srv s b) (requestBlockData cfg srv' t b) := by
  unfold requestBlockData
  split
  · refine (sim.step rel (c := .requestBlockData b) valid ?_).bind ?_
    · rintro b data ⟨⟩
    · rintro s' t' r _ rel' rfl fetch
      exact .bind_same _ fun msg _ => .some ⟨⟨rel', sim.fetched rel valid fetch⟩, rfl⟩
  · exact .some ⟨⟨rel, sim.single (by omega) b s⟩, rfl⟩

theorem updateColumn_lockstep {s : σ} {t : σ'} (c : IndexClient Key) {b f : Nat}
    (u : ColumnUpdate) (rel : sim.Rel s t) (valid : b < cfg.numBlocks)
    (pos : 0 < cfg.encryptBlockSize) :
    Machine.Lockstep sim.ClientRel Eq (updateColumn cfg cr srv s c b f u)
      (updateColumn cfg cr srv' t c b f u) := by
  unfold updateColumn
  refine (sim.requestBlockData_lockstep rel valid pos).bind ?_
  rintro s' t' ⟨IPrime, blockStateArr⟩ _ ⟨rel', ready⟩ rfl -
  refine (sim.step rel' (c := .updateBlockData b _) valid ?_).bind ?_
  · rintro _ _ ⟨⟩
    exact ready
  · rintro s'' t'' r _ rel'' rfl -
    exact .some ⟨⟨rel'', rfl⟩, rfl⟩

end ServerSim

/-! ### Any server that behaves as a store -/

/-- `srv` behaves as a cell store. It may rely on a block being fetched before it
is sent back (`Ready`), unless blocks are single columns. -/
structure Refinement (cfg : Config) (cr : Cipher Key)
    (srv : Machine σ (Command Key) (Response Key)) where
  Rel : σ → CellStore → Prop
  Ready : Nat → σ → Prop
  step : ∀ {s t c}, Rel s t → c.Valid cfg → (∀ b data, c = .updateBlockData b data → Ready b s) →
    Machine.Lockstep Rel Eq (srv.step s c) ((cellStore cfg cr).step t c)
  fetched : ∀ {s t b s' o}, Rel s t → b < cfg.numBlocks →
    srv.step s (.requestBlockData b) = some (s', o) → Ready b s'
  single : cfg.encryptBlockSize = 1 → ∀ b s, Ready b s

/-- The server in memory needs no fetch. -/
def ramRefinement {cfg : Config} (size : cfg.Tiled) (cr : Cipher Key) :
    Refinement cfg cr (ramServer cfg cr) where
  Rel s t := s.cells cfg = t
  Ready _ _ := True
  step := by
    rintro s t c rfl valid -
    exact ramServer_refines size cr s valid
  fetched _ _ _ := trivial
  single _ _ _ := trivial

namespace Refinement

variable {cfg : Config} {cr : Cipher Key} {srv : Machine σ (Command Key) (Response Key)}
  (ref : Refinement cfg cr srv)

/-- The relation of a client and its server to the same client over the store. -/
def ClientRel (p : σ × IndexClient Key) (q : CellStore × IndexClient Key) : Prop :=
  ref.Rel p.1 q.1 ∧ p.2 = q.2

/-- A refining server and the store answer alike. -/
def sim : ServerSim cfg srv (cellStore cfg cr) := { ref with }

/-- Client and server over a refining server, step by step with client and store. -/
theorem indexMachine_lockstep (size : cfg.Tiled) {p : σ × IndexClient Key}
    {q : CellStore × IndexClient Key} {i : IndexStep} (rel : ref.ClientRel p q)
    (valid : i.Valid cfg) :
    Machine.Lockstep ref.ClientRel Eq ((indexMachine cfg cr srv).step p i)
      ((indexMachine cfg cr (cellStore cfg cr)).step q i) := by
  obtain ⟨s, c⟩ := p
  obtain ⟨t, _⟩ := q
  obtain ⟨rel, rfl⟩ := rel
  cases i with
  | search row => exact ref.sim.searchRow_lockstep c rel valid
  | update j u => exact ref.sim.updateColumn_lockstep c u rel (size.block_lt valid) size.pos

/-- Every run over a refining server gives the events of the run over the store. -/
theorem indexMachine_outputs (size : cfg.Tiled) {s : σ} {t : CellStore} (rel : ref.Rel s t)
    (c : IndexClient Key) {steps : List IndexStep} (valid : ∀ i ∈ steps, i.Valid cfg) :
    (indexMachine cfg cr srv).outputs (s, c) steps =
        (indexMachine cfg cr (cellStore cfg cr)).outputs (t, c) steps ∧
      Option.Rel ref.ClientRel ((indexMachine cfg cr srv).exec (s, c) steps)
        ((indexMachine cfg cr (cellStore cfg cr)).exec (t, c) steps) :=
  Machine.simulation_eq (fun _ _ _ rel valid => ref.indexMachine_lockstep size rel valid)
    ⟨rel, rfl⟩ (Machine.along_of_inputs valid _)

end Refinement

end ImDsse
