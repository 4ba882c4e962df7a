import ImDsse.SearchCorrect

/-!
What passes between client and server.

`wireMachine` is the client over a server with the requests of a step and their
replies for its output. `Wired` says what these are over the store: a search is
one request, an update sends a block back and fetches it first unless it is a
single column.
-/

namespace ImDsse

open Kit Kit.Loop Kit.Bits

variable {Key : Type} {σ : Type}

/-- A server with what it was sent and what it replied, the last exchange last. -/
def watched (srv : Machine σ (Command Key) (Response Key)) :
    Machine (σ × List (Command Key × Reply)) (Command Key) (Response Key) :=
  srv.recording fun log c r => log ++ [(c, r.reply)]

/-- Servers that answer alike are seen alike. -/
def ServerSim.watched {σ' : Type} {cfg : Config} {srv : Machine σ (Command Key) (Response Key)}
    {srv' : Machine σ' (Command Key) (Response Key)} (sim : ServerSim cfg srv srv') :
    ServerSim cfg (ImDsse.watched srv) (ImDsse.watched srv') where
  Rel p q := sim.Rel p.1 q.1 ∧ p.2 = q.2
  Ready b p := sim.Ready b p.1
  step := by
    rintro ⟨s, log⟩ ⟨t, _⟩ c ⟨rel, rfl⟩ valid ready
    refine (sim.step rel valid ready).map ?_
    rintro s' t' r _ rel' rfl -
    exact ⟨⟨rel', rfl⟩, rfl⟩
  fetched := by
    rintro ⟨s, log⟩ ⟨t, _⟩ b p' o ⟨rel, rfl⟩ valid step
    exact sim.fetched rel valid (Machine.recording_step.mp step).1
  single one b p := sim.single one b p.1

/-- Client and server, seen on the wire: each step answers with its exchanges. -/
def wireMachine (cfg : Config) (cr : Cipher Key) (srv : Machine σ (Command Key) (Response Key)) :
    Machine (σ × IndexClient Key) IndexStep (List (Command Key × Reply)) where
  step p i := ((indexMachine cfg cr (watched srv)).step ((p.1, []), p.2) i).map
    fun (q, _) => ((q.1.1, q.2), q.1.2)

/-- The exchange that fetches a block, none for blocks of one column. -/
def CellStore.fetchExchange (cfg : Config) (s : CellStore) (b : Nat) : List (Command Key × Reply) :=
  if 1 < cfg.encryptBlockSize then [(.requestBlockData b, .data (s.blockMessage cfg b))] else []

/-- The block an update sends back. -/
def sentBlock (cfg : Config) (cr : Cipher Key) (c : IndexClient Key) (j : Nat) (u : ColumnUpdate)
    (IPrime : Buf) (st : Nat → Bool) : List Byte :=
  toBytes (recodeBlock cfg cr c (j / cfg.encryptBlockSize) j u IPrime st).1 cfg.blockBytes

/-- What a step over the store can be on the wire, with the state it leaves. -/
inductive Wired (cfg : Config) (cr : Cipher Key) (s : CellStore) (c : IndexClient Key) :
    IndexStep → CellStore × IndexClient Key → List (Command Key × Reply) → Prop where
  | searchedAtServer (row : Nat) (server : cfg.decryptAtClientSide = false)
      (limit : c.keywordCounterArr row ≠ ulongMax) :
      Wired cfg cr s c (.search row)
        (s.search cfg cr (freshToken cr c.keywordCounterArr row), c.countSearch row)
        [(.searchOperation (freshToken cr c.keywordCounterArr row),
          .found (s.found cfg cr (freshToken cr c.keywordCounterArr row)))]
  | searchedAtClient (row : Nat) (client : cfg.decryptAtClientSide = true)
      (limit : c.keywordCounterArr row ≠ ulongMax) :
      Wired cfg cr s c (.search row) (s, c)
        [(.requestSearchData row, .data (s.rowMessage cfg row))]
  | updated (j : Nat) (u : ColumnUpdate) (IPrime : Buf) (st : Nat → Bool)
      (fetched : Fetched cfg s (j / cfg.encryptBlockSize) IPrime st) :
      Wired cfg cr s c (.update j u)
        (s.update cfg (j / cfg.encryptBlockSize) (sentBlock cfg cr c j u IPrime st),
          c.countUpdate (j / cfg.encryptBlockSize))
        (s.fetchExchange cfg (j / cfg.encryptBlockSize) ++
          [(.updateBlockData (j / cfg.encryptBlockSize) (sentBlock cfg cr c j u IPrime st),
            .success)])

section Store

variable {cfg : Config} {cr : Cipher Key} {s : CellStore} {c : IndexClient Key}

/-- A block fetched from a watched store. -/
theorem requestBlockData_watched (cr : Cipher Key) (s : CellStore) (size : cfg.Sized)
    (log : List (Command Key × Reply)) (b : Nat) :
    ∃ IPrime st, Fetched cfg s b IPrime st ∧
      requestBlockData cfg (watched (cellStore cfg cr)) (s, log) b =
        some ((s, log ++ s.fetchExchange cfg b), IPrime, st) := by
  obtain ⟨IPrime, st, fetch, fetched⟩ := requestBlockData_store cr s size b
  refine ⟨IPrime, st, fetched, ?_⟩
  unfold requestBlockData at fetch ⊢
  unfold CellStore.fetchExchange
  by_cases h1 : 1 < cfg.encryptBlockSize
  · rw [if_pos h1] at fetch ⊢
    rw [if_pos h1]
    cases fetch
    rfl
  · rw [if_neg h1] at fetch ⊢
    rw [if_neg h1, List.append_nil]
    cases fetch
    rfl

theorem wire_search_server {row : Nat} (server : cfg.decryptAtClientSide = false)
    (limit : c.keywordCounterArr row ≠ ulongMax) :
    (wireMachine cfg cr (cellStore cfg cr)).step (s, c) (.search row) =
      some ((s.search cfg cr (freshToken cr c.keywordCounterArr row), c.countSearch row),
        [(.searchOperation (freshToken cr c.keywordCounterArr row),
          .found (s.found cfg cr (freshToken cr c.keywordCounterArr row)))]) := by
  simp [wireMachine, indexMachine, searchRow, rowToken, limit, server, watched, Machine.recording,
    cellStore, Response.found?, IndexClient.countSearch]

theorem wire_search_client {row : Nat} (client : cfg.decryptAtClientSide = true)
    (limit : c.keywordCounterArr row ≠ ulongMax) :
    (wireMachine cfg cr (cellStore cfg cr)).step (s, c) (.search row) =
      some ((s, c), [(.requestSearchData row, .data (s.rowMessage cfg row))]) := by
  simp [wireMachine, indexMachine, searchRow, rowToken, limit, client, watched, Machine.recording,
    cellStore, Response.data?]

theorem wire_limit {srv : Machine σ (Command Key) (Response Key)} {t : σ} {row : Nat}
    (limit : c.keywordCounterArr row = ulongMax) :
    (wireMachine cfg cr srv).step (t, c) (.search row) = none := by
  simp [wireMachine, indexMachine, searchRow_limit limit]

theorem wire_update (cr : Cipher Key) (s : CellStore) (c : IndexClient Key) (size : cfg.Sized)
    (j : Nat) (u : ColumnUpdate) :
    ∃ IPrime st, Fetched cfg s (j / cfg.encryptBlockSize) IPrime st ∧
      (wireMachine cfg cr (cellStore cfg cr)).step (s, c) (.update j u) =
        some ((s.update cfg (j / cfg.encryptBlockSize) (sentBlock cfg cr c j u IPrime st),
          c.countUpdate (j / cfg.encryptBlockSize)),
        s.fetchExchange cfg (j / cfg.encryptBlockSize) ++
          [(.updateBlockData (j / cfg.encryptBlockSize) (sentBlock cfg cr c j u IPrime st),
            .success)]) := by
  obtain ⟨IPrime, st, fetched, fetch⟩ :=
    requestBlockData_watched cr s size [] (j / cfg.encryptBlockSize)
  refine ⟨IPrime, st, fetched, ?_⟩
  simp only [wireMachine, indexMachine, updateColumn, fetch, Option.bind_some]
  rfl

/-- A step that goes on is one of these. -/
theorem wired_of_step (size : cfg.Sized) {i : IndexStep} {p' : CellStore × IndexClient Key}
    {x : List (Command Key × Reply)}
    (step : (wireMachine cfg cr (cellStore cfg cr)).step (s, c) i = some (p', x)) :
    Wired cfg cr s c i p' x := by
  cases i with
  | search row =>
    have limit : c.keywordCounterArr row ≠ ulongMax := by
      intro limit
      cases (wire_limit limit).symm.trans step
    cases hd : cfg.decryptAtClientSide with
    | false =>
      cases (wire_search_server hd limit).symm.trans step
      exact .searchedAtServer row hd limit
    | true =>
      cases (wire_search_client hd limit).symm.trans step
      exact .searchedAtClient row hd limit
  | update j u =>
    obtain ⟨IPrime, st, fetched, eq⟩ := wire_update cr s c size j u
    cases eq.symm.trans step
    exact .updated j u IPrime st fetched

end Store

/-- The plaintext after a step. -/
def Plain.apply (M : Plain) : IndexStep → Plain
  | .search _ => M
  | .update j u => M.setColumn j u.newCol

/-- The plaintext after a run. -/
def Plain.after (M : Plain) (steps : List IndexStep) : Plain := steps.foldl Plain.apply M

section Step

variable {cfg : Config} {cr : Cipher Key} (size : cfg.Sized) {M : Plain} {s : CellStore}
  {c : IndexClient Key} {i : IndexStep} {p' : CellStore × IndexClient Key}
  {x : List (Command Key × Reply)}
include size

/-- A step stays consistent with the plaintext. -/
theorem Wired.consistent (step : Wired cfg cr s c i p' x) (h : Consistent cfg cr M s c)
    (valid : i.Valid cfg) : Consistent cfg cr (M.apply i) p'.1 p'.2 := by
  cases step with
  | searchedAtServer row server limit => exact h.search size valid server limit
  | searchedAtClient row client limit => exact h
  | updated j u IPrime st fetched => exact h.update size u fetched

end Step

/-- Servers that answer alike are sent the same. -/
theorem ServerSim.wire_outputs {σ' : Type} {cfg : Config} {cr : Cipher Key}
    {srv : Machine σ (Command Key) (Response Key)} {srv' : Machine σ' (Command Key) (Response Key)}
    (sim : ServerSim cfg srv srv') (size : cfg.Tiled) {s : σ} {t : σ'} (rel : sim.Rel s t)
    (c : IndexClient Key) {steps : List IndexStep} (valid : ∀ i ∈ steps, i.Valid cfg) :
    (wireMachine cfg cr srv).outputs (s, c) steps =
      (wireMachine cfg cr srv').outputs (t, c) steps := by
  have step : ∀ p q i, sim.ClientRel p q → i.Valid cfg → Machine.Lockstep sim.ClientRel Eq
      ((wireMachine cfg cr srv).step p i) ((wireMachine cfg cr srv').step q i) := by
    rintro ⟨s, c⟩ ⟨t, _⟩ i ⟨rel, rfl⟩ valid
    have start : sim.watched.Rel (s, []) (t, []) := ⟨rel, rfl⟩
    have agree : Machine.Lockstep sim.watched.ClientRel Eq
        ((indexMachine cfg cr (ImDsse.watched srv)).step ((s, []), c) i)
        ((indexMachine cfg cr (ImDsse.watched srv')).step ((t, []), c) i) := by
      cases i with
      | search row => exact sim.watched.searchRow_lockstep c start valid
      | update j u => exact sim.watched.updateColumn_lockstep c u start (size.block_lt valid) size.pos
    refine agree.map fun p q _ _ rel' _ _ => ?_
    obtain ⟨⟨rel', log⟩, same⟩ : (sim.Rel p.1.1 q.1.1 ∧ p.1.2 = q.1.2) ∧ p.2 = q.2 := rel'
    exact ⟨⟨rel', same⟩, log⟩
  exact (Machine.simulation_eq step ⟨rel, rfl⟩ (Machine.along_of_inputs valid _)).1

end ImDsse
