import ImDsse.ClientState
import ImDsse.Index

/-!
What the client's operations do to the state that is saved.

Whatever is searched, added or deleted, the client stays `Sound`, and where the server
decrypts both parties count the same updates. An operation reaches the server through
its requests alone (`clientMachine_requests`), and servers in the same state of the
store cannot be told apart by any operations (`Refinement.same_outputs`).
-/

namespace ImDsse

open Kit Kit.Bits Kit.Pool

variable {Key : Type} {σ : Type} {τ : Type} [DecidableEq τ]

/-! ### Exchanges -/

section Exchanges

variable {cfg : Config} {cr : Cipher Key} {srv : Machine σ (Command Key) (Response Key)}
  {s s' : σ} {c c' : IndexClient Key} {e : Event Key}

/-- A search counts the row where the server decrypts. -/
theorem searchRow_index {row : Nat} (h : searchRow cfg cr srv s c row = some ((s', c'), e)) :
    c' = if cfg.decryptAtClientSide then c else c.countSearch row := by
  simp only [searchRow, Option.bind_eq_some_iff] at h
  obtain ⟨tau, -, h⟩ := h
  split at h
  · next client =>
    simp only [Option.bind_eq_some_iff] at h
    obtain ⟨⟨s₁, r⟩, -, msg, -, h⟩ := h
    cases h
    rw [if_pos client]
  · next server =>
    simp only [Option.bind_eq_some_iff] at h
    obtain ⟨⟨s₁, r⟩, -, ids, -, h⟩ := h
    cases h
    rw [if_neg server]
    rfl

/-- An update counts the block. -/
theorem updateColumn_index {b f : Nat} {u : ColumnUpdate}
    (h : updateColumn cfg cr srv s c b f u = some ((s', c'), e)) : c' = c.countUpdate b := by
  simp only [updateColumn, Option.bind_eq_some_iff] at h
  obtain ⟨⟨s₁, IPrime, st⟩, -, ⟨s₂, r⟩, -, h⟩ := h
  cases h
  rfl

/-- A search is one request. -/
theorem searchRow_requests {row : Nat} (h : searchRow cfg cr srv s c row = some ((s', c'), e)) :
    ∃ commands, srv.exec s commands = some s' := by
  simp only [searchRow, Option.bind_eq_some_iff] at h
  obtain ⟨tau, -, h⟩ := h
  split at h
  all_goals
    simp only [Option.bind_eq_some_iff] at h
    obtain ⟨⟨s₁, r⟩, request, _, -, h⟩ := h
    cases h
    exact ⟨[_], Machine.exec_cons_of_step [] request⟩

/-- An update is the request of its block, unless blocks are single columns, and the
block sent back. -/
theorem updateColumn_requests {b f : Nat} {u : ColumnUpdate}
    (h : updateColumn cfg cr srv s c b f u = some ((s', c'), e)) :
    ∃ commands, srv.exec s commands = some s' := by
  simp only [updateColumn, Option.bind_eq_some_iff] at h
  obtain ⟨⟨s₁, IPrime, st⟩, fetch, ⟨s₂, r⟩, send, h⟩ := h
  cases h
  unfold requestBlockData at fetch
  split at fetch
  · simp only [Option.bind_eq_some_iff] at fetch
    obtain ⟨⟨s₃, r'⟩, request, msg, -, fetch⟩ := fetch
    cases fetch
    exact ⟨_, (Machine.exec_cons_of_step [_] request).trans (Machine.exec_cons_of_step [] send)⟩
  · cases fetch
    exact ⟨[_], Machine.exec_cons_of_step [] send⟩

end Exchanges

/-! ### The client -/

/-- An operation reaches the server through requests. -/
theorem clientMachine_requests {cfg : Config} {cr : Cipher Key} {td : Trapdoor τ}
    {srv : Machine σ (Command Key) (Response Key)} (size : cfg.Tiled) {p p' : σ × Client τ Key}
    {op : ClientOp} {report : Report} (inRange : p.2.tables.InRange cfg)
    (step : (clientMachine cfg cr td srv).step p op = some (p', report)) :
    ∃ commands, srv.exec p.1 commands = some p'.1 := by
  rcases (clientMachine_cases size inRange step).2 with
    ⟨same, -⟩ | ⟨row, e, -, search⟩ | ⟨b, f, u, e, -, update⟩
  · exact ⟨[], congrArg some same.symm⟩
  · exact searchRow_requests search
  · exact updateColumn_requests update

/-- One more counted. -/
theorem Counters.next {n : Nat} {arr : Nat → Nat} (h : Counters n arr) {i : Nat} (hi : i < n) :
    Counters n (Function.update arr i (nextCounter (arr i))) where
  fits j := by
    by_cases here : j = i
    · subst here
      rw [Function.update_self]
      exact Nat.mod_lt _ (by decide)
    · rw [Function.update_of_ne here]
      exact h.fits j
  ends j hj := by
    rw [Function.update_of_ne (by omega)]
    exact h.ends j hj

/-- Every operation keeps the client sound. -/
theorem Client.Sound.step {cfg : Config} {cr : Cipher Key} {td : Trapdoor τ}
    {srv : Machine σ (Command Key) (Response Key)} (size : cfg.Tiled) {p p' : σ × Client τ Key}
    {op : ClientOp} {report : Report} (sound : p.2.Sound cfg cr)
    (step : (clientMachine cfg cr td srv).step p op = some (p', report)) : p'.2.Sound cfg cr := by
  obtain ⟨inRange, effect⟩ := clientMachine_cases size sound.tables step
  rcases effect with ⟨-, same⟩ | ⟨row, e, hrow, search⟩ | ⟨b, f, u, e, hb, update⟩
  · exact ⟨inRange, same ▸ sound.keywordCounters, same ▸ sound.blockCounters, same ▸ sound.rowKeys⟩
  · have counted := searchRow_index search
    cases build : cfg.decryptAtClientSide with
    | true =>
      rw [build, if_pos rfl] at counted
      exact ⟨inRange, counted ▸ sound.keywordCounters, counted ▸ sound.blockCounters,
        counted ▸ sound.rowKeys⟩
    | false =>
      rw [build, if_neg (by decide)] at counted
      refine ⟨inRange, ?_, ?_, ?_⟩
      · rw [counted]
        exact sound.keywordCounters.next hrow
      · rw [counted]
        exact sound.blockCounters
      · rw [counted, IndexClient.countSearch_rowKeys, sound.rowKeys, build]
        rfl
  · have counted := updateColumn_index update
    refine ⟨inRange, ?_, ?_, ?_⟩
    · rw [counted]
      exact sound.keywordCounters
    · rw [counted]
      exact sound.blockCounters.next hb
    · rw [counted]
      exact sound.rowKeys

/-! ### Client and store -/

/-- Where the server decrypts, both parties have counted the same updates. -/
def SameCounters (cfg : Config) (t : CellStore) (c : IndexClient Key) : Prop :=
  cfg.decryptAtClientSide = false → ∀ b, b < cfg.numBlocks → t.counter b = c.blockCounterArr b

section Store

variable {cfg : Config} {cr : Cipher Key} {t t' : CellStore} {c c' : IndexClient Key} {e : Event Key}

theorem searchRow_counter {row : Nat}
    (h : searchRow cfg cr (cellStore cfg cr) t c row = some ((t', c'), e)) :
    t'.counter = t.counter := by
  simp only [searchRow, Option.bind_eq_some_iff] at h
  obtain ⟨tau, -, h⟩ := h
  split at h
  · simp only [Option.bind_eq_some_iff] at h
    obtain ⟨⟨t₁, r⟩, request, _, -, h⟩ := h
    cases h
    cases request
    rfl
  · next server =>
    simp only [Option.bind_eq_some_iff, cellStore, if_neg server] at h
    obtain ⟨⟨t₁, r⟩, request, _, -, h⟩ := h
    cases h
    cases request
    rfl

theorem updateColumn_counter {b f : Nat} {u : ColumnUpdate}
    (h : updateColumn cfg cr (cellStore cfg cr) t c b f u = some ((t', c'), e)) :
    t'.counter = if cfg.decryptAtClientSide then t.counter
      else Function.update t.counter b (nextCounter (t.counter b)) := by
  simp only [updateColumn, Option.bind_eq_some_iff] at h
  obtain ⟨⟨t₁, IPrime, st⟩, fetch, ⟨t₂, r⟩, send, h⟩ := h
  cases h
  have same : t₁ = t := by
    unfold requestBlockData at fetch
    split at fetch
    · simp only [Option.bind_eq_some_iff] at fetch
      obtain ⟨⟨t₃, r'⟩, request, msg, -, fetch⟩ := fetch
      cases fetch
      cases request
      rfl
    · cases fetch
      rfl
  subst same
  cases send
  rfl

/-- Every operation keeps the counters of client and store the same. -/
theorem SameCounters.step {td : Trapdoor τ} (size : cfg.Tiled) {q q' : CellStore × Client τ Key}
    {op : ClientOp} {report : Report} (inRange : q.2.tables.InRange cfg)
    (same : SameCounters cfg q.1 q.2.index)
    (step : (clientMachine cfg cr td (cellStore cfg cr)).step q op = some (q', report)) :
    SameCounters cfg q'.1 q'.2.index := by
  intro server b hb
  have here := same server b hb
  rcases (clientMachine_cases size inRange step).2 with
    ⟨store, client⟩ | ⟨row, e, -, search⟩ | ⟨b', f, u, e, -, update⟩
  · rw [store, client]
    exact here
  · rw [searchRow_counter search, searchRow_index search, server, if_neg (by decide)]
    exact here
  · rw [updateColumn_counter update, updateColumn_index update, server, if_neg (by decide)]
    by_cases block : b = b'
    · subst block
      rw [Function.update_self, IndexClient.countUpdate_self, here]
    · rw [Function.update_of_ne block, IndexClient.countUpdate_of_ne _ _ block]
      exact here

end Store

/-! ### The requests of an operation -/

/-- A recorded server answers as the server does. -/
def unlogged (cfg : Config) (srv : Machine σ (Command Key) (Response Key)) :
    ServerSim cfg (logged srv) srv where
  Rel p s := p.1 = s
  Ready _ _ := True
  step := by
    rintro ⟨s, log⟩ _ c rfl - -
    simp only [logged, Machine.track]
    cases srv.step s c with
    | none => exact .none
    | some p => exact .some ⟨rfl, rfl⟩
  fetched _ _ _ := trivial
  single _ _ _ := trivial

/-- The client, with the requests of an operation beside its report. -/
def tracedClient (cfg : Config) (cr : Cipher Key) (td : Trapdoor τ)
    (srv : Machine σ (Command Key) (Response Key)) :
    Machine (σ × Client τ Key) ClientOp (Report × List (Command Key)) where
  step p op :=
    ((clientMachine cfg cr td (logged srv)).step ((p.1, []), p.2) op).map
      fun (((s, sent), c), report) => ((s, c), report, sent)

section Traced

variable {cfg : Config} {cr : Cipher Key} {td : Trapdoor τ} (size : cfg.Tiled)
include size

/-- Recording the requests changes nothing else. -/
theorem tracedClient_step {srv : Machine σ (Command Key) (Response Key)} {p p' : σ × Client τ Key}
    {op : ClientOp} {o : Report × List (Command Key)} (inRange : p.2.tables.InRange cfg)
    (step : (tracedClient cfg cr td srv).step p op = some (p', o)) :
    (clientMachine cfg cr td srv).step p op = some (p', o.1) := by
  obtain ⟨⟨⟨⟨s, sent⟩, c⟩, report⟩, logged, h⟩ := Option.map_eq_some_iff.mp step
  cases h
  obtain ⟨⟨s', c'⟩, report', alone, ⟨rel, same⟩, out⟩ :=
    ((unlogged cfg srv).clientMachine_lockstep cr td size rfl inRange op).of_left logged
  cases rel
  cases same
  cases out
  exact alone

variable {σ' : Type} {srv : Machine σ (Command Key) (Response Key)}
  {srv' : Machine σ' (Command Key) (Response Key)} (sim : ServerSim cfg srv srv')

/-- Clients with the same lookups send the same requests to servers that answer alike. -/
theorem ServerSim.tracedClient_lockstep {s : σ} {t : σ'} {c c' : Client τ Key} (rel : sim.Rel s t)
    (same : c.Same c') (inRange : c.tables.InRange cfg) (op : ClientOp) :
    Machine.Lockstep (fun p q => sim.Rel p.1 q.1 ∧ p.2.Same q.2) Eq
      ((tracedClient cfg cr td srv).step (s, c) op)
      ((tracedClient cfg cr td srv').step (t, c') op) := by
  have start : sim.logged.Rel (s, []) (t, []) := ⟨rel, rfl⟩
  have servers := sim.logged.clientMachine_lockstep cr td size start inRange op
  have clients := clientMachine_same cfg cr td (ImDsse.logged srv') (t, []) same op
  refine (servers.trans clients).map ?_
  rintro ⟨⟨s', sent⟩, c₁⟩ ⟨⟨t', sent'⟩, c₁'⟩ report _ ⟨⟨⟨t₁, sent₁⟩, c₂⟩, ⟨⟨rel', log⟩, eq⟩, srvEq, same'⟩
    rfl -
  cases log
  cases eq
  cases srvEq
  exact ⟨⟨rel', same'⟩, rfl⟩

/-- And in every run, operation by operation. -/
theorem ServerSim.tracedClient_outputs {s : σ} {t : σ'} {c c' : Client τ Key} (rel : sim.Rel s t)
    (same : c.Same c') (inRange : c.tables.InRange cfg) (ops : List ClientOp) :
    (tracedClient cfg cr td srv).outputs (s, c) ops =
      (tracedClient cfg cr td srv').outputs (t, c') ops := by
  have agree : ∀ (p : σ × Client τ Key) (q : σ' × Client τ Key) (op : ClientOp),
      (sim.Rel p.1 q.1 ∧ p.2.Same q.2) ∧ p.2.tables.InRange cfg → True →
      Machine.Lockstep (fun p q => (sim.Rel p.1 q.1 ∧ p.2.Same q.2) ∧ p.2.tables.InRange cfg) Eq
        ((tracedClient cfg cr td srv).step p op) ((tracedClient cfg cr td srv').step q op) := by
    rintro ⟨s, c⟩ ⟨t, c'⟩ op ⟨⟨rel, same⟩, inRange⟩ -
    exact (sim.tracedClient_lockstep size rel same inRange op).and_left fun p o step =>
      (clientMachine_cases size inRange (tracedClient_step size inRange step)).1
  exact (Machine.simulation_eq agree ⟨⟨rel, same⟩, inRange⟩
    (Machine.along_of_forall (fun _ _ => trivial) _ _)).1

/-- Servers in the same state of the store cannot be told apart. -/
theorem Refinement.same_outputs (ref : Refinement cfg cr srv) {s s' : σ} {t : CellStore}
    {c c' : Client τ Key} (rel : ref.Rel s t) (rel' : ref.Rel s' t) (same : c.Same c')
    (inRange : c.tables.InRange cfg) (inRange' : c'.tables.InRange cfg)
    (ops : List ClientOp) :
    (tracedClient cfg cr td srv).outputs (s, c) ops =
      (tracedClient cfg cr td srv).outputs (s', c') ops :=
  (ref.sim.tracedClient_outputs size rel same inRange ops).trans
    (ref.sim.tracedClient_outputs size rel' (.refl c') inRange' ops).symm

end Traced

end ImDsse
