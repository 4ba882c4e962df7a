import ImDsse.Database
import ImDsse.Seu.Freshness

/-!
Searches of the Android client against the collection of files.

A call does its work where its request arrives, whether its reply comes back or not, so
the collection is counted by what was asked for and not by what was reported. Beside the
index and the tables of `IM-DSSE` the invariant has two things of its own: columns of
deleted files, which `delToken` gives to nobody, are lost, and where the client decrypts a
search counts its keyword although nothing is encrypted under that counter. The threads of
`MULTI_THREAD` encrypt a block under the keys it had; searches are exact all the same.
-/

namespace ImDsse.Seu

open Kit Kit.Bits Kit.Pool Kit.Text

variable {Key : Type} {σ : Type} {τ : Type} [DecidableEq τ]

/-! ### The collection -/

/-- The files of the collection after a call. -/
def filesAfter (fs : List FileEntry) : Op τ → List FileEntry
  | .searchKeyword _ _ => fs
  | .addFile path content _ _ _ => ⟨path, content⟩ :: fs.filter (·.path ≠ path)
  | .delFile path _ _ => fs.filter (·.path ≠ path)

/-- What reaches the server: the token of a search, where it decrypts; the new block of an
update, made from the block that was fetched. An added file can be read. -/
def Arrives (cfg : Config) : Op τ → Prop
  | .searchKeyword _ links => cfg.decryptAtClientSide = true ∨ links.fetch ≠ .down
  | .addFile _ content _ _ links => content.isSome = true ∧
      (1 < cfg.encryptBlockSize → links.fetch = .up) ∧ links.update ≠ .down
  | .delFile _ _ links => (1 < cfg.encryptBlockSize → links.fetch = .up) ∧ links.update ≠ .down

/-- What a call asks of the tables, the collection and the numbers it draws. -/
def ReadsIndices (td : Trapdoor τ) (T : Tables τ) (fs : List FileEntry) : Op τ → Prop
  | .searchKeyword keyword _ => 0 ∉ keyword ∧
      (keyword = [] → T.tW.lookup td.zero = none ∨ T.tW.lookup td.zero = some 0) ∧
      ((∃ f ∈ fs, keyword ∈ f.keywords) → T.tW.lookup (td.omac keyword) ≠ some 0)
  | .addFile path content draws _ _ => ColumnReads td T path draws ∧
      ∀ word ∈ extractKeywords [] content, (∃ f ∈ fs, f.path ≠ path ∧ word ∈ f.keywords) →
        T.tW.lookup (td.omac word) ≠ some 0
  | .delFile path _ _ => T.tF.lookup (td.omac path) ≠ some 0

/-- The reply of a search comes back and can be stored. -/
def Answered (build : Build) (cfg : Config) (links : Links) : Prop :=
  links.fetch = .up ∧ (cfg.decryptAtClientSide = true ∨ build.sendSearchFileIndex = false ∨
    links.resultOpens = true)

instance (cfg : Config) (op : Op τ) : Decidable (Arrives cfg op) :=
  match op with
  | .searchKeyword .. => by unfold Arrives; infer_instance
  | .addFile .. => by unfold Arrives; infer_instance
  | .delFile .. => by unfold Arrives; infer_instance

instance (td : Trapdoor τ) (T : Tables τ) (fs : List FileEntry) (op : Op τ) :
    Decidable (ReadsIndices td T fs op) :=
  match op with
  | .searchKeyword keyword _ =>
    decidable_of_iff (keyword.contains 0 = false ∧
      (keyword = [] → T.tW.lookup td.zero = none ∨ T.tW.lookup td.zero = some 0) ∧
      (fs.any (fun f => f.keywords.contains keyword) = true →
        T.tW.lookup (td.omac keyword) ≠ some 0)) (by simp [ReadsIndices])
  | .addFile path content draws _ _ =>
    inferInstanceAs (Decidable (ImDsse.ReadsIndices td T fs (.addFile path content draws)))
  | .delFile path draws _ =>
    inferInstanceAs (Decidable (ImDsse.ReadsIndices td T fs (.delFile path draws)))

/-! ### What the client keeps -/

omit [DecidableEq τ] in
/-- The counters and keys the index at the server is under. -/
def Client.scheme (cfg : Config) (c : Client τ Key) : IndexClient Key :=
  { c.index with
    keywordCounterArr :=
      if cfg.decryptAtClientSide then fun _ => 1 else c.index.keywordCounterArr }

/-- The tables with the lost columns behind the free ones. -/
def withLost (T : Tables τ) (lost : List Nat) : Tables τ :=
  { T with lstFreeColumnIdx := T.lstFreeColumnIdx ++ lost }

/-- Client and server keep the collection, with plaintext index `M`. -/
structure Keeps (build : Build) {cfg : Config} {cr : Cipher Key}
    {srv : Machine σ (Command Key) (Response Key)} (ref : Refinement cfg cr srv) (td : Trapdoor τ)
    (s : σ) (c : Client τ Key) (fs : List FileEntry) (M : Plain) : Prop where
  built : c.dataStructureConstructed = true
  counters : cfg.decryptAtClientSide = false → ∀ row, row < cfg.matrixRowSize →
    c.index.keywordCounterArr row ≤ build.ulongMax
  store : ∃ t, ref.Rel s t ∧ Consistent cfg cr M t (c.scheme cfg)
  tables : ∃ lost, Indexed cfg td fs (withLost c.tables lost) M

/-- Client and server keep the collection. -/
def Holds (build : Build) {cfg : Config} {cr : Cipher Key}
    {srv : Machine σ (Command Key) (Response Key)} (ref : Refinement cfg cr srv) (td : Trapdoor τ)
    (w : World σ τ Key) (fs : List FileEntry) : Prop :=
  ∃ M, Keeps build ref td w.server w.client fs M

section Scheme

variable {cfg : Config} {c : Client τ Key}

omit [DecidableEq τ] in
theorem scheme_server (server : cfg.decryptAtClientSide = false) : c.scheme cfg = c.index := by
  unfold Client.scheme
  rw [server]
  rfl

omit [DecidableEq τ] in
theorem scheme_client (client : cfg.decryptAtClientSide = true) :
    c.scheme cfg = { c.index with keywordCounterArr := fun _ => 1 } := by
  unfold Client.scheme
  rw [client]
  rfl

end Scheme

/-! ### Lost columns -/

omit [DecidableEq τ] in
/-- What is picked from a list can be picked from a longer one. -/
theorem pickRandomElement_append {setIdx free : List Nat} {draws draws' : Nat → Nat} {v : Nat}
    (h : pickRandomElement setIdx draws = some (v, free, draws')) (lost : List Nat) :
    ∃ draws₀, pickRandomElement (setIdx ++ lost) draws₀ = some (v, free ++ lost, draws') := by
  simp only [pickRandomElement, Option.map_eq_some_iff] at h
  obtain ⟨w, found, h⟩ := h
  cases h
  obtain ⟨bound, -⟩ := List.getElem?_eq_some_iff.mp found
  refine ⟨fun n => if n = 0 then draws 0 % setIdx.length else draws n, ?_⟩
  have small : draws 0 % setIdx.length % (setIdx ++ lost).length = draws 0 % setIdx.length := by
    refine Nat.mod_eq_of_lt (Nat.lt_of_lt_of_le bound ?_)
    rw [List.length_append]
    exact Nat.le_add_right _ _
  simp only [pickRandomElement, if_true, small, List.getElem?_append_left bound, found,
    Option.map_some, List.eraseIdx_append_of_lt_length bound, Nat.add_one_ne_zero, if_false]

/-- A lookup goes the same way with more columns to pick from. -/
theorem assigned_append {s s' : Picks τ} {key : τ} (h : Assigned 0 s key s') (lost : List Nat) :
    ∃ draws, Assigned 0 ⟨s.table, s.free ++ lost, draws⟩ key
      ⟨s'.table, s'.free ++ lost, s'.draws⟩ := by
  cases h with
  | kept v found ne => exact ⟨s.draws, .kept v found ne⟩
  | picked v free draws unassigned pick =>
    obtain ⟨draws₀, pick⟩ := pickRandomElement_append pick lost
    exact ⟨draws₀, .picked v (free ++ lost) draws unassigned pick⟩

/-! ### Exchanges with a server that behaves as a store -/

section Exchanges

variable {cfg : Config} {cr : Cipher Key} {srv : Machine σ (Command Key) (Response Key)}
  {w : World σ τ Key} {link : Link}

omit [DecidableEq τ] in
/-- A request that arrives is served. -/
theorem exchange_run {command : Command Key} {s' : σ} {r : Response Key}
    (step : srv.step w.server command = some (s', r)) (arrives : link ≠ .down) : exchange srv link command w =
      .ok (if link = .up then some r else none) { w with server := s' } := by
  unfold exchange
  rw [step]
  cases link with
  | up => rfl
  | down => exact absurd rfl arrives
  | lost => rfl

omit [DecidableEq τ] in
/-- And one that does not leave is not. -/
theorem exchange_down (command : Command Key) : exchange srv .down command w = .ok none w := by
  unfold exchange
  rfl

variable (ref : Refinement cfg cr srv) {t t' : CellStore} {r : Response Key}

omit [DecidableEq τ] in
/-- The server serves a request as the store does. -/
theorem exchange_store (rel : ref.Rel w.server t) (command : Command Key)
    (valid : command.Valid cfg)
    (ready : ∀ b data, command = .updateBlockData b data → ref.Ready b w.server)
    (store : (cellStore cfg cr).step t command = some (t', r)) (arrives : link ≠ .down) :
    ∃ s', srv.step w.server command = some (s', r) ∧ ref.Rel s' t' ∧
      exchange srv link command w =
        .ok (if link = .up then some r else none) { w with server := s' } := by
  obtain ⟨s', _, step, rel', rfl⟩ := (ref.step rel valid ready).of_right store
  exact ⟨s', step, rel', exchange_run step arrives⟩

omit [DecidableEq τ] in
/-- A block that is fetched is the one in the store. Blocks of one column are not. -/
theorem requestBlockData_arrives (size : cfg.Sized) {b : Nat} {ret : Option Err}
    {w' : World σ τ Key} (h : requestBlockData cfg srv link b w = .ok ret w')
    (rel : ref.Rel w.server t) (valid : b < cfg.numBlocks)
    (up : 1 < cfg.encryptBlockSize → link = .up) :
    ret = none ∧ ∃ s' IPrime st, w' = { w with
        server := s', client := { w.client with IPrime := IPrime, blockStateArr := st } } ∧
      ref.Rel s' t ∧ ref.Ready b s' ∧ Fetched cfg t b IPrime st := by
  unfold requestBlockData at h
  by_cases wide : 1 < cfg.encryptBlockSize
  · obtain ⟨IPrime, st, fetch, fetched⟩ := requestBlockData_store cr t size b
    rw [ImDsse.requestBlockData, if_pos wide] at fetch
    cases fetch
    cases up wide
    have arrives : Link.up ≠ .down := by decide
    obtain ⟨s', step, rel', run⟩ :=
      exchange_store ref rel (.requestBlockData b) valid (fun _ _ h => by cases h) rfl arrives
    rw [if_pos wide, Prog.bind_ok run] at h
    cases h
    exact ⟨rfl, s', _, _, rfl, rel', ref.fetched rel valid step, fetched⟩
  · rw [if_neg wide] at h
    cases h
    have one : cfg.encryptBlockSize = 1 := by
      have := size.tiled.pos
      omega
    exact ⟨rfl, w.server, w.client.IPrime, w.client.blockStateArr, rfl, rel, ref.single one b _,
      fun h => absurd h wide, fun h => absurd h wide⟩

omit [DecidableEq τ] in
/-- A block that is sent replaces the one in the store. -/
theorem sendBlockData_arrives {b : Nat} {out : Option Err × List Byte} {w' : World σ τ Key}
    (h : sendBlockData cfg srv link b w = .ok out w') (rel : ref.Rel w.server t)
    (valid : b < cfg.numBlocks) (ready : ref.Ready b w.server) (arrives : link ≠ .down) :
    ∃ s', w' = { w with server := s' } ∧
      ref.Rel s' (t.update cfg b (toBytes w.client.IPrime cfg.blockBytes)) := by
  obtain ⟨s', -, rel', run⟩ := exchange_store ref rel
    (.updateBlockData b (toBytes w.client.IPrime cfg.blockBytes)) valid
    (fun _ _ h => by cases h; exact ready) rfl arrives
  obtain ⟨_, _, looked, h⟩ := Prog.bind_eq_ok.mp h
  cases looked
  rw [Prog.bind_ok run] at h
  cases h
  exact ⟨s', rfl, rel'⟩

end Exchanges

/-! ### Searching -/

section Search

variable {build : Build} {cfg : Config} {cr : Cipher Key} {td : Trapdoor τ}
  {srv : Machine σ (Command Key) (Response Key)} {ref : Refinement cfg cr srv}
  {w w' : World σ τ Key} {fs : List FileEntry} {M : Plain} {keyword : Str} {links : Links}
  {res : Except Err (Report Key)}

/-- What a search comes to, of a client that keeps the collection with plaintext index `M`.
Where the server decrypts it leaves by an exception when it has nothing to send. -/
inductive SearchGives (build : Build) (cfg : Config) (td : Trapdoor τ) (w : World σ τ Key)
    (M : Plain) (keyword : Str) (links : Links) :
    Option (World σ τ Key × Except Err (Report Key)) → Prop where
  | noRow (w' : World σ τ Key)
      (zero : (index w.client.tables.tW (td.generate (cStr keyword))).1 = 0) :
      SearchGives build cfg td w M keyword links
        (if cfg.decryptAtClientSide then some (w', .ok (.searched [])) else none)
  | limit (row : Nat) (found : w.client.tables.tW.lookup (td.generate (cStr keyword)) = some row)
      (ne : row ≠ 0) (max : w.client.index.keywordCounterArr row = build.ulongMax) :
      SearchGives build cfg td w M keyword links
        (if cfg.decryptAtClientSide then some (w, .error .counterExceedLimit) else none)
  | row (row : Nat) (w' : World σ τ Key) (res : Except Err (Report Key))
      (found : w.client.tables.tW.lookup (td.generate (cStr keyword)) = some row) (ne : row ≠ 0)
      (left : w.client.index.keywordCounterArr row ≠ build.ulongMax)
      (answer : Answered build cfg links → res = .ok (.searched (M.searchRow cfg row))) :
      SearchGives build cfg td w M keyword links (some (w', res))

omit [DecidableEq τ] in
variable (build) in
/-- The token of a row does its work at the server, and is answered or not. -/
theorem searchAtServer_run (size : cfg.Sized) (server : cfg.decryptAtClientSide = false)
    {t : CellStore} {c : IndexClient Key} {row : Nat} (rel : ref.Rel w.server t)
    (consistent : Consistent cfg cr M t c) (valid : row < cfg.matrixRowSize)
    (arrives : links.fetch ≠ .down) :
    ∃ s', ref.Rel s' (t.search cfg cr (freshToken cr c.keywordCounterArr row)) ∧
      (searchAtServer build srv (freshToken cr c.keywordCounterArr row) links w =
          .ok (M.searchRow cfg row) { w with server := s' } ∨
        ∃ e, searchAtServer build srv (freshToken cr c.keywordCounterArr row) links w =
          .error (some e) { w with server := s' } ∧ ¬ Answered build cfg links) := by
  have store : (cellStore cfg cr).step t (.searchOperation (freshToken cr c.keywordCounterArr row)) =
      some (t.search cfg cr (freshToken cr c.keywordCounterArr row),
        ⟨.found (M.searchRow cfg row), t.searchEncryptions cfg
          (freshToken cr c.keywordCounterArr row)⟩) := by
    rw [← consistent.found_eq size valid server]
    exact if_neg (by rw [server]; decide)
  have token : (freshToken cr c.keywordCounterArr row).rowIndex < cfg.matrixRowSize := by
    rwa [freshToken_rowIndex]
  have exchanged := fun (link : Link) (arrives : link ≠ .down) =>
    exchange_store ref rel (.searchOperation _) token (fun _ _ h => by cases h) store arrives
  unfold searchAtServer
  by_cases opened : (!build.sendSearchFileIndex || links.resultOpens) = true
  · obtain ⟨s', -, rel', run⟩ := exchanged links.fetch arrives
    refine ⟨s', rel', ?_⟩
    simp only [opened, Bool.true_or, if_true]
    cases link : links.fetch with
    | down => exact absurd link arrives
    | up =>
      rw [link] at run
      exact .inl (Prog.bind_ok run)
    | lost =>
      rw [link] at run
      refine .inr ⟨.clientSearch, Prog.bind_ok run, fun answered => ?_⟩
      cases link.symm.trans answered.1
  · obtain ⟨s', -, rel', run⟩ := exchanged .lost (by decide)
    have closed := Bool.eq_false_iff.mpr opened
    refine ⟨s', rel', .inr ⟨.fileOpen, ?_, fun answered => opened ?_⟩⟩
    · simp only [closed, Bool.false_or, decide_eq_true_eq, arrives, if_false]
      exact Prog.bind_ok run
    · rcases answered.2 with client | unsent | opens
      · cases server.symm.trans client
      · rw [unsent]
        rfl
      · rw [opens, Bool.or_true]

omit [DecidableEq τ] in
/-- A row is fetched, or not, and decrypted. -/
theorem searchAtClient_run (size : cfg.Sized) (client : cfg.decryptAtClientSide = true)
    (finds : build.findsCipher = true) {t : CellStore} (rel : ref.Rel w.server t)
    (consistent : Consistent cfg cr M t (w.client.scheme cfg)) (links : Links)
    {tau : SearchToken Key} (valid : tau.rowIndex < cfg.matrixRowSize) :
    ∃ s' fileIds, ref.Rel s' t ∧
      searchAtClient build cfg cr srv tau links w = .ok fileIds { w with server := s' } ∧
      (links.fetch = .up → fileIds = M.searchRow cfg tau.rowIndex) := by
  have plain : decryptRow cfg cr w.client.index tau.rowIndex (t.rowMessage cfg tau.rowIndex) =
      M.searchRow cfg tau.rowIndex := by
    rw [← consistent.decryptRow_eq size valid client]
    rfl
  have exchanged := fun (link : Link) (arrives : link ≠ .down) =>
    exchange_store ref rel (.requestSearchData tau.rowIndex) valid (fun _ _ h => by cases h) rfl
      arrives
  unfold searchAtClient
  rw [Build.cipher_of_finds finds]
  cases link : links.fetch with
  | down => exact ⟨w.server, _, rel, Prog.bind_ok (exchange_down _), nofun⟩
  | up =>
    obtain ⟨s', -, rel', run⟩ := exchanged .up (by decide)
    exact ⟨s', _, rel', Prog.bind_ok run, fun _ => plain⟩
  | lost =>
    obtain ⟨s', -, rel', run⟩ := exchanged .lost (by decide)
    exact ⟨s', _, rel', Prog.bind_ok run, nofun⟩

omit [DecidableEq τ] in
/-- A counter that was raised is within its bound. -/
theorem counted_le {kc : Nat → Nat} {n row : Nat} (max : n ≤ ulongMax) (less : kc row < n) {r : Nat}
    (le : kc r ≤ n) : counted kc row r ≤ n := by
  unfold counted
  by_cases same : r = row
  · subst same
    rw [Function.update_self, nextCounter_of_lt (Nat.lt_of_lt_of_le less max)]
    exact less
  · rwa [Function.update_of_ne same]

/-- A search at the server, once it is counted, keeps the collection. -/
theorem Keeps.searched {s s' : σ} {c : Client τ Key} (h : Keeps build ref td s c fs M)
    (server : cfg.decryptAtClientSide = false) (max : build.ulongMax ≤ ulongMax) {row : Nat}
    (less : c.index.keywordCounterArr row < build.ulongMax) {t : CellStore} (rel : ref.Rel s' t)
    (consistent : Consistent cfg cr M t (c.index.countSearch row)) :
    Keeps build ref td s' { c with index := c.index.countSearch row } fs M where
  built := h.built
  counters _ r hr := counted_le max less (h.counters server r hr)
  store := ⟨t, rel, by rwa [scheme_server server]⟩
  tables := h.tables

/-- The rest of a search, once it has the token of its row. -/
theorem Keeps.searchRow_run (size : cfg.Sized) (encrypts : build.Encrypts cfg)
    (max : build.ulongMax ≤ ulongMax) (h : Keeps build ref td w.server w.client fs M) {row : Nat}
    (row_lt : row < cfg.matrixRowSize)
    (left : w.client.index.keywordCounterArr row ≠ build.ulongMax)
    (arrives : cfg.decryptAtClientSide = true ∨ links.fetch ≠ .down) :
    ∃ w' res, returned ((searchRow build cfg cr srv
        (some (freshToken cr w.client.index.keywordCounterArr row)) links >>= fun fileIds =>
          pure (.searched fileIds) : Call σ τ Key (Report Key))
        (w.setKeywordCounterArr (counted w.client.index.keywordCounterArr row))) = some (w', res) ∧
      Keeps build ref td w'.server w'.client fs M ∧
      (Answered build cfg links → res = .ok (.searched (M.searchRow cfg row))) := by
  obtain ⟨t, rel, consistent⟩ := h.store
  have exists_ : (freshToken cr w.client.index.keywordCounterArr row).rowIndex ≠
      cfg.keywordNotExist := by
    rw [freshToken_rowIndex]
    exact Nat.ne_of_lt (Nat.lt_succ_of_lt row_lt)
  simp only [searchRow, exists_, if_false]
  cases hd : cfg.decryptAtClientSide with
  | true =>
    have token_lt : (freshToken cr w.client.index.keywordCounterArr row).rowIndex <
        cfg.matrixRowSize := by
      rwa [freshToken_rowIndex]
    obtain ⟨s', fileIds, rel', run, answer⟩ := searchAtClient_run
      (w := w.setKeywordCounterArr (counted w.client.index.keywordCounterArr row)) size hd
      (encrypts hd) rel (by rw [scheme_client hd] at consistent ⊢; exact consistent) links token_lt
    rw [if_pos rfl, Prog.bind_ok run]
    rw [freshToken_rowIndex] at answer
    refine ⟨_, _, rfl, ⟨h.built, fun server => ?_, ⟨t, rel', ?_⟩, h.tables⟩, fun answered => ?_⟩
    · cases hd.symm.trans server
    · rw [scheme_client hd] at consistent ⊢
      exact consistent
    · rw [answer answered.1]
  | false =>
    rw [scheme_server hd] at consistent
    obtain ⟨s', rel', run⟩ := searchAtServer_run build
      (w := w.setKeywordCounterArr (counted w.client.index.keywordCounterArr row)) size hd rel
      consistent row_lt (arrives.resolve_left (by rw [hd]; decide))
    have less := Nat.lt_of_le_of_ne (h.counters hd row row_lt) left
    have kept := h.searched hd max less rel'
      (consistent.search size row_lt hd (Nat.ne_of_lt (Nat.lt_of_lt_of_le less max)))
    rw [if_neg (by decide)]
    rcases run with run | ⟨e, run, unanswered⟩
    · rw [Prog.bind_ok run]
      exact ⟨_, _, rfl, kept, fun _ => rfl⟩
    · rw [Prog.bind_error run]
      exact ⟨_, _, rfl, kept, fun answered => absurd answered unanswered⟩

/-- A search whose token arrives keeps the collection, and gives what it should where its
reply comes back. -/
theorem Keeps.searchKeyword_run (size : cfg.Sized) (encrypts : build.Encrypts cfg)
    (max : build.ulongMax ≤ ulongMax) (h : Keeps build ref td w.server w.client fs M)
    (keyword : Str) (arrives : cfg.decryptAtClientSide = true ∨ links.fetch ≠ .down) :
    (∀ w' res, (clientMachine build cfg cr td srv).step w (.searchKeyword keyword links) =
      some (w', res) → Keeps build ref td w'.server w'.client fs M) ∧
    SearchGives build cfg td w M keyword links
      ((clientMachine build cfg cr td srv).step w (.searchKeyword keyword links)) := by
  obtain ⟨lost, indexed⟩ := h.tables
  have step : (clientMachine build cfg cr td srv).step w (.searchKeyword keyword links) =
    returned (searchKeyword build cfg cr td srv keyword links w) := rfl
  have begins := searchBegin_built build cr td keyword h.built
  by_cases zero : (index w.client.tables.tW (td.generate (cStr keyword))).1 = 0
  · rw [step, searchKeyword_noRow (begins.trans (searchToken_noRow zero))]
    refine ⟨fun w' res returns => ?_, .noRow _ zero⟩
    cases (Option.ite_none_right_eq_some.mp returns).2
    refine ⟨h.built, h.counters, h.store, ⟨lost, ?_⟩⟩
    dsimp only [World.setTables]
    cases found : w.client.tables.tW.lookup (td.generate (cStr keyword)) with
    | none =>
      rw [index_of_absent found]
      exact indexed.searched found
    | some v =>
      rw [index_of_lookup found]
      exact indexed
  · cases found : w.client.tables.tW.lookup (td.generate (cStr keyword)) with
    | none =>
      rw [index_of_absent found] at zero
      exact absurd rfl zero
    | some row =>
      rw [index_of_lookup found] at zero
      have token := begins.trans (searchToken_row found zero)
      by_cases limit : w.client.index.keywordCounterArr row = build.ulongMax
      · rw [if_pos limit] at token
        rw [step, searchKeyword_error token]
        refine ⟨fun w' res returns => ?_, .limit row found zero limit⟩
        cases (Option.ite_none_right_eq_some.mp returns).2
        exact h
      · rw [if_neg limit] at token
        obtain ⟨w₁, res₁, run, kept, answer⟩ :=
          h.searchRow_run size encrypts max (indexed.row_lt found zero) limit arrives
        rw [step]
        unfold searchKeyword
        rw [Prog.bind_ok (Prog.tryCatch_ok token), run]
        refine ⟨fun w' res returns => ?_, .row row w₁ res₁ found zero limit answer⟩
        cases returns
        exact kept

end Search

/-! ### Updating a column -/

section Recode

variable {build : Build} {cfg : Config} {cr : Cipher Key} {M : Plain} {t : CellStore}

/-- A block that the client has encrypted again, under any counter, holds the column: what
it was under is in the client's books. -/
theorem consistent_update_pre (size : cfg.Sized) (client : cfg.decryptAtClientSide = true)
    {c : IndexClient Key} (h : Consistent cfg cr M t c) {j : Nat} {newCol : Nat → Bool}
    {IBar IPrime dec re : Buf} {st : Nat → Bool} {n : Nat}
    (reads : ∀ row, bit IBar row = newCol row)
    (fetched : Fetched cfg t (j / cfg.encryptBlockSize) IPrime st)
    (decs : 1 < cfg.encryptBlockSize → ∀ k, k < cfg.matrixRowSize * cfg.encryptBlockSize →
      bit dec k = cr.ks (c.rowKeys (k / cfg.encryptBlockSize)) (j / cfg.encryptBlockSize)
        (c.blockCounterArr (j / cfg.encryptBlockSize)) (k % cfg.encryptBlockSize))
    (res : ∀ k, k < cfg.matrixRowSize * cfg.encryptBlockSize →
      bit re k = cr.ks (c.rowKeys (k / cfg.encryptBlockSize)) (j / cfg.encryptBlockSize) n
        (k % cfg.encryptBlockSize)) :
    Consistent cfg cr (M.setColumn j newCol)
      (t.update cfg (j / cfg.encryptBlockSize)
        (toBytes (tokenBlockPre cfg j IBar IPrime dec re) cfg.blockBytes))
      { c with
        blockCounterArr := Function.update c.blockCounterArr (j / cfg.encryptBlockSize) n } := by
  refine h.write size (fun r j' hr hj' here => ?_) fun server => absurd (client.symm.trans server)
    (by decide)
  obtain ⟨one, key⟩ := h.pinned client r hr
  have hi := Nat.mod_lt j' size.tiled.pos
  have hk := tile_lt hr hi
  rw [← h.replaced size.tiled fetched newCol hr hj' here,
    bit_tokenBlockPre size.blockSize size.rowBytes j IBar IPrime dec re hk, recodedBit,
    tile_mod hi, tile_div hi, res _ hk, tile_mod hi, tile_div hi, key, reads,
    fetchedCounter_one _ one, one]
  congr 1
  -- the old key is only asked for where the block has another column
  split
  · rfl
  · next column =>
    rw [decs (one_lt_blockSize size.tiled hi column) _ hk, tile_div hi, tile_mod hi, key]

variable (cfg cr) in
/-- The keys of an update of block `b` are ready, with the counters that go with them. -/
inductive Prepares (c : Client τ Key) (b : Nat) (keys : BlockKeys Key) : Client τ Key → Prop where
  | server (server : cfg.decryptAtClientSide = false) : Prepares c b keys c
  | client (n : Nat) (counters : Nat → Nat) (client : cfg.decryptAtClientSide = true)
      (counts : counters = Function.update c.index.blockCounterArr b n)
      (decs : 1 < cfg.encryptBlockSize → ∀ k, k < cfg.matrixRowSize * cfg.encryptBlockSize →
        bit keys.decryptKey k = cr.ks (c.index.rowKeys (k / cfg.encryptBlockSize)) b
          (c.index.blockCounterArr b) (k % cfg.encryptBlockSize))
      (res : ∀ k, k < cfg.matrixRowSize * cfg.encryptBlockSize →
        bit keys.reencryptKey k = cr.ks (c.index.rowKeys (k / cfg.encryptBlockSize)) b n
          (k % cfg.encryptBlockSize)) :
      Prepares c b keys { c with index := { c.index with blockCounterArr := counters } }

omit [DecidableEq τ] in
theorem blockKeys_prepares (size : cfg.Sized) (encrypts : build.Encrypts cfg) {links : Links}
    {decrypts : Bool} (decs : 1 < cfg.encryptBlockSize → decrypts = true) {b : Nat}
    {w w' : World σ τ Key} {keys : BlockKeys Key}
    (h : blockKeys build cfg cr links decrypts b w = .ok keys w') :
    ∃ c', Prepares cfg cr w.client b keys c' ∧ w' = { w with client := c' } := by
  unfold blockKeys at h
  cases hd : cfg.decryptAtClientSide with
  | false =>
    rw [hd, if_neg (by decide)] at h
    cases h
    exact ⟨_, .server hd, rfl⟩
  | true =>
    rw [hd, if_pos rfl] at h
    cases h
    let n := if build.multiThread then w.client.index.blockCounterArr b
      else nextCounter (w.client.index.blockCounterArr b)
    have counts : (if build.multiThread then w.client.index.blockCounterArr
        else Function.update w.client.index.blockCounterArr b
          (nextCounter (w.client.index.blockCounterArr b))) =
        Function.update w.client.index.blockCounterArr b n := by
      dsimp only [n]
      split
      · exact (Function.update_eq_self _ _).symm
      · rfl
    refine ⟨_, .client n _ hd counts (fun wide k hk => ?_) fun k hk => ?_, rfl⟩
    · dsimp only
      rw [if_pos (decs wide), Build.cipher_of_finds (encrypts hd)]
      exact bit_precomputeAESCTRKeys_col size.blockSize cr zeroBuf b _ _ false hk
    · dsimp only
      rw [counts, Build.cipher_of_finds (encrypts hd)]
      have written := bit_precomputeAESCTRKeys_col size.blockSize cr zeroBuf b
        (Function.update w.client.index.blockCounterArr b n) w.client.index.rowKeys false hk
      rwa [if_neg (by decide), Function.update_self] at written

omit [DecidableEq τ] in
/-- The block that is made of the one in the store holds the column. -/
theorem Prepares.consistent (size : cfg.Sized) {c c' c₃ : Client τ Key} {j : Nat}
    {keys : BlockKeys Key} (prepares : Prepares cfg cr c (j / cfg.encryptBlockSize) keys c')
    (h : Consistent cfg cr M t (c.scheme cfg)) (same : c₃.index = c'.index)
    (fetched : Fetched cfg t (j / cfg.encryptBlockSize) c₃.IPrime c₃.blockStateArr)
    (u : ColumnUpdate) :
    Consistent cfg cr (M.setColumn j u.newCol)
      (t.update cfg (j / cfg.encryptBlockSize)
        (toBytes (recodeBlock cfg cr c₃ keys j u).1 cfg.blockBytes))
      ((storeBlock cfg c₃ j (recodeBlock cfg cr c₃ keys j u).1).scheme cfg) := by
  cases prepares with
  | server server =>
    rw [scheme_server server] at h ⊢
    have recoded : (recodeBlock cfg cr c₃ keys j u).1 = (ImDsse.recodeBlock cfg cr c.index
        (j / cfg.encryptBlockSize) j u c₃.IPrime c₃.blockStateArr).1 := by
      unfold recodeBlock ImDsse.recodeBlock
      rw [server, same]
      rfl
    have counted : (storeBlock cfg c₃ j (recodeBlock cfg cr c₃ keys j u).1).index =
        c.index.countUpdate (j / cfg.encryptBlockSize) := by
      unfold storeBlock IndexClient.countUpdate
      rw [server, same]
      rfl
    rw [counted, recoded]
    exact h.update size u fetched
  | client n counters client counts decs res =>
    rw [scheme_client client] at h ⊢
    have counted : (storeBlock cfg c₃ j (recodeBlock cfg cr c₃ keys j u).1).index =
        { c.index with blockCounterArr :=
            Function.update c.index.blockCounterArr (j / cfg.encryptBlockSize) n } := by
      unfold storeBlock
      rw [client, same, counts]
      rfl
    rw [counted]
    cases u with
    | add IBar =>
      have recoded : (recodeBlock cfg cr c₃ keys j (.add IBar)).1 =
          tokenBlockPre cfg j IBar c₃.IPrime keys.decryptKey keys.reencryptKey := by
        unfold recodeBlock
        rw [client]
        rfl
      rw [recoded]
      exact consistent_update_pre size client h (fun _ => rfl) fetched decs res
    | del =>
      have recoded : (recodeBlock cfg cr c₃ keys j .del).1 =
          tokenBlockPre cfg j zeroBuf c₃.IPrime keys.decryptKey keys.reencryptKey := by
        unfold recodeBlock
        rw [client]
        rfl
      rw [recoded]
      exact consistent_update_pre size client h (fun _ => bit_zeroBuf _) fetched decs res

end Recode

/-! ### Adding and deleting -/

section Update

variable {build : Build} {cfg : Config} {cr : Cipher Key} {td : Trapdoor τ}
  {srv : Machine σ (Command Key) (Response Key)} {ref : Refinement cfg cr srv}
  {w w' : World σ τ Key} {fs : List FileEntry} {M : Plain} {path : Str} {draws : Nat → Nat}
  {links : Links} {res : Except Err (Report Key)}

omit [DecidableEq τ] in
/-- Keys that are prepared leave the rest of the client. -/
theorem Prepares.frame {c c' : Client τ Key} {b : Nat} {keys : BlockKeys Key}
    (prepares : Prepares cfg cr c b keys c') : c'.tables = c.tables ∧
      c'.dataStructureConstructed = c.dataStructureConstructed ∧
      c'.index.keywordCounterArr = c.index.keywordCounterArr := by
  cases prepares <;> exact ⟨rfl, rfl, rfl⟩

theorem requestBlockIndex_columns (size : cfg.Sized) {T : Tables τ} {lost : List Nat}
    (indexed : Indexed cfg td fs (withLost T lost) M) (present : T.tF.lookup (td.omac path) ≠ some 0)
    {s : Picks τ} {j : Nat}
    (assigned : Assigned 0 ⟨T.tF, T.lstFreeColumnIdx, draws⟩ (td.omac path) s)
    (found : s.table.lookup (td.omac path) = some j) :
    j < cfg.maxNumOfFiles ∧ j / cfg.encryptBlockSize < cfg.numBlocks := by
  obtain ⟨_, longer⟩ := assigned_append assigned lost
  have split := longer.split indexed.columns fun zero => absurd zero present
  have column : j < cfg.maxNumOfFiles :=
    List.mem_range.mp (split.mem_all (.inl (mem_values_of_lookup found)) rfl)
  exact ⟨column, size.tiled.block_lt column⟩

/-- `delToken` of a file in the table. -/
theorem delToken_eq {j : Nat} (found : w.client.tables.tF.lookup (td.omac path) = some j)
    (keys : BlockKeys Key) :
    delToken cfg cr td path keys w = .ok (j, (recodeBlock cfg cr w.client keys j .del).2)
      { w with client := { storeBlock cfg w.client j (recodeBlock cfg cr w.client keys j .del).1 with
        tables := { w.client.tables with tF := w.client.tables.tF.erase (td.omac path) } } } := by
  unfold delToken delTokenIndex
  rw [index_of_lookup found]

/-- An addition whose block arrives keeps the collection, with the file in it. -/
theorem Keeps.addFile (size : cfg.Sized) (encrypts : build.Encrypts cfg)
    (distinct : Function.Injective td.omac) (h : Keeps build ref td w.server w.client fs M)
    {content : Option (List Byte)}
    {buckets : τ → Nat} (arrives : Arrives cfg (.addFile path content draws buckets links))
    (reads : ReadsIndices td w.client.tables fs (.addFile path content draws buckets links))
    (run : returned (addFile build cfg cr td srv path content draws buckets links w) =
      some (w', res)) :
    Holds build ref td w' (⟨path, content⟩ :: fs.filter (·.path ≠ path)) := by
  obtain ⟨t, rel, consistent⟩ := h.store
  obtain ⟨lost, indexed⟩ := h.tables
  obtain ⟨readable, up, sent⟩ := arrives
  obtain ⟨columnReads, shared⟩ := reads
  obtain ⟨⟨ret, b, draws'⟩, w₁, request, run⟩ := requestBlockIndex_sure.returned_bind run
  obtain ⟨s, j, assigned, found, rfl, -, rfl, rfl⟩ := requestBlockIndex_cases request
  obtain ⟨column, block⟩ := requestBlockIndex_columns size indexed columnReads.present assigned found
  obtain ⟨keys, w₂, precompute, run⟩ := (blockKeys_sure _ _).returned_bind run
  obtain ⟨c', prepares, rfl⟩ :=
    blockKeys_prepares size encrypts (fun wide => decide_eq_true wide) precompute
  obtain ⟨tables, built, keywordCounters⟩ := prepares.frame
  obtain ⟨ret, w₃, fetch, run⟩ := (requestBlockData_sure _).returned_bind run
  obtain ⟨rfl, s₁, IPrime, st, rfl, rel₁, ready, fetched⟩ :=
    requestBlockData_arrives ref size fetch rel block up
  rw [ite_self] at run
  obtain ⟨⟨ret, encryptions⟩, w₄, token, run⟩ := addToken_sure.returned_bind run
  cases addToken_run token with
  | unread columns unread =>
    rw [unread] at readable
    cases readable
  | read columns rows fileIndex IBar read again found' words =>
    dsimp only at run again words
    rw [tables] at again words
    -- the second lookup finds the column of the first
    cases Assigned.again again found (columnReads.column_ne assigned found)
    cases found'.symm.trans found
    rw [ite_self] at run
    obtain ⟨out, w₅, send, run⟩ := (sendBlockData_sure _).returned_bind run
    obtain ⟨s₂, rfl, rel₂⟩ := sendBlockData_arrives ref send rel₁ block ready sent
    have ends := returned_keeps (.bind (failWith_keeps _) fun _ =>
      .bind (physical_keeps (sendFile_keeps _)) fun _ => .pure _) run
    obtain ⟨server, client⟩ := Prod.mk.inj ends
    obtain ⟨_, longer⟩ := assigned_append assigned lost
    refine ⟨M.setColumn j (bit IBar), ?_⟩
    rw [server, client]
    refine ⟨built.trans h.built, fun hd row hr => ?_, ⟨_, rel₂, ?_⟩, ⟨lost, ?_⟩⟩
    · exact (congrFun keywordCounters row).trans_le (h.counters hd row hr)
    · have same : ({ c' with IPrime := IPrime, blockStateArr := st } : Client τ Key).index =
          c'.index := rfl
      exact prepares.consistent size consistent same fetched (.add IBar)
    · exact indexed.added distinct columnReads.present longer found words shared

/-- A deletion whose block arrives keeps the collection, without the file. Its column is
lost. -/
theorem Keeps.delFile (size : cfg.Sized) (encrypts : build.Encrypts cfg)
    (distinct : Function.Injective td.omac) (h : Keeps build ref td w.server w.client fs M)
    (arrives : Arrives cfg (.delFile path draws links : Op τ))
    (present : w.client.tables.tF.lookup (td.omac path) ≠ some 0)
    (run : returned (delFile build cfg cr td srv path draws links w) = some (w', res)) :
    Holds build ref td w' (fs.filter (·.path ≠ path)) := by
  obtain ⟨t, rel, consistent⟩ := h.store
  obtain ⟨lost, indexed⟩ := h.tables
  obtain ⟨up, sent⟩ := arrives
  obtain ⟨_, _, looked, run⟩ := Sure.returned_bind (fun _ _ _ h => by cases h) run
  cases looked
  rw [notBuilt_eq_none.mpr h.built] at run
  obtain ⟨⟨ret, b, draws'⟩, w₁, request, run⟩ := requestBlockIndex_sure.returned_bind run
  obtain ⟨s, j, assigned, found, rfl, rfl, rfl, rfl⟩ := requestBlockIndex_cases request
  obtain ⟨column, block⟩ := requestBlockIndex_columns size indexed present assigned found
  rcases failWith_if_returned run with ⟨-, run⟩ | ⟨exceeds, -, -⟩
  · obtain ⟨keys, w₂, precompute, run⟩ := (blockKeys_sure _ _).returned_bind run
    have decrypts : 1 < cfg.encryptBlockSize →
        (decide (1 < cfg.encryptBlockSize) || !build.multiThread) = true := fun wide => by
      rw [decide_eq_true wide, Bool.true_or]
    obtain ⟨c', prepares, rfl⟩ := blockKeys_prepares size encrypts decrypts precompute
    obtain ⟨tables, built, keywordCounters⟩ := prepares.frame
    obtain ⟨ret, w₃, fetch, run⟩ := (requestBlockData_sure _).returned_bind run
    obtain ⟨rfl, s₁, IPrime, st, rfl, rel₁, ready, fetched⟩ :=
      requestBlockData_arrives ref size fetch rel block up
    rw [ite_self] at run
    have inTable : c'.tables.tF.lookup (td.omac path) = some j := by
      rw [tables]
      exact found
    rw [Prog.bind_ok failWith_none, Prog.bind_ok (delToken_eq inTable keys)] at run
    dsimp only at run
    obtain ⟨out, w₅, send, run⟩ := (sendBlockData_sure _).returned_bind run
    obtain ⟨s₂, rfl, rel₂⟩ := sendBlockData_arrives ref send rel₁ block ready sent
    have ends := returned_keeps
      (.bind (physical_keeps (sendDeletion_keeps _ _)) fun _ => .pure _) run
    obtain ⟨server, client⟩ := Prod.mk.inj ends
    obtain ⟨_, longer⟩ := assigned_append assigned lost
    refine ⟨M.setColumn j fun _ => false, ?_⟩
    rw [server, client]
    refine ⟨built.trans h.built, fun hd row hr => ?_, ⟨_, rel₂, ?_⟩, ⟨lost ++ [j], ?_⟩⟩
    · exact (congrFun keywordCounters row).trans_le (h.counters hd row hr)
    · have same : ({ c' with IPrime := IPrime, blockStateArr := st } : Client τ Key).index =
          c'.index := rfl
      exact prepares.consistent size consistent same fetched .del
    · have deleted := indexed.deleted distinct present longer found
      rw [List.append_assoc] at deleted
      dsimp only
      rw [tables]
      exact deleted
  · exact absurd exceeds (Nat.not_lt.mpr (Nat.le_of_lt block))

end Update

/-! ### Every call, every run -/

/-- What becomes of a search of `keyword` in the state `w`, of a client that keeps the files
`fs`, when its reply comes back: the columns of the files that have the keyword, each once;
or the counter of the keyword's row is at its limit; or, where the server decrypts, no file
has the keyword. In the last cases the server is not asked, and where it decrypts the search
does not return. -/
inductive Answer (build : Build) (cfg : Config) (td : Trapdoor τ) (w : World σ τ Key)
    (fs : List FileEntry) (keyword : Str) :
    Option (World σ τ Key × Except Err (Report Key)) → Prop where
  | found (w' : World σ τ Key) (ids : List Nat) (ascending : ids.Pairwise (· < ·))
      (columns : ∀ j, j ∈ ids ↔ ∃ f ∈ fs, keyword ∈ f.keywords ∧
        w.client.tables.tF.lookup (td.omac f.path) = some j) :
      Answer build cfg td w fs keyword (some (w', .ok (.searched ids)))
  | limit (row : Nat) (found : w.client.tables.tW.lookup (td.generate (cStr keyword)) = some row)
      (max : w.client.index.keywordCounterArr row = build.ulongMax) :
      Answer build cfg td w fs keyword
        (if cfg.decryptAtClientSide then some (w, .error .counterExceedLimit) else none)
  | absent (server : cfg.decryptAtClientSide = false) (none_has : ∀ f ∈ fs, keyword ∉ f.keywords) :
      Answer build cfg td w fs keyword none

section Runs

variable {build : Build} {cfg : Config} {cr : Cipher Key} {td : Trapdoor τ}
  {srv : Machine σ (Command Key) (Response Key)} {ref : Refinement cfg cr srv} (size : cfg.Sized)
  (encrypts : build.Encrypts cfg) (distinct : Function.Injective td.omac)
  (max : build.ulongMax ≤ ulongMax)
include size encrypts distinct max

/-- A call whose requests arrive keeps the collection, whatever it returns. -/
theorem Holds.step {w w' : World σ τ Key} {fs : List FileEntry} {op : Op τ}
    {res : Except Err (Report Key)} (h : Holds build ref td w fs) (arrives : Arrives cfg op)
    (reads : ReadsIndices td w.client.tables fs op)
    (step : (clientMachine build cfg cr td srv).step w op = some (w', res)) :
    Holds build ref td w' (filesAfter fs op) := by
  obtain ⟨M, h⟩ := h
  cases op with
  | searchKeyword keyword links =>
    exact ⟨M, (h.searchKeyword_run size encrypts max keyword arrives).1 w' res step⟩
  | addFile path content draws buckets links =>
    exact h.addFile size encrypts distinct arrives reads step
  | delFile path draws links => exact h.delFile size encrypts distinct arrives reads step

omit size encrypts max in
/-- A keyword has the row a search reads, or no file has it. -/
theorem keyword_row {w : World σ τ Key} {fs : List FileEntry} {M : Plain} {keyword : Str}
    {links : Links} {lost : List Nat} (indexed : Indexed cfg td fs (withLost w.client.tables lost) M)
    (reads : ReadsIndices td w.client.tables fs (.searchKeyword keyword links)) :
    ((index w.client.tables.tW (td.generate (cStr keyword))).1 = 0 →
      ∀ f ∈ fs, keyword ∉ f.keywords) ∧
    ∀ row, w.client.tables.tW.lookup (td.generate (cStr keyword)) = some row → row ≠ 0 →
      ∀ j, j ∈ M.searchRow cfg row ↔ ∃ f ∈ fs, keyword ∈ f.keywords ∧
        w.client.tables.tF.lookup (td.omac f.path) = some j := by
  obtain ⟨text, empty, first⟩ := reads
  by_cases nil : keyword = []
  · subst nil
    refine ⟨fun _ f _ => extractKeywords_ne_nil List.not_mem_nil f.content, fun row found ne => ?_⟩
    have found : w.client.tables.tW.lookup td.zero = some row := found
    rw [found] at empty
    rcases empty rfl with missing | zero
    · cases missing
    · exact absurd (Option.some.inj zero) ne
  · rw [td.generate_cStr text nil]
    refine ⟨fun zero f mem word => ?_, fun row found ne j => ?_⟩
    · obtain ⟨row, found⟩ := exists_lookup (indexed.words _ ⟨f, mem, word⟩)
      have found : w.client.tables.tW.lookup (td.omac keyword) = some row := found
      rw [index_of_lookup found] at zero
      exact first ⟨f, mem, word⟩ (found.trans (congrArg some zero))
    · have row_lt := indexed.row_lt found ne
      rw [Plain.searchRow, List.mem_filter, List.mem_range]
      constructor
      · rintro ⟨hj, set⟩
        obtain ⟨f, mem, word, has, column, same⟩ := (indexed.cells row j ne row_lt hj).mp set
        have key := indexed.rows.injective same found (decide_eq_true ne)
        exact ⟨f, mem, distinct key ▸ has, column⟩
      · rintro ⟨f, mem, has, column⟩
        have hj := indexed.column_lt column
        exact ⟨hj, (indexed.cells row j ne row_lt hj).mpr ⟨f, mem, _, has, column, found⟩⟩

/-- A search whose reply comes back gives the columns of the files that have the keyword. -/
theorem Holds.searchKeyword {w : World σ τ Key} {fs : List FileEntry} {keyword : Str}
    {links : Links} (h : Holds build ref td w fs)
    (reads : ReadsIndices td w.client.tables fs (.searchKeyword keyword links))
    (answered : Answered build cfg links) : Answer build cfg td w fs keyword
      ((clientMachine build cfg cr td srv).step w (.searchKeyword keyword links)) := by
  obtain ⟨M, h⟩ := h
  have arrives : cfg.decryptAtClientSide = true ∨ links.fetch ≠ .down :=
    .inr (by rw [answered.1]; decide)
  have gives : SearchGives build cfg td w M keyword links
      ((clientMachine build cfg cr td srv).step w (.searchKeyword keyword links)) :=
    (h.searchKeyword_run size encrypts max keyword arrives).2
  obtain ⟨lost, indexed⟩ := h.tables
  obtain ⟨none, some⟩ := keyword_row distinct indexed reads
  generalize (clientMachine build cfg cr td srv).step w (.searchKeyword keyword links) = out at gives
  cases gives with
  | noRow w' zero =>
    cases client : cfg.decryptAtClientSide with
    | true =>
      refine .found w' [] .nil fun j => ⟨nofun, ?_⟩
      rintro ⟨f, mem, has, -⟩
      exact absurd has (none zero f mem)
    | false => exact .absent client (none zero)
  | limit row found ne limit => exact .limit row found limit
  | row row w' res found ne left answer =>
    rw [answer answered]
    exact .found w' _ (List.pairwise_lt_range.filter _) (some row found ne)

end Runs

/-! ### From a setup on -/

end ImDsse.Seu
