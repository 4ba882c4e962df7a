import ImDsse.Kit.Service
import ImDsse.ClientState
import ImDsse.Index
import ImDsse.SetupCorrect
import ImDsse.Upload

/-!
The client over its sockets (`Client_DSSE::searchKeyword`, `addFile` and `delFile` with
`requestBlock_data`, `requestSearch_data` and `sendBlock_data`).

`clientMachine` calls the server as a function. Here the client sends what the source
sends and reads what comes back, and the server is its loop: a call is a request of a
command and its operands, and one reply. What a request brings is what the loop reads
(`bufferToken_tokenPart`, `partNat_numberPart_mod`), so a step of the machine is a run of
calls (`op_returns`), and a session over the sockets comes to what the machine comes to,
however the two sides and the lines take turns (`session_settles`).

The server answers a search with a number (no `SEND_SEARCH_FILE_INDEX`).
-/

namespace ImDsse

open Kit Kit.Bits

variable {σ : Type} {τ : Type} [DecidableEq τ]

/-! ### Requests -/

/-- `CMD_SEARCH_OPERATION` -/
def cmdSearchOperation : Nat := 0x20

/-- `CMD_REQUEST_BLOCK_DATA` -/
def cmdRequestBlockData : Nat := 0x50

/-- `CMD_REQUEST_SEARCH_DATA` -/
def cmdRequestSearchData : Nat := 0x51

/-- `CMD_UPDATE_BLOCK_DATA` -/
def cmdUpdateBlockData : Nat := 0x60

/-- `sizeof(SearchToken)` -/
def searchTokenSize : Nat := 48

/-- A byte of a key. -/
def keyByte (key : BlockKey) (i : Nat) : Byte :=
  if h : i < blockCipherSize then key ⟨i, h⟩ else 0

/-- A `SearchToken` byte by byte. The compiler pads it. -/
def tokenByte (padding : Nat → Byte) (tau : SearchToken BlockKey) (i : Nat) : Byte :=
  if i < 8 then BitVec.ofNat 8 (tau.rowIndex / 256 ^ i)
  else if i < 24 then keyByte tau.rowKey (i - 8)
  else if i < 40 then keyByte tau.rowOldKey (i - 24)
  else if i = 40 then if tau.hasRowKey then 1 else 0
  else padding i

/-- A token as it is sent. -/
def tokenPart (padding : Nat → Byte) (tau : SearchToken BlockKey) : Part :=
  (List.range searchTokenSize).map (tokenByte padding tau)

/-- The token in a buffer. -/
def bufferToken (buffer : Buf) : SearchToken BlockKey where
  rowIndex := readNat 8 buffer
  rowKey i := buffer (8 + i)
  rowOldKey i := buffer (24 + i)
  hasRowKey := buffer 40 != 0

/-- A token that is sent is the token that is received. -/
theorem bufferToken_tokenPart (padding : Nat → Byte) {tau : SearchToken BlockKey}
    (row : tau.rowIndex < 2 ^ 64) :
    bufferToken (recvInto zeroBuf (tokenPart padding tau)) = tau := by
  have byte {i : Nat} (inside : i < searchTokenSize) :
      recvInto zeroBuf (tokenPart padding tau) i = tokenByte padding tau i := by
    have room : i < socketBufferSize := Nat.lt_trans inside (by decide)
    rw [recvInto, ofBytes, if_pos room, tokenPart, List.getD_eq_getElem?_getD,
      List.getElem?_map, List.getElem?_range inside]
    rfl
  have index : readNat 8 (recvInto zeroBuf (tokenPart padding tau)) = tau.rowIndex := by
    refine (readNat_eq fun i inside => ?_).trans (Nat.mod_eq_of_lt row)
    rw [byte (Nat.lt_trans inside (by decide)), tokenByte, if_pos inside]
  have flag : (recvInto zeroBuf (tokenPart padding tau) 40 != 0) = tau.hasRowKey := by
    rw [byte (by decide), tokenByte, if_neg (by decide), if_neg (by decide), if_neg (by decide),
      if_pos rfl]
    cases tau.hasRowKey <;> rfl
  have key (k : BlockKey) (start : Nat) (i : Fin blockCipherSize) :
      keyByte k (start + i - start) = k i := by
    rw [Nat.add_sub_cancel_left, keyByte, dif_pos i.isLt]
  have rowKey (i : Fin blockCipherSize) :
      recvInto zeroBuf (tokenPart padding tau) (8 + i) = tau.rowKey i := by
    have inside : 8 + i.val < 24 := Nat.add_lt_add_left i.isLt 8
    rw [byte (Nat.lt_trans inside (by decide)), tokenByte, if_neg (by omega), if_pos inside, key]
  have rowOldKey (i : Fin blockCipherSize) :
      recvInto zeroBuf (tokenPart padding tau) (24 + i) = tau.rowOldKey i := by
    have inside : 24 + i.val < 40 := Nat.add_lt_add_left i.isLt 24
    rw [byte (Nat.lt_trans inside (by decide)), tokenByte, if_neg (by omega), if_neg (by omega),
      if_pos inside, key]
  rw [bufferToken, index, flag, funext rowKey, funext rowOldKey]

/-! ### The client -/

/-- What an operation shows. `res` is a `TYPE_COUNTER`; the columns are known where the
client decrypts. -/
inductive Shown where
  | searched (res : Nat) (fileIds : List Nat)
  | updated (blockIndex fileIndex : Nat)
deriving DecidableEq

/-- What is shown of a report. -/
def Report.shown (cfg : Config) : Report → Shown
  | .searched ids => .searched (ids.length % 2 ^ 64) (if cfg.decryptAtClientSide then ids else [])
  | .updated b j => .updated b j

namespace Report

variable {cfg : Config} {ids : List Nat}

theorem shown_client (client : cfg.decryptAtClientSide = true) :
    (searched ids).shown cfg = .searched (ids.length % 2 ^ 64) ids := by
  rw [shown, if_pos client]

theorem shown_server (server : ¬ cfg.decryptAtClientSide = true) :
    (searched ids).shown cfg = .searched (ids.length % 2 ^ 64) [] := by
  rw [shown, if_neg server]

end Report

/-- What a number that is sent is received as. -/
theorem partNat_numberPart_mod (n : Nat) : partNat (numberPart n) = n % 2 ^ 64 := by
  refine readNat_eq fun i inside => ?_
  have room : i < socketBufferSize := Nat.lt_of_lt_of_le inside (by decide)
  rw [numberPart, recvInto_apply zeroBuf _ room, if_pos inside]

namespace Remote

section Client

variable (cfg : Config) (cr : Cipher BlockKey) (td : Trapdoor τ) (padding : Nat → Byte)

/-- `DSSE::searchToken`, with the members of the client for its arguments. A keyword that
does not exist has no token. -/
def searchToken (keyword : Str) (c : Client τ BlockKey) :
    Option (Client τ BlockKey × Option (SearchToken BlockKey)) :=
  let (rowIndex, tW) := searchTokenRow cfg td c.tables.tW keyword
  let c := { c with tables := { c.tables with tW := tW } }
  if rowIndex = cfg.keywordNotExist then some (c, none)
  else (rowToken cr c.index.keywordCounterArr rowIndex).map fun tau => (c, some tau)

/-- `Client_DSSE::searchKeyword` from its token on. -/
def searchRowCalls (tau : SearchToken BlockKey) : Talk (Client τ BlockKey) Part Shown :=
  if cfg.decryptAtClientSide then do
    let msg ← Talk.ask (commandPart cmdRequestSearchData) [numberPart tau.rowIndex]
    .work (fun c => some (c, decryptRow cfg cr c.index tau.rowIndex msg)) fun lstFileId =>
      pure (.searched (lstFileId.length % 2 ^ 64) lstFileId)
  else
    .work (fun c => some ({ c with index := c.index.countSearch tau.rowIndex }, ())) fun _ => do
      let res ← Talk.ask (commandPart cmdSearchOperation) [tokenPart padding tau]
      pure (.searched (partNat res) [])

/-- `Client_DSSE::searchKeyword` -/
def searchKeywordCalls (keyword : Str) : Talk (Client τ BlockKey) Part Shown :=
  .work (searchToken cfg cr td keyword) fun
    | none => pure (.searched 0 [])
    | some tau => searchRowCalls cfg cr padding tau

/-- `Client_DSSE::requestBlock_data`, skipped for blocks of one column. -/
def requestBlockDataCalls (blockIndex : Nat) :
    Talk (Client τ BlockKey) Part (Buf × (Nat → Bool)) :=
  if 1 < cfg.encryptBlockSize then do
    let msg ← Talk.ask (commandPart cmdRequestBlockData) [numberPart blockIndex]
    let buffer := ofBytes msg cfg.blockMessageLen zeroBuf
    pure (copyBytes cfg.blockBytes zeroBuf 0 buffer 0, fun row =>
      !cfg.decryptAtClientSide && bit buffer (cfg.matrixRowSize * cfg.encryptBlockSize + row))
  else pure (zeroBuf, fun _ => false)

/-- `Client_DSSE::addFile` or `delFile`. `token` finds the column once more, with what
becomes of it. -/
def updateFileCalls (path : Str) (draws : Nat → Nat)
    (token : Tables τ → (Nat → Nat) → Option (Nat × ColumnUpdate × Tables τ)) :
    Talk (Client τ BlockKey) Part Shown :=
  .work (fun c => (requestBlockIndex cfg td path c.tables draws).map
      fun (blockIndex, tables, draws) => ({ c with tables := tables }, blockIndex, draws))
    fun (blockIndex, draws) => do
      let (IPrime, blockStateArr) ← requestBlockDataCalls cfg blockIndex
      .work (fun c => (token c.tables draws).map fun (fileIndex, u, tables) =>
          (⟨tables, c.index.countUpdate blockIndex⟩, fileIndex,
            (recodeBlock cfg cr c.index blockIndex fileIndex u IPrime blockStateArr).1))
        fun (fileIndex, IPrime) => do
          let _ ← Talk.ask (commandPart cmdUpdateBlockData)
            [numberPart blockIndex, toBytes IPrime cfg.blockBytes]
          pure (.updated blockIndex fileIndex)

/-- `Client_DSSE::addFile` -/
def addFileCalls (path : Str) (content : Option (List Byte)) (draws : Nat → Nat) :
    Talk (Client τ BlockKey) Part Shown :=
  updateFileCalls cfg cr td path draws fun T draws =>
    (addTokenIndex td path content T draws).map fun (fileIndex, IBar, T) =>
      (fileIndex, .add IBar, T)

/-- `Client_DSSE::delFile` -/
def delFileCalls (path : Str) (draws : Nat → Nat) : Talk (Client τ BlockKey) Part Shown :=
  updateFileCalls cfg cr td path draws fun T _ =>
    let (fileIndex, T) := delTokenIndex td path T
    some (fileIndex, .del, T)

/-- The choices of `main`. -/
def opCalls : ClientOp → Talk (Client τ BlockKey) Part Shown
  | .searchKeyword keyword => searchKeywordCalls cfg cr td padding (lowerCase keyword)
  | .addFile path content draws => addFileCalls cfg cr td path content draws
  | .delFile path draws => delFileCalls cfg cr td path draws

/-- A session: operation by operation, with what each shows. -/
def sessionCalls : List ClientOp → Talk (Client τ BlockKey) Part (List Shown)
  | [] => pure []
  | op :: ops => do
    let shown ← opCalls cfg cr td padding op
    let rest ← sessionCalls ops
    pure (shown :: rest)

end Client

/-! ### The server's turns -/

section Server

variable {b : Backend σ BlockKey} {s s' : σ} {buffer : Buf}

/-- The server's loop. -/
abbrev loop (b : Backend σ BlockKey) : Buf → Talk σ Part Buf := turnCalls b (b.switch false)

/-- An exchange of the loop that replies with one part. -/
theorem serves_exchange {first reply : Part} {parts : List Part} {k : Nat}
    {f : List Part → σ → Option (σ × List (Part × Bool))}
    (selected : b.switch false (readNat 4 (recvInto buffer first)) = some (.exchange k f))
    (count : parts.length = k) (works : f parts s = some (s', [(reply, false)])) :
    Meeting.Serves (loop b) (loop b buffer) s (first, parts) [reply]
      (loop b (recvInto buffer first)) s' := by
  subst count
  intro replies
  have handled : (Handler.exchange parts.length f).act b ⟨s, [], .unread parts, replies⟩ =
      .ok () ⟨s', [], .waiting, replies ++ [[reply]]⟩ := by
    refine (Prog.bind_ok (Act.recvParts_all parts)).trans ?_
    refine (Prog.bind_ok (Act.work_some works)).trans ?_
    exact Act.sendParts_more [] reply []
  have turned : (loop b buffer).act Act.calls ⟨s, [(first, parts)], .waiting, replies⟩ =
      .ok (recvInto buffer first) ⟨s', [], .waiting, replies ++ [[reply]]⟩ := by
    rw [act_turnCalls]
    exact turn_ok selected handled
  have run : Reaches (Act.server (loop b)).alone
      (loop b buffer >>= pure, ⟨s, [(first, parts)], .waiting, replies⟩)
      (pure (recvInto buffer first), ⟨s', [], .waiting, replies ++ [[reply]]⟩) :=
    Talk.reaches_of_act Act.apart _ pure turned
  rw [Talk.bind_pure] at run
  exact run.trans (.step () rfl (.refl _))

/-- The case of a command that is sent. -/
theorem selects {cmd : Nat} {handler : Handler σ} (small : cmd < 256 ^ 4)
    (selected : b.switch false cmd = some handler) :
    b.switch false (readNat 4 (recvInto buffer (commandPart cmd))) = some handler := by
  rw [readNat_commandPart small]
  exact selected

theorem serves_search {padding : Nat → Byte} {tau : SearchToken BlockKey}
    {r : Response BlockKey} {ids : List Nat} (tokens : b.token = bufferToken)
    (row : tau.rowIndex < 2 ^ 64) (step : b.index.step s (.searchOperation tau) = some (s', r))
    (found : r.found? = some ids) :
    Meeting.Serves (loop b) (loop b buffer) s (commandPart cmdSearchOperation, [tokenPart padding tau])
      [numberPart ids.length] (loop b (recvInto buffer (commandPart cmdSearchOperation))) s' := by
  refine serves_exchange (selects (by decide) rfl) rfl ?_
  dsimp only
  rw [tokens, bufferToken_tokenPart padding row, step, Option.bind_some, found]
  rfl

theorem serves_requestSearchData {row : Nat} {r : Response BlockKey} {msg : List Byte}
    (bound : row < 2 ^ 64) (step : b.index.step s (.requestSearchData row) = some (s', r))
    (data : r.data? = some msg) :
    Meeting.Serves (loop b) (loop b buffer) s (commandPart cmdRequestSearchData, [numberPart row]) [msg]
      (loop b (recvInto buffer (commandPart cmdRequestSearchData))) s' := by
  refine serves_exchange (selects (by decide) rfl) rfl ?_
  dsimp only
  rw [partNat_numberPart bound, step, Option.map_some, data]
  rfl

theorem serves_requestBlockData {blockIndex : Nat} {r : Response BlockKey} {msg : List Byte}
    (bound : blockIndex < 2 ^ 64)
    (step : b.index.step s (.requestBlockData blockIndex) = some (s', r))
    (data : r.data? = some msg) :
    Meeting.Serves (loop b) (loop b buffer) s (commandPart cmdRequestBlockData, [numberPart blockIndex])
      [msg] (loop b (recvInto buffer (commandPart cmdRequestBlockData))) s' := by
  refine serves_exchange (selects (by decide) rfl) rfl ?_
  dsimp only
  rw [partNat_numberPart bound, step, Option.map_some, data]
  rfl

theorem serves_updateBlockData {blockIndex : Nat} {data : List Byte} {r : Response BlockKey}
    (bound : blockIndex < 2 ^ 64)
    (step : b.index.step s (.updateBlockData blockIndex data) = some (s', r)) :
    Meeting.Serves (loop b) (loop b buffer) s
      (commandPart cmdUpdateBlockData, [numberPart blockIndex, data]) [cmdSuccess]
      (loop b (recvInto buffer (commandPart cmdUpdateBlockData))) s' := by
  refine serves_exchange (selects (by decide) rfl) rfl ?_
  dsimp only
  rw [partNat_numberPart bound, step]
  rfl

end Server

/-! ### A step over the sockets -/

section Steps

variable {cfg : Config} {cr : Cipher BlockKey} {td : Trapdoor τ} {padding : Nat → Byte}
  {b : Backend σ BlockKey} (tokens : b.token = bufferToken) {s s' : σ} {c c' : Client τ BlockKey}
include tokens

omit tokens in
theorem searchToken_missing {keyword : Str}
    (missing : (searchTokenRow cfg td c.tables.tW keyword).1 = cfg.keywordNotExist) :
    searchToken cfg cr td keyword c =
      some (⟨{ c.tables with tW := (searchTokenRow cfg td c.tables.tW keyword).2 }, c.index⟩, none) :=
  if_pos missing

omit tokens in
theorem searchToken_exists {keyword : Str} {tau : SearchToken BlockKey}
    (exists_ : (searchTokenRow cfg td c.tables.tW keyword).1 ≠ cfg.keywordNotExist)
    (token : rowToken cr c.index.keywordCounterArr
      (searchTokenRow cfg td c.tables.tW keyword).1 = some tau) :
    searchToken cfg cr td keyword c =
      some (⟨{ c.tables with tW := (searchTokenRow cfg td c.tables.tW keyword).2 }, c.index⟩,
        some tau) :=
  (if_neg exists_).trans (congrArg _ token)

omit [DecidableEq τ] in
/-- A search of a row is one call. -/
theorem searchRow_returns {row : Nat} {tau : SearchToken BlockKey} {index : IndexClient BlockKey}
    {e : Event BlockKey} (bound : row < 2 ^ 64)
    (token : rowToken cr c.index.keywordCounterArr row = some tau)
    (search : searchRow cfg cr b.index s c.index row = some ((s', index), e)) :
    Meeting.Returns (loop b) (searchRowCalls cfg cr padding tau) c s
      ((Report.searched (e.result.getD [])).shown cfg) ⟨c.tables, index⟩ s' := by
  have rowIndex := rowToken_rowIndex token
  rw [searchRow, token, Option.bind_some] at search
  unfold searchRowCalls
  by_cases client : cfg.decryptAtClientSide = true
  · rw [if_pos client, Option.bind_eq_some_iff] at search
    obtain ⟨⟨s₁, r⟩, step, answered⟩ := search
    obtain ⟨msg, data, same⟩ := Option.bind_eq_some_iff.mp answered
    cases same
    rw [if_pos client, rowIndex, Event.result, Option.getD_some, Report.shown_client client]
    refine .bind (.ask fun x => ⟨_, serves_requestSearchData bound step data⟩) ?_
    exact .work rfl (.pure _)
  · rw [if_neg client, Option.bind_eq_some_iff] at search
    obtain ⟨⟨s₁, r⟩, step, answered⟩ := search
    obtain ⟨ids, found, same⟩ := Option.bind_eq_some_iff.mp answered
    cases same
    rw [if_neg client, Event.result, Option.getD_some, Report.shown_server client, rowIndex,
      ← partNat_numberPart_mod]
    have small : tau.rowIndex < 2 ^ 64 := lt_of_eq_of_lt rowIndex bound
    exact .work rfl (.bind (.ask fun x => ⟨_, serves_search tokens small step found⟩) (.pure _))

omit tokens [DecidableEq τ] in
/-- A block is fetched with one call, or none. -/
theorem requestBlockData_returns {blockIndex : Nat} {block : Buf × (Nat → Bool)}
    (bound : blockIndex < 2 ^ 64)
    (fetch : requestBlockData cfg b.index s blockIndex = some (s', block)) :
    Meeting.Returns (loop b) (requestBlockDataCalls cfg blockIndex : Talk (Client τ BlockKey) _ _)
      c s block c s' := by
  unfold requestBlockData at fetch
  unfold requestBlockDataCalls
  by_cases fetched : 1 < cfg.encryptBlockSize
  · rw [if_pos fetched, Option.bind_eq_some_iff] at fetch
    obtain ⟨⟨s₁, r⟩, step, answered⟩ := fetch
    obtain ⟨msg, data, same⟩ := Option.bind_eq_some_iff.mp answered
    cases same
    rw [if_pos fetched]
    exact .bind (.ask fun x => ⟨_, serves_requestBlockData bound step data⟩) (.pure _)
  · rw [if_neg fetched] at fetch ⊢
    cases fetch
    exact .pure _

omit tokens in
/-- An update of a column fetches its block and sends it back. -/
theorem updateFile_returns {path : Str} {draws draws' : Nat → Nat}
    {token : Tables τ → (Nat → Nat) → Option (Nat × ColumnUpdate × Tables τ)}
    {blockIndex fileIndex : Nat} {T T' : Tables τ} {u : ColumnUpdate}
    {index : IndexClient BlockKey} {e : Event BlockKey} (bound : blockIndex < 2 ^ 64)
    (request : requestBlockIndex cfg td path c.tables draws = some (blockIndex, T, draws'))
    (column : token T draws' = some (fileIndex, u, T'))
    (update : updateColumn cfg cr b.index s c.index blockIndex fileIndex u =
      some ((s', index), e)) :
    Meeting.Returns (loop b) (updateFileCalls cfg cr td path draws token) c s
      (.updated blockIndex fileIndex) ⟨T', index⟩ s' := by
  simp only [updateColumn, Option.bind_eq_some_iff] at update
  obtain ⟨⟨s₁, IPrime, st⟩, fetch, ⟨s₂, r⟩, step, same⟩ := update
  cases same
  refine .work (by rw [request]; rfl) ?_
  refine .bind (requestBlockData_returns bound fetch) ?_
  refine .work (by dsimp only; rw [column]; rfl) ?_
  exact .bind (.ask fun x => ⟨_, serves_updateBlockData bound step⟩) (.pure _)

/-- A step of the machine is a run of calls. -/
theorem op_returns (bounds : cfg.Addressable) (inRange : c.tables.InRange cfg) {op : ClientOp}
    {report : Report}
    (step : (clientMachine cfg cr td b.index).step (s, c) op = some ((s', c'), report)) :
    Meeting.Returns (loop b) (opCalls cfg cr td padding op) c s (report.shown cfg) c' s' := by
  have block {path : Str} {draws draws' : Nat → Nat} {blockIndex : Nat} {T : Tables τ}
      (request : requestBlockIndex cfg td path c.tables draws = some (blockIndex, T, draws')) :
      blockIndex < 2 ^ 64 := by
    obtain ⟨picks, j, assigned, found, rfl, -, -⟩ := requestBlockIndex_spec request
    have column : j < cfg.maxNumOfFiles := (assigned.within inRange.columns).lookup found
    exact Nat.lt_of_le_of_lt (Nat.div_le_self j _) (Nat.lt_trans column bounds.files)
  cases op with
  | searchKeyword keyword =>
    obtain ⟨-, row⟩ := searchTokenRow_inRange td inRange (lowerCase keyword)
    simp only [clientMachine, ImDsse.searchKeyword] at step
    split at step
    · next missing =>
      cases step
      rw [Report.shown, List.length_nil, Nat.zero_mod, ite_self]
      exact .work (searchToken_missing missing) (.pure _)
    · next exists_ =>
      obtain ⟨⟨⟨s₁, index⟩, e⟩, search, same⟩ := Option.map_eq_some_iff.mp step
      cases same
      have bound := Nat.lt_trans (row.resolve_left exists_) bounds.keywords
      cases token : rowToken cr c.index.keywordCounterArr
          (searchTokenRow cfg td c.tables.tW (lowerCase keyword)).1 with
      | none =>
        rw [searchRow, token] at search
        cases search
      | some tau =>
        exact .work (searchToken_exists exists_ token) (searchRow_returns tokens bound token search)
  | addFile path content draws =>
    simp only [clientMachine, ImDsse.addFile, Option.bind_eq_some_iff] at step
    obtain ⟨⟨blockIndex, T, draws'⟩, request, ⟨fileIndex, IBar, T'⟩, column, step⟩ := step
    obtain ⟨⟨⟨s₁, index⟩, e⟩, update, same⟩ := Option.map_eq_some_iff.mp step
    cases same
    change Meeting.Returns (loop b) (addFileCalls cfg cr td path content draws) c s _ _ _
    exact updateFile_returns (block request) request (congrArg (Option.map _) column) update
  | delFile path draws =>
    simp only [clientMachine, ImDsse.delFile, Option.bind_eq_some_iff] at step
    obtain ⟨⟨blockIndex, T, draws'⟩, request, step⟩ := step
    obtain ⟨⟨⟨s₁, index⟩, e⟩, update, same⟩ := Option.map_eq_some_iff.mp step
    cases same
    change Meeting.Returns (loop b) (delFileCalls cfg cr td path draws) c s _ _ _
    exact updateFile_returns (block request) request rfl update

/-- A run of the machine is a session. -/
theorem session_returns (bounds : cfg.Addressable) (inRange : c.tables.InRange cfg)
    {ops : List ClientOp}
    (run : (clientMachine cfg cr td b.index).exec (s, c) ops = some (s', c')) :
    Meeting.Returns (loop b) (sessionCalls cfg cr td padding ops) c s
      (((clientMachine cfg cr td b.index).outputs (s, c) ops).map (Report.shown cfg)) c' s' := by
  induction ops generalizing s c with
  | nil =>
    cases run
    exact .pure _
  | cons op ops ih =>
    obtain ⟨⟨s₁, c₁⟩, report, step, rest⟩ := Machine.step_of_exec_cons run
    rw [Machine.outputs_cons_of_step ops step, List.map_cons]
    have inRange₁ : c₁.tables.InRange cfg := clientMachine_tables inRange step
    exact .bind (op_returns tokens bounds inRange step)
      (.bind (ih inRange₁ rest) (.pure _))

end Steps

/-! ### A session -/

theorem loop_waits (b : Backend σ BlockKey) : Meeting.Waits (loop b) := fun _ => ⟨_, rfl⟩

/-- A client that begins a session, and a server in its loop. -/
def start (cfg : Config) (cr : Cipher BlockKey) (td : Trapdoor τ) (padding : Nat → Byte)
    (b : Backend σ BlockKey) (ops : List ClientOp) (c : Client τ BlockKey) (buffer : Buf) (s : σ) :
    Meeting (Client τ BlockKey) σ Part (List Shown) Buf :=
  Meeting.idle (loop b) (sessionCalls cfg cr td padding ops) c [] buffer s []

/-- A client at the end of a session that has shown this, and a server in its loop. -/
def ended (b : Backend σ BlockKey) (shown : List Shown) (c : Client τ BlockKey)
    (requests : List (Part × List Part)) (buffer : Buf) (s : σ) (replies : List (List Part)) :
    Meeting (Client τ BlockKey) σ Part (List Shown) Buf :=
  Meeting.idle (loop b) (pure shown) c requests buffer s replies

/-- A session over the sockets, against the machine that calls the server as a function:
where the machine goes on, then however client, server and lines take turns no call is
illegal, and the session ends with the client and the server the machine ends with, after
showing what it reports. -/
theorem session_settles (cfg : Config) (cr : Cipher BlockKey) (td : Trapdoor τ)
    (padding : Nat → Byte) (b : Backend σ BlockKey) (tokens : b.token = bufferToken)
    (bounds : cfg.Addressable) (buffer : Buf) (s : σ) (c : Client τ BlockKey)
    (inRange : c.tables.InRange cfg) (ops : List ClientOp) (s' : σ) (c' : Client τ BlockKey)
    (run : (clientMachine cfg cr td b.index).exec (s, c) ops = some (s', c')) :
    ∃ buffer' requests replies, Meeting.Settles (loop b)
      (start cfg cr td padding b ops c buffer s)
      (ended b (((clientMachine cfg cr td b.index).outputs (s, c) ops).map (Report.shown cfg)) c'
        requests buffer' s' replies) :=
  (session_returns tokens bounds inRange run).settles (loop_waits b) buffer

/-! ### A small session -/

/-- A server with an index and no files. -/
def indexBackend (index : Machine σ (Command BlockKey) (Response BlockKey)) :
    Backend σ BlockKey where
  index := index
  loadState := some
  saveState := some
  token := bufferToken
  opens _ _ := false
  write s _ _ := s
  resultFile _ _ := none

/-- Row keys that hold the row and its counter. -/
def smallBlockCipher : Cipher BlockKey where
  genRowKey r c i := if i.val = 0 then BitVec.ofNat 8 r else BitVec.ofNat 8 c
  keystream key b c i := keyByte key 0 + 3 * keyByte key 1 + BitVec.ofNat 8 (5 * b + 7 * c + i)
  zeroKey _ := 0

/-- "a" has row 1 and "f" column 1. -/
def smallClient : Client Str BlockKey where
  tables := ⟨AList.insert [0x61#8] 1 ∅, AList.insert [0x66#8] 1 ∅, [2, 3], [2, 3]⟩
  index := ⟨fun _ => 1, fun _ => 1, fun r => smallBlockCipher.genRowKey r 1⟩

/-- Only "f" has "a". -/
def smallServer : RamServer where
  I r := packBuf fun j => (r == 1 && j == 1) ^^
    smallBlockCipher.ks (smallBlockCipher.genRowKey r 1) (j / 2) 1 (j % 2)
  blockStateMat _ := zeroBuf
  blockCounterArr _ := 1

/-- "a" is searched, a file "h" with the word "a" added, "f" deleted, and "a" searched. -/
def smallSession : List ClientOp :=
  [.searchKeyword [0x41#8], .addFile [0x68#8] (some [0x61#8, 0x20#8]) id, .delFile [0x66#8] id,
    .searchKeyword [0x61#8]]

theorem session_settles_small : ∃ c' s' buffer' requests replies, Meeting.Settles
    (loop (indexBackend (ramServer (wideConfig 2 false) smallBlockCipher)))
    (start (wideConfig 2 false) smallBlockCipher smallTrapdoor (fun _ => 0xaa)
      (indexBackend (ramServer (wideConfig 2 false) smallBlockCipher)) smallSession smallClient
      zeroBuf smallServer)
    (ended (indexBackend (ramServer (wideConfig 2 false) smallBlockCipher)) [.searched 1 [],
      .updated 1 2, .updated 0 1, .searched 1 []] c' requests
      buffer' s' replies) := by
  have evaluated : ((clientMachine (wideConfig 2 false) smallBlockCipher smallTrapdoor
      (ramServer (wideConfig 2 false) smallBlockCipher)).exec (smallServer, smallClient)
        smallSession).isSome := by
    decide +kernel
  have shown : ((clientMachine (wideConfig 2 false) smallBlockCipher smallTrapdoor
      (ramServer (wideConfig 2 false) smallBlockCipher)).outputs (smallServer, smallClient)
        smallSession).map (Report.shown (wideConfig 2 false)) = [.searched 1 [], .updated 1 2,
          .updated 0 1, .searched 1 []] := by
    decide +kernel
  obtain ⟨⟨s', c'⟩, run⟩ := Option.isSome_iff_exists.mp evaluated
  have rows : Pool.Within 8 (∅ : Pool.Table Str) [2, 3] := ⟨nofun, by decide⟩
  have columns : Pool.Within 32 (∅ : Pool.Table Str) [2, 3] := ⟨nofun, by decide⟩
  have inRange : smallClient.tables.InRange (wideConfig 2 false) :=
    ⟨by decide, by decide, rows.insert _ (by decide), columns.insert _ (by decide)⟩
  obtain ⟨buffer', requests, replies, settles⟩ := session_settles (wideConfig 2 false)
    smallBlockCipher smallTrapdoor (fun _ => 0xaa)
    (indexBackend (ramServer (wideConfig 2 false) smallBlockCipher)) rfl ⟨by decide, by decide⟩
    zeroBuf smallServer smallClient inRange smallSession s' c' run
  exact ⟨c', s', buffer', requests, replies, shown ▸ settles⟩

end Remote

end ImDsse
