import ImDsse.Seu.Client

/-!
What a call of the Android client can do.

`Books` are what the client keeps from call to call, beside the block in hand, and the
encrypted files on the server. `SearchEnds`, `AddEnds` and `DelEnds` list the ways a call
returns: the result, the books it leaves, and what of the input decides it.
-/

namespace ImDsse.Seu

open Kit Kit.Bits Kit.Pool Kit.Text

variable {Key : Type} {σ : Type} {τ : Type} {α β : Type}

/-! ### Programs that return -/

section Returned

variable {w w' : World σ τ Key} {x : Call σ τ Key α} {f : α → Call σ τ Key β} {res : Except Err β}

/-- A sequence returns from its second part, or with an error from its first. -/
theorem returned_bind (h : returned ((x >>= f) w) = some (w', res)) :
    (∃ a w₁, x w = .ok a w₁ ∧ returned (f a w₁) = some (w', res)) ∨
      ∃ e, x w = .error (some e) w' ∧ res = .error e := by
  cases first : x w with
  | ok a w₁ =>
    rw [Prog.bind_ok first] at h
    exact .inl ⟨a, w₁, rfl, h⟩
  | error e w₁ =>
    rw [Prog.bind_error first] at h
    cases e with
    | none => cases h
    | some e =>
      cases h
      exact .inr ⟨e, rfl, rfl⟩

theorem returned_keeps {γ : Type} {view : World σ τ Key → γ} {res : Except Err α}
    (keeps : Prog.Keeps view x) (h : returned (x w) = some (w', res)) : view w' = view w := by
  cases run : x w with
  | ok a w₁ =>
    rw [run] at h
    cases h
    exact keeps.of_ok run
  | error e w₁ =>
    rw [run] at h
    cases e <;> cases h
    exact keeps.of_error run

/-- The program has no error of its own. -/
def Sure (x : Call σ τ Key α) : Prop := ∀ w e w', x w ≠ .error (some e) w'

namespace Sure

theorem pure (a : α) : Sure (Pure.pure a : Call σ τ Key α) := fun _ _ _ h => by cases h

theorem bind (first : Sure x) (second : ∀ a, Sure (f a)) : Sure (x >>= f) := by
  intro w e w' h
  rcases Prog.bind_eq_error.mp h with here | ⟨a, w₁, -, later⟩
  · exact first _ _ _ here
  · exact second a _ _ _ later

/-- A sequence returns from what follows. -/
theorem returned_bind (first : Sure x) (h : returned ((x >>= f) w) = some (w', res)) :
    ∃ a w₁, x w = .ok a w₁ ∧ returned (f a w₁) = some (w', res) := by
  rcases Seu.returned_bind h with later | ⟨e, here, -⟩
  · exact later
  · exact absurd here (first _ _ _)

end Sure

/-- The operation goes on, or returns the error. -/
theorem failWith_returned {ret : Option Err} {f : Unit → Call σ τ Key β}
    (h : returned ((failWith ret >>= f) w) = some (w', res)) :
    (ret = none ∧ returned (f () w) = some (w', res)) ∨
      ∃ e, ret = some e ∧ w' = w ∧ res = .error e := by
  cases ret with
  | none => exact .inl ⟨rfl, h⟩
  | some e =>
    cases h
    exact .inr ⟨e, rfl, rfl, rfl⟩

/-- The same for an error with a condition. -/
theorem failWith_if_returned {P : Prop} [Decidable P] {e : Err} {f : Unit → Call σ τ Key β}
    (h : returned ((failWith (if P then some e else none) >>= f) w) = some (w', res)) :
    (¬ P ∧ returned (f () w) = some (w', res)) ∨ (P ∧ w' = w ∧ res = .error e) := by
  by_cases fails : P
  · rw [if_pos fails] at h
    cases h
    exact .inr ⟨fails, rfl, rfl⟩
  · rw [if_neg fails] at h
    exact .inl ⟨fails, h⟩

end Returned

/-! ### The books -/

/-- What a call can change beside the block in hand and the server's index. -/
structure Books (τ : Type) where
  dataStructureConstructed : Bool
  tables : Tables τ
  keywordCounterArr : Nat → Nat
  blockCounterArr : Nat → Nat
  encryptedUpdate : Option Archive
  encFiles : TextFile → Option Archive

def World.books (w : World σ τ Key) : Books τ :=
  ⟨w.client.dataStructureConstructed, w.client.tables, w.client.index.keywordCounterArr,
    w.client.index.blockCounterArr, w.client.encryptedUpdate, w.encFiles⟩

/-- A counter that was raised. -/
def counted (counters : Nat → Nat) (i : Nat) : Nat → Nat :=
  Function.update counters i (nextCounter (counters i))

theorem nextCounter_ne (c : Nat) : nextCounter c ≠ c := by
  unfold nextCounter
  omega

theorem counted_ne (counters : Nat → Nat) (i : Nat) : counted counters i ≠ counters := by
  intro same
  have here := congrFun same i
  rw [counted, Function.update_self] at here
  exact nextCounter_ne _ here

namespace Books

variable (b : Books τ)

/-- A file has been given its column. -/
def withColumns (s : Picks τ) : Books τ :=
  { b with tables := { b.tables with tF := s.table, lstFreeColumnIdx := s.free } }

/-- The block is counted ahead of the exchange where the client decrypts, unless the keys
are left to threads. -/
def countedAhead (build : Build) (cfg : Config) (blockIndex : Nat) : Books τ :=
  { b with blockCounterArr :=
      if cfg.decryptAtClientSide && !build.multiThread then counted b.blockCounterArr blockIndex
      else b.blockCounterArr }

/-- The block is counted with its new content where the server decrypts. -/
def countedAfter (cfg : Config) (fileIndex : Nat) : Books τ :=
  { b with blockCounterArr :=
      if cfg.decryptAtClientSide then b.blockCounterArr
      else counted b.blockCounterArr (fileIndex / cfg.encryptBlockSize) }

/-- The server has the file that lies in the folder. -/
def withFile : Books τ :=
  match b.encryptedUpdate with
  | none => b
  | some archive =>
    { b with encFiles := Function.update b.encFiles (archiveName archive.fileIndex) (some archive) }

theorem withFile_of_some {archive : Archive} (h : b.encryptedUpdate = some archive) :
    b.withFile = { b with
      encFiles := Function.update b.encFiles (archiveName archive.fileIndex) (some archive) } := by
  unfold withFile
  rw [h]

/-- The server has removed the file with this index in its name. -/
def withoutFile (fileIndex : Nat) : Books τ :=
  { b with encFiles := Function.update b.encFiles (archiveName fileIndex) none }

end Books

/-! ### The exchanges -/

section Exchanges

variable {cfg : Config} {srv : Machine σ (Command Key) (Response Key)} {link : Link} {γ : Type}
  {view : World σ τ Key → γ}

/-- The view shows neither the server's index nor the block in hand. -/
def Aside (view : World σ τ Key → γ) : Prop := ∀ (w : World σ τ Key) server IPrime blockStateArr,
  view { w with server := server, client := { w.client with
    IPrime := IPrime, blockStateArr := blockStateArr } } = view w

theorem books_aside : Aside (World.books : World σ τ Key → Books τ) := fun _ _ _ _ => rfl

theorem exchange_keeps (aside : Aside view) (command : Command Key) :
    Prog.Keeps view (exchange srv link command) := by
  intro w
  unfold exchange
  split <;> first | rfl | exact aside w _ w.client.IPrime w.client.blockStateArr

theorem exchange_sure (command : Command Key) : Sure (τ := τ) (exchange srv link command) := by
  intro w e w' h
  unfold exchange at h
  split at h <;> cases h

/-- A reply comes over an exchange that goes through, and over no other. -/
theorem exchange_reply {command : Command Key} {w w' : World σ τ Key}
    {reply : Option (Response Key)} (h : exchange srv link command w = .ok reply w') :
    reply = none ↔ link ≠ .up := by
  unfold exchange at h
  split at h <;> cases h <;> simp

theorem await_keeps (a : Option α) : Prog.Keeps view (await a : Call σ τ Key α) := by
  cases a
  · exact .throw _
  · exact .pure _

theorem await_sure (a : Option α) : Sure (await a : Call σ τ Key α) := by
  intro w e w' h
  cases a <;> cases h

theorem requestBlockData_keeps (aside : Aside view) (blockIndex : Nat) :
    Prog.Keeps view (requestBlockData cfg srv link blockIndex) := by
  unfold requestBlockData
  split
  · refine .bind (exchange_keeps aside _) fun reply => ?_
    cases reply with
    | none => exact .pure _
    | some r => exact .bind (await_keeps _) fun msg w => aside w w.server _ _
  · exact .pure _

theorem requestBlockData_sure (blockIndex : Nat) :
    Sure (τ := τ) (requestBlockData cfg srv link blockIndex) := by
  unfold requestBlockData
  split
  · refine .bind (exchange_sure _) fun reply => ?_
    cases reply with
    | none => exact .pure _
    | some r => exact .bind (await_sure _) fun msg w e w' h => by cases h
  · exact .pure _

/-- A block is fetched unless it is of one column, and fails with its exchange. -/
theorem requestBlockData_result {blockIndex : Nat} {w w' : World σ τ Key} {ret : Option Err}
    (h : requestBlockData cfg srv link blockIndex w = .ok ret w') :
    ret = if 1 < cfg.encryptBlockSize ∧ link ≠ .up then some .clientRequestBlockData else none := by
  unfold requestBlockData at h
  split at h
  · next block =>
    obtain ⟨reply, w₁, exchanged, h⟩ := Prog.bind_eq_ok.mp h
    have missing := exchange_reply exchanged
    cases reply with
    | none =>
      cases h
      rw [if_pos ⟨block, missing.mp rfl⟩]
    | some r =>
      obtain ⟨msg, w₂, -, h⟩ := Prog.bind_eq_ok.mp h
      cases h
      rw [if_neg fun both => by cases missing.mpr both.2]
  · next single =>
    cases h
    rw [if_neg fun both => single both.1]

theorem sendBlockData_keeps (aside : Aside view) (blockIndex : Nat) :
    Prog.Keeps view (sendBlockData cfg srv link blockIndex) :=
  .bind (fun _ => rfl) fun _ => .bind (exchange_keeps aside _) fun _ => .pure _

theorem sendBlockData_sure (blockIndex : Nat) :
    Sure (τ := τ) (sendBlockData cfg srv link blockIndex) :=
  .bind (fun _ _ _ h => by cases h) fun _ => .bind (exchange_sure _) fun _ => .pure _

theorem sendBlockData_result {blockIndex : Nat} {w w' : World σ τ Key} {ret : Option Err}
    {data : List Byte} (h : sendBlockData cfg srv link blockIndex w = .ok (ret, data) w') :
    ret = if link ≠ .up then some .clientUpdateBlockData else none := by
  obtain ⟨_, w₁, looked, h⟩ := Prog.bind_eq_ok.mp h
  obtain ⟨reply, w₂, exchanged, h⟩ := Prog.bind_eq_ok.mp h
  have missing := exchange_reply exchanged
  cases h
  cases reply with
  | none => rw [if_pos (missing.mp rfl)]; rfl
  | some r =>
    have up : ¬ link ≠ .up := fun down => by cases missing.mpr down
    rw [if_neg up]
    rfl

end Exchanges

/-! ### Searching -/

theorem notBuilt_eq_none {w : World σ τ Key} :
    notBuilt w = none ↔ w.books.dataStructureConstructed = true := by
  simp [notBuilt, World.books]

theorem notBuilt_eq_some {w : World σ τ Key} {e : Err} : notBuilt w = some e ↔
    w.books.dataStructureConstructed = false ∧ e = .dataStructureNotBuilt := by
  unfold notBuilt
  split
  · next built =>
    constructor
    · intro h
      cases h
    · rintro ⟨absent, -⟩
      cases absent.symm.trans built
  · next absent =>
    constructor
    · intro h
      cases h
      exact ⟨Bool.eq_false_iff.mpr absent, rfl⟩
    · rintro ⟨-, rfl⟩
      rfl

variable [DecidableEq τ]

section Search

variable (build : Build) (cfg : Config) (td : Trapdoor τ) (keyword : Str)

/-- A search returns before there is a data structure, without a row, at the limit of the
row's counter, or with the row counted. Only in the last case does it reach the server, and
where the server decrypts it does not return in another. -/
inductive SearchEnds (b : Books τ) : Except Err (Report Key) → Books τ → Prop where
  | notBuilt (client : cfg.decryptAtClientSide = true)
      (absent : b.dataStructureConstructed = false) :
      SearchEnds b (.error .dataStructureNotBuilt) b
  | noRow (client : cfg.decryptAtClientSide = true) (built : b.dataStructureConstructed = true)
      (zero : (index b.tables.tW (td.generate (cStr keyword))).1 = 0) :
      SearchEnds b (.ok (.searched [])) { b with tables := { b.tables with
        tW := (index b.tables.tW (td.generate (cStr keyword))).2 } }
  | limit (row : Nat) (client : cfg.decryptAtClientSide = true)
      (built : b.dataStructureConstructed = true)
      (found : b.tables.tW.lookup (td.generate (cStr keyword)) = some row) (ne : row ≠ 0)
      (max : b.keywordCounterArr row = build.ulongMax) :
      SearchEnds b (.error .counterExceedLimit) b
  | counted (row : Nat) (res : Except Err (Report Key)) (built : b.dataStructureConstructed = true)
      (found : b.tables.tW.lookup (td.generate (cStr keyword)) = some row) (ne : row ≠ 0)
      (left : b.keywordCounterArr row ≠ build.ulongMax) :
      SearchEnds b res { b with keywordCounterArr := Seu.counted b.keywordCounterArr row }

end Search

section Search

variable {build : Build} {cfg : Config} {cr : Cipher Key} {td : Trapdoor τ}
  {srv : Machine σ (Command Key) (Response Key)} {keyword : Str} {links : Links}
  {w w' : World σ τ Key} {res : Except Err (Report Key)}

omit [DecidableEq τ] in
theorem unconnected_client (client : cfg.decryptAtClientSide = true) (x : Call σ τ Key α) :
    unconnected cfg x w = x w := by
  unfold unconnected
  rw [if_pos client]

omit [DecidableEq τ] in
theorem unconnected_server (server : cfg.decryptAtClientSide = false) (x : Call σ τ Key α) :
    unconnected cfg x w = .error none (Prog.final (x w)) := by
  unfold unconnected
  rw [if_neg (Bool.eq_false_iff.mp server)]

omit [DecidableEq τ] in
theorem unconnected_keeps {γ : Type} {view : World σ τ Key → γ} {x : Call σ τ Key α}
    (keeps : Prog.Keeps view x) : Prog.Keeps view (unconnected cfg x) := by
  intro w
  unfold unconnected
  split
  · exact keeps w
  · exact keeps w

omit [DecidableEq τ] in
theorem searchRow_keeps {γ : Type} {view : World σ τ Key → γ} (aside : Aside view)
    (tau : Option (SearchToken Key)) : Prog.Keeps view (searchRow build cfg cr srv tau links) := by
  unfold searchRow
  cases tau with
  | none => exact unconnected_keeps (.pure _)
  | some tau =>
    dsimp only
    split
    · exact unconnected_keeps (.pure _)
    · split
      · exact .bind (exchange_keeps aside _) fun _ => .bind (await_keeps _) fun _ =>
          .bind (fun _ => rfl) fun _ => .pure _
      · refine .bind (exchange_keeps aside _) fun reply => ?_
        cases reply with
        | none => exact .throw _
        | some r => exact await_keeps _

/-- The token of a keyword that has a row. -/
theorem searchToken_row {row : Nat}
    (found : w.client.tables.tW.lookup (td.generate (cStr keyword)) = some row) (ne : row ≠ 0) :
    searchToken build cr td keyword w =
      if w.client.index.keywordCounterArr row = build.ulongMax
      then .error (some .counterExceedLimit) w
      else .ok (some (freshToken cr w.client.index.keywordCounterArr row))
        (w.setKeywordCounterArr (counted w.client.index.keywordCounterArr row)) := by
  unfold searchToken
  rw [index_of_lookup found]
  exact if_pos ne

/-- And of one that has none. -/
theorem searchToken_noRow
    (zero : (index w.client.tables.tW (td.generate (cStr keyword))).1 = 0) :
    searchToken build cr td keyword w = .ok none (w.setTables { w.client.tables with
      tW := (index w.client.tables.tW (td.generate (cStr keyword))).2 }) := by
  unfold searchToken
  dsimp only
  exact if_neg (not_not_intro zero)

variable (build cr td keyword) in
theorem searchBegin_built (built : w.client.dataStructureConstructed = true) :
    searchBegin build cr td keyword w = searchToken build cr td keyword w := by
  have ret : notBuilt w = none := notBuilt_eq_none.mpr built
  show (failWith (notBuilt w) >>= _) w = _
  rw [ret]
  rfl

theorem searchBegin_notBuilt (absent : w.client.dataStructureConstructed = false) :
    searchBegin build cr td keyword w = .error (some .dataStructureNotBuilt) w := by
  have ret : notBuilt w = some .dataStructureNotBuilt := notBuilt_eq_some.mpr ⟨absent, rfl⟩
  show (failWith (notBuilt w) >>= _) w = _
  rw [ret]
  rfl

/-- Where the server decrypts, an error ahead of `connect` leaves by the exception. -/
theorem searchKeyword_leaves (server : cfg.decryptAtClientSide = false) {e : Err}
    (begins : searchBegin build cr td keyword w = .error (some e) w') :
    searchKeyword build cfg cr td srv keyword links w = .error none w' := by
  have caught : tryCatch (searchBegin build cr td keyword) (fun e => unconnected cfg (throw e)) w =
      unconnected cfg (throw (some e)) w' := Prog.tryCatch_error begins
  rw [unconnected_server server] at caught
  exact Prog.bind_error caught

/-- An error ahead of `connect` is returned where the client decrypts only. -/
theorem searchKeyword_error {e : Err}
    (begins : searchBegin build cr td keyword w = .error (some e) w') :
    returned (searchKeyword build cfg cr td srv keyword links w) =
      if cfg.decryptAtClientSide then some (w', .error e) else none := by
  cases client : cfg.decryptAtClientSide with
  | true =>
    have caught : tryCatch (searchBegin build cr td keyword) (fun e => unconnected cfg (throw e)) w =
        unconnected cfg (throw (some e)) w' := Prog.tryCatch_error begins
    rw [unconnected_client client] at caught
    unfold searchKeyword
    rw [Prog.bind_error caught]
    rfl
  | false =>
    rw [searchKeyword_leaves client begins]
    rfl

/-- And so it is with a search that finds no row. -/
theorem searchKeyword_noRow (begins : searchBegin build cr td keyword w = .ok none w') :
    returned (searchKeyword build cfg cr td srv keyword links w) =
      if cfg.decryptAtClientSide then some (w', .ok (.searched [])) else none := by
  unfold searchKeyword
  rw [Prog.bind_ok (Prog.tryCatch_ok begins)]
  have exits : searchRow build cfg cr srv none links w' = unconnected cfg (pure []) w' := rfl
  cases client : cfg.decryptAtClientSide with
  | true =>
    rw [unconnected_client client] at exits
    rw [Prog.bind_ok exits]
    rfl
  | false =>
    rw [unconnected_server client] at exits
    rw [Prog.bind_error exits]
    rfl

theorem searchKeyword_ends
    (h : returned (searchKeyword build cfg cr td srv keyword links w) = some (w', res)) :
    SearchEnds build cfg td keyword w.books res w'.books := by
  cases built : w.client.dataStructureConstructed with
  | false =>
    rw [searchKeyword_error (searchBegin_notBuilt built)] at h
    obtain ⟨client, h⟩ := Option.ite_none_right_eq_some.mp h
    cases h
    exact .notBuilt client built
  | true =>
    have begins := searchBegin_built build cr td keyword built
    by_cases zero : (index w.client.tables.tW (td.generate (cStr keyword))).1 = 0
    · rw [searchKeyword_noRow (begins.trans (searchToken_noRow zero))] at h
      obtain ⟨client, h⟩ := Option.ite_none_right_eq_some.mp h
      cases h
      exact .noRow client built zero
    · cases found : w.client.tables.tW.lookup (td.generate (cStr keyword)) with
      | none =>
        rw [index_of_absent found] at zero
        exact absurd rfl zero
      | some row =>
        rw [index_of_lookup found] at zero
        have token := begins.trans (searchToken_row found zero)
        split at token
        · next max =>
          rw [searchKeyword_error token] at h
          obtain ⟨client, h⟩ := Option.ite_none_right_eq_some.mp h
          cases h
          exact .limit row client built found zero max
        · next left =>
          unfold searchKeyword at h
          rw [Prog.bind_ok (Prog.tryCatch_ok token)] at h
          have kept := returned_keeps (.bind (searchRow_keeps books_aside _) fun _ => .pure _) h
          rw [kept]
          exact .counted row res built found zero left

end Search

/-! ### Adding and deleting -/

section Update

variable (build : Build) (cfg : Config) (td : Trapdoor τ) (path : Str)

/-- The block is not fetched, and the operation ends with it. -/
def FetchFails (links : Links) : Prop :=
  fetchesAside build cfg = false ∧ 1 < cfg.encryptBlockSize ∧ links.fetch ≠ .up

instance (links : Links) : Decidable (FetchFails build cfg links) := by
  unfold FetchFails
  infer_instance

/-- `requestBlock_index` gives the file column `j`, and the block of `j` is counted where
that comes first. -/
structure Begun (b : Books τ) (draws : Nat → Nat) (s : Picks τ) (j : Nat) (b₁ : Books τ) : Prop where
  assigned : Assigned 0 ⟨b.tables.tF, b.tables.lstFreeColumnIdx, draws⟩ (td.omac path) s
  found : s.table.lookup (td.omac path) = some j
  books : b₁ = (b.withColumns s).countedAhead build cfg (j / cfg.encryptBlockSize)

/-- What `addToken` does: it looks the file up once more, and unless the file cannot be
read it gives its words their rows, makes the new block and encrypts the file. -/
inductive Tokened (content : Option (List Byte)) (buckets : τ → Nat) (b : Books τ)
    (draws : Nat → Nat) : Option Err → Books τ → Prop where
  | unread (columns : Picks τ) (unread : content = none)
      (assigned : Assigned 0 ⟨b.tables.tF, b.tables.lstFreeColumnIdx, draws⟩ (td.omac path) columns) :
      Tokened content buckets b draws (some .extractKeywords) (b.withColumns columns)
  | read (columns rows : Picks τ) (fileIndex : Nat) (IBar : Buf) (read : content.isSome = true)
      (assigned : Assigned 0 ⟨b.tables.tF, b.tables.lstFreeColumnIdx, draws⟩ (td.omac path) columns)
      (found : columns.table.lookup (td.omac path) = some fileIndex)
      (words : AssignedRows td ⟨b.tables.tW, b.tables.lstFreeRowIdx, columns.draws⟩ zeroBuf
        (extractKeywords [] content) rows IBar) :
      Tokened content buckets b draws none
        { b.countedAfter cfg fileIndex with
          tables := ⟨rows.table, columns.table, columns.free, rows.free⟩
          encryptedUpdate := if build.encryptPhysicalFile
            then some (encryptFileUsingCcm td buckets path content) else b.encryptedUpdate }

/-- The rest of an addition, after `addToken` with the result `ret`. -/
inductive AddRest (links : Links) (blockIndex : Nat) (b : Books τ) :
    Option Err → Except Err (Report Key) → Books τ → Prop where
  | notRead (e : Err) (server : cfg.decryptAtClientSide = false) :
      AddRest links blockIndex b (some e) (.error e) b
  | notSent (ret : Option Err) (past : cfg.decryptAtClientSide = true ∨ ret = none)
      (down : links.update ≠ .up) :
      AddRest links blockIndex b ret (.error .clientUpdateBlockData) b
  | notStored (ret : Option Err) (b' : Books τ) (past : cfg.decryptAtClientSide = true ∨ ret = none)
      (physical : build.encryptPhysicalFile = true) (sent : b' = b ∨ b' = b.withFile) :
      AddRest links blockIndex b ret (.error .clientSendFile) b'
  | added (ret : Option Err) (upload : Upload Key) (b' : Books τ)
      (past : cfg.decryptAtClientSide = true ∨ ret = none) (up : links.update = .up)
      (block : upload.blockIndex = blockIndex)
      (stored : b' = if build.encryptPhysicalFile then b.withFile else b) :
      AddRest links blockIndex b ret (.ok (.added upload)) b'

/-- An addition returns because the block cannot be fetched, or from what comes after
`addToken`. -/
inductive AddEnds (content : Option (List Byte)) (draws : Nat → Nat) (buckets : τ → Nat)
    (links : Links) (b : Books τ) : Except Err (Report Key) → Books τ → Prop where
  | notFetched (s : Picks τ) (j : Nat) (b₁ : Books τ)
      (begun : Begun build cfg td path b draws s j b₁) (fails : FetchFails build cfg links) :
      AddEnds content draws buckets links b (.error .clientRequestBlockData) b₁
  | tokened (s : Picks τ) (j : Nat) (b₁ b₂ b' : Books τ) (ret : Option Err)
      (res : Except Err (Report Key)) (begun : Begun build cfg td path b draws s j b₁)
      (fetched : ¬ FetchFails build cfg links)
      (token : Tokened build cfg td path content buckets b₁ s.draws ret b₂)
      (rest : AddRest build cfg links (j / cfg.encryptBlockSize) b₂ ret res b') :
      AddEnds content draws buckets links b res b'

/-- The rest of a deletion, after `delToken`. -/
inductive DelRest (links : Links) (fileIndex blockIndex : Nat) (b : Books τ) :
    Except Err (Report Key) → Books τ → Prop where
  | notSent (physical : build.encryptPhysicalFile = true) (down : links.file = .down) :
      DelRest links fileIndex blockIndex b (.error .clientDeleteFile) b
  | deleted (upload : Upload Key) (b' : Books τ) (block : upload.blockIndex = blockIndex)
      (sent : build.encryptPhysicalFile = false ∨ links.file ≠ .down)
      (removed : b' = if build.encryptPhysicalFile then b.withoutFile fileIndex else b) :
      DelRest links fileIndex blockIndex b (.ok (.deleted fileIndex upload)) b'

/-- A deletion returns before there is a data structure, with a block that does not exist
or cannot be fetched, or when the file is out of the table and its new block is sent. -/
inductive DelEnds (draws : Nat → Nat) (links : Links) (b : Books τ) :
    Except Err (Report Key) → Books τ → Prop where
  | notBuilt (absent : b.dataStructureConstructed = false) :
      DelEnds draws links b (.error .dataStructureNotBuilt) b
  | noBlock (s : Picks τ) (j : Nat)
      (assigned : Assigned 0 ⟨b.tables.tF, b.tables.lstFreeColumnIdx, draws⟩ (td.omac path) s)
      (found : s.table.lookup (td.omac path) = some j)
      (exceeds : cfg.numBlocks < j / cfg.encryptBlockSize)
      (built : b.dataStructureConstructed = true) :
      DelEnds draws links b (.error .maxNumBlockExceeded) (b.withColumns s)
  | notFetched (s : Picks τ) (j : Nat) (b₁ : Books τ)
      (begun : Begun build cfg td path b draws s j b₁)
      (block : ¬ cfg.numBlocks < j / cfg.encryptBlockSize) (fails : FetchFails build cfg links)
      (built : b.dataStructureConstructed = true) :
      DelEnds draws links b (.error .clientRequestBlockData) b₁
  | erased (s : Picks τ) (j : Nat) (b₁ b₂ b' : Books τ) (res : Except Err (Report Key))
      (begun : Begun build cfg td path b draws s j b₁)
      (block : ¬ cfg.numBlocks < j / cfg.encryptBlockSize) (fetched : ¬ FetchFails build cfg links)
      (built : b.dataStructureConstructed = true)
      (token : b₂ = { b₁.countedAfter cfg j with
        tables := { b₁.tables with tF := b₁.tables.tF.erase (td.omac path) } })
      (rest : DelRest build links j (j / cfg.encryptBlockSize) b₂ res b') :
      DelEnds draws links b res b'

end Update

section Update

variable {build : Build} {cfg : Config} {cr : Cipher Key} {td : Trapdoor τ}
  {srv : Machine σ (Command Key) (Response Key)} {path : Str} {draws : Nat → Nat} {links : Links}
  {w w' : World σ τ Key} {res : Except Err (Report Key)}

omit [DecidableEq τ] in
variable (build) in
/-- Where the operation looks at the result of the fetch. -/
theorem fetch_result {blockIndex : Nat} {ret : Option Err}
    (h : requestBlockData cfg srv links.fetch blockIndex w = .ok ret w') :
    (if fetchesAside build cfg then none else ret) =
      if FetchFails build cfg links then some .clientRequestBlockData else none := by
  rw [requestBlockData_result h]
  by_cases aside : fetchesAside build cfg = true
  · rw [if_pos aside, if_neg fun fails => by cases fails.1.symm.trans aside]
  · rw [if_neg aside]
    simp only [FetchFails, Bool.eq_false_iff.mpr aside, true_and]

theorem requestBlockIndex_sure :
    Sure (requestBlockIndex cfg td path draws : Call σ τ Key (Option Err × Nat × (Nat → Nat))) := by
  intro w e w' h
  unfold requestBlockIndex at h
  dsimp only at h
  split at h <;> cases h

theorem requestBlockIndex_cases {ret : Option Err} {b : Nat} {draws' : Nat → Nat}
    (h : requestBlockIndex cfg td path draws w = .ok (ret, b, draws') w') :
    ∃ s j, Assigned 0 ⟨w.client.tables.tF, w.client.tables.lstFreeColumnIdx, draws⟩ (td.omac path) s ∧
      s.table.lookup (td.omac path) = some j ∧ b = j / cfg.encryptBlockSize ∧
      ret = (if cfg.numBlocks < b then some .maxNumBlockExceeded else none) ∧ draws' = s.draws ∧
      w' = w.setTables { w.client.tables with tF := s.table, lstFreeColumnIdx := s.free } := by
  unfold requestBlockIndex at h
  dsimp only at h
  split at h
  · cases h
  · next s assign =>
    have assigned := assignIndex_cases (.inl rfl) assign
    obtain ⟨j, found, -⟩ := assigned.lookup_self
    rw [index_of_lookup found] at h
    cases h
    exact ⟨s, j, assigned, found, rfl, rfl, rfl, rfl⟩

omit [DecidableEq τ] in
variable (build cfg cr) in
/-- The keys are there whatever the build. -/
theorem blockKeys_run (links : Links) (decrypts : Bool) (blockIndex : Nat) (w : World σ τ Key) :
    ∃ keys, blockKeys build cfg cr links decrypts blockIndex w =
      .ok keys (w.setBlockCounterArr (w.books.countedAhead build cfg blockIndex).blockCounterArr) := by
  unfold blockKeys
  cases client : cfg.decryptAtClientSide with
  | false =>
    refine ⟨⟨zeroBuf, zeroBuf, []⟩, ?_⟩
    simp only [Books.countedAhead, client, Bool.false_and, Bool.false_eq_true, if_false]
    rfl
  | true =>
    refine ⟨_, (if_pos rfl).trans (congrArg (fun counters =>
      EStateM.Result.ok _ (w.setBlockCounterArr counters)) ?_)⟩
    rw [Books.countedAhead, client, Bool.true_and]
    cases build.multiThread <;> rfl

omit [DecidableEq τ] in
theorem blockKeys_books {decrypts : Bool} {blockIndex : Nat} {keys : BlockKeys Key}
    (h : blockKeys build cfg cr links decrypts blockIndex w = .ok keys w') :
    w'.books = w.books.countedAhead build cfg blockIndex := by
  obtain ⟨keys', run⟩ := blockKeys_run build cfg cr links decrypts blockIndex w
  cases run.symm.trans h
  rfl

omit [DecidableEq τ] in
theorem blockKeys_sure (decrypts : Bool) (blockIndex : Nat) :
    Sure (σ := σ) (τ := τ) (blockKeys build cfg cr links decrypts blockIndex) := by
  intro w e w' h
  obtain ⟨keys, run⟩ := blockKeys_run build cfg cr links decrypts blockIndex w
  cases run.symm.trans h

section Add

variable {content : Option (List Byte)} {buckets : τ → Nat} {keys : BlockKeys Key}

theorem addToken_sure : Sure (σ := σ) (addToken build cfg cr td path content draws buckets keys) := by
  intro w e w' h
  unfold addToken at h
  dsimp only at h
  split at h <;> cases h

variable (build cfg cr td path draws w content buckets keys) in
/-- The ways through `addToken`, with all it does. -/
inductive AddsToken : Option Err → List (Encryption Key) → World σ τ Key → Prop where
  | unread (columns : Picks τ) (unread : content = none)
      (assigned : Assigned 0 ⟨w.client.tables.tF, w.client.tables.lstFreeColumnIdx, draws⟩
        (td.omac path) columns) :
      AddsToken (some .extractKeywords) [] (w.setTables { w.client.tables with
        tF := columns.table, lstFreeColumnIdx := columns.free })
  | read (columns rows : Picks τ) (fileIndex : Nat) (IBar : Buf) (read : content.isSome = true)
      (assigned : Assigned 0 ⟨w.client.tables.tF, w.client.tables.lstFreeColumnIdx, draws⟩
        (td.omac path) columns)
      (found : columns.table.lookup (td.omac path) = some fileIndex)
      (words : AssignedRows td ⟨w.client.tables.tW, w.client.tables.lstFreeRowIdx, columns.draws⟩
        zeroBuf (extractKeywords [] content) rows IBar) :
      AddsToken none (recodeBlock cfg cr w.client keys fileIndex (.add IBar)).2 { w with
        client := { storeBlock cfg w.client fileIndex
            (recodeBlock cfg cr w.client keys fileIndex (.add IBar)).1 with
          tables := ⟨rows.table, columns.table, columns.free, rows.free⟩
          encryptedUpdate := if build.encryptPhysicalFile
            then some (encryptFileUsingCcm td buckets path content)
            else w.client.encryptedUpdate } }

theorem addToken_run {ret : Option Err} {encryptions : List (Encryption Key)}
    (h : addToken build cfg cr td path content draws buckets keys w = .ok (ret, encryptions) w') :
    AddsToken build cfg cr td path draws w content buckets keys ret encryptions w' := by
  unfold addToken addTokenIndex at h
  dsimp only at h
  cases assign : assignIndex 0 ⟨w.client.tables.tF, w.client.tables.lstFreeColumnIdx, draws⟩
      (td.omac path) with
  | none =>
    rw [assign] at h
    cases h
  | some columns =>
    have assigned := assignIndex_cases (.inl rfl) assign
    obtain ⟨j, found, -⟩ := assigned.lookup_self
    rw [assign, Option.bind_some] at h
    cases content with
    | none =>
      cases h
      exact .unread columns rfl assigned
    | some text =>
      dsimp only at h
      cases assignWords : assignRows td ⟨w.client.tables.tW, w.client.tables.lstFreeRowIdx,
          columns.draws⟩ zeroBuf (extractKeywords [] (some text)) with
      | none =>
        rw [assignWords] at h
        cases h
      | some out =>
        rw [assignWords, Option.map_some] at h
        dsimp only at h
        rw [index_of_lookup found] at h
        cases h
        exact .read columns out.1 j out.2 rfl assigned found (assignRows_cases assignWords)

theorem addToken_cases {ret : Option Err} {encryptions : List (Encryption Key)}
    (h : addToken build cfg cr td path content draws buckets keys w = .ok (ret, encryptions) w') :
    Tokened build cfg td path content buckets w.books draws ret w'.books := by
  cases addToken_run h with
  | unread columns unread assigned => exact .unread columns unread assigned
  | read columns rows j IBar read assigned found words =>
    exact .read columns rows j IBar read assigned found words

omit [DecidableEq τ] in
/-- The file goes to the server, whole or not at all. -/
theorem sendFile_cases (link : Link) (w : World σ τ Key) :
    sendFile link w = .error none w ∨
    (∃ w₁, sendFile link w = .ok () w₁ ∧ w₁.books = w.books.withFile) ∨
    ∃ w₁, sendFile link w = .error (some .clientSendFile) w₁ ∧
      (w₁.books = w.books ∨ w₁.books = w.books.withFile) := by
  unfold sendFile
  cases folder : w.client.encryptedUpdate with
  | none => exact .inl rfl
  | some archive =>
    have stored : w.books.withFile = _ := w.books.withFile_of_some folder
    rw [stored]
    cases link with
    | up => exact .inr (.inl ⟨_, rfl, rfl⟩)
    | down => exact .inr (.inr ⟨_, rfl, .inl rfl⟩)
    | lost => exact .inr (.inr ⟨_, rfl, .inr rfl⟩)

omit [DecidableEq τ] in
/-- An addition whose block was sent. -/
theorem addRest_of_sent {ret : Option Err} {upload : Upload Key}
    (h : returned ((do physical build (sendFile links.file); pure (Report.added upload)) w) =
      some (w', res))
    (past : cfg.decryptAtClientSide = true ∨ ret = none) (up : links.update = .up) :
    AddRest build cfg links upload.blockIndex w.books ret res w'.books := by
  unfold Seu.physical at h
  cases physical : build.encryptPhysicalFile with
  | false =>
    rw [physical] at h
    cases h
    exact .added ret upload _ past up rfl (by rw [physical]; rfl)
  | true =>
    rw [physical, if_pos rfl] at h
    rcases sendFile_cases links.file w with stop | ⟨w₁, run, books⟩ | ⟨w₁, run, books⟩
    · rw [Prog.bind_error stop] at h
      cases h
    · rw [Prog.bind_ok run] at h
      cases h
      exact .added ret upload _ past up rfl (by rw [physical, books]; rfl)
    · rw [Prog.bind_error run] at h
      cases h
      exact .notStored ret _ past physical books

theorem addFile_ends
    (h : returned (addFile build cfg cr td srv path content draws buckets links w) = some (w', res)) :
    AddEnds build cfg td path content draws buckets links w.books res w'.books := by
  obtain ⟨⟨ret, b, draws'⟩, w₁, request, h⟩ := requestBlockIndex_sure.returned_bind h
  obtain ⟨s, j, assigned, found, rfl, -, rfl, rfl⟩ := requestBlockIndex_cases request
  obtain ⟨keys, w₂, precompute, h⟩ := (blockKeys_sure _ _).returned_bind h
  have begun : Begun build cfg td path w.books draws s j w₂.books :=
    ⟨assigned, found, blockKeys_books precompute⟩
  obtain ⟨fetched, w₃, fetch, h⟩ := (requestBlockData_sure _).returned_bind h
  rw [← (requestBlockData_keeps books_aside _).of_ok fetch] at begun
  rw [fetch_result build fetch] at h
  rcases failWith_if_returned h with ⟨fetched, h⟩ | ⟨fails, rfl, rfl⟩
  · obtain ⟨⟨ret, encryptions⟩, w₄, token, h⟩ := addToken_sure.returned_bind h
    refine .tokened s j _ _ _ ret _ begun fetched (addToken_cases token) ?_
    rcases failWith_returned h with ⟨goes, h⟩ | ⟨e, fails, rfl, rfl⟩
    · have past : cfg.decryptAtClientSide = true ∨ ret = none := by
        cases client : cfg.decryptAtClientSide with
        | true => exact .inl rfl
        | false =>
          rw [client] at goes
          exact .inr goes
      obtain ⟨⟨sent, data⟩, w₅, upload, h⟩ := (sendBlockData_sure _).returned_bind h
      rw [← (sendBlockData_keeps books_aside _).of_ok upload]
      rw [sendBlockData_result upload] at h
      rcases failWith_if_returned h with ⟨up, h⟩ | ⟨down, rfl, rfl⟩
      · exact addRest_of_sent h past (not_not.mp up)
      · exact .notSent ret past down
    · cases client : cfg.decryptAtClientSide with
      | true =>
        rw [client] at fails
        cases fails
      | false =>
        rw [client] at fails
        cases fails
        exact .notRead e client
  · exact .notFetched s j _ begun fails

end Add

section Delete

variable (cfg cr) in
/-- `delToken` of a file in the table. -/
theorem delToken_run {j : Nat} (found : w.client.tables.tF.lookup (td.omac path) = some j)
    (keys : BlockKeys Key) :
    ∃ encryptions w₁, delToken cfg cr td path keys w = .ok (j, encryptions) w₁ ∧
      w₁.books = { w.books.countedAfter cfg j with
        tables := { w.books.tables with tF := w.books.tables.tF.erase (td.omac path) } } := by
  unfold delToken delTokenIndex
  rw [index_of_lookup found]
  exact ⟨_, _, rfl, rfl⟩

omit [DecidableEq τ] in
/-- A deletion whose block was sent, or not. -/
theorem deleted_of_sent {fileIndex : Nat} {upload : Upload Key}
    (h : returned ((do
      physical build (sendDeletion links.file fileIndex)
      pure (Report.deleted fileIndex upload)) w) = some (w', res)) :
    DelRest build links fileIndex upload.blockIndex w.books res w'.books := by
  unfold Seu.physical at h
  cases physical : build.encryptPhysicalFile with
  | false =>
    rw [physical] at h
    cases h
    exact .deleted upload _ rfl (.inl physical) (by rw [physical]; rfl)
  | true =>
    rw [physical, if_pos rfl] at h
    cases link : links.file with
    | down =>
      rw [link] at h
      cases h
      exact .notSent physical link
    | _ =>
      rw [link] at h
      cases h
      exact .deleted upload _ rfl (.inr (by rw [link]; decide)) (by rw [physical]; rfl)

theorem delFile_ends
    (h : returned (delFile build cfg cr td srv path draws links w) = some (w', res)) :
    DelEnds build cfg td path draws links w.books res w'.books := by
  obtain ⟨_, _, looked, h⟩ := Sure.returned_bind (fun _ _ _ h => by cases h) h
  cases looked
  rcases failWith_returned h with ⟨ret, h⟩ | ⟨e, ret, rfl, rfl⟩
  · have built := notBuilt_eq_none.mp ret
    obtain ⟨⟨ret, b, draws'⟩, w₁, request, h⟩ := requestBlockIndex_sure.returned_bind h
    obtain ⟨s, j, assigned, found, rfl, rfl, -, rfl⟩ := requestBlockIndex_cases request
    rcases failWith_if_returned h with ⟨block, h⟩ | ⟨exceeds, rfl, rfl⟩
    · obtain ⟨keys, w₂, precompute, h⟩ := (blockKeys_sure _ _).returned_bind h
      have begun : Begun build cfg td path w.books draws s j w₂.books :=
        ⟨assigned, found, blockKeys_books precompute⟩
      obtain ⟨fetched, w₃, fetch, h⟩ := (requestBlockData_sure _).returned_bind h
      rw [← (requestBlockData_keeps books_aside _).of_ok fetch] at begun
      rw [fetch_result build fetch] at h
      rcases failWith_if_returned h with ⟨fetched, h⟩ | ⟨fails, rfl, rfl⟩
      · have inTable : w₃.books.tables.tF.lookup (td.omac path) = some j := by
          rw [begun.books]
          exact found
        obtain ⟨encryptions, w₄, token, erased⟩ := delToken_run cfg cr inTable keys
        rw [Prog.bind_ok token] at h
        obtain ⟨⟨sent, data⟩, w₅, upload, h⟩ := (sendBlockData_sure _).returned_bind h
        refine .erased s j _ _ _ _ begun block fetched built erased ?_
        rw [← (sendBlockData_keeps books_aside _).of_ok upload]
        exact deleted_of_sent h
      · exact .notFetched s j _ begun block fails built
    · exact .noBlock s j assigned found exceeds built
  · obtain ⟨absent, rfl⟩ := notBuilt_eq_some.mp ret
    exact .notBuilt absent

end Delete

end Update

/-! ### What becomes of the tables -/

section Kept

variable {build : Build} {cfg : Config} {td : Trapdoor τ} {path : Str} {draws : Nat → Nat}
  {links : Links} {b b' b₁ b₂ : Books τ} {s : Picks τ} {j : Nat} {res : Except Err (Report Key)}

/-- The columns after `addToken` are those of its lookup of the file. -/
theorem tokened_columns {content : Option (List Byte)} {buckets : τ → Nat} {ret : Option Err}
    (token : Tokened build cfg td path content buckets b draws ret b₂) : ∃ columns,
      Assigned 0 ⟨b.tables.tF, b.tables.lstFreeColumnIdx, draws⟩ (td.omac path) columns ∧
        b₂.tables.tF = columns.table ∧ b₂.tables.lstFreeColumnIdx = columns.free := by
  cases token with
  | unread columns _ assigned => exact ⟨columns, assigned, rfl, rfl⟩
  | read columns _ _ _ _ assigned => exact ⟨columns, assigned, rfl, rfl⟩

theorem begun_tables (begun : Begun build cfg td path b draws s j b₁) :
    b₁.tables = (b.withColumns s).tables := by
  rw [begun.books]
  rfl

omit [DecidableEq τ] in
theorem withFile_eq : ∃ encFiles, b.withFile = { b with encFiles := encFiles } := by
  unfold Books.withFile
  split
  · exact ⟨b.encFiles, rfl⟩
  · exact ⟨_, rfl⟩

omit [DecidableEq τ] in
/-- After `addToken` the books change in the files on the server at most. -/
theorem addRest_eq {ret : Option Err} {blockIndex : Nat}
    (rest : AddRest build cfg links blockIndex b ret res b') :
    ∃ encFiles, b' = { b with encFiles := encFiles } := by
  cases rest with
  | notStored _ _ _ _ sent =>
    rcases sent with rfl | rfl
    · exact ⟨_, rfl⟩
    · exact withFile_eq
  | added _ _ _ _ _ _ stored =>
    rw [stored]
    split
    · exact withFile_eq
    · exact ⟨_, rfl⟩
  | _ => exact ⟨_, rfl⟩

omit [DecidableEq τ] in
/-- And so they do after `delToken`. -/
theorem delRest_eq {fileIndex blockIndex : Nat}
    (rest : DelRest build links fileIndex blockIndex b res b') :
    ∃ encFiles, b' = { b with encFiles := encFiles } := by
  cases rest with
  | notSent => exact ⟨_, rfl⟩
  | deleted _ _ _ _ removed =>
    rw [removed]
    split <;> exact ⟨_, rfl⟩

omit [DecidableEq τ] in
theorem addRest_tables {ret : Option Err} {blockIndex : Nat}
    (rest : AddRest build cfg links blockIndex b ret res b') : b'.tables = b.tables := by
  obtain ⟨encFiles, rfl⟩ := addRest_eq rest
  rfl

omit [DecidableEq τ] in
theorem delRest_tables {fileIndex blockIndex : Nat}
    (rest : DelRest build links fileIndex blockIndex b res b') : b'.tables = b.tables := by
  obtain ⟨encFiles, rfl⟩ := delRest_eq rest
  rfl

/-- There is a data structure, with tables of rows and columns of the matrix. -/
structure Constructed (cfg : Config) (b : Books τ) : Prop where
  built : b.dataStructureConstructed = true
  inRange : b.tables.InRange cfg

namespace Constructed

variable (h : Constructed cfg b)
include h

theorem begun (begun : Begun build cfg td path b draws s j b₁) :
    Constructed cfg b₁ ∧ j < cfg.maxNumOfFiles := by
  have columns := begun.assigned.within h.inRange.columns
  refine ⟨⟨?_, ?_⟩, columns.lookup begun.found⟩
  · rw [begun.books]
    exact h.built
  · rw [begun_tables begun]
    exact ⟨h.inRange.someRow, h.inRange.someColumn, h.inRange.rows, columns⟩

theorem tokened {content : Option (List Byte)} {buckets : τ → Nat} {ret : Option Err}
    (token : Tokened build cfg td path content buckets b draws ret b₂) : Constructed cfg b₂ := by
  cases token with
  | unread columns _ assigned =>
    exact ⟨h.built, h.inRange.someRow, h.inRange.someColumn, h.inRange.rows,
      assigned.within h.inRange.columns⟩
  | read columns rows _ _ _ assigned _ words =>
    exact ⟨h.built, h.inRange.someRow, h.inRange.someColumn, words.within h.inRange.rows,
      assigned.within h.inRange.columns⟩

theorem search {keyword : Str} (ends : SearchEnds build cfg td keyword b res b') :
    Constructed cfg b' := by
  cases ends with
  | noRow =>
    exact ⟨h.built, h.inRange.someRow, h.inRange.someColumn,
      (index_within h.inRange.someRow h.inRange.rows _).2, h.inRange.columns⟩
  | counted => exact ⟨h.built, h.inRange⟩
  | _ => exact h

theorem addFile {content : Option (List Byte)} {buckets : τ → Nat}
    (ends : AddEnds build cfg td path content draws buckets links b res b') :
    Constructed cfg b' := by
  cases ends with
  | notFetched _ _ _ begun => exact (h.begun begun).1
  | tokened _ _ _ _ _ _ _ begun _ token rest =>
    have done := (h.begun begun).1.tokened token
    obtain ⟨encFiles, rfl⟩ := addRest_eq rest
    exact ⟨done.built, done.inRange⟩

theorem delFile (ends : DelEnds build cfg td path draws links b res b') : Constructed cfg b' := by
  cases ends with
  | notBuilt => exact h
  | noBlock s _ assigned =>
    exact ⟨h.built, h.inRange.someRow, h.inRange.someColumn, h.inRange.rows,
      assigned.within h.inRange.columns⟩
  | notFetched _ _ _ begun => exact (h.begun begun).1
  | erased _ _ b₁ _ _ _ begun _ _ _ token rest =>
    have done := (h.begun begun).1
    obtain ⟨encFiles, rfl⟩ := delRest_eq rest
    rw [token]
    exact ⟨done.built, done.inRange.someRow, done.inRange.someColumn, done.inRange.rows,
      done.inRange.columns.erase _⟩

omit h in
/-- The data structure stays, whatever is called. -/
theorem step {cr : Cipher Key} {srv : Machine σ (Command Key) (Response Key)}
    {w w' : World σ τ Key} {op : Op τ} (h : Constructed cfg w.books)
    (step : (clientMachine build cfg cr td srv).step w op = some (w', res)) :
    Constructed cfg w'.books := by
  cases op with
  | searchKeyword keyword links => exact h.search (searchKeyword_ends step)
  | addFile path content draws buckets links => exact h.addFile (addFile_ends step)
  | delFile path draws links => exact h.delFile (delFile_ends step)

end Constructed

end Kept

end ImDsse.Seu
