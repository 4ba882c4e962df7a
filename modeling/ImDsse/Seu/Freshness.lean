import Mathlib.Data.List.ReduceOption
import ImDsse.Freshness
import ImDsse.Seu.Columns

/-!
The blocks that the Android client uploads, where it decrypts for itself.

`addBlock` and `delBlock` are the calls up to the block they send, `uploads` is the block
that reaches the server. A build without threads counts the block before it computes the
second key, and no pair of a row key and a block counter comes back. The threads of
`MULTI_THREAD` compute both keys from the counter as it is, and the block goes back under
the pair it came with. With neither threads nor AES-NI nothing is encrypted: the cipher is
not registered, and the keys are what was on the stack.
-/

namespace ImDsse.Seu

open Kit Kit.Bits Kit.Pool Kit.Text

variable {Key : Type} {σ : Type} {τ : Type} [DecidableEq τ]

/-! ### The block of a call -/

section Blocks

variable (build : Build) (cfg : Config) (cr : Cipher Key) (td : Trapdoor τ)
  (srv : Machine σ (Command Key) (Response Key))

/-- The block in hand, as an upload. -/
def blockInHand (blockIndex : Nat) (encryptions : List (Encryption Key)) :
    Call σ τ Key (Upload Key) := do
  let w ← get
  pure ⟨blockIndex, toBytes w.client.IPrime cfg.blockBytes, encryptions⟩

/-- `addFile` up to its block. -/
def addBlock (path : Str) (content : Option (List Byte)) (draws : Nat → Nat) (buckets : τ → Nat)
    (links : Links) : Call σ τ Key (Upload Key) := do
  let (_, blockIndex, draws) ← requestBlockIndex cfg td path draws
  let keys ← blockKeys build cfg cr links (decide (1 < cfg.encryptBlockSize)) blockIndex
  let fetched ← requestBlockData cfg srv links.fetch blockIndex
  failWith (if fetchesAside build cfg then none else fetched)
  let (ret, encryptions) ← addToken build cfg cr td path content draws buckets keys
  failWith (if cfg.decryptAtClientSide then none else ret)
  blockInHand cfg blockIndex encryptions

/-- `delFile` up to its block, with the index of the file. -/
def delBlock (path : Str) (draws : Nat → Nat) (links : Links) :
    Call σ τ Key (Nat × Upload Key) := do
  let w ← get
  failWith (notBuilt w)
  let (ret, blockIndex, _) ← requestBlockIndex cfg td path draws
  failWith ret
  let keys ← blockKeys build cfg cr links
    (decide (1 < cfg.encryptBlockSize) || !build.multiThread) blockIndex
  let fetched ← requestBlockData cfg srv links.fetch blockIndex
  failWith (if fetchesAside build cfg then none else fetched)
  let (fileIndex, encryptions) ← delToken cfg cr td path keys
  let upload ← blockInHand cfg blockIndex encryptions
  pure (fileIndex, upload)

/-- The block that reaches the server, whatever becomes of the exchanges after it. -/
def uploads (w : World σ τ Key) : Op τ → Option (Upload Key)
  | .searchKeyword _ _ => none
  | .addFile path content draws buckets links =>
    if links.update = .down then none
    else Prog.value (addBlock build cfg cr td srv path content draws buckets links w)
  | .delFile path draws links =>
    if links.update = .down then none
    else (Prog.value (delBlock build cfg cr td srv path draws links w)).map Prod.snd

/-- The client, with its uploads for outputs. -/
def uploadMachine : Machine (World σ τ Key) (Op τ) (Option (Upload Key)) :=
  (clientMachine build cfg cr td srv).observe (uploads build cfg cr td srv)

variable {build cfg cr td srv}

theorem addFile_eq (path : Str) (content : Option (List Byte)) (draws : Nat → Nat)
    (buckets : τ → Nat) (links : Links) :
    addFile build cfg cr td srv path content draws buckets links = (do
      let upload ← addBlock build cfg cr td srv path content draws buckets links
      let (ret, data) ← sendBlockData cfg srv links.update upload.blockIndex
      failWith ret
      physical build (sendFile links.file)
      pure (.added ⟨upload.blockIndex, data, upload.encryptions⟩)) := by
  simp only [addFile, addBlock, blockInHand, bind_assoc, pure_bind, Prog.get_bind]

theorem delFile_eq (path : Str) (draws : Nat → Nat) (links : Links) :
    delFile build cfg cr td srv path draws links = (do
      let (fileIndex, upload) ← delBlock build cfg cr td srv path draws links
      let (_, data) ← sendBlockData cfg srv links.update upload.blockIndex
      physical build (sendDeletion links.file fileIndex)
      pure (.deleted fileIndex ⟨upload.blockIndex, data, upload.encryptions⟩)) := by
  simp only [delFile, delBlock, blockInHand, bind_assoc, pure_bind, Prog.get_bind]


end Blocks

/-! ### What the block is -/

/-- The client's row keys with its counter of a block. -/
def blockPairs (cfg : Config) (c : IndexClient Key) (blockIndex : Nat) : List (Encryption Key) :=
  (List.range cfg.matrixRowSize).map fun r =>
    ⟨c.rowKeys r, blockIndex, c.blockCounterArr blockIndex⟩

/-- The block is under the client's row keys and its counter of the block. -/
def Seals (cfg : Config) (c : IndexClient Key) (u : Upload Key) : Prop :=
  u.encryptions = blockPairs cfg c u.blockIndex

/-- The block is under them in the builds that find the cipher, and under nothing else. -/
def SealsIn (build : Build) (cfg : Config) (c : IndexClient Key) (u : Upload Key) : Prop :=
  u.encryptions = if build.findsCipher then blockPairs cfg c u.blockIndex else []

/-- The client once it has the keys of an update. The threads do not count it. -/
def ahead (build : Build) (c : IndexClient Key) (blockIndex : Nat) : IndexClient Key :=
  if build.multiThread then c else c.countUpdate blockIndex

/-- What a call has done when its block is made. -/
structure Made (build : Build) (cfg : Config) (td : Trapdoor τ)
    (srv : Machine σ (Command Key) (Response Key)) (w : World σ τ Key) (path : Str)
    (draws : Nat → Nat) (link : Link) (u : Upload Key) (w' : World σ τ Key) : Prop where
  requested : ∃ ret draws' w₁,
    requestBlockIndex cfg td path draws w = .ok (ret, u.blockIndex, draws') w₁
  fetched : ∃ (ret : Option Err) (w₁ w₂ : World σ τ Key), w₁.server = w.server ∧
    requestBlockData cfg srv link u.blockIndex w₁ = .ok ret w₂ ∧ w'.server = w₂.server
  index : w'.client.index = ahead build w.client.index u.blockIndex
  data : u.data = toBytes w'.client.IPrime cfg.blockBytes

section Made

variable {build : Build} {cfg : Config} {cr : Cipher Key} {td : Trapdoor τ}
  {srv : Machine σ (Command Key) (Response Key)} {path : Str} {draws : Nat → Nat} {links : Links}
  {w w' : World σ τ Key} {u : Upload Key}

/-- The block is one of the matrix. -/
theorem Made.block_lt {link : Link} (h : Made build cfg td srv w path draws link u w')
    (constructed : Constructed cfg w.books) (size : cfg.Tiled) : u.blockIndex < cfg.numBlocks := by
  obtain ⟨ret, draws', w₂, request⟩ := h.requested
  obtain ⟨s, j, assigned, found, blockIndex, -⟩ := requestBlockIndex_cases request
  rw [blockIndex]
  exact size.block_lt ((assigned.within constructed.inRange.columns).lookup found)

/-- Only the pairs matter for what a block is under. -/
theorem Seals.congr {c c' : IndexClient Key} (h : Seals cfg c u)
    (counters : c'.blockCounterArr = c.blockCounterArr) (keys : c'.rowKeys = c.rowKeys) :
    Seals cfg c' u := by
  unfold Seals blockPairs
  rw [counters, keys]
  exact h

theorem SealsIn.seals {c : IndexClient Key} (h : SealsIn build cfg c u)
    (finds : build.findsCipher = true) : Seals cfg c u := h.trans (if_pos finds)

/-- Without its cipher a build encrypts nothing. -/
theorem SealsIn.seals_iff {c : IndexClient Key} (h : SealsIn build cfg c u)
    (row : 0 < cfg.matrixRowSize) :
    (Seals cfg c u ↔ build.findsCipher = true) ∧ (build.findsCipher = false → u.encryptions = []) := by
  cases finds : build.findsCipher with
  | true => exact ⟨iff_of_true (h.seals finds) rfl, nofun⟩
  | false =>
    have none : u.encryptions = [] := h.trans (if_neg (Bool.eq_false_iff.mp finds))
    refine ⟨iff_of_false (fun seals => ?_) (by decide), fun _ => none⟩
    have count := congrArg List.length (none.symm.trans seals)
    rw [blockPairs, List.length_map, List.length_range] at count
    exact absurd count (Nat.ne_of_lt row)

omit [DecidableEq τ] in
theorem failWith_none : failWith none w = .ok () w := rfl

omit [DecidableEq τ] in
theorem failWith_ok {ret : Option Err} {a : Unit} (h : failWith ret w = .ok a w') : w' = w := by
  cases ret <;> cases h
  rfl

omit [DecidableEq τ] in
theorem index_aside : Aside (fun w : World σ τ Key => w.client.index) := fun _ _ _ _ => rfl

variable (client : cfg.decryptAtClientSide = true)
include client

omit [DecidableEq τ] in
theorem recodeBlock_sealing (c : Client τ Key) (keys : BlockKeys Key) (fileIndex : Nat)
    (u : ColumnUpdate) : (recodeBlock cfg cr c keys fileIndex u).2 = keys.encryptions := by
  unfold recodeBlock
  rw [if_pos client]
  cases u <;> rfl

omit [DecidableEq τ] in
theorem storeBlock_index (c : Client τ Key) (fileIndex : Nat) (IPrime : Buf) :
    (storeBlock cfg c fileIndex IPrime).index = c.index := by
  unfold storeBlock
  simp only [if_pos client]

omit [DecidableEq τ] in
/-- The second key is under the counters the client has from then on. -/
theorem blockKeys_sealing {decrypts : Bool} {blockIndex : Nat} {keys : BlockKeys Key}
    (h : blockKeys build cfg cr links decrypts blockIndex w = .ok keys w') :
    w'.server = w.server ∧ w'.client.index = ahead build w.client.index blockIndex ∧
      keys.encryptions =
        if build.findsCipher then blockPairs cfg w'.client.index blockIndex else [] := by
  unfold blockKeys at h
  rw [if_pos client] at h
  cases h
  refine ⟨rfl, ?_, ?_⟩
  · unfold ahead
    cases build.multiThread <;> rfl
  · dsimp only
    rw [precomputeAESCTRKeys_col_blocks]
    rfl

/-- A file that can be read is encrypted under the keys that were computed. -/
theorem addToken_index {content : Option (List Byte)} {buckets : τ → Nat} {keys : BlockKeys Key}
    {ret : Option Err} {encryptions : List (Encryption Key)}
    (h : addToken build cfg cr td path content draws buckets keys w = .ok (ret, encryptions) w') :
    w'.server = w.server ∧ w'.client.index = w.client.index ∧
      (content.isSome = true → encryptions = keys.encryptions) := by
  cases addToken_run h with
  | unread _ unread => exact ⟨rfl, rfl, fun read => by rw [unread] at read; cases read⟩
  | read => exact ⟨rfl, storeBlock_index client _ _ zeroBuf, fun _ => recodeBlock_sealing client _ _ _ _⟩

theorem delToken_index {fileIndex : Nat} {keys : BlockKeys Key}
    {encryptions : List (Encryption Key)}
    (h : delToken cfg cr td path keys w = .ok (fileIndex, encryptions) w') :
    w'.server = w.server ∧ w'.client.index = w.client.index ∧ encryptions = keys.encryptions := by
  cases h
  exact ⟨rfl, storeBlock_index client _ _ zeroBuf, recodeBlock_sealing client _ _ _ _⟩

omit client in
/-- The calls that make the block of an addition. -/
theorem addBlock_run {content : Option (List Byte)} {buckets : τ → Nat}
    (h : addBlock build cfg cr td srv path content draws buckets links w = .ok u w') :
    ∃ ret draws' keys fetched token w₁ w₂ w₃,
      requestBlockIndex cfg td path draws w = .ok (ret, u.blockIndex, draws') w₁ ∧
      blockKeys build cfg cr links (decide (1 < cfg.encryptBlockSize)) u.blockIndex w₁ = .ok keys w₂ ∧
      requestBlockData cfg srv links.fetch u.blockIndex w₂ = .ok fetched w₃ ∧
      addToken build cfg cr td path content draws' buckets keys w₃ =
        .ok (token, u.encryptions) w' ∧
      u.data = toBytes w'.client.IPrime cfg.blockBytes := by
  obtain ⟨⟨ret, b, draws'⟩, w₁, request, h⟩ := Prog.bind_eq_ok.mp h
  obtain ⟨keys, w₂, precompute, h⟩ := Prog.bind_eq_ok.mp h
  obtain ⟨fetched, w₃, fetch, h⟩ := Prog.bind_eq_ok.mp h
  obtain ⟨_, _, passed, h⟩ := Prog.bind_eq_ok.mp h
  obtain ⟨⟨ret', encryptions⟩, w₄, token, h⟩ := Prog.bind_eq_ok.mp h
  obtain ⟨_, _, passed', h⟩ := Prog.bind_eq_ok.mp h
  cases failWith_ok passed
  cases failWith_ok passed'
  cases h
  exact ⟨ret, draws', keys, fetched, ret', w₁, w₂, w₃, request, precompute, fetch, token, rfl⟩

theorem addBlock_made {content : Option (List Byte)} {buckets : τ → Nat}
    (h : addBlock build cfg cr td srv path content draws buckets links w = .ok u w') :
    Made build cfg td srv w path draws links.fetch u w' ∧
      (content.isSome = true → SealsIn build cfg w'.client.index u) := by
  obtain ⟨ret, draws', keys, fetched, _, w₁, w₂, w₃, request, precompute, fetch, token, data⟩ :=
    addBlock_run h
  obtain ⟨s, j, -, -, -, -, -, rfl⟩ := requestBlockIndex_cases request
  obtain ⟨server, counted, sealing⟩ := blockKeys_sealing client precompute
  obtain ⟨server', kept, same⟩ := addToken_index client token
  have index := kept.trans ((requestBlockData_keeps index_aside u.blockIndex).of_ok fetch)
  refine ⟨⟨⟨ret, draws', _, request⟩, ⟨fetched, w₂, w₃, server, fetch, server'⟩,
    index.trans counted, data⟩, fun read => ?_⟩
  unfold SealsIn
  rw [index, ← sealing]
  exact same read

theorem delBlock_made {fileIndex : Nat}
    (h : delBlock build cfg cr td srv path draws links w = .ok (fileIndex, u) w') :
    Made build cfg td srv w path draws links.fetch u w' ∧ SealsIn build cfg w'.client.index u := by
  obtain ⟨_, _, looked, h⟩ := Prog.bind_eq_ok.mp h
  cases looked
  obtain ⟨_, _, passed, h⟩ := Prog.bind_eq_ok.mp h
  cases failWith_ok passed
  obtain ⟨⟨ret, b, draws'⟩, w₁, request, h⟩ := Prog.bind_eq_ok.mp h
  obtain ⟨_, _, passed', h⟩ := Prog.bind_eq_ok.mp h
  cases failWith_ok passed'
  obtain ⟨keys, w₂, precompute, h⟩ := Prog.bind_eq_ok.mp h
  obtain ⟨fetched, w₃, fetch, h⟩ := Prog.bind_eq_ok.mp h
  obtain ⟨_, _, passed'', h⟩ := Prog.bind_eq_ok.mp h
  cases failWith_ok passed''
  obtain ⟨⟨fileIndex, encryptions⟩, w₄, token, h⟩ := Prog.bind_eq_ok.mp h
  cases h
  obtain ⟨s, j, -, -, -, -, -, rfl⟩ := requestBlockIndex_cases request
  obtain ⟨server, counted, sealing⟩ := blockKeys_sealing client precompute
  obtain ⟨server', kept, same⟩ := delToken_index client token
  have index := kept.trans ((requestBlockData_keeps index_aside b).of_ok fetch)
  refine ⟨⟨⟨ret, draws', _, request⟩, ⟨fetched, w₂, w₃, server, fetch, server'⟩,
    index.trans counted, rfl⟩, ?_⟩
  unfold SealsIn
  rw [index, ← sealing]
  exact same

end Made

/-! ### From the block to the end of the call -/

/-- The calls that update a block, with the part of their input that both have. -/
inductive Updates : Op τ → Str → (Nat → Nat) → Links → Prop where
  | addFile (path : Str) (content : Option (List Byte)) (draws : Nat → Nat) (buckets : τ → Nat)
      (links : Links) : Updates (.addFile path content draws buckets links) path draws links
  | delFile (path : Str) (draws : Nat → Nat) (links : Links) :
      Updates (.delFile path draws links) path draws links

/-- A file that is added can be read. -/
def Readable : Op τ → Prop
  | .addFile _ content _ _ _ => content.isSome = true
  | _ => True

/-- The upload `u` of a call, made in the state `w₁` and sent over `link`. The rest of the
call touches neither the client nor the server's index. -/
structure Sends (build : Build) (cfg : Config) (td : Trapdoor τ)
    (srv : Machine σ (Command Key) (Response Key)) (w : World σ τ Key) (op : Op τ) (path : Str)
    (draws : Nat → Nat) (links : Links) (u : Upload Key) (w₁ w' : World σ τ Key) : Prop where
  updates : Updates op path draws links
  made : Made build cfg td srv w path draws links.fetch u w₁
  seals : Readable op → SealsIn build cfg w₁.client.index u
  link : links.update ≠ .down
  server : ∃ (reply : Option (Response Key)) (w₂ : World σ τ Key),
    exchange srv links.update (.updateBlockData u.blockIndex u.data) w₁ = .ok reply w₂ ∧
      w'.server = w₂.server
  client : w'.client = w₁.client

section Sends

variable {build : Build} {cfg : Config} {cr : Cipher Key} {td : Trapdoor τ}
  {srv : Machine σ (Command Key) (Response Key)} {w w' : World σ τ Key} {res : Except Err (Report Key)}

omit [DecidableEq τ] in
/-- The block in hand goes to the server, and the rest keeps server and client. -/
theorem sent_of_returned {link : Link} {u : Upload Key}
    {rest : Option Err × List Byte → Call σ τ Key (Report Key)}
    (data : u.data = toBytes w.client.IPrime cfg.blockBytes)
    (keeps : ∀ sent, Prog.Keeps (fun w : World σ τ Key => (w.server, w.client)) (rest sent))
    (h : returned ((sendBlockData cfg srv link u.blockIndex >>= rest) w) = some (w', res)) :
    (∃ reply w₂, exchange srv link (.updateBlockData u.blockIndex u.data) w = .ok reply w₂ ∧
      w'.server = w₂.server) ∧ w'.client = w.client := by
  obtain ⟨sent, w₂, send, h⟩ := (sendBlockData_sure _).returned_bind h
  obtain ⟨_, _, looked, send⟩ := Prog.bind_eq_ok.mp send
  cases looked
  obtain ⟨reply, w₃, exchanged, send⟩ := Prog.bind_eq_ok.mp send
  cases send
  have kept := returned_keeps (keeps _) h
  have client : w₂.client = w.client := by
    unfold exchange at exchanged
    split at exchanged <;> cases exchanged <;> rfl
  rw [← data] at exchanged
  exact ⟨⟨reply, w₂, exchanged, congrArg Prod.fst kept⟩, (congrArg Prod.snd kept).trans client⟩

omit [DecidableEq τ] in
theorem failWith_keeps {γ : Type} {view : World σ τ Key → γ} (ret : Option Err) :
    Prog.Keeps view (failWith ret) := by
  cases ret
  · exact .pure _
  · exact .throw _

omit [DecidableEq τ] in
theorem sendFile_keeps (link : Link) :
    Prog.Keeps (fun w : World σ τ Key => (w.server, w.client)) (sendFile link) := by
  intro w
  unfold sendFile
  cases w.client.encryptedUpdate with
  | none => rfl
  | some archive => cases link <;> rfl

omit [DecidableEq τ] in
theorem sendDeletion_keeps (link : Link) (fileIndex : Nat) :
    Prog.Keeps (fun w : World σ τ Key => (w.server, w.client)) (sendDeletion link fileIndex) := by
  intro w
  cases link <;> rfl

omit [DecidableEq τ] in
theorem physical_keeps {x : Call σ τ Key Unit} {γ : Type} {view : World σ τ Key → γ}
    (keeps : Prog.Keeps view x) : Prog.Keeps view (physical build x) := by
  unfold physical
  split
  · exact keeps
  · exact .pure _

variable (client : cfg.decryptAtClientSide = true)
include client

omit client [DecidableEq τ] in
/-- The call determines the part of its input. -/
theorem Updates.unique {op : Op τ} {path path' : Str} {draws draws' : Nat → Nat}
    {links links' : Links} (h : Updates op path draws links) (h' : Updates op path' draws' links') :
    path' = path ∧ draws' = draws ∧ links' = links := by
  cases h <;> cases h' <;> exact ⟨rfl, rfl, rfl⟩

/-- The block of a call, by itself, and what the call does with it. -/
theorem made_of_uploads {op : Op τ} {u : Upload Key}
    (h : uploads build cfg cr td srv w op = some u) :
    ∃ path draws links w₁, Updates op path draws links ∧
      Made build cfg td srv w path draws links.fetch u w₁ ∧
      (Readable op → SealsIn build cfg w₁.client.index u) ∧
      ∀ {w' res}, (clientMachine build cfg cr td srv).step w op = some (w', res) →
        Sends build cfg td srv w op path draws links u w₁ w' := by
  cases op with
  | searchKeyword keyword links => cases h
  | addFile path content draws buckets links =>
    obtain ⟨link, h⟩ := Option.ite_none_left_eq_some.mp h
    obtain ⟨w₁, block⟩ := Prog.value_eq_some.mp h
    obtain ⟨made, seals⟩ := addBlock_made client block
    refine ⟨path, draws, links, w₁, .addFile .., made, seals, fun {w' res} step => ?_⟩
    change returned (addFile build cfg cr td srv path content draws buckets links w) = _ at step
    rw [addFile_eq, Prog.bind_ok block] at step
    obtain ⟨server, kept⟩ := sent_of_returned made.data (fun sent =>
      .bind (failWith_keeps sent.1) fun _ =>
        .bind (physical_keeps (sendFile_keeps links.file)) fun _ => .pure _) step
    exact ⟨.addFile .., made, seals, link, server, kept⟩
  | delFile path draws links =>
    obtain ⟨link, h⟩ := Option.ite_none_left_eq_some.mp h
    obtain ⟨⟨fileIndex, upload⟩, made, same⟩ := Option.map_eq_some_iff.mp h
    cases same
    obtain ⟨w₁, block⟩ := Prog.value_eq_some.mp made
    obtain ⟨made, seals⟩ := delBlock_made client block
    refine ⟨path, draws, links, w₁, .delFile .., made, fun _ => seals, fun {w' res} step => ?_⟩
    change returned (delFile build cfg cr td srv path draws links w) = _ at step
    rw [delFile_eq, Prog.bind_ok block] at step
    obtain ⟨server, kept⟩ := sent_of_returned made.data (fun _ =>
      .bind (physical_keeps (sendDeletion_keeps links.file fileIndex)) fun _ => .pure _) step
    exact ⟨.delFile .., made, fun _ => seals, link, server, kept⟩

theorem sends_of_uploads {op : Op τ} {u : Upload Key}
    (step : (clientMachine build cfg cr td srv).step w op = some (w', res))
    (h : uploads build cfg cr td srv w op = some u) :
    ∃ path draws links w₁, Sends build cfg td srv w op path draws links u w₁ w' := by
  obtain ⟨path, draws, links, w₁, -, -, -, sends⟩ := made_of_uploads client h
  exact ⟨path, draws, links, w₁, sends step⟩

/-- If the block is encrypted, then under the counter the client has for it afterwards. -/
theorem uploads_sealed {op : Op τ} {u : Upload Key}
    (step : (clientMachine build cfg cr td srv).step w op = some (w', res)) (read : Readable op)
    (h : uploads build cfg cr td srv w op = some u) : SealsIn build cfg w'.client.index u := by
  obtain ⟨path, draws, links, w₁, sends⟩ := sends_of_uploads client step h
  rw [sends.client]
  exact sends.seals read

end Sends

/-! ### Calls that come through -/

/-- The block is fetched and the new one reaches the server. -/
structure Delivered (cfg : Config) (links : Links) : Prop where
  fetched : 1 < cfg.encryptBlockSize → links.fetch = .up
  sent : links.update ≠ .down

instance (cfg : Config) (links : Links) : Decidable (Delivered cfg links) :=
  decidable_of_iff ((1 < cfg.encryptBlockSize → links.fetch = .up) ∧ links.update ≠ .down)
    ⟨fun h => ⟨h.1, h.2⟩, fun h => ⟨h.1, h.2⟩⟩

/-- The counter of the block that is requested is not at its limit. -/
def BelowLimit (cfg : Config) (td : Trapdoor τ) (w : World σ τ Key) (path : Str)
    (draws : Nat → Nat) : Prop :=
  ∀ x ∈ Prog.value (requestBlockIndex cfg td path draws w),
    w.client.index.blockCounterArr x.2.1 ≠ ulongMax

instance (cfg : Config) (td : Trapdoor τ) (w : World σ τ Key) (path : Str) (draws : Nat → Nat) :
    Decidable (BelowLimit cfg td w path draws) := by
  unfold BelowLimit
  infer_instance

/-- An update of a file that can be read comes through, and does not wrap a counter. -/
def Goes (cfg : Config) (td : Trapdoor τ) (w : World σ τ Key) : Op τ → Prop
  | .searchKeyword _ _ => False
  | .addFile path content draws _ links =>
    content.isSome = true ∧ Delivered cfg links ∧ BelowLimit cfg td w path draws
  | .delFile path draws links => Delivered cfg links ∧ BelowLimit cfg td w path draws

instance (cfg : Config) (td : Trapdoor τ) (w : World σ τ Key) (op : Op τ) :
    Decidable (Goes cfg td w op) :=
  match op with
  | .searchKeyword .. => by unfold Goes; infer_instance
  | .addFile .. => by unfold Goes; infer_instance
  | .delFile .. => by unfold Goes; infer_instance

section Goes

variable {build : Build} {cfg : Config} {cr : Cipher Key} {td : Trapdoor τ}
  {srv : Machine σ (Command Key) (Response Key)} {w w' : World σ τ Key} {op : Op τ}
  {res : Except Err (Report Key)}

theorem Goes.readable (h : Goes cfg td w op) : Readable op := by
  cases op with
  | searchKeyword => exact h.elim
  | addFile => exact h.1
  | delFile => trivial

/-- The condition, by the part of the input that both calls have. -/
theorem Goes.delivered {path : Str} {draws : Nat → Nat} {links : Links} (h : Goes cfg td w op)
    (updates : Updates op path draws links) :
    Delivered cfg links ∧ BelowLimit cfg td w path draws := by
  cases updates with
  | addFile => exact h.2
  | delFile => exact h

theorem Delivered.fetches {links : Links} (h : Delivered cfg links) :
    ¬ FetchFails build cfg links := fun fails => fails.2.2 (h.fetched fails.2.1)

omit [DecidableEq τ] in
/-- What comes after a fetch has no error of its own. -/
theorem fetched_sure {α : Type} {links : Links} {blockIndex : Nat} {x : Call σ τ Key α}
    (delivered : Delivered cfg links) (rest : Sure x) :
    Sure (do
      let fetched ← requestBlockData cfg srv links.fetch blockIndex
      failWith (if fetchesAside build cfg then none else fetched)
      x : Call σ τ Key α) := by
  intro w e w' h
  rcases Prog.bind_eq_error.mp h with stop | ⟨fetched, w₁, fetch, h⟩
  · exact requestBlockData_sure _ _ _ _ stop
  · rw [fetch_result build fetch, if_neg delivered.fetches] at h
    exact rest _ _ _ h

omit [DecidableEq τ] in
theorem blockInHand_sure (blockIndex : Nat) (encryptions : List (Encryption Key)) :
    Sure (blockInHand cfg blockIndex encryptions : Call σ τ Key (Upload Key)) :=
  fun _ _ _ h => by cases h

variable {path : Str} {draws : Nat → Nat} {links : Links} (client : cfg.decryptAtClientSide = true)
  (delivered : Delivered cfg links)
include client delivered

theorem addBlock_sure {content : Option (List Byte)} {buckets : τ → Nat} :
    Sure (σ := σ) (addBlock build cfg cr td srv path content draws buckets links) := by
  refine requestBlockIndex_sure.bind fun x => (blockKeys_sure _ _).bind fun keys =>
    fetched_sure delivered (addToken_sure.bind fun out => ?_)
  dsimp only
  rw [if_pos client]
  exact blockInHand_sure _ _

omit client in
/-- A deletion gets to its block once there is a data structure. -/
theorem delBlock_ok {e : Err} (constructed : Constructed cfg w.books) (size : cfg.Tiled) :
    delBlock build cfg cr td srv path draws links w ≠ .error (some e) w' := by
  intro h
  rcases Prog.bind_eq_error.mp h with stop | ⟨_, _, looked, h⟩
  · cases stop
  cases looked
  rw [notBuilt_eq_none.mpr constructed.built, Prog.bind_ok failWith_none] at h
  rcases Prog.bind_eq_error.mp h with stop | ⟨⟨ret, b, draws'⟩, w₁, request, h⟩
  · exact requestBlockIndex_sure _ _ _ stop
  obtain ⟨s, j, assigned, found, rfl, rfl, -⟩ := requestBlockIndex_cases request
  have block := size.block_lt ((assigned.within constructed.inRange.columns).lookup found)
  rw [if_neg (Nat.lt_asymm block)] at h
  change (failWith none >>= _) w₁ = _ at h
  rw [Prog.bind_ok failWith_none] at h
  refine ((blockKeys_sure _ _).bind fun keys => fetched_sure delivered (.bind ?_ fun out =>
    (blockInHand_sure _ _).bind fun u => .pure _)) _ _ _ h
  exact fun _ _ _ h => by cases h

omit delivered in
/-- A call that comes through uploads a block. -/
theorem uploads_of_goes (constructed : Constructed cfg w.books) (size : cfg.Tiled)
    (goes : Goes cfg td w op)
    (step : (clientMachine build cfg cr td srv).step w op = some (w', res)) :
    ∃ u, uploads build cfg cr td srv w op = some u := by
  cases op with
  | searchKeyword keyword links => exact goes.elim
  | addFile path content draws buckets links =>
    have delivered := (goes.delivered (.addFile ..)).1
    change returned (addFile build cfg cr td srv path content draws buckets links w) = _ at step
    rw [addFile_eq] at step
    obtain ⟨u, w₁, block, -⟩ := (addBlock_sure client delivered).returned_bind step
    exact ⟨u, (if_neg delivered.sent).trans (Prog.value_eq_some.mpr ⟨w₁, block⟩)⟩
  | delFile path draws links =>
    have delivered := (goes.delivered (.delFile ..)).1
    change returned (delFile build cfg cr td srv path draws links w) = _ at step
    rw [delFile_eq] at step
    rcases returned_bind step with ⟨⟨fileIndex, u⟩, w₁, block, -⟩ | ⟨e, stop, -⟩
    · refine ⟨u, (if_neg delivered.sent).trans ?_⟩
      rw [Prog.value_eq_some.mpr ⟨w₁, block⟩]
      rfl
    · exact absurd stop (delBlock_ok delivered constructed size)

end Goes

/-! ### What the client reads back -/

/-- The plaintext of an uploaded block, by rows and columns of the matrix. -/
def Upload.plain (cfg : Config) (cr : Cipher Key) (u : Upload Key) : Plain := fun r j =>
  bit (ofBytes u.data cfg.blockBytes zeroBuf)
      (r * cfg.encryptBlockSize + j % cfg.encryptBlockSize) ^^
    match u.encryptions[r]? with
    | some e => cr.ks e.key e.blockIdx e.counter (j % cfg.encryptBlockSize)
    | none => false

/-- The plaintext index with an uploaded block in its place. -/
def withUpload (cfg : Config) (cr : Cipher Key) (M : Plain) (u : Upload Key) : Plain := fun r j =>
  if j / cfg.encryptBlockSize = u.blockIndex then u.plain cfg cr r j else M r j

section Reads

variable {build : Build} {cfg : Config} {cr : Cipher Key} {td : Trapdoor τ}
  {srv : Machine σ (Command Key) (Response Key)} {w w' : World σ τ Key} {t : CellStore} {M : Plain}

/-- A client whose counter is the one of the uploaded block reads in it what it uploaded,
and elsewhere what it read before. -/
theorem consistent_withUpload {c c' : IndexClient Key} {u : Upload Key}
    (client : cfg.decryptAtClientSide = true) (h : Consistent cfg cr M t c)
    (keywords : c'.keywordCounterArr = c.keywordCounterArr) (keys : c'.rowKeys = c.rowKeys)
    (others : ∀ b, b ≠ u.blockIndex → c'.blockCounterArr b = c.blockCounterArr b)
    (seals : Seals cfg c' u) :
    Consistent cfg cr (withUpload cfg cr M u) (t.update cfg u.blockIndex u.data) c' := by
  have pinned : ∀ r, r < cfg.matrixRowSize →
      c'.keywordCounterArr r = 1 ∧ c'.rowKeys r = cr.genRowKey r 1 := by
    rw [keywords, keys]
    exact h.pinned client
  refine ⟨?cells, fun server => ?_, ?searched, fun _ => pinned⟩
  case cells =>
    intro r j hr hj
    have one := (pinned r hr).1
    rw [CellStore.update_cell, fetchedCounter_one _ one, withUpload]
    by_cases block : j / cfg.encryptBlockSize = u.blockIndex
    · have sealing : u.encryptions[r]? =
          some ⟨c'.rowKeys r, u.blockIndex, c'.blockCounterArr u.blockIndex⟩ := by
        rw [seals, blockPairs, List.getElem?_map, List.getElem?_range hr]
        rfl
      rw [if_pos ⟨hr, block⟩, if_pos block, Upload.plain, sealing, block]
      dsimp only
      rw [(pinned r hr).2, Bool.xor_assoc, Bool.xor_self, Bool.xor_false]
    · rw [if_neg fun both => block both.2, if_neg block, h.cells r j hr hj,
        fetchedCounter_one _ (h.pinned client r hr).1, others _ block]
  case searched =>
    rw [keywords]
    exact h.searched
  · cases server.symm.trans client

variable (ref : Refinement cfg cr srv)

omit [DecidableEq τ] in
/-- A fetch that comes through leaves the store as it is, and the server ready. -/
theorem fetch_server (pos : 0 < cfg.encryptBlockSize) {link : Link} {blockIndex : Nat}
    {ret : Option Err} (rel : ref.Rel w.server t) (block : blockIndex < cfg.numBlocks)
    (fetches : 1 < cfg.encryptBlockSize → link = .up)
    (h : requestBlockData cfg srv link blockIndex w = .ok ret w') :
    ref.Rel w'.server t ∧ ref.Ready blockIndex w'.server := by
  unfold requestBlockData at h
  split at h
  · next several =>
    obtain ⟨s, r, step, rel', -⟩ :=
      (ref.step rel (c := .requestBlockData blockIndex) block (by rintro _ _ ⟨⟩)).of_right rfl
    obtain ⟨reply, w₁, exchanged, h⟩ := Prog.bind_eq_ok.mp h
    unfold exchange at exchanged
    rw [fetches several, step] at exchanged
    cases exchanged
    obtain ⟨msg, w₂, awaited, h⟩ := Prog.bind_eq_ok.mp h
    have same : w'.server = s := by
      cases h
      cases data : r.data? with
      | none =>
        rw [data] at awaited
        cases awaited
      | some msg =>
        rw [data] at awaited
        cases awaited
        rfl
    rw [same]
    exact ⟨rel', ref.fetched rel block step⟩
  · next single =>
    cases h
    exact ⟨rel, ref.single (by omega) _ _⟩

/-- The server of a call that comes through has its block. -/
theorem upload_server (pos : 0 < cfg.encryptBlockSize) {op : Op τ} {path : Str}
    {draws : Nat → Nat} {links : Links} {u : Upload Key} {w₁ : World σ τ Key}
    (rel : ref.Rel w.server t) (sends : Sends build cfg td srv w op path draws links u w₁ w')
    (delivered : Delivered cfg links) (block : u.blockIndex < cfg.numBlocks) :
    ref.Rel w'.server (t.update cfg u.blockIndex u.data) := by
  obtain ⟨ret, w₂, w₃, before, fetch, after⟩ := sends.made.fetched
  rw [← before] at rel
  obtain ⟨rel, ready⟩ := fetch_server ref pos rel block delivered.fetched fetch
  rw [← after] at rel ready
  obtain ⟨s, r, step, rel', -⟩ := (ref.step rel (c := .updateBlockData u.blockIndex u.data) block
    (by rintro _ _ ⟨⟩; exact ready)).of_right rfl
  obtain ⟨reply, w₄, exchanged, server⟩ := sends.server
  unfold exchange at exchanged
  rw [step] at exchanged
  have same : w₄.server = s := by
    cases link : links.update with
    | down => exact absurd link sends.link
    | _ =>
      rw [link] at exchanged
      cases exchanged
      rfl
  rw [server, same]
  exact rel'

end Reads

/-! ### One update -/

section Step

variable {build : Build} {cfg : Config} {cr : Cipher Key} {td : Trapdoor τ}
  {srv : Machine σ (Command Key) (Response Key)} {w w' : World σ τ Key} {op : Op τ}
  {res : Except Err (Report Key)} {t : CellStore} {M : Plain}

/-- The upload of a call that comes through is a block of the matrix, whose counter was below
its limit and has been raised, unless the keys were left to threads. -/
structure Raised (build : Build) (cfg : Config) (w w' : World σ τ Key) (u : Upload Key) : Prop where
  block : u.blockIndex < cfg.numBlocks
  below : w.client.index.blockCounterArr u.blockIndex ≠ ulongMax
  index : w'.client.index = ahead build w.client.index u.blockIndex

theorem raised_of_goes (client : cfg.decryptAtClientSide = true) (size : cfg.Tiled)
    (constructed : Constructed cfg w.books) (goes : Goes cfg td w op)
    (step : (clientMachine build cfg cr td srv).step w op = some (w', res)) :
    ∃ u path draws links w₁, uploads build cfg cr td srv w op = some u ∧
      Sends build cfg td srv w op path draws links u w₁ w' ∧ Delivered cfg links ∧
      Raised build cfg w w' u := by
  obtain ⟨u, uploaded⟩ := uploads_of_goes client constructed size goes step
  obtain ⟨path, draws, links, w₁, sends⟩ := sends_of_uploads client step uploaded
  obtain ⟨delivered, below⟩ := goes.delivered sends.updates
  obtain ⟨ret, draws', w₂, request⟩ := sends.made.requested
  refine ⟨u, path, draws, links, w₁, uploaded, sends, delivered,
    sends.made.block_lt constructed size, below _ (Prog.value_eq_some.mpr ⟨w₂, request⟩), ?_⟩
  rw [sends.client]
  exact sends.made.index

/-- What it leaves, in a build that finds the cipher: its block on the server, and a client
that reads it. -/
structure Updated (build : Build) (cfg : Config) (cr : Cipher Key)
    {srv : Machine σ (Command Key) (Response Key)} (ref : Refinement cfg cr srv) (M : Plain)
    (t : CellStore) (w w' : World σ τ Key) (u : Upload Key) : Prop
    extends Raised build cfg w w' u where
  seals : Seals cfg w'.client.index u
  server : ref.Rel w'.server (t.update cfg u.blockIndex u.data)
  reads : Consistent cfg cr (withUpload cfg cr M u) (t.update cfg u.blockIndex u.data)
    w'.client.index

theorem updated_of_goes (client : cfg.decryptAtClientSide = true) (size : cfg.Tiled)
    (finds : build.findsCipher = true) (ref : Refinement cfg cr srv)
    (constructed : Constructed cfg w.books) (rel : ref.Rel w.server t)
    (h : Consistent cfg cr M t w.client.index) (goes : Goes cfg td w op)
    (step : (clientMachine build cfg cr td srv).step w op = some (w', res)) :
    ∃ u, uploads build cfg cr td srv w op = some u ∧ Updated build cfg cr ref M t w w' u := by
  obtain ⟨u, path, draws, links, w₁, uploaded, sends, delivered, raised⟩ :=
    raised_of_goes client size constructed goes step
  have seals := (uploads_sealed client step goes.readable uploaded).seals finds
  refine ⟨u, uploaded, raised, seals, upload_server ref size.pos rel sends delivered raised.block,
    consistent_withUpload client h ?_ ?_ ?_ seals⟩
  all_goals
    rw [raised.index]
    unfold ahead
    split
  · rfl
  · rfl
  · rfl
  · rfl
  · exact fun _ _ => rfl
  · exact fun b other => w.client.index.countUpdate_of_ne _ other

omit [DecidableEq τ] in
/-- The encryptions of a block that was counted. -/
theorem seals_updateEncryptions {u : Upload Key} (h : Consistent cfg cr M t w.client.index)
    (client : cfg.decryptAtClientSide = true)
    (seals : Seals cfg (w.client.index.countUpdate u.blockIndex) u) :
    u.encryptions = updateEncryptions cfg cr w.client.index u.blockIndex := by
  rw [seals]
  refine List.map_congr_left fun r hr => ?_
  obtain ⟨one, key⟩ := h.pinned client r (List.mem_range.mp hr)
  rw [IndexClient.countUpdate_rowKeys, IndexClient.countUpdate_self, key, one]

end Step

/-! ### With threads -/

/-- What the pairs of row keys and block counters are made of. -/
def World.pairs (w : World σ τ Key) : (Nat → Nat) × (Nat → Key) :=
  (w.client.index.blockCounterArr, w.client.index.rowKeys)

section Threads

variable {build : Build} {cfg : Config} {cr : Cipher Key} {td : Trapdoor τ}
  {srv : Machine σ (Command Key) (Response Key)}

omit [DecidableEq τ] in
theorem pairs_aside : Aside (World.pairs : World σ τ Key → _) := fun _ _ _ _ => rfl

omit [DecidableEq τ] in
theorem pairs_of_client {α : Type} {x : Call σ τ Key α}
    (keeps : Prog.Keeps (fun w => (w.server, w.client)) x) : Prog.Keeps World.pairs x :=
  fun w => congrArg (fun p : σ × Client τ Key => (p.2.index.blockCounterArr, p.2.index.rowKeys))
    (keeps w)

theorem requestBlockIndex_pairs (path : Str) (draws : Nat → Nat) :
    Prog.Keeps (World.pairs : World σ τ Key → _) (requestBlockIndex cfg td path draws) := by
  intro w
  unfold requestBlockIndex
  dsimp only
  split <;> rfl

theorem searchKeyword_pairs (keyword : Str) (links : Links) :
    Prog.Keeps World.pairs (searchKeyword build cfg cr td srv keyword links) := by
  have token : Prog.Keeps World.pairs (searchToken (σ := σ) build cr td keyword) := by
    intro w
    unfold searchToken
    dsimp only
    split
    · split <;> rfl
    · rfl
  have begins : Prog.Keeps World.pairs (searchBegin (σ := σ) build cr td keyword) :=
    .bind (fun _ => rfl) fun _ => .bind (failWith_keeps _) fun _ => token
  exact .bind (.tryCatch begins fun _ => unconnected_keeps (.throw _)) fun tau =>
    .bind (searchRow_keeps pairs_aside tau) fun _ => .pure _

variable (client : cfg.decryptAtClientSide = true) (threads : build.multiThread = true)
include client

theorem addToken_pairs {path : Str} {content : Option (List Byte)} {draws : Nat → Nat}
    {buckets : τ → Nat} {keys : BlockKeys Key} : Prog.Keeps (World.pairs (σ := σ))
      (addToken build cfg cr td path content draws buckets keys) := by
  intro w
  unfold addToken
  dsimp only
  split
  · rfl
  · rfl
  · simp only [Prog.final, World.pairs, storeBlock_index client]

theorem delToken_pairs {path : Str} {keys : BlockKeys Key} :
    Prog.Keeps (World.pairs (σ := σ)) (delToken cfg cr td path keys) := by
  intro w
  unfold delToken
  simp only [Prog.final, World.pairs, storeBlock_index client]

include threads

omit [DecidableEq τ] in
theorem blockKeys_pairs (links : Links) (decrypts : Bool) (blockIndex : Nat) :
    Prog.Keeps (World.pairs (σ := σ) (τ := τ))
      (blockKeys build cfg cr links decrypts blockIndex) := by
  intro w
  unfold blockKeys
  simp only [if_pos client, if_pos threads]
  rfl

/-- The threads leave the counters of the blocks as they are, whatever is called. -/
theorem threads_keep (op : Op τ) : Prog.Keeps World.pairs (call build cfg cr td srv op) := by
  cases op with
  | searchKeyword keyword links => exact searchKeyword_pairs keyword links
  | addFile path content draws buckets links =>
    exact .bind (requestBlockIndex_pairs path draws) fun _ =>
      .bind (blockKeys_pairs client threads _ _ _) fun _ =>
      .bind (requestBlockData_keeps pairs_aside _) fun _ =>
      .bind (failWith_keeps _) fun _ => .bind (addToken_pairs client) fun _ =>
      .bind (failWith_keeps _) fun _ => .bind (sendBlockData_keeps pairs_aside _) fun _ =>
      .bind (failWith_keeps _) fun _ =>
      .bind (physical_keeps (pairs_of_client (sendFile_keeps _))) fun _ => .pure _
  | delFile path draws links =>
    exact .bind (fun _ => rfl) fun _ => .bind (failWith_keeps _) fun _ =>
      .bind (requestBlockIndex_pairs path draws) fun _ => .bind (failWith_keeps _) fun _ =>
      .bind (blockKeys_pairs client threads _ _ _) fun _ =>
      .bind (requestBlockData_keeps pairs_aside _) fun _ =>
      .bind (failWith_keeps _) fun _ => .bind (delToken_pairs client) fun _ =>
      .bind (sendBlockData_keeps pairs_aside _) fun _ =>
      .bind (physical_keeps (pairs_of_client (sendDeletion_keeps _ _))) fun _ => .pure _

end Threads

/-! ### Whole runs -/

section Runs

variable {cfg : Config} {F : KeyTerm → Nat → Nat → Buf} {td : Trapdoor τ}
  {srv : Machine σ (Command KeyTerm) (Response KeyTerm)}
  {ref : Refinement cfg (termCipher F) srv} {I : Matrix} {w : World σ τ KeyTerm}

/-- The client and a server with the index that was set up. -/
structure SetUp (ref : Refinement cfg (termCipher F) srv) (I : Matrix)
    (w : World σ τ KeyTerm) : Prop where
  constructed : Constructed cfg w.books
  index : w.client.index = builtClient cfg (termCipher F)
  server : ref.Rel w.server ((builtServer I).cells cfg)

/-- The blocks uploaded in a run. -/
def runUploads (build : Build) (cfg : Config) (cr : Cipher Key) (td : Trapdoor τ)
    (srv : Machine σ (Command Key) (Response Key)) (w : World σ τ Key) (ops : List (Op τ)) :
    List (Upload Key) :=
  ((uploadMachine build cfg cr td srv).outputs w ops).reduceOption

/-- What runs of updates that come through preserve. -/
structure Reads (ref : Refinement cfg (termCipher F) srv) (M : Plain)
    (past : List (Option (Upload KeyTerm))) (t : CellStore) (w : World σ τ KeyTerm) : Prop where
  constructed : Constructed cfg w.books
  server : ref.Rel w.server t
  reads : Consistent cfg (termCipher F) (past.reduceOption.foldl (withUpload cfg (termCipher F)) M) t
    w.client.index

variable (client : cfg.decryptAtClientSide = true) (size : cfg.Sized)
include client size

theorem Reads.step {build : Build} {M : Plain} {past : List (Option (Upload KeyTerm))}
    {t : CellStore} {w' : World σ τ KeyTerm} {op : Op τ} {o : Option (Upload KeyTerm)}
    (h : Reads ref M past t w) (finds : build.findsCipher = true) (goes : Goes cfg td w op)
    (seen : (uploadMachine build cfg (termCipher F) td srv).step w op = some (w', o)) :
    ∃ u, o = some u ∧
      Updated build cfg (termCipher F) ref
        (past.reduceOption.foldl (withUpload cfg (termCipher F)) M) t w w' u ∧
      Reads ref M (past ++ [o]) (t.update cfg u.blockIndex u.data) w' := by
  obtain ⟨⟨res, step⟩, rfl⟩ := Machine.observe_step.mp seen
  obtain ⟨u, uploaded, updated⟩ :=
    updated_of_goes client size.tiled finds ref h.constructed h.server h.reads goes step
  refine ⟨u, uploaded, updated, h.constructed.step step, updated.server, ?_⟩
  rw [uploaded, List.reduceOption_append, List.foldl_append]
  exact updated.reads

omit client size in
theorem SetUp.reads {kwFilePair : Nat → List Nat} (setUp : SetUp ref I w)
    (encrypted : Encrypted cfg (termCipher F) (fun _ => 1) (fun _ => 1) (plainOf kwFilePair) I) :
    Reads ref (plainOf kwFilePair) [] ((builtServer I).cells cfg) w := by
  refine ⟨setUp.constructed, setUp.server, ?_⟩
  rw [setUp.index]
  exact consistent_built encrypted

variable {build : Build} {kwFilePair : Nat → List Nat} {w' : World σ τ KeyTerm} {ops : List (Op τ)}
  (setUp : SetUp ref I w)
  (encrypted : Encrypted cfg (termCipher F) (fun _ => 1) (fun _ => 1) (plainOf kwFilePair) I)
  (run : (uploadMachine build cfg (termCipher F) td srv).exec w ops = some w')
  (finds : build.findsCipher = true)
include setUp encrypted run finds

/-- After updates that came through, the client reads the blocks it uploaded. -/
theorem uploads_read
    (goes : (uploadMachine build cfg (termCipher F) td srv).Along (Goes cfg td) w ops) :
    ∃ t, ref.Rel w'.server t ∧ Consistent cfg (termCipher F)
      ((runUploads build cfg (termCipher F) td srv w ops).foldl (withUpload cfg (termCipher F))
        (plainOf kwFilePair)) t w'.client.index := by
  have inv := Machine.invariant_history
    (fun past w => ∃ t, Reads ref (plainOf kwFilePair) past t w) (fun past w op w' o h good step => by
      obtain ⟨t, reads⟩ := h
      obtain ⟨u, -, -, reads'⟩ := reads.step client size finds good step
      exact ⟨_, reads'⟩) [] ⟨_, setUp.reads encrypted⟩ goes run
  obtain ⟨t, reads⟩ := inv
  exact ⟨t, reads.server, reads.reads⟩

/-- Without threads no pair of a row key and a block counter comes back. -/
theorem uploads_nodup (pieces : cfg.Pieces)
    (unthreaded : build.multiThread = false)
    (goes : (uploadMachine build cfg (termCipher F) td srv).Along (Goes cfg td) w ops) :
    (setupEncryptions cfg ++ (runUploads build cfg (termCipher F) td srv w ops).flatMap
      Upload.encryptions).Nodup := by
  have start : Fresh cfg (setupEncryptions cfg ++ []) ((builtServer I).cells cfg) w.client.index := by
    rw [setUp.index, List.append_nil]
    exact fresh_built size pieces F I
  have inv := Machine.invariant_history (fun past w => ∃ t, Reads ref (plainOf kwFilePair) past t w ∧
      Fresh cfg (setupEncryptions cfg ++ past.reduceOption.flatMap Upload.encryptions) t
        w.client.index) (fun past w op w' o h good step => ?_) [] ⟨_, setUp.reads encrypted, start⟩
    goes run
  · obtain ⟨t, -, fresh⟩ := inv
    exact fresh.nodup
  · obtain ⟨t, reads, fresh⟩ := h
    obtain ⟨u, rfl, updated, reads'⟩ := reads.step client size finds good step
    have index : w'.client.index = w.client.index.countUpdate u.blockIndex := by
      rw [updated.index, ahead, unthreaded]
      rfl
    have seals := updated.seals
    rw [index] at seals
    refine ⟨_, reads', ?_⟩
    rw [List.reduceOption_append, List.flatMap_append, List.reduceOption_singleton, index,
      ← List.append_assoc]
    change Fresh cfg (_ ++ [u].flatMap Upload.encryptions) _ _
    rw [List.flatMap_singleton, seals_updateEncryptions reads.reads client seals]
    exact fresh.update reads.reads updated.block updated.below u.data

end Runs

/-! ### The two builds -/

section Builds

variable {cfg : Config} {F : KeyTerm → Nat → Nat → Buf} {td : Trapdoor τ}
  {srv : Machine σ (Command KeyTerm) (Response KeyTerm)}
  {ref : Refinement cfg (termCipher F) srv} {I : Matrix} {w w' : World σ τ KeyTerm}
  {build : Build} {ops : List (Op τ)}

variable (client : cfg.decryptAtClientSide = true) (size : cfg.Sized) (setUp : SetUp ref I w)
include client

/-- Threads leave the counters of a run where the setup left them. -/
theorem threads_counters (threads : build.multiThread = true)
    (run : (uploadMachine build cfg (termCipher F) td srv).exec w ops = some w') :
    w'.pairs = w.pairs := by
  have kept : ∀ (w₁ : World σ τ KeyTerm) op w₂ o, w₁.pairs = w.pairs → True →
      (uploadMachine build cfg (termCipher F) td srv).step w₁ op = some (w₂, o) →
      w₂.pairs = w.pairs := by
    intro w₁ op w₂ o same _ seen
    obtain ⟨⟨res, step⟩, -⟩ := Machine.observe_step.mp seen
    exact (returned_keeps (threads_keep client threads op) step).trans same
  exact Machine.invariant (fun w₁ => w₁.pairs = w.pairs) kept rfl
    (Machine.along_of_forall (fun _ _ => trivial) w ops) run

include size setUp

/-- With threads every block of files that can be read is uploaded under the pairs that
the setup used. -/
theorem threads_repeat (threads : build.multiThread = true) (pieces : cfg.Pieces)
    (readable : ∀ op ∈ ops, Readable op)
    (run : (uploadMachine build cfg (termCipher F) td srv).exec w ops = some w')
    (some_upload : runUploads build cfg (termCipher F) td srv w ops ≠ []) :
    ¬ (setupEncryptions cfg ++ (runUploads build cfg (termCipher F) td srv w ops).flatMap
      Upload.encryptions).Nodup := by
  have start : w.client.index = builtClient cfg (termCipher F) := setUp.index
  have inv := Machine.invariant_history (fun past w₁ => Constructed cfg w₁.books ∧
      w₁.pairs = w.pairs ∧ ∀ u ∈ past.reduceOption, u.blockIndex < cfg.numBlocks ∧
        Seals cfg (builtClient cfg (termCipher F)) u) (fun past w₁ op w₂ o h read seen => ?_) []
    ⟨setUp.constructed, rfl, fun u mem => by cases mem⟩ (Machine.along_of_inputs readable w) run
  · obtain ⟨-, -, sealed⟩ := inv
    obtain ⟨u, mem⟩ := List.exists_mem_of_ne_nil _ some_upload
    obtain ⟨block, seals⟩ := sealed u mem
    have row : 0 < cfg.matrixRowSize := setUp.constructed.inRange.someRow
    have again : ⟨some (0, 1), u.blockIndex, 1⟩ ∈ u.encryptions := by
      rw [seals]
      refine List.mem_map.mpr ⟨0, List.mem_range.mpr row, ?_⟩
      have key : (builtClient cfg (termCipher F)).rowKeys 0 = some (0, 1) :=
        pregenerateRowKeys_apply cfg (termCipher F) _ row
      rw [key]
      rfl
    intro nodup
    exact (List.nodup_append'.mp nodup).2.2 (cell_mem_setupEncryptions size pieces row block)
      (List.mem_flatMap.mpr ⟨u, mem, again⟩)
  · obtain ⟨constructed, same, sealed⟩ := h
    obtain ⟨⟨res, step⟩, rfl⟩ := Machine.observe_step.mp seen
    have kept := (returned_keeps (threads_keep client threads op) step).trans same
    refine ⟨constructed.step step, kept, fun u mem => ?_⟩
    rw [List.reduceOption_append, List.reduceOption_singleton, List.mem_append] at mem
    rcases mem with old | new
    · exact sealed u old
    · have uploaded := Option.mem_toList.mp new
      obtain ⟨path, draws, links, w₃, -, made, -⟩ := made_of_uploads client uploaded
      refine ⟨made.block_lt constructed size.tiled, ?_⟩
      rw [← start]
      exact ((uploads_sealed client step read uploaded).seals (Build.findsCipher_of_threads threads)).congr
        (congrArg Prod.fst kept).symm (congrArg Prod.snd kept).symm

/-- The builds leave different counters after one call or more. -/
theorem builds_counters {threaded unthreaded : Build} {w₁ w₂ : World σ τ KeyTerm}
    (threads : threaded.multiThread = true) (none : unthreaded.multiThread = false)
    (calls : ops ≠ [])
    (goes : (uploadMachine unthreaded cfg (termCipher F) td srv).Along (Goes cfg td) w ops)
    (run₁ : (uploadMachine threaded cfg (termCipher F) td srv).exec w ops = some w₁)
    (run₂ : (uploadMachine unthreaded cfg (termCipher F) td srv).exec w ops = some w₂) :
    w₁.client.index.blockCounterArr ≠ w₂.client.index.blockCounterArr := by
  have start : w.client.index.blockCounterArr = fun _ => 1 := by
    rw [setUp.index]
    rfl
  have still : w₁.client.index.blockCounterArr = fun _ => 1 :=
    (congrArg Prod.fst (threads_counters client threads run₁)).trans start
  have least : ∀ b, b < cfg.numBlocks → 1 ≤ w.client.index.blockCounterArr b ∧
      w.client.index.blockCounterArr b ≤ ulongMax := fun b _ => by
    rw [start]
    exact ⟨Nat.le_refl 1, show 1 ≤ ulongMax by decide⟩
  have rising := Machine.invariant_history (fun past w => Constructed cfg w.books ∧
      (∀ b, b < cfg.numBlocks → 1 ≤ w.client.index.blockCounterArr b ∧
        w.client.index.blockCounterArr b ≤ ulongMax) ∧
      (past ≠ [] → ∃ b, 1 < w.client.index.blockCounterArr b))
    (fun past w op w' o h good seen => ?_) []
    ⟨setUp.constructed, least, fun ne => absurd rfl ne⟩ goes run₂
  · obtain ⟨-, -, raised⟩ := rising
    have outs : [] ++ (uploadMachine unthreaded cfg (termCipher F) td srv).outputs w ops ≠ [] := by
      cases ops with
      | nil => exact absurd rfl calls
      | cons op ops =>
        obtain ⟨w', o, step, -⟩ := Machine.step_of_exec_cons run₂
        rw [Machine.outputs_cons_of_step ops step]
        exact List.cons_ne_nil _ _
    obtain ⟨b, more⟩ := raised outs
    intro same
    rw [← same, still] at more
    exact absurd more (Nat.lt_irrefl 1)
  · obtain ⟨constructed, range, -⟩ := h
    obtain ⟨⟨res, step⟩, -⟩ := Machine.observe_step.mp seen
    obtain ⟨u, -, -, -, -, -, -, -, raised⟩ :=
      raised_of_goes client size.tiled constructed good step
    have index : w'.client.index = w.client.index.countUpdate u.blockIndex := by
      rw [raised.index, ahead, none]
      rfl
    obtain ⟨least, most⟩ := range _ raised.block
    have left := Nat.lt_of_le_of_ne most raised.below
    have next := nextCounter_of_lt left
    refine ⟨constructed.step step, fun b hb => ?_, fun _ => ⟨u.blockIndex, ?_⟩⟩
    · rw [index]
      by_cases here : b = u.blockIndex
      · rw [here, IndexClient.countUpdate_self, next]
        exact ⟨Nat.le_add_left 1 _, left⟩
      · rw [IndexClient.countUpdate_of_ne _ _ here]
        exact range b hb
    · rw [index, IndexClient.countUpdate_self, next]
      exact Nat.lt_succ_of_le least

omit client size setUp in
/-- And in every state they upload blocks under different pairs. -/
theorem builds_uploads {threaded unthreaded : Build} {cr : Cipher Key}
    {srv : Machine σ (Command Key) (Response Key)} {w : World σ τ Key} {op : Op τ}
    {u₁ u₂ : Upload Key} (client : cfg.decryptAtClientSide = true) (row : 0 < cfg.matrixRowSize)
    (threads : threaded.multiThread = true) (none : unthreaded.multiThread = false)
    (read : Readable op) (uploads₁ : uploads threaded cfg cr td srv w op = some u₁)
    (uploads₂ : uploads unthreaded cfg cr td srv w op = some u₂) :
    u₁.blockIndex = u₂.blockIndex ∧ u₁.encryptions ≠ u₂.encryptions := by
  obtain ⟨path, draws, links, w₁, updates, made₁, seals₁, -⟩ := made_of_uploads client uploads₁
  obtain ⟨path', draws', links', w₂, updates', made₂, seals₂, -⟩ := made_of_uploads client uploads₂
  obtain ⟨rfl, rfl, rfl⟩ := updates.unique updates'
  obtain ⟨ret₁, _, _, request₁⟩ := made₁.requested
  obtain ⟨ret₂, _, _, request₂⟩ := made₂.requested
  have block : u₁.blockIndex = u₂.blockIndex := by
    have same := request₁.symm.trans request₂
    injection same with same
    exact congrArg (fun x => x.2.1) same
  refine ⟨block, fun same => ?_⟩
  -- the counter of the first row
  have first : u₁.encryptions[0]?.map Encryption.counter =
      u₂.encryptions[0]?.map Encryption.counter := by
    rw [same]
  have counter : ∀ (c : IndexClient Key) (b : Nat),
      (blockPairs cfg c b)[0]?.map Encryption.counter = some (c.blockCounterArr b) := fun c b => by
    rw [blockPairs, List.getElem?_map, List.getElem?_range row]
    rfl
  rw [(seals₁ read).seals (Build.findsCipher_of_threads threads), counter, made₁.index, ahead,
    if_pos threads] at first
  cases finds : unthreaded.findsCipher with
  | true =>
    rw [(seals₂ read).seals finds, counter, made₂.index, ahead,
      if_neg (Bool.eq_false_iff.mp none), block, IndexClient.countUpdate_self] at first
    exact nextCounter_ne _ (Option.some.inj first).symm
  | false =>
    rw [((seals₂ read).seals_iff row).2 finds] at first
    cases first

end Builds

/-! ### Freshness -/

section Fresh

variable {cfg : Config} {F : KeyTerm → Nat → Nat → Buf} {td : Trapdoor τ}
  {srv : Machine σ (Command KeyTerm) (Response KeyTerm)}

/-- Where the client decrypts, from the data structure that was set up on. After updates
that come through a build that finds the cipher reads what it uploaded, and without threads
has used no pair of row key and block counter twice. In any state the uploaded block is under
the counter that the client has after the call if and only if the build finds the cipher, and
else under nothing. With threads every upload repeats pairs of the setup, and the builds
with and without them never agree on counters or pairs. -/
theorem uploads_fresh (client : cfg.decryptAtClientSide = true) (size : cfg.Sized)
    (pieces : cfg.Pieces) (ref : Refinement cfg (termCipher F) srv)
    {kwFilePair : Nat → List Nat} {I : Matrix} {log : List (Encryption KeyTerm)}
    (created : createEncryptedMatrix cfg (termCipher F) kwFilePair (fun _ => 1) (fun _ => 1) =
      some (I, log)) {w : World σ τ KeyTerm} (setUp : SetUp ref I w) :
    (∀ (build : Build) (ops : List (Op τ)) (w' : World σ τ KeyTerm), build.findsCipher = true →
      (uploadMachine build cfg (termCipher F) td srv).Along (Goes cfg td) w ops →
      (uploadMachine build cfg (termCipher F) td srv).exec w ops = some w' →
      (∃ t, ref.Rel w'.server t ∧ Consistent cfg (termCipher F)
        ((runUploads build cfg (termCipher F) td srv w ops).foldl (withUpload cfg (termCipher F))
          (plainOf kwFilePair)) t w'.client.index) ∧
      (build.multiThread = false → (log ++ (runUploads build cfg (termCipher F) td srv w ops).flatMap
        Upload.encryptions).Nodup)) ∧
    (∀ (build : Build) (w w' : World σ τ KeyTerm) (op : Op τ) (res : Except Err (Report KeyTerm))
      (u : Upload KeyTerm), Readable op → uploads build cfg (termCipher F) td srv w op = some u →
      (clientMachine build cfg (termCipher F) td srv).step w op = some (w', res) →
      (Seals cfg w'.client.index u ↔ build.findsCipher = true) ∧
      (build.findsCipher = false → u.encryptions = [])) ∧
    (∀ (build : Build) (ops : List (Op τ)) (w' : World σ τ KeyTerm), build.multiThread = true →
      (∀ op ∈ ops, Readable op) →
      (uploadMachine build cfg (termCipher F) td srv).exec w ops = some w' →
      runUploads build cfg (termCipher F) td srv w ops ≠ [] →
      ¬ (log ++ (runUploads build cfg (termCipher F) td srv w ops).flatMap
        Upload.encryptions).Nodup) ∧
    ∀ threaded unthreaded : Build, threaded.multiThread = true → unthreaded.multiThread = false →
      (∀ (ops : List (Op τ)) (w₁ w₂ : World σ τ KeyTerm), ops ≠ [] →
        (uploadMachine unthreaded cfg (termCipher F) td srv).Along (Goes cfg td) w ops →
        (uploadMachine threaded cfg (termCipher F) td srv).exec w ops = some w₁ →
        (uploadMachine unthreaded cfg (termCipher F) td srv).exec w ops = some w₂ →
        w₁.client.index.blockCounterArr ≠ w₂.client.index.blockCounterArr) ∧
      ∀ (w : World σ τ KeyTerm) (op : Op τ) (u₁ u₂ : Upload KeyTerm), Readable op →
        uploads threaded cfg (termCipher F) td srv w op = some u₁ →
        uploads unthreaded cfg (termCipher F) td srv w op = some u₂ →
        u₁.blockIndex = u₂.blockIndex ∧ u₁.encryptions ≠ u₂.encryptions := by
  obtain ⟨I', log', created', encrypted⟩ :=
    createEncryptedMatrix_encrypted size pieces (termCipher F) kwFilePair (fun _ => 1) (fun _ => 1)
  cases created'.symm.trans created
  rw [createEncryptedMatrix_encryptions size pieces created]
  have row : 0 < cfg.matrixRowSize := setUp.constructed.inRange.someRow
  refine ⟨fun build ops w' finds goes run =>
      ⟨uploads_read client size setUp encrypted run finds goes,
        fun none => uploads_nodup client size setUp encrypted run finds pieces none goes⟩,
    fun build w w' op res u read uploaded step =>
      (uploads_sealed client step read uploaded).seals_iff row,
    fun build ops w' threads read run some_upload =>
      threads_repeat client size setUp threads pieces read run some_upload,
    fun threaded unthreaded threads none => ⟨fun ops w₁ w₂ calls goes run₁ run₂ =>
      builds_counters client size setUp threads none calls goes run₁ run₂,
      fun w op u₁ u₂ read uploads₁ uploads₂ =>
        builds_uploads client row threads none read uploads₁ uploads₂⟩⟩

end Fresh

/-! ### A small index -/

/-- The small index in blocks of four columns, for a client that decrypts. -/
def smallFreshConfig : Config := smallConfig 4 true

/-- The index after the setup. -/
def smallIndex : Option (Matrix × List (Encryption KeyTerm)) :=
  createEncryptedMatrix smallFreshConfig smallCipher smallPairs (fun _ => 1) (fun _ => 1)

/-- The small client and the server with the index. -/
def smallSetUp : World RamServer Str KeyTerm :=
  smallWorld smallFreshConfig (builtServer (smallIndex.elim (fun _ => zeroBuf) Prod.fst))

theorem smallTables_inRange (B : Nat) (client : Bool) :
    smallTables.InRange (smallConfig B client) := by
  have empty : ∀ free : List Nat, (∀ v ∈ free, v < 8) → Within 8 (∅ : Table Str) free := by
    intro free below
    refine ⟨?_, ?_⟩
    · intro k v found
      cases found
    · intro v mem
      exact below v mem
  exact ⟨by change 0 < 8; decide, by change 0 < 8; decide,
    ((empty _ (by decide)).insert _ (by decide)).insert _ (by decide),
    ((empty _ (by decide)).insert _ (by decide)).insert _ (by decide)⟩

theorem smallIndex_created : ∃ I log, smallIndex = some (I, log) ∧
    SetUp (ramRefinement (smallConfig_sized (B := 4) true (by decide) (by decide)).tiled smallCipher)
      I smallSetUp := by
  obtain ⟨I, log, created, -⟩ := createEncryptedMatrix_encrypted
    (smallConfig_sized (B := 4) true (by decide) (by decide)) (smallConfig_pieces (B := 4) true
      (by decide)) smallCipher smallPairs (fun _ => 1) (fun _ => 1)
  refine ⟨I, log, created, ⟨rfl, smallTables_inRange 4 true⟩, rfl, ?_⟩
  change RamServer.cells smallFreshConfig (builtServer (smallIndex.elim (fun _ => zeroBuf) Prod.fst)) = _
  rw [show smallIndex = some (I, log) from created]
  rfl

/-- File "h" is added, then deleted. -/
def smallUpdates : List (Op Str) := [smallAdd, .delFile [0x68#8] (fun _ => 0) goodLinks]

/-- The machine of the small client. -/
def smallUploads (build : Build) : Machine (World RamServer Str KeyTerm) (Op Str)
    (Option (Upload KeyTerm)) :=
  uploadMachine build smallFreshConfig smallCipher smallTrapdoor
    (ramServer smallFreshConfig smallCipher)

/-- Both updates come through, and no pair is used twice. -/
theorem uploads_fresh_small : ∃ I log w', smallIndex = some (I, log) ∧
    (smallUploads smallBuild).exec smallSetUp smallUpdates = some w' ∧
    (log ++ (runUploads smallBuild smallFreshConfig smallCipher smallTrapdoor
      (ramServer smallFreshConfig smallCipher) smallSetUp smallUpdates).flatMap
        Upload.encryptions).Nodup := by
  have evaluated : ((smallUploads smallBuild).check
      (fun w op => decide (Goes smallFreshConfig smallTrapdoor w op)) smallSetUp smallUpdates &&
    ((smallUploads smallBuild).exec smallSetUp smallUpdates).isSome) = true := by
    decide +kernel
  obtain ⟨good, goes⟩ := Bool.and_eq_true_iff.mp evaluated
  obtain ⟨w', run⟩ := Option.isSome_iff_exists.mp goes
  obtain ⟨I, log, created, setUp⟩ := smallIndex_created
  exact ⟨I, log, w', created, run, ((uploads_fresh rfl
    (smallConfig_sized (B := 4) true (by decide) (by decide))
    (smallConfig_pieces (B := 4) true (by decide)) _ created setUp).1 smallBuild smallUpdates w' rfl
      (Machine.along_of_check (fun _ _ h => of_decide_eq_true h) good) run).2 rfl⟩

/-- The same client with threads. -/
def smallThreads : Build := { smallBuild with multiThread := true }

/-- With threads the block of "h" goes to the server under the pairs of the setup. -/
theorem threads_reuse : ∃ I log w', smallIndex = some (I, log) ∧
    SetUp (ramRefinement (smallConfig_sized (B := 4) true (by decide) (by decide)).tiled smallCipher)
      I smallSetUp ∧
    (smallUploads smallThreads).exec smallSetUp [smallAdd] = some w' ∧
    ¬ (log ++ (runUploads smallThreads smallFreshConfig smallCipher smallTrapdoor
      (ramServer smallFreshConfig smallCipher) smallSetUp [smallAdd]).flatMap
        Upload.encryptions).Nodup := by
  have evaluated : (((smallUploads smallThreads).exec smallSetUp [smallAdd]).isSome &&
    (runUploads smallThreads smallFreshConfig smallCipher smallTrapdoor
      (ramServer smallFreshConfig smallCipher) smallSetUp [smallAdd]).isEmpty.not) = true := by
    decide +kernel
  obtain ⟨goes, some_upload⟩ := Bool.and_eq_true_iff.mp evaluated
  obtain ⟨w', run⟩ := Option.isSome_iff_exists.mp goes
  obtain ⟨I, log, created, setUp⟩ := smallIndex_created
  have size := smallConfig_sized (B := 4) true (by decide) (by decide)
  have pieces := smallConfig_pieces (B := 4) true (by decide)
  refine ⟨I, log, w', created, setUp, run, ?_⟩
  rw [createEncryptedMatrix_encryptions size pieces created]
  refine threads_repeat rfl size setUp rfl pieces ?_ run ?_
  · intro op mem
    rw [List.mem_singleton.mp mem]
    rfl
  · intro none
    have empty := congrArg List.isEmpty none
    rw [Bool.not_eq_true'] at some_upload
    exact absurd (some_upload.symm.trans empty) (by decide)

end ImDsse.Seu
