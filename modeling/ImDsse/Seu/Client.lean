import ImDsse.Client
import ImDsse.Kit.Prog
import ImDsse.Kit.Text

/-!
The client of `SEU-DSSE` on Android (`Client_DSSE::searchKeyword`, `addFile` and
`delFile`) in builds with `CLIENT_SERVER_MODE`.

The operations are programs that may fail part of the way and leave the client as they
had it by then. A program that ends with `some e` has returned the error `e`; one that
ends with `none` does not return: the process ends, or waits for a reply for good.

Which exchange of a call goes through and what it finds on the stack (`Links`), the
numbers it draws and the buckets of `T_F` while it encrypts a file are inputs of the call.
The free lists, static in `DSSE.cpp`, stand with the tables. `genRow_key` and
`generateTrapdoor_single_input` fail for a key that `isNULL` only, and no key is: they have
no error here.
-/

namespace ImDsse.Seu

open Kit Kit.Bits Kit.Pool Kit.Text

variable {Key : Type} {σ : Type} {τ : Type} [DecidableEq τ]

/-- The macros that select the client's code, beside those in `Config`, and `ULONG_MAX`,
which has fewer bits than a counter on a 32-bit platform. -/
structure Build where
  multiThread : Bool
  encryptPhysicalFile : Bool
  sendSearchFileIndex : Bool
  intelAesNi : Bool
  ulongMax : Nat

/-- Around `precomputeAES_CTR_keys` the cipher is registered by the code of the threads only,
and without AES-NI `ctr_start` asks for it. -/
def Build.findsCipher (build : Build) : Bool := build.intelAesNi || build.multiThread

theorem Build.findsCipher_of_threads {build : Build} (threads : build.multiThread = true) :
    build.findsCipher = true := by
  rw [Build.findsCipher, threads, Bool.or_true]

/-- `aes128_ctr_encdec` in `precomputeAES_CTR_keys`. When it does not find its cipher nobody
looks at the error, and the output stays what it was. -/
def Build.cipher (build : Build) (cr : Cipher Key) (V : Buf) : Cipher Key :=
  if build.findsCipher then cr else { cr with keystream := fun _ _ _ => V }

/-- The results other than 0. -/
inductive Err where
  | dataStructureNotBuilt
  | counterExceedLimit
  | maxNumBlockExceeded
  | extractKeywords
  | clientRequestBlockData
  | clientUpdateBlockData
  | clientSendFile
  | clientSearch
  | clientDeleteFile
  | fileOpen
deriving DecidableEq

/-- The blocks are encrypted. Where the server decrypts, `addToken` and `delToken` register the
cipher for themselves. -/
def Build.Encrypts (build : Build) (cfg : Config) : Prop :=
  cfg.decryptAtClientSide = true → build.findsCipher = true

theorem Build.cipher_of_finds {build : Build} (finds : build.findsCipher = true) (cr : Cipher Key)
    (V : Buf) : build.cipher cr V = cr := if_pos finds

/-- What becomes of an exchange: it goes through, `send` throws before the request has left,
or a call throws once the server has it. To `connect` to a server that is away is no
error. -/
inductive Link where
  | up
  | down
  | lost
deriving DecidableEq

/-- The exchanges of one call, in their order, whether the file for the result of a search
can be opened, and what `V` of `precomputeAES_CTR_keys`, which nobody sets, has on the stack
when the keys to decrypt and to encrypt with are computed. -/
structure Links where
  fetch : Link
  update : Link
  file : Link
  resultOpens : Bool
  decryptStack : Buf
  reencryptStack : Buf

/-- The archive of an encrypted file: the number in its name and in the source of its
nonce, and what it holds. -/
structure Archive where
  fileIndex : Nat
  path : Str
  content : List Byte
deriving DecidableEq

/-- `encTar<i>.tar.gz` -/
def archiveName (fileIndex : Nat) : TextFile :=
  "encTar".toList ++ (decimal fileIndex ++ ".tar.gz".toList)

/-- What the nonce of `encryptFile_using_ccm` is computed from: `encFile<i>.txt<i>`. -/
def nonceSource (fileIndex : Nat) : TextFile :=
  "encFile".toList ++ (decimal fileIndex ++ (".txt".toList ++ decimal fileIndex))

/-- The members of `Client_DSSE`, with the file left in the folder `gcsEncryptedUpdateFilepath`. -/
structure Client (τ : Type) (Key : Type) where
  dataStructureConstructed : Bool
  tables : Tables τ
  index : IndexClient Key
  IPrime : Buf
  blockStateArr : Nat → Bool
  encryptedUpdate : Option Archive

/-- The client, the server's index, and its encrypted files by their names. -/
structure World (σ : Type) (τ : Type) (Key : Type) where
  server : σ
  encFiles : TextFile → Option Archive
  client : Client τ Key

namespace World

def setTables (w : World σ τ Key) (T : Tables τ) : World σ τ Key :=
  { w with client := { w.client with tables := T } }

def setKeywordCounterArr (w : World σ τ Key) (kc : Nat → Nat) : World σ τ Key :=
  { w with client := { w.client with index := { w.client.index with keywordCounterArr := kc } } }

def setBlockCounterArr (w : World σ τ Key) (bc : Nat → Nat) : World σ τ Key :=
  { w with client := { w.client with index := { w.client.index with blockCounterArr := bc } } }

end World

/-- Programs of the client. -/
abbrev Call (σ : Type) (τ : Type) (Key : Type) := EStateM (Option Err) (World σ τ Key)

/-- `goto exit`, unless the result is 0. -/
def failWith : Option Err → Call σ τ Key Unit
  | none => pure ()
  | some e => throw (some e)

/-- What a reply must hold. -/
def await {α : Type} : Option α → Call σ τ Key α
  | none => throw none
  | some a => pure a

/-- A block that was sent to the server, and the encryptions it holds. -/
structure Upload (Key : Type) where
  blockIndex : Nat
  data : List Byte
  encryptions : List (Encryption Key)

/-- What a call that succeeds leaves behind. -/
inductive Report (Key : Type) where
  | searched (fileIds : List Nat)
  | added (upload : Upload Key)
  | deleted (fileIndex : Nat) (upload : Upload Key)

/-- The two key buffers of an update, and the encryptions under the second. -/
structure BlockKeys (Key : Type) where
  decryptKey : Buf
  reencryptKey : Buf
  encryptions : List (Encryption Key)

section Operations

variable (build : Build) (cfg : Config) (cr : Cipher Key) (td : Trapdoor τ)
  (srv : Machine σ (Command Key) (Response Key))

/-- One exchange over the index. Nothing comes back when a call throws. Without the reply
of a server that has stopped the client waits for good. -/
def exchange (link : Link) (command : Command Key) : Call σ τ Key (Option (Response Key)) :=
  fun w =>
    match link, srv.step w.server command with
    | .down, _ => .ok none w
    | .lost, none => .ok none w
    | .lost, some (s, _) => .ok none { w with server := s }
    | .up, none => .error none w
    | .up, some (s, r) => .ok (some r) { w with server := s }

/-! ### Searching -/

/-- `DSSE::searchToken`. A keyword without a row has no token. -/
def searchToken (keyword : Str) : Call σ τ Key (Option (SearchToken Key)) := fun w =>
  let counters := w.client.index.keywordCounterArr
  let (row, tW) := ImDsse.index w.client.tables.tW (td.generate (cStr keyword))
  let w := w.setTables { w.client.tables with tW := tW }
  if row ≠ 0 then
    if counters row = build.ulongMax then .error (some .counterExceedLimit) w
    else .ok (some (freshToken cr counters row))
      (w.setKeywordCounterArr (Function.update counters row (nextCounter (counters row))))
  else .ok none w

/-- The part of `searchKeyword` after the token, without `DECRYPT_AT_CLIENT_SIDE`. With
`SEND_SEARCH_FILE_INDEX` the file for the result is opened between request and reply. -/
def searchAtServer (tau : SearchToken Key) (links : Links) : Call σ τ Key (List Nat) := do
  let opened := !build.sendSearchFileIndex || links.resultOpens
  let link := if opened || links.fetch = .down then links.fetch else .lost
  let reply ← exchange srv link (.searchOperation tau)
  match reply with
  | some r => await r.found?
  | none => throw (some (if opened || links.fetch = .down then .clientSearch else .fileOpen))

/-- The part of `searchKeyword` after the token, with `DECRYPT_AT_CLIENT_SIDE`. The result
of `requestSearch_data` is not looked at: `search_data` then stays zero. -/
def searchAtClient (tau : SearchToken Key) (links : Links) : Call σ τ Key (List Nat) := do
  let reply ← exchange srv links.fetch (.requestSearchData tau.rowIndex)
  let msg ← await (match reply with | none => some [] | some r => r.data?)
  let w ← get
  pure (decryptRow cfg (build.cipher cr links.decryptStack) w.client.index tau.rowIndex msg)

/-- The end of `searchKeyword` ahead of `connect`. Without `DECRYPT_AT_CLIENT_SIDE` the
`disconnect` there throws, as nothing is connected, and nobody catches it. -/
def unconnected {α : Type} (x : Call σ τ Key α) : Call σ τ Key α := fun w =>
  if cfg.decryptAtClientSide then x w else .error none (Prog.final (x w))

/-- The part of `searchKeyword` after the token. -/
def searchRow (tau : Option (SearchToken Key)) (links : Links) : Call σ τ Key (List Nat) :=
  match tau with
  | none => unconnected cfg (pure [])
  | some tau =>
    if tau.rowIndex = cfg.keywordNotExist then unconnected cfg (pure [])
    else if cfg.decryptAtClientSide then searchAtClient build cfg cr srv tau links
    else searchAtServer build srv tau links

/-- `DATA_STRUCTURE_NOT_BUILT_ERR`, unless the data structure is there. -/
def notBuilt (w : World σ τ Key) : Option Err :=
  if w.client.dataStructureConstructed then none else some .dataStructureNotBuilt

/-- The part of `searchKeyword` up to the token. -/
def searchBegin (keyword : Str) : Call σ τ Key (Option (SearchToken Key)) := do
  let w ← get
  failWith (notBuilt w)
  searchToken build cr td keyword

/-- `Client_DSSE::searchKeyword` -/
def searchKeyword (keyword : Str) (links : Links) : Call σ τ Key (Report Key) := do
  let tau ← tryCatch (searchBegin build cr td keyword) fun e => unconnected cfg (throw e)
  let fileIds ← searchRow build cfg cr srv tau links
  pure (.searched fileIds)

/-! ### The parts of an update -/

/-- `DSSE::requestBlock_index`: its result, and the block, which is set in any case. -/
def requestBlockIndex (path : Str) (draws : Nat → Nat) :
    Call σ τ Key (Option Err × Nat × (Nat → Nat)) := fun w =>
  let T := w.client.tables
  match assignIndex 0 ⟨T.tF, T.lstFreeColumnIdx, draws⟩ (td.omac path) with
  | none => .error none w
  | some s =>
    let (fileIndex, tF) := ImDsse.index s.table (td.omac path)
    let blockIndex := fileIndex / cfg.encryptBlockSize
    .ok (if cfg.numBlocks < blockIndex then some .maxNumBlockExceeded else none, blockIndex, s.draws)
      (w.setTables { T with tF := tF, lstFreeColumnIdx := s.free })

/-- The keys of an update, with `DECRYPT_AT_CLIENT_SIDE`. The threads of `MULTI_THREAD`
compute both from the counters as they are; without it the block is counted in between. -/
def blockKeys (links : Links) (decrypts : Bool) (blockIndex : Nat) :
    Call σ τ Key (BlockKeys Key) := fun w =>
  if cfg.decryptAtClientSide then
    let c := w.client.index
    let keys := fun V counters => precomputeAESCTRKeys cfg (build.cipher cr V) zeroBuf blockIndex
      .col false counters c.rowKeys
    let counters := if build.multiThread then c.blockCounterArr
      else Function.update c.blockCounterArr blockIndex (nextCounter (c.blockCounterArr blockIndex))
    let decryptKey := keys links.decryptStack c.blockCounterArr
    let reencryptKey := keys links.reencryptStack counters
    .ok ⟨if decrypts then decryptKey.1 else zeroBuf, reencryptKey.1,
      if build.findsCipher then reencryptKey.2 else []⟩ (w.setBlockCounterArr counters)
  else .ok ⟨zeroBuf, zeroBuf, []⟩ w

/-- A block that was received goes to `I_prime` and `block_state_arr`. -/
def receiveBlock (msg : List Byte) : Call σ τ Key (Option Err) := fun w =>
  let buffer := ofBytes msg cfg.blockMessageLen zeroBuf
  .ok none { w with client := { w.client with
    IPrime := copyBytes cfg.blockBytes zeroBuf 0 buffer 0
    blockStateArr := fun row => !cfg.decryptAtClientSide &&
      bit buffer (cfg.matrixRowSize * cfg.encryptBlockSize + row) } }

/-- `Client_DSSE::requestBlock_data`, skipped for blocks of one column. -/
def requestBlockData (link : Link) (blockIndex : Nat) : Call σ τ Key (Option Err) :=
  if 1 < cfg.encryptBlockSize then do
    let reply ← exchange srv link (.requestBlockData blockIndex)
    match reply with
    | none => pure (some .clientRequestBlockData)
    | some r => do
      let msg ← await r.data?
      receiveBlock cfg msg
  else pure none

/-- The threads of `MULTI_THREAD` fetch the block, and nobody asks for their results. -/
def fetchesAside : Bool := cfg.decryptAtClientSide && build.multiThread

/-- The second half of `addToken` or `delToken`, in the overload of the build. -/
def recodeBlock (c : Client τ Key) (keys : BlockKeys Key) (fileIndex : Nat) (u : ColumnUpdate) :
    Buf × List (Encryption Key) :=
  if cfg.decryptAtClientSide then
    match u with
    | .add IBar => (addTokenBlockPre cfg fileIndex IBar c.IPrime keys.decryptKey keys.reencryptKey,
        keys.encryptions)
    | .del => (delTokenBlockPre cfg fileIndex c.IPrime keys.decryptKey keys.reencryptKey,
        keys.encryptions)
  else
    match u with
    | .add IBar => addTokenBlock cfg cr c.index.keywordCounterArr c.index.blockCounterArr
        c.blockStateArr fileIndex IBar c.IPrime
    | .del => delTokenBlock cfg cr c.index.keywordCounterArr c.index.blockCounterArr
        c.blockStateArr fileIndex c.IPrime

/-- The client with the new block. Without `DECRYPT_AT_CLIENT_SIDE` the token functions
count the update. -/
def storeBlock (c : Client τ Key) (fileIndex : Nat) (IPrime : Buf) : Client τ Key :=
  let blockIndex := fileIndex / cfg.encryptBlockSize
  let counters := c.index.blockCounterArr
  { c with
    IPrime := IPrime
    index := { c.index with
      blockCounterArr := if cfg.decryptAtClientSide then counters
        else Function.update counters blockIndex (nextCounter (counters blockIndex)) } }

/-- `DSSE::addToken` up to `file_index`. The file has its column by the time it turns out
that it cannot be read. -/
def addTokenIndex (path : Str) (content : Option (List Byte)) (T : Tables τ) (draws : Nat → Nat) :
    Option (Option (Nat × Buf) × Tables τ) :=
  (assignIndex 0 ⟨T.tF, T.lstFreeColumnIdx, draws⟩ (td.omac path)).bind fun columns =>
    match content with
    | none => some (none, { T with tF := columns.table, lstFreeColumnIdx := columns.free })
    | some _ =>
      (assignRows td ⟨T.tW, T.lstFreeRowIdx, columns.draws⟩ zeroBuf
          (extractKeywords [] content)).map fun (rows, IBar) =>
        let (fileIndex, tF) := ImDsse.index columns.table (td.omac path)
        (some (fileIndex, IBar), ⟨rows.table, tF, columns.free, rows.free⟩)

/-- `FileCrypt::encryptFile_using_ccm` of an added file: `file_index = rT_F.bucket(..)`.
The table is not empty, it holds the file. -/
def encryptFileUsingCcm (buckets : τ → Nat) (path : Str) (content : Option (List Byte)) : Archive :=
  ⟨buckets (td.omac path), path, content.getD []⟩

/-- `DSSE::addToken`: its result, and the encryptions in the new block. -/
def addToken (path : Str) (content : Option (List Byte)) (draws : Nat → Nat) (buckets : τ → Nat)
    (keys : BlockKeys Key) : Call σ τ Key (Option Err × List (Encryption Key)) := fun w =>
  match addTokenIndex td path content w.client.tables draws with
  | none => .error none w
  | some (none, T) => .ok (some .extractKeywords, []) (w.setTables T)
  | some (some (fileIndex, IBar), T) =>
    let out := recodeBlock cfg cr w.client keys fileIndex (.add IBar)
    .ok (none, out.2) { w with client := { storeBlock cfg w.client fileIndex out.1 with
      tables := T
      encryptedUpdate := if build.encryptPhysicalFile
        then some (encryptFileUsingCcm td buckets path content) else w.client.encryptedUpdate } }

/-- `DSSE::delToken` up to the removal of the file's trapdoor. -/
def delTokenIndex (path : Str) (T : Tables τ) : Nat × Tables τ :=
  let (fileIndex, tF) := ImDsse.index T.tF (td.omac path)
  (fileIndex, { T with tF := tF.erase (td.omac path) })

/-- `DSSE::delToken`: the index of the file, and the encryptions in the new block. -/
def delToken (path : Str) (keys : BlockKeys Key) : Call σ τ Key (Nat × List (Encryption Key)) :=
  fun w =>
    let (fileIndex, T) := delTokenIndex td path w.client.tables
    let out := recodeBlock cfg cr w.client keys fileIndex .del
    .ok (fileIndex, out.2)
      { w with client := { storeBlock cfg w.client fileIndex out.1 with tables := T } }

/-- `Client_DSSE::sendBlock_data`: its result, and what it sends. -/
def sendBlockData (link : Link) (blockIndex : Nat) : Call σ τ Key (Option Err × List Byte) := do
  let w ← get
  let data := toBytes w.client.IPrime cfg.blockBytes
  let reply ← exchange srv link (.updateBlockData blockIndex data)
  pure (if reply.isNone then some .clientUpdateBlockData else none, data)

/-- With `ENCRYPT_PHYSICAL_FILE`. -/
def physical (x : Call σ τ Key Unit) : Call σ τ Key Unit :=
  if build.encryptPhysicalFile then x else pure ()

/-- `Client_DSSE::sendFile` of the first file in the folder, under its own name. There is
no first one in an empty folder. -/
def sendFile (link : Link) : Call σ τ Key Unit := fun w =>
  match w.client.encryptedUpdate with
  | none => .error none w
  | some archive =>
    let stored := { w with
      encFiles := Function.update w.encFiles (archiveName archive.fileIndex) (some archive) }
    match link with
    | .up => .ok () stored
    | .down => .error (some .clientSendFile) w
    | .lost => .error (some .clientSendFile) stored

/-- The end of `delFile`: the index is sent and no reply awaited, `Server_DSSE::deleteFile`
removes the file with the index in its name. -/
def sendDeletion (link : Link) (fileIndex : Nat) : Call σ τ Key Unit := fun w =>
  match link with
  | .down => .error (some .clientDeleteFile) w
  | _ => .ok () { w with encFiles := Function.update w.encFiles (archiveName fileIndex) none }

/-! ### The operations -/

/-- `Client_DSSE::addFile`. That there is no data structure, or no such block, sets `ret`
and no more. Where the client decrypts, the result of `addToken` is not looked at. -/
def addFile (path : Str) (content : Option (List Byte)) (draws : Nat → Nat) (buckets : τ → Nat)
    (links : Links) : Call σ τ Key (Report Key) := do
  let (_, blockIndex, draws) ← requestBlockIndex cfg td path draws
  let keys ← blockKeys build cfg cr links (decide (1 < cfg.encryptBlockSize)) blockIndex
  let fetched ← requestBlockData cfg srv links.fetch blockIndex
  failWith (if fetchesAside build cfg then none else fetched)
  let (ret, encryptions) ← addToken build cfg cr td path content draws buckets keys
  failWith (if cfg.decryptAtClientSide then none else ret)
  let (ret, data) ← sendBlockData cfg srv links.update blockIndex
  failWith ret
  physical build (sendFile links.file)
  pure (.added ⟨blockIndex, data, encryptions⟩)

/-- `Client_DSSE::delFile`. The results of `delToken` and `sendBlock_data` are not looked
at. -/
def delFile (path : Str) (draws : Nat → Nat) (links : Links) : Call σ τ Key (Report Key) := do
  let w ← get
  failWith (notBuilt w)
  let (ret, blockIndex, _) ← requestBlockIndex cfg td path draws
  failWith ret
  let keys ← blockKeys build cfg cr links
    (decide (1 < cfg.encryptBlockSize) || !build.multiThread) blockIndex
  let fetched ← requestBlockData cfg srv links.fetch blockIndex
  failWith (if fetchesAside build cfg then none else fetched)
  let (fileIndex, encryptions) ← delToken cfg cr td path keys
  let (_, data) ← sendBlockData cfg srv links.update blockIndex
  physical build (sendDeletion links.file fileIndex)
  pure (.deleted fileIndex ⟨blockIndex, data, encryptions⟩)

/-- The operations, each with all it takes from outside. -/
inductive Op (τ : Type) where
  | searchKeyword (keyword : Str) (links : Links)
  | addFile (path : Str) (content : Option (List Byte)) (draws : Nat → Nat) (buckets : τ → Nat)
      (links : Links)
  | delFile (path : Str) (draws : Nat → Nat) (links : Links)

/-- The program of an operation. -/
def call : Op τ → Call σ τ Key (Report Key)
  | .searchKeyword keyword links => searchKeyword build cfg cr td srv keyword links
  | .addFile path content draws buckets links =>
    addFile build cfg cr td srv path content draws buckets links
  | .delFile path draws links => delFile build cfg cr td srv path draws links

/-- The result of a program that returns, and the state it leaves. -/
def returned {ς α : Type} : EStateM.Result (Option Err) ς α → Option (ς × Except Err α)
  | .ok a w => some (w, .ok a)
  | .error (some e) w => some (w, .error e)
  | .error none _ => none

/-- One call after the other. An error does not end the client. -/
def clientMachine : Machine (World σ τ Key) (Op τ) (Except Err (Report Key)) where
  step w op := returned (call build cfg cr td srv op w)

end Operations

end ImDsse.Seu
