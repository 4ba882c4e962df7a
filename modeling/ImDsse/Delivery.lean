import ImDsse.Deployment
import ImDsse.Remote

/-!
The index on its way to the server (`Client_DSSE::sendEncryptedIndex` and
`Client_DSSE::sendCommandOnly`).

A client on another machine than its server sends every piece file and, where the server
decrypts, the block counters, each with `sendFile`, and then has the server load them.
The names tell the pieces apart (`PieceName.ofFilename_filename`), so each arrives in the
server's directory as it is in the client's (`sendEncryptedIndex_returns`,
`ServerSite.delivered_spec`), and the load takes the server to the index that was sent
(`ServerSite.delivered_loads`).
-/

namespace ImDsse

open Kit Kit.Loop Kit.Bits Kit.Files Kit.Text

variable {σ : Type} {Key : Type}

/-! ### Names -/

/-- `gcsMatrixPiecePath` -/
def gcsMatrixPiecePath : List Byte := charBytes "../data/EIDX/".toList

/-- `gcsDataStructureFilepath` -/
def gcsDataStructureFilepath : List Byte := charBytes "../data/state/".toList

/-- `FILENAME_BLOCK_COUNTER_ARRAY` -/
def filenameBlockCounterArray : List Byte := charBytes "block_counter_arr".toList

namespace PieceName

/-- The name of a piece file. -/
def filename : PieceName → TextFile
  | .matrix m n => decimal m ++ '_' :: decimal n
  | .state m n => 'b' :: '_' :: (decimal m ++ '_' :: decimal n)

/-- The two numbers of a name. -/
def numbers (text : TextFile) : Nat × Nat :=
  (leadingNumber text, leadingNumber (text.dropWhile Char.isDigit).tail)

/-- The piece a name looks like. -/
def ofText (text : TextFile) : PieceName :=
  if text.take 2 = ['b', '_'] then .state (numbers (text.drop 2)).1 (numbers (text.drop 2)).2
  else .matrix (numbers text).1 (numbers text).2

/-- The piece with a name. -/
def ofFilename (text : TextFile) : Option PieceName :=
  if (ofText text).filename = text then some (ofText text) else none

theorem numbers_filename (m n : Nat) : numbers (decimal m ++ '_' :: decimal n) = (m, n) := by
  rw [numbers, leadingNumber_decimal m (by decide), dropWhile_decimal m (by decide), List.tail_cons,
    leadingNumber_end]

theorem ofText_filename (piece : PieceName) : ofText piece.filename = piece := by
  cases piece with
  | matrix m n =>
    -- a name of the matrix starts with a digit
    have other : (filename (.matrix m n)).take 2 ≠ ['b', '_'] := by
      intro same
      cases digits : decimal m with
      | nil => exact Nat.toDigits_ne_nil digits
      | cons c rest =>
        have digit : c.isDigit = true := isDigit_of_mem_decimal (n := m) (by rw [digits]; simp)
        rw [filename, digits, List.cons_append, List.take_succ_cons] at same
        rw [(List.cons.inj same).1] at digit
        exact absurd digit (by decide)
    rw [ofText, if_neg other, filename, numbers_filename]
  | state m n =>
    have front : (filename (.state m n)).take 2 = ['b', '_'] := rfl
    have rest : (filename (.state m n)).drop 2 = decimal m ++ '_' :: decimal n := rfl
    rw [ofText, if_pos front, rest, numbers_filename]

/-- A name tells its piece. -/
theorem ofFilename_filename (piece : PieceName) : ofFilename piece.filename = some piece := by
  rw [ofFilename, ofText_filename, if_pos rfl]

theorem narrow_filename (piece : PieceName) : Narrow piece.filename := by
  have line : Narrow ['_'] := narrow_singleton (by decide) (by decide)
  have front : Narrow ['b', '_'] := (narrow_singleton (by decide) (by decide)).append line
  have numbers (m n : Nat) : Narrow (decimal m ++ '_' :: decimal n) :=
    (narrow_decimal m).append (line.append (narrow_decimal n))
  cases piece with
  | matrix m n => exact numbers m n
  | state m n => exact front.append (numbers m n)

/-- Row and column of a piece are indices. -/
def Small : PieceName → Prop
  | .matrix m n => m < 2 ^ 64 ∧ n < 2 ^ 64
  | .state m n => m < 2 ^ 64 ∧ n < 2 ^ 64

theorem length_filename {piece : PieceName} (small : piece.Small) :
    piece.filename.length ≤ 43 := by
  cases piece with
  | matrix m n =>
    have rows := length_decimal small.1
    have cols := length_decimal small.2
    rw [filename, List.length_append, List.length_cons]
    omega
  | state m n =>
    have rows := length_decimal small.1
    have cols := length_decimal small.2
    rw [filename, List.length_cons, List.length_cons, List.length_append, List.length_cons]
    omega

/-- A piece file with its directory. -/
def path (piece : PieceName) : List Byte := gcsMatrixPiecePath ++ charBytes piece.filename

/-- The piece at a path. -/
def atPath (name : List Byte) : Option PieceName :=
  if gcsMatrixPiecePath.isPrefixOf name then
    ofFilename (byteChars (name.drop gcsMatrixPiecePath.length))
  else none

theorem atPath_path (piece : PieceName) : atPath piece.path = some piece := by
  have front : gcsMatrixPiecePath.isPrefixOf piece.path = true :=
    List.isPrefixOf_iff_prefix.mpr (List.prefix_append _ _)
  rw [atPath, if_pos front, path, List.drop_left, byteChars_charBytes (narrow_filename piece),
    ofFilename_filename]

end PieceName

/-- `block_counter_arr` with its directory. -/
def blockCounterPath : List Byte := gcsDataStructureFilepath ++ filenameBlockCounterArray

theorem PieceName.path_ne (piece : PieceName) : piece.path ≠ blockCounterPath := by
  intro same
  have front := congrArg (List.take 9) same
  rw [PieceName.path, List.take_append_of_le_length (by decide)] at front
  exact absurd front (by decide)

/-! ### Files in bytes -/

/-- The bytes of a file. -/
def fileBytes (f : File) : List Byte := toBytes f.data f.size

/-- A file with these bytes. -/
def ofContent (bytes : List Byte) : File := ⟨bytes.length, ofBytes bytes bytes.length zeroBuf⟩

/-- A file that is written out has the bytes it had. -/
theorem ofContent_fileBytes (f : File) : (ofContent (fileBytes f)).size = f.size ∧
    ∀ i, i < f.size → (ofContent (fileBytes f)).data i = f.data i := by
  refine ⟨length_toBytes _ _, fun i inside => ?_⟩
  have read := ofBytes_toBytes f.data f.size zeroBuf i
  rw [if_pos inside] at read
  rw [ofContent, fileBytes, length_toBytes]
  exact read

/-- A file whose size an `off_t` can hold. The size of another is not found. -/
def sizedFile (bytes : List Byte) : Option SizedFile :=
  if h : bytes.length < 2 ^ 63 then some ⟨bytes, h⟩ else none

theorem sizedFile_eq {bytes : List Byte} (small : bytes.length < 2 ^ 63) :
    sizedFile bytes = some ⟨bytes, small⟩ := dif_pos small

/-- What an upload finds in the directories of a client. -/
def indexFiles (pieces : PieceFiles) (blockCounterFile : TextFile) : LocalFiles := fun name =>
  if name = blockCounterPath then sizedFile (charBytes blockCounterFile)
  else (PieceName.atPath name).bind fun piece => (pieces piece).bind fun f => sizedFile (fileBytes f)

theorem indexFiles_piece {pieces : PieceFiles} {piece : PieceName} {f : File}
    (file : pieces piece = some f) (blockCounterFile : TextFile) :
    indexFiles pieces blockCounterFile piece.path = sizedFile (fileBytes f) := by
  rw [indexFiles, if_neg piece.path_ne, PieceName.atPath_path, Option.bind_some, file,
    Option.bind_some]

theorem indexFiles_counters (pieces : PieceFiles) (blockCounterFile : TextFile) :
    indexFiles pieces blockCounterFile blockCounterPath = sizedFile (charBytes blockCounterFile) :=
  if_pos rfl

/-! ### A server with its files -/

/-- A server, and the text of `block_counter_arr` in its `gcsDataStructureFilepath`. -/
structure ServerSite (σ : Type) where
  server : σ
  blockCounterFile : TextFile

section Site

variable (cfg : Config) (S : Storage σ BlockKey) (setFiles : σ → PieceFiles → σ)

/-- A file is written. What is written under a name of no file of the index is read by
nothing. -/
def ServerSite.write (h : ServerSite σ) (name content : List Byte) : ServerSite σ :=
  if name = blockCounterPath then { h with blockCounterFile := byteChars content }
  else match PieceName.atPath name with
    | some piece =>
      { h with
        server := setFiles h.server
          (Function.update (S.files h.server) piece (some (ofContent content))) }
    | none => h

/-- The index and the files under the loop of the server. `opens` says which files
`fopen` opens for writing. -/
def siteBackend (opens : List Byte → Bool) : Backend (ServerSite σ) BlockKey where
  index :=
    { step := fun h c => (S.machine.step h.server c).map fun (s, r) => ({ h with server := s }, r) }
  loadState h := (S.loadState h.server h.blockCounterFile).map fun s => { h with server := s }
  saveState h := (S.saveState h.server).map fun s =>
    { server := s
      blockCounterFile :=
        if cfg.decryptAtClientSide then h.blockCounterFile
        else writeArray cfg.numBlocks (S.index h.server).blockCounterArr }
  token := bufferToken
  opens _ name := opens name
  write := ServerSite.write S setFiles
  resultFile _ _ := none

end Site

/-! ### The client -/

/-- `CMD_LOADSTATE` -/
def cmdLoadState : Nat := 0x11

/-- `CMD_SAVESTATE` -/
def cmdSaveState : Nat := 0x12

/-- The bytes of an `int`. -/
def intPart (cmd : Nat) : Part := (List.range 4).map fun i => BitVec.ofNat 8 (cmd / 256 ^ i)

/-- The pieces of a grid in the order they are sent. -/
def Grid.sent (g : Grid) : List PieceName :=
  (List.range (g.cols / g.pieceCol)).flatMap fun i =>
    (List.range (iterations g.rows g.pieceRow)).map fun k =>
      g.name (k * g.pieceRow) (i * g.pieceCol)

/-- The pieces that are sent. -/
def Config.sentPieces (cfg : Config) : List PieceName :=
  cfg.matrixGrid.sent ++ if cfg.decryptAtClientSide then [] else cfg.stateGrid.sent

section Client

variable {τ : Type}

/-- `Client_DSSE::sendCommandOnly` -/
def sendCommandOnly (cmd : Nat) : Talk τ Part Unit := do
  let _ ← Talk.ask (intPart cmd) []
  pure ()

/-- A piece file is sent. -/
def sendPiece (piece : PieceName) : Talk LocalFiles Part Unit := do
  let _ ← sendFile (charBytes piece.filename) gcsMatrixPiecePath cmdSendDataStructure
  pure ()

/-- `Client_DSSE::sendEncryptedIndex`, for a server on another machine. -/
def sendEncryptedIndex (cfg : Config) : Talk LocalFiles Part Unit := do
  cfg.sentPieces.forM sendPiece
  if cfg.decryptAtClientSide then pure ()
  else
    let _ ← sendFile filenameBlockCounterArray gcsDataStructureFilepath cmdSendDataStructure
    pure ()

end Client

/-! ### One file -/

section File

variable {b : Backend σ BlockKey} {files : LocalFiles} {filename path : List Byte}
  {file : SizedFile} {s : σ}

/-- A file that opens on both sides is sent whole. -/
theorem sendFile_returns (held : files (cStr (path ++ filename)) = some file)
    (nonempty : 0 < file.bytes.length) (short : (path ++ filename).length < socketBufferSize)
    (opens : b.opens s (cStr (path ++ filename)) = true) :
    Meeting.Returns (Remote.loop b) (sendFile filename path cmdSendDataStructure) files s 0 files
      (b.write s (cStr (path ++ filename)) file.bytes) := by
  intro α f buffer
  refine ⟨recvInto buffer (commandPart cmdSendDataStructure), ?_⟩
  have opened : (files (cStr (path ++ filename))).map (files, ·) = some (files, file) :=
    congrArg (Option.map (files, ·)) held
  have size : partNat (numberPart file.bytes.length) = file.bytes.length :=
    partNat_numberPart (Nat.lt_trans file.size_lt (by decide))
  refine (Meeting.Goes.work opened).trans ?_
  -- the name
  have named : Meeting.Serves (Remote.loop b) (Remote.loop b buffer) s
      (commandPart cmdSendDataStructure, [cStr (path ++ filename)]) [cmdSuccess]
      (receiveSizeCalls b (cStr (path ++ filename)) some >>= fun _ =>
        pure (recvInto buffer (commandPart cmdSendDataStructure))) s :=
    fun replies => server_named (isCString_recvInto short) (cString_recvInto short) opens
  refine (Meeting.Goes.ask (f := fun _ => sendData file >>= f) named).trans ?_
  -- the size
  have sized : Meeting.Serves (Remote.loop b)
      (receiveSizeCalls b (cStr (path ++ filename)) some >>= fun _ =>
        pure (recvInto buffer (commandPart cmdSendDataStructure))) s
      (numberPart file.bytes.length, []) [cmdSuccess]
      (receiveDataCalls b (cStr (path ++ filename)) some (partNat (numberPart file.bytes.length)) >>=
        fun _ => pure (recvInto buffer (commandPart cmdSendDataStructure))) s :=
    fun replies => server_sized (numberPart file.bytes.length)
  refine (Meeting.Goes.ask (f := fun _ => (do
    sendContent file.bytes.length 0 file.bytes
    .recv fun _ => pure 0) >>= f) sized).trans ?_
  -- the file
  apply Meeting.Goes.call
  intro requests
  obtain ⟨first, rest, fills, content, sends⟩ :=
    Upload.reaches_content files nonempty (fun _ => f 0) requests
  have goes : some (b.write s (cStr (path ++ filename))
      (fileContent file.bytes.length (first :: rest))) =
        some (b.write s (cStr (path ++ filename)) file.bytes) := by rw [content]
  have reads : Meeting.Reads (fun _ => f 0) files [cmdSuccess] (f 0) files :=
    Meeting.reads_single _ _
  refine ⟨(first, rest), [cmdSuccess], ?_, fun replies => ?_, reads⟩
  · rw [Talk.bind_assoc]
    exact sends
  · rw [size]
    exact server_filled fills goes

end File

/-! ### The whole index -/

/-- Every file of the index has a size that an `off_t` can hold. -/
structure Config.Sendable (cfg : Config) : Prop where
  matrix : cfg.matrixPieceRowSize * cfg.matrixPieceColSize < 2 ^ 63
  state : cfg.decryptAtClientSide = false →
    cfg.blockStatePieceRowSize * cfg.blockStatePieceColSize < 2 ^ 63
  counters : cfg.decryptAtClientSide = false → cfg.numBlocks * 21 < 2 ^ 63

/-- What an upload asks of a server: its directory can be written from outside, a load
leaves it alone, and whether a save goes on does not depend on what the server holds. -/
structure Storage.Receives {S : Storage σ Key} {cfg : Config} {cr : Cipher Key}
    (restores : S.Restores cfg cr) where
  setFiles : σ → PieceFiles → σ
  files : ∀ s files, S.files (setFiles s files) = files
  alive : ∀ {s} files, restores.Alive s → restores.Alive (setFiles s files)
  loads : ∀ {s text s'}, S.loadState s text = some s' → S.files s' = S.files s
  saves : ∀ {s s₁} s', S.saveState s = some s₁ → ∃ s₁', S.saveState s' = some s₁'

section Servers

variable {cfg : Config} (pieces : cfg.InPieces)

/-- Uploads to the server in memory. -/
def ramReceives (cr : Cipher Key) (inMemory : cfg.InMemory) :
    Storage.Receives (ramRestores pieces cr inMemory) where
  setFiles p files := { p with files := files }
  files _ _ := rfl
  alive _ allocated := allocated
  loads := by
    intro p text p' load
    obtain ⟨s, -, rfl⟩ := Option.map_eq_some_iff.mp load
    rfl
  saves := by
    intro p p₁ p' _
    obtain ⟨files, saved⟩ := RamServer.saveState_goes_on pieces inMemory p'.server p'.files
    exact ⟨_, congrArg (Option.map _) saved⟩

/-- Uploads to the server on disk. -/
def diskReceives (onDisk : cfg.OnDisk) (cr : Cipher Key) :
    Storage.Receives (diskRestores pieces onDisk cr) where
  setFiles s files := { s with files := files }
  files _ _ := rfl
  alive _ _ := trivial
  loads := by
    intro s text s' load
    cases load
    unfold DiskServer.loadState
    split <;> rfl
  saves s' _ := ⟨s', rfl⟩

end Servers

/-- A name without a null is a C string. -/
theorem cStr_eq {name : List Byte} (text : ∀ b ∈ name, b ≠ 0) : cStr name = name :=
  List.takeWhile_eq_self_iff.mpr fun b mem => decide_eq_true (text b mem)

theorem PieceName.path_ne_zero (piece : PieceName) : ∀ b ∈ piece.path, b ≠ 0 := by
  intro b mem
  rcases List.mem_append.mp mem with mem | mem
  · have directory : ∀ b ∈ gcsMatrixPiecePath, b ≠ 0 := by decide
    exact directory b mem
  · exact charBytes_ne_zero piece.narrow_filename b mem

section Site

variable {S : Storage σ BlockKey} {setFiles : σ → PieceFiles → σ} {h : ServerSite σ}
  {content : List Byte}

theorem ServerSite.write_piece (piece : PieceName) : h.write S setFiles piece.path content =
    { h with
      server := setFiles h.server
        (Function.update (S.files h.server) piece (some (ofContent content))) } := by
  rw [ServerSite.write, if_neg piece.path_ne, PieceName.atPath_path]

theorem ServerSite.write_counters : h.write S setFiles blockCounterPath content =
    { h with blockCounterFile := byteChars content } := if_pos rfl

variable (S setFiles) in
/-- The server after it has received a piece. -/
def ServerSite.receive (pieces : PieceFiles) (h : ServerSite σ) (piece : PieceName) : ServerSite σ :=
  h.write S setFiles piece.path (((pieces piece).map fileBytes).getD [])

/-- A piece is sent whole. -/
theorem sendPiece_returns {cfg : Config} {opens : List Byte → Bool} {pieces : PieceFiles}
    {blockCounterFile : TextFile} {piece : PieceName} {f : Kit.Files.File}
    (file : pieces piece = some f) (small : piece.Small) (some_ : 0 < f.size)
    (sized : f.size < 2 ^ 63) (opened : opens piece.path = true) :
    Meeting.Returns (Remote.loop (siteBackend cfg S setFiles opens)) (sendPiece piece)
      (indexFiles pieces blockCounterFile) h () (indexFiles pieces blockCounterFile)
      (h.receive S setFiles pieces piece) := by
  have name : cStr (gcsMatrixPiecePath ++ charBytes piece.filename) = piece.path :=
    cStr_eq piece.path_ne_zero
  have length : (fileBytes f).length = f.size := length_toBytes _ _
  have held : indexFiles pieces blockCounterFile
      (cStr (gcsMatrixPiecePath ++ charBytes piece.filename)) =
        some ⟨fileBytes f, length ▸ sized⟩ := by
    rw [name, indexFiles_piece file, sizedFile_eq (length ▸ sized)]
  have short : (gcsMatrixPiecePath ++ charBytes piece.filename).length < socketBufferSize := by
    have characters := PieceName.length_filename small
    have directory : gcsMatrixPiecePath.length = 13 := rfl
    have room : socketBufferSize = 256 := rfl
    rw [List.length_append, length_charBytes]
    omega
  have opens' : (siteBackend cfg S setFiles opens).opens h
      (cStr (gcsMatrixPiecePath ++ charBytes piece.filename)) = true := by
    rw [name]
    exact opened
  have sent := sendFile_returns held (length.symm ▸ some_) short opens'
  rw [name] at sent
  have content : h.receive S setFiles pieces piece =
      (siteBackend cfg S setFiles opens).write h piece.path (fileBytes f) := by
    rw [ServerSite.receive, file]
    rfl
  rw [content]
  exact sent.bind (.pure ())

end Site

/-! ### The pieces that are sent -/

/-- The pieces of a grid are sent. -/
theorem Grid.Even.mem_sent {g : Grid} (even : g.Even) {piece : PieceName} :
    piece ∈ g.sent ↔ ∃ k l, k * g.pieceRow < g.rows ∧ l * g.pieceCol < g.cols ∧
      g.name (k * g.pieceRow) (l * g.pieceCol) = piece := by
  rw [Grid.sent, iterations_of_dvd even.rows]
  simp only [List.mem_flatMap, List.mem_map, List.mem_range]
  constructor
  · rintro ⟨l, hl, k, hk, rfl⟩
    obtain ⟨row, rowPos⟩ := even.row_lt hk
    obtain ⟨col, colPos⟩ := even.col_lt hl
    exact ⟨k, l, by omega, by omega, rfl⟩
  · rintro ⟨k, l, hk, hl, rfl⟩
    refine ⟨l, ?_, k, ?_, rfl⟩
    · exact (Nat.lt_div_iff_mul_lt' even.cols l).mpr (by rwa [Nat.mul_comm])
    · exact (Nat.lt_div_iff_mul_lt' even.rows k).mpr (by rwa [Nat.mul_comm])

/-- A piece of a grid that is there can be sent. -/
theorem Grid.Formed.sends {g : Grid} {files : PieceFiles} {piece : PieceName} (even : g.Even)
    (formed : g.Formed files) (rows : g.rows < 2 ^ 64) (cols : g.cols < 2 ^ 64)
    (size : g.pieceRow * g.pieceCol < 2 ^ 63)
    (small : ∀ m n, m < 2 ^ 64 → n < 2 ^ 64 → (g.name m n).Small) (mem : piece ∈ g.sent) :
    ∃ f, files piece = some f ∧ piece.Small ∧ 0 < f.size ∧ f.size < 2 ^ 63 := by
  obtain ⟨k, l, hk, hl, rfl⟩ := even.mem_sent.mp mem
  obtain ⟨f, file, length⟩ := formed k l hk hl
  refine ⟨f, file, small _ _ (by omega) (by omega), ?_, ?_⟩
  · rw [length]
    exact Nat.mul_pos (even.pieceRow_pos hk) (even.pieceCol_pos hl)
  · rwa [length]

section Sent

variable {cfg : Config} (pieces : cfg.InPieces) {files files' : PieceFiles}
include pieces

/-- Every piece that is sent is there. -/
theorem sentPieces_there (bounds : cfg.Addressable) (sendable : cfg.Sendable)
    (matrix : cfg.matrixGrid.Formed files)
    (state : cfg.decryptAtClientSide = false → cfg.stateGrid.Formed files) {piece : PieceName}
    (mem : piece ∈ cfg.sentPieces) :
    ∃ f, files piece = some f ∧ piece.Small ∧ 0 < f.size ∧ f.size < 2 ^ 63 := by
  have small (m n : Nat) (rows : m < 2 ^ 64) (cols : n < 2 ^ 64) :
      (PieceName.matrix m n).Small ∧ (PieceName.state m n).Small := ⟨⟨rows, cols⟩, rows, cols⟩
  rcases List.mem_append.mp mem with mem | mem
  · have cols : cfg.matrixColSize < 2 ^ 64 :=
      Nat.lt_of_le_of_lt (Nat.div_le_self _ 8) bounds.files
    exact matrix.sends pieces.matrixGrid_even bounds.keywords cols sendable.matrix
      (fun m n rows cols => (small m n rows cols).1) mem
  · cases build : cfg.decryptAtClientSide with
    | true =>
      rw [build, if_pos rfl] at mem
      cases mem
    | false =>
      rw [build, if_neg (by decide)] at mem
      have cols : cfg.numBlocks / 8 < 2 ^ 64 :=
        Nat.lt_of_le_of_lt (Nat.div_le_self _ 8)
          (Nat.lt_of_le_of_lt (Nat.div_le_self _ cfg.encryptBlockSize) bounds.files)
      exact (state build).sends cfg.stateGrid_even bounds.keywords cols (sendable.state build)
        (fun m n rows cols => (small m n rows cols).2) mem

/-- A directory that has every piece that is sent has the same pieces. -/
theorem sameFiles_of_sent (same : ∀ piece ∈ cfg.sentPieces, ∀ f, files piece = some f →
      ∃ f', files' piece = some f' ∧ f'.size = f.size ∧ ∀ i, i < f.size → f'.data i = f.data i) :
    SameFiles cfg files files' where
  matrix k l hk hl f file := by
    have mem := pieces.matrixGrid_even.mem_sent.mpr ⟨k, l, hk, hl, rfl⟩
    exact same _ (List.mem_append_left _ mem) f file
  state server k l hk hl f file := by
    have mem := cfg.stateGrid_even.mem_sent.mpr ⟨k, l, hk, hl, rfl⟩
    have sent : cfg.stateGrid.name (k * cfg.stateGrid.pieceRow) (l * cfg.stateGrid.pieceCol) ∈
        cfg.sentPieces := by
      refine List.mem_append_right _ ?_
      rw [server, if_neg (by decide)]
      exact mem
    exact same _ sent f file

end Sent

/-! ### The index -/

section Index

variable {cfg : Config} {S : Storage σ BlockKey} {cr : Cipher BlockKey} {restores : S.Restores cfg cr}
  (receives : Storage.Receives restores) {h : ServerSite σ} {files : PieceFiles}

/-- The server after an upload. -/
def ServerSite.delivered (files : PieceFiles) (blockCounterFile : TextFile) (h : ServerSite σ) :
    ServerSite σ :=
  let h := cfg.sentPieces.foldl (ServerSite.receive S receives.setFiles files) h
  if cfg.decryptAtClientSide then h
  else h.write S receives.setFiles blockCounterPath (charBytes blockCounterFile)

/-- The pieces received are in the directory, beside what was there. -/
theorem ServerSite.receive_all {sent : List PieceName}
    (there : ∀ piece ∈ sent, ∃ f, files piece = some f) :
    (∀ piece, S.files (sent.foldl (receive S receives.setFiles files) h).server piece =
      if piece ∈ sent then (files piece).map fun f => ofContent (fileBytes f)
      else S.files h.server piece) ∧
    (sent.foldl (receive S receives.setFiles files) h).blockCounterFile = h.blockCounterFile ∧
    (restores.Alive h.server →
      restores.Alive (sent.foldl (receive S receives.setFiles files) h).server) := by
  induction sent generalizing h with
  | nil => exact ⟨fun piece => (if_neg List.not_mem_nil).symm, rfl, id⟩
  | cons first sent ih =>
    obtain ⟨f, file⟩ := there first List.mem_cons_self
    have put : h.receive S receives.setFiles files first =
        { h with
          server := receives.setFiles h.server
            (Function.update (S.files h.server) first (some (ofContent (fileBytes f)))) } := by
      rw [receive, write_piece, file]
      rfl
    obtain ⟨pieces, counters, alive⟩ :=
      ih (h := h.receive S receives.setFiles files first)
        fun piece mem => there piece (List.mem_cons_of_mem first mem)
    rw [put] at pieces counters alive
    rw [List.foldl_cons, put]
    refine ⟨fun piece => ?_, counters, fun before => alive (receives.alive _ before)⟩
    rw [pieces, receives.files]
    by_cases later : piece ∈ sent
    · rw [if_pos later, if_pos (List.mem_cons_of_mem first later)]
    · rw [if_neg later]
      by_cases now : piece = first
      · rw [now, Function.update_self, if_pos List.mem_cons_self, file]
        rfl
      · rw [Function.update_of_ne now, if_neg]
        exact fun mem => (List.mem_cons.mp mem).elim now later

variable (pieces : cfg.InPieces) (bounds : cfg.Addressable) (sendable : cfg.Sendable)
  (matrix : cfg.matrixGrid.Formed files)
  (state : cfg.decryptAtClientSide = false → cfg.stateGrid.Formed files)
include pieces bounds sendable matrix state

/-- An upload leaves the pieces and the counters that were sent. -/
theorem ServerSite.delivered_spec {blockCounterFile : TextFile} (narrow : Narrow blockCounterFile) :
    SameFiles cfg files (S.files (h.delivered receives files blockCounterFile).server) ∧
      (restores.Alive h.server →
        restores.Alive (h.delivered receives files blockCounterFile).server) ∧
      (h.delivered receives files blockCounterFile).blockCounterFile =
        if cfg.decryptAtClientSide then h.blockCounterFile else blockCounterFile := by
  have there := fun piece (mem : piece ∈ cfg.sentPieces) =>
    sentPieces_there pieces bounds sendable matrix state mem
  obtain ⟨received, counters, alive⟩ := ServerSite.receive_all receives (h := h)
    fun piece mem => (there piece mem).imp fun f file => file.1
  have same : SameFiles cfg files
      (S.files (cfg.sentPieces.foldl (receive S receives.setFiles files) h).server) := by
    refine sameFiles_of_sent pieces fun piece mem f file => ?_
    rw [received, if_pos mem, file]
    exact ⟨_, rfl, ofContent_fileBytes f⟩
  unfold ServerSite.delivered
  cases build : cfg.decryptAtClientSide with
  | true => exact ⟨same, alive, counters⟩
  | false =>
    dsimp only
    rw [if_neg (by decide), if_neg (by decide), write_counters]
    exact ⟨same, alive, byteChars_charBytes narrow⟩

/-- A load of what an upload left finds the index that was sent. -/
theorem ServerSite.delivered_loads {blockCounterFile : TextFile} (narrow : Narrow blockCounterFile)
    (alive : restores.Alive h.server) {t : CellStore} (held : PiecesHold cfg files t)
    (counters : cfg.decryptAtClientSide = false → CountersHold cfg blockCounterFile t) :
    ∃ s, S.loadState (h.delivered receives files blockCounterFile).server
        (h.delivered receives files blockCounterFile).blockCounterFile = some s ∧
      restores.ref.Rel s t ∧ PiecesHold cfg (S.files s) t := by
  obtain ⟨same, alive', text⟩ := ServerSite.delivered_spec receives (h := h) pieces bounds sendable
    matrix state narrow
  have found := held.of_same pieces same
  have written : cfg.decryptAtClientSide = false →
      CountersHold cfg (h.delivered receives files blockCounterFile).blockCounterFile t := by
    intro server
    rw [text, server, if_neg (by decide)]
    exact counters server
  obtain ⟨s, loaded, rel, kept⟩ := restores.load (alive' alive) found written
  exact ⟨s, loaded, rel, kept.symm ▸ found⟩

/-- The client sends its index. -/
theorem sendEncryptedIndex_returns {opens : List Byte → Bool}
    (opened : ∀ piece ∈ cfg.sentPieces, opens piece.path = true)
    (openedCounters : cfg.decryptAtClientSide = false → opens blockCounterPath = true)
    {arr : Nat → Nat} (fits : ∀ b, b < cfg.numBlocks → arr b < 2 ^ 64)
    (some_ : cfg.decryptAtClientSide = false → cfg.numBlocks ≠ 0) :
    Meeting.Returns (Remote.loop (siteBackend cfg S receives.setFiles opens)) (sendEncryptedIndex cfg)
      (indexFiles files (writeArray cfg.numBlocks arr)) h ()
      (indexFiles files (writeArray cfg.numBlocks arr))
      (h.delivered receives files (writeArray cfg.numBlocks arr)) := by
  have each (h : ServerSite σ) (piece : PieceName) (mem : piece ∈ cfg.sentPieces) :
      Meeting.Returns (Remote.loop (siteBackend cfg S receives.setFiles opens)) (sendPiece piece)
        (indexFiles files (writeArray cfg.numBlocks arr)) h ()
        (indexFiles files (writeArray cfg.numBlocks arr))
        (h.receive S receives.setFiles files piece) := by
    obtain ⟨f, file, small, positive, sized⟩ :=
      sentPieces_there pieces bounds sendable matrix state mem
    exact sendPiece_returns file small positive sized (opened piece mem)
  refine (Meeting.Returns.forM _ each h).bind ?_
  unfold ServerSite.delivered
  cases build : cfg.decryptAtClientSide with
  | true => exact .pure ()
  | false =>
    have name : cStr (gcsDataStructureFilepath ++ filenameBlockCounterArray) = blockCounterPath :=
      cStr_eq (by decide)
    have length : (charBytes (writeArray cfg.numBlocks arr)).length < 2 ^ 63 := by
      rw [length_charBytes]
      exact Nat.lt_of_le_of_lt (length_writeArray fits) (sendable.counters build)
    have held : indexFiles files (writeArray cfg.numBlocks arr)
        (cStr (gcsDataStructureFilepath ++ filenameBlockCounterArray)) =
          some ⟨charBytes (writeArray cfg.numBlocks arr), length⟩ := by
      rw [name, indexFiles_counters, sizedFile_eq length]
    have nonempty : 0 < (charBytes (writeArray cfg.numBlocks arr)).length := by
      rw [length_charBytes]
      exact List.length_pos_iff.mpr (writeArray_ne_nil (some_ build) arr)
    have opens' (h : ServerSite σ) : (siteBackend cfg S receives.setFiles opens).opens h
        (cStr (gcsDataStructureFilepath ++ filenameBlockCounterArray)) = true := by
      rw [name]
      exact openedCounters build
    have sent := sendFile_returns held nonempty (by decide)
      (opens' (cfg.sentPieces.foldl (ServerSite.receive S receives.setFiles files) h))
    rw [name] at sent
    exact sent.bind (.pure ())

omit receives pieces bounds sendable matrix state

/-- The bytes of a command are the command that is received. -/
theorem readNat_intPart {cmd : Nat} (small : cmd < 256 ^ 4) (buffer : Buf) :
    readNat 4 (recvInto buffer (intPart cmd)) = cmd := by
  refine (readNat_eq fun i inside => ?_).trans (Nat.mod_eq_of_lt small)
  have room : i < socketBufferSize := Nat.lt_of_lt_of_le inside (by decide)
  rw [recvInto, ofBytes, if_pos room, intPart, List.getD_eq_getElem?_getD, List.getElem?_map,
    List.getElem?_range inside]
  rfl

/-- A command alone is answered once its work is done. -/
theorem sendCommandOnly_returns {τ : Type} {b : Backend σ BlockKey} {cmd : Nat}
    {f : σ → Option σ} {s s' : σ} (small : cmd < 256 ^ 4)
    (selected : b.switch false cmd = some (Backend.inlineCase f)) (works : f s = some s') (c : τ) :
    Meeting.Returns (Remote.loop b) (sendCommandOnly cmd) c s () c s' := by
  have serves (buffer : Buf) : Meeting.Serves (Remote.loop b) (Remote.loop b buffer) s
      (intPart cmd, []) [cmdSuccess] (Remote.loop b (recvInto buffer (intPart cmd))) s' := by
    have answers : (f s).map (·, [(cmdSuccess, false)]) = some (s', [(cmdSuccess, false)]) := by
      rw [works]
      rfl
    have command := readNat_intPart small buffer
    exact Remote.serves_exchange (command.symm ▸ selected) rfl answers
  exact .bind (.ask fun buffer => ⟨_, serves buffer⟩) (.pure ())

end Index

end ImDsse
