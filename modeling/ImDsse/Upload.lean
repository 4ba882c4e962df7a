import ImDsse.Kit.Talk
import ImDsse.StartLoop
import ImDsse.Tables

/-!
A file sent to the server (`Client_DSSE::sendFile` and `Server_DSSE::start`).

Both sides are talks here, so that they run beside each other: the client behind a
request socket, the server's loop behind a reply socket, and a line each way. The
server's talk is its loop call by call (`act_turnCalls`).

The client cuts the file into parts, each of `SOCKET_BUFFER_SIZE` bytes but the last,
and the server counts the bytes it receives. The parts fill the size announced before
them and not more (`sendContent_act`), so every run ends with the file on the server
and neither side in the middle of anything (`upload_lossless`).
-/

namespace ImDsse

open Kit Kit.Bits

/-! ### The server, call by call -/

section Server

variable {σ Key : Type}

/-- `fwrite`, and what comes after it. -/
def fwriteCalls {α : Type} (buffer : Buf) (len : Nat) (content : List Byte)
    (next : List Byte → Talk σ Part α) : Talk σ Part α :=
  if len ≤ socketBufferSize then next (content ++ toBytes buffer len) else .stray

/-- `receiveContent`, call by call. -/
def receiveContentCalls (size : Nat) : Nat → Nat → Buf → List Byte → Talk σ Part (List Byte)
  | 0, _, _, content => pure content
  | fuel + 1, received, buffer, content =>
    if received < size then
      .recv fun part =>
        let buffer := recvInto buffer part
        let received := received + part.length
        if part.length = 0 then pure content
        else if size ≤ received then
          fwriteCalls buffer (part.length - (received - size)) content pure
        else
          fwriteCalls buffer part.length content fun content =>
            .hasMore fun more =>
              if more then receiveContentCalls size fuel received buffer content
              else pure content
    else pure content

/-- `receiveOpened`, call by call: from its file on. -/
def receiveDataCalls (b : Backend σ Key) (name : List Byte) (after : σ → Option σ)
    (size : Nat) : Talk σ Part Unit := do
  let content ← receiveContentCalls size size 0 zeroBuf []
  .work (fun s => some (b.write s name content, ())) fun _ =>
    .send cmdSuccess false <| .work (fun s => (after s).map (·, ())) pure

/-- From its size on. -/
def receiveSizeCalls (b : Backend σ Key) (name : List Byte) (after : σ → Option σ) :
    Talk σ Part Unit :=
  .recv fun size => .send cmdSuccess false <| receiveDataCalls b name after (partNat size)

/-- `receiveOpened`, call by call. -/
def receiveOpenedCalls (b : Backend σ Key) (name : List Byte) (after : σ → Option σ) :
    Talk σ Part Unit :=
  .send cmdSuccess false <| receiveSizeCalls b name after

/-- `receiveFile`, call by call: from the name on. -/
def receiveNamedCalls (b : Backend σ Key) (name : List Byte) (exits : Bool)
    (after : σ → Option σ) : Talk σ Part Unit :=
  .work (fun s => some (s, b.opens s name)) fun opened =>
    if opened then receiveOpenedCalls b name after
    else if exits then .work (fun _ => none) pure
    else pure ()

/-- `receiveFile`, call by call. -/
def receiveFileCalls (b : Backend σ Key) (path : List Byte) (exits : Bool)
    (after : List Byte → σ → Option σ) : Talk σ Part Unit :=
  .recv fun part =>
    if isCString (recvInto zeroBuf part) then
      receiveNamedCalls b (path ++ cString (recvInto zeroBuf part)) exits
        (after (cString (recvInto zeroBuf part)))
    else .stray

/-- `Handler.act`, call by call. -/
def Handler.calls (b : Backend σ Key) : Handler σ → Talk σ Part Unit
  | .exchange parts f => do
    let received ← Talk.recvParts parts
    .work (f received) Talk.sendParts
  | .upload path exits after => receiveFileCalls b path exits after
  | .silent parts f => do
    let received ← Talk.recvParts parts
    .work (fun s => (f received s).map (·, ())) pure

/-- `dispatch`, call by call. -/
def dispatchCalls (b : Backend σ Key) : Option (Handler σ) → Talk σ Part Unit
  | some handler => handler.calls b
  | none => pure ()

/-- `turn`, call by call. -/
def turnCalls (b : Backend σ Key) (switch : Nat → Option (Handler σ)) (buffer : Buf) :
    Talk σ Part Buf :=
  .recv fun part => do
    dispatchCalls b (switch (readNat 4 (recvInto buffer part)))
    pure (recvInto buffer part)

theorem act_fwriteCalls {α : Type} (buffer : Buf) (len : Nat) (content : List Byte)
    (next : List Byte → Talk σ Part α) :
    (fwriteCalls buffer len content next).act Act.calls =
      fwrite buffer len content >>= fun content => (next content).act Act.calls := by
  unfold fwriteCalls fwrite
  split
  · exact (pure_bind (content ++ toBytes buffer len) fun content => (next content).act Act.calls).symm
  · rfl

theorem act_receiveContentCalls (size fuel received : Nat) (buffer : Buf) (content : List Byte) :
    (receiveContentCalls size fuel received buffer content : Talk σ Part _).act Act.calls =
      receiveContent size fuel received buffer content := by
  induction fuel generalizing received buffer content with
  | zero => rfl
  | succ fuel ih =>
    rw [receiveContentCalls, receiveContent]
    split
    · refine bind_congr fun part => ?_
      dsimp only
      split
      · rfl
      · split
        · exact (act_fwriteCalls _ _ _ _).trans (bind_pure _)
        · refine (act_fwriteCalls _ _ _ _).trans (bind_congr fun content => ?_)
          refine bind_congr fun more => ?_
          cases more
          · rfl
          · exact ih _ _ _
    · rfl

theorem act_receiveOpenedCalls (b : Backend σ Key) (name : List Byte) (after : σ → Option σ) :
    (receiveOpenedCalls b name after).act Act.calls = receiveOpened b name after := by
  refine bind_congr fun _ => bind_congr fun size => bind_congr fun _ => ?_
  refine Talk.act_bind _ _ |>.trans ?_
  rw [act_receiveContentCalls]
  refine bind_congr fun content => bind_congr fun _ => bind_congr fun _ => ?_
  exact Talk.act_work _

theorem act_receiveNamedCalls (b : Backend σ Key) (name : List Byte) (exits : Bool)
    (after : σ → Option σ) (opened : Bool) :
    (if opened then receiveOpenedCalls b name after
      else if exits then .work (fun _ => none) pure else pure () : Talk σ Part Unit).act Act.calls =
      if opened then receiveOpened b name after else if exits then Act.exit else pure () := by
  cases opened
  · cases exits <;> rfl
  · exact act_receiveOpenedCalls b _ _

theorem act_receiveFileCalls (b : Backend σ Key) (path : List Byte) (exits : Bool)
    (after : List Byte → σ → Option σ) :
    (receiveFileCalls b path exits after).act Act.calls = receiveFile b path exits after := by
  refine bind_congr fun part => ?_
  dsimp only
  split
  · exact bind_congr fun opened => act_receiveNamedCalls b _ exits _ opened
  · rfl

theorem Handler.act_calls (b : Backend σ Key) (handler : Handler σ) :
    (handler.calls b).act Act.calls = handler.act b := by
  cases handler with
  | exchange parts f =>
    refine (Talk.act_bind _ _).trans ?_
    rw [Act.act_recvParts]
    exact bind_congr fun received => bind_congr fun answer => Act.act_sendParts answer
  | upload path exits after => exact act_receiveFileCalls b path exits after
  | silent parts f =>
    refine (Talk.act_bind _ _).trans ?_
    rw [Act.act_recvParts]
    exact bind_congr fun received => Talk.act_work _

theorem act_dispatchCalls (b : Backend σ Key) (handler : Option (Handler σ)) :
    (dispatchCalls b handler).act Act.calls = dispatch b handler := by
  cases handler with
  | none => rfl
  | some handler => exact handler.act_calls b

/-- The server's talk is its loop. -/
theorem act_turnCalls (b : Backend σ Key) (switch : Nat → Option (Handler σ)) (buffer : Buf) :
    (turnCalls b switch buffer).act Act.calls = turn b switch buffer := by
  refine bind_congr fun part => ?_
  refine (Talk.act_bind _ _).trans ?_
  rw [act_dispatchCalls]
  rfl

end Server

/-! ### The client -/

/-- `CMD_SEND_DATA_STRUCTURE` -/
def cmdSendDataStructure : Nat := 0x10

/-- A file, its size an `off_t`. -/
structure SizedFile where
  bytes : List Byte
  size_lt : bytes.length < 2 ^ 63

/-- The files of a client, by their names. -/
abbrev LocalFiles := List Byte → Option SizedFile

/-- A cleared buffer with an `int` copied into it. -/
def commandPart (cmd : Nat) : Part :=
  (List.range socketBufferSize).map fun i => if i < 4 then BitVec.ofNat 8 (cmd / 256 ^ i) else 0

section Client

variable {τ : Type}

/-- The bytes of the part at `offset`. -/
def partSize (filesize offset : Nat) : Nat :=
  if socketBufferSize < filesize - offset then socketBufferSize else filesize - offset

/-- The loop that sends the file from `offset` on. `unread` is what the stream has left.
A read that comes short ends the loop. -/
def sendContent (filesize offset : Nat) (unread : List Byte) : Talk τ Part Unit :=
  if offset < filesize then
    let n := partSize filesize offset
    let buffer := unread.take n
    if buffer.length = n then
      .send buffer (decide (offset + n ≠ filesize))
        (sendContent filesize (offset + socketBufferSize) (unread.drop n))
    else pure ()
  else pure ()
termination_by filesize - offset
decreasing_by
  unfold socketBufferSize
  omega

/-- `Client_DSSE::sendFile`, from the size of the file on. -/
def sendData (file : SizedFile) : Talk LocalFiles Part Nat :=
  .send (numberPart file.bytes.length) false <| .recv fun _ => do
    sendContent file.bytes.length 0 file.bytes
    .recv fun _ => pure 0

/-- `Client_DSSE::sendFile`. A file that does not open ends the process. -/
def sendFile (filename path : List Byte) (sendingType : Nat) : Talk LocalFiles Part Nat :=
  let filenameWithPath := cStr (path ++ filename)
  .work (fun files => (files filenameWithPath).map (files, ·)) fun file =>
    .send (commandPart sendingType) true <| .send filenameWithPath false <| .recv fun _ =>
      sendData file

end Client

/-! ### What the buffers bring -/

section Buffers

theorem readNat_eq {len n : Nat} {buffer : Buf}
    (h : ∀ i, i < len → buffer i = BitVec.ofNat 8 (n / 256 ^ i)) :
    readNat len buffer = n % 256 ^ len := by
  induction len generalizing n buffer with
  | zero => rw [readNat, Nat.pow_zero, Nat.mod_one]
  | succ len ih =>
    have later : readNat len (fun i => buffer (i + 1)) = n / 256 % 256 ^ len := by
      refine ih fun i inside => ?_
      rw [h (i + 1) (Nat.succ_lt_succ inside), Nat.div_div_eq_div_mul, Nat.pow_succ']
    have first : (buffer 0).toNat = n % 256 := by
      rw [h 0 (Nat.succ_pos len), Nat.pow_zero, Nat.div_one]
      exact BitVec.toNat_ofNat n 8
    rw [readNat, later, first, Nat.pow_succ', Nat.mod_mul]

theorem recvInto_apply (buffer : Buf) (f : Nat → Byte) {i : Nat} (inside : i < socketBufferSize) :
    recvInto buffer ((List.range socketBufferSize).map f) i = f i := by
  have part : ((List.range socketBufferSize).map f).getD i (buffer i) = f i := by
    rw [List.getD_eq_getElem?_getD, List.getElem?_map, List.getElem?_range inside]
    rfl
  rw [recvInto, ofBytes, if_pos inside, part]

/-- A size that is sent is the size that is received. -/
theorem partNat_numberPart {n : Nat} (h : n < 256 ^ 8) : partNat (numberPart n) = n := by
  refine (readNat_eq fun i inside => ?_).trans (Nat.mod_eq_of_lt h)
  have room : i < socketBufferSize := Nat.lt_of_lt_of_le inside (by decide)
  rw [numberPart, recvInto_apply zeroBuf _ room, if_pos inside]

/-- A command that is sent is the command that is received. -/
theorem readNat_commandPart {cmd : Nat} (h : cmd < 256 ^ 4) (buffer : Buf) :
    readNat 4 (recvInto buffer (commandPart cmd)) = cmd := by
  refine (readNat_eq fun i inside => ?_).trans (Nat.mod_eq_of_lt h)
  have room : i < socketBufferSize := Nat.lt_of_lt_of_le inside (by decide)
  rw [commandPart, recvInto_apply buffer _ room, if_pos inside]

/-- A name shorter than the buffer is received whole. -/
theorem cString_recvInto {text : List Byte} (short : text.length < socketBufferSize) :
    cString (recvInto zeroBuf (cStr text)) = cStr text := by
  have shorter : (cStr text).length ≤ text.length := (List.takeWhile_sublist _).length_le
  obtain ⟨k, room⟩ : ∃ k, socketBufferSize = (cStr text).length + (k + 1) :=
    ⟨socketBufferSize - (cStr text).length - 1, by omega⟩
  have split : toBytes (recvInto zeroBuf (cStr text)) socketBufferSize =
      cStr text ++ (List.range (k + 1)).map
        fun i => recvInto zeroBuf (cStr text) ((cStr text).length + i) := by
    have name : toBytes (recvInto zeroBuf (cStr text)) (cStr text).length = cStr text := by
      rw [toBytes_recvInto (Nat.le_refl _) (by omega), List.take_length]
    rw [toBytes, room, List.range_add, List.map_append, List.map_map]
    exact congrArg (· ++ _) name
  -- the byte behind the name is the first that ends it
  have stop : recvInto zeroBuf (cStr text) ((cStr text).length + 0) = 0 := by
    have ended : (cStr text)[(cStr text).length + 0]? = none := List.getElem?_eq_none (Nat.le_refl _)
    rw [recvInto, ofBytes, if_pos (by omega), List.getD_eq_getElem?_getD, ended]
    rfl
  have bytes : ∀ x ∈ cStr text, decide (x ≠ 0) = true := List.all_eq_true.mp List.all_takeWhile
  rw [cString, split, List.takeWhile_append_of_pos bytes, List.range_succ_eq_map, List.map_cons,
    stop, List.takeWhile_cons_of_neg (by decide), List.append_nil]

/-- A name shorter than the buffer ends in it. -/
theorem isCString_recvInto {text : List Byte} (short : text.length < socketBufferSize) :
    isCString (recvInto zeroBuf (cStr text)) = true := by
  have inside : (cStr text).length < socketBufferSize :=
    Nat.lt_of_le_of_lt (List.takeWhile_sublist _).length_le short
  have ended : (cStr text)[(cStr text).length]? = none := List.getElem?_eq_none (Nat.le_refl _)
  have stop : recvInto zeroBuf (cStr text) (cStr text).length = 0 := by
    rw [recvInto, ofBytes, if_pos inside, List.getD_eq_getElem?_getD, ended]
    rfl
  rw [isCString, List.contains_iff_mem]
  exact List.mem_map.mpr ⟨(cStr text).length, List.mem_range.mpr inside, stop⟩

end Buffers

/-! ### The parts of a file -/

section Parts

variable {τ : Type} {files : τ} {arrived : List (List Part)} {requests : List (Part × List Part)}

/-- A read on the way through a file gets what it asks for. -/
theorem sendContent_step {filesize offset : Nat} {unread : List Byte} (inside : offset < filesize)
    (left : offset + unread.length = filesize) :
    (sendContent filesize offset unread : Talk τ Part Unit) =
      .send (unread.take (partSize filesize offset))
        (decide (offset + partSize filesize offset ≠ filesize))
        (sendContent filesize (offset + socketBufferSize)
          (unread.drop (partSize filesize offset))) := by
  have whole : (unread.take (partSize filesize offset)).length = partSize filesize offset := by
    refine List.length_take_of_le ?_
    unfold partSize
    split <;> omega
  rw [sendContent, if_pos inside, if_pos whole]

/-- The client sends what is left of the file in parts of one request, which the server
puts together to what is left of the file: before the last part some is missing, and with
it none. -/
theorem sendContent_act {filesize offset : Nat} {unread : List Byte} (inside : offset < filesize)
    (left : offset + unread.length = filesize) (sent : List Part) :
    ∃ parts last, (sendContent filesize offset unread : Talk τ Part Unit).act Ask.calls
        ⟨files, arrived, .asking sent, requests⟩ =
          .ok () ⟨files, arrived, .awaiting, requests ++ [Ask.request (sent ++ parts) last]⟩ ∧
      offset + (parts.map List.length).sum < filesize ∧ (∀ part ∈ parts, part ≠ []) ∧
      (∀ part ∈ parts ++ [last], part.length ≤ socketBufferSize) ∧
      (parts ++ [last]).flatten = unread := by
  induction missing : filesize - offset using Nat.strongRecOn
    generalizing offset unread sent with
  | ind k ih =>
    rw [sendContent_step inside left]
    by_cases more : socketBufferSize < filesize - offset
    · have size : partSize filesize offset = socketBufferSize := if_pos more
      have full : (unread.take socketBufferSize).length = socketBufferSize :=
        List.length_take_of_le (by omega)
      have follows : decide (offset + socketBufferSize ≠ filesize) = true :=
        decide_eq_true (by omega)
      have positive : 0 < socketBufferSize := by decide
      have rest : offset + socketBufferSize + (unread.drop socketBufferSize).length = filesize := by
        rw [List.length_drop]
        omega
      obtain ⟨parts, last, runs, before, nonempty, fits, content⟩ :=
        ih (filesize - (offset + socketBufferSize)) (by omega) (by omega) rest
          (sent ++ [unread.take socketBufferSize]) rfl
      rw [size, follows]
      refine ⟨unread.take socketBufferSize :: parts, last, ?_, ?_, ?_, ?_, ?_⟩
      · rw [List.append_assoc, List.singleton_append] at runs
        exact runs
      · rw [List.map_cons, List.sum_cons, full]
        omega
      · refine List.forall_mem_cons.mpr ⟨fun empty => ?_, nonempty⟩
        rw [empty] at full
        cases full
      · exact List.forall_mem_cons.mpr ⟨Nat.le_of_eq full, fits⟩
      · rw [List.cons_append, List.flatten_cons, content]
        exact List.take_append_drop socketBufferSize unread
    · have size : partSize filesize offset = unread.length := (if_neg more).trans (by omega)
      have ends : decide (offset + unread.length ≠ filesize) = false :=
        decide_eq_false fun differs => differs left
      have lastOne : (sendContent filesize (offset + socketBufferSize)
          (unread.drop unread.length) : Talk τ Part Unit) = pure () := by
        rw [sendContent, if_neg (by omega)]
      rw [size, ends, lastOne, List.take_length]
      refine ⟨[], unread, ?_, ?_, ?_, ?_, ?_⟩
      · rw [List.append_nil]
        rfl
      · exact inside
      · exact List.forall_mem_nil _
      · exact List.forall_mem_singleton.mpr (by omega)
      · exact List.flatten_singleton

end Parts

/-! ### The server's part in an upload -/

section Server

variable {σ Key : Type} {b : Backend σ Key} {sendSearchFileIndex : Bool} {s : σ} {buffer : Buf}
  {replies : List (List Part)} {name : List Byte}

/-- A server that opens the file named to it answers. -/
theorem server_opened {after : σ → Option σ} {again : Buf → Talk σ Part Buf}
    {f : Unit → Talk σ Part Buf} (opens : b.opens s name = true) :
    Reaches (Act.server again).alone
      (receiveNamedCalls b name true after >>= f, ⟨s, [], .unread [], replies⟩)
      (receiveSizeCalls b name after >>= f, ⟨s, [], .waiting, replies ++ [[cmdSuccess]]⟩) := by
  have looked : (Act.server again).step
      (receiveNamedCalls b name true after >>= f, ⟨s, [], .unread [], replies⟩) =
        some ((if b.opens s name then receiveOpenedCalls b name after
          else .work (fun _ => none) pure) >>= f, ⟨s, [], .unread [], replies⟩) := rfl
  rw [if_pos opens] at looked
  exact .step () looked (.step () rfl (.refl _))

/-- The request that names a file reaches the handler of uploads. -/
theorem server_named (ends : isCString (recvInto zeroBuf name) = true)
    (received : cString (recvInto zeroBuf name) = name)
    (opens : b.opens s name = true) :
    Reaches (Act.server (turnCalls b (b.switch sendSearchFileIndex))).alone
      (turnCalls b (b.switch sendSearchFileIndex) buffer,
        ⟨s, [(commandPart cmdSendDataStructure, [name])], .waiting, replies⟩)
      (receiveSizeCalls b name some >>= fun _ =>
          pure (recvInto buffer (commandPart cmdSendDataStructure)),
        ⟨s, [], .waiting, replies ++ [[cmdSuccess]]⟩) := by
  have taken : (Act.server (turnCalls b (b.switch sendSearchFileIndex))).step
      (turnCalls b (b.switch sendSearchFileIndex) buffer,
        ⟨s, [(commandPart cmdSendDataStructure, [name])], .waiting, replies⟩) =
      some (dispatchCalls b (b.switch sendSearchFileIndex
          (readNat 4 (recvInto buffer (commandPart cmdSendDataStructure)))) >>= fun _ =>
            pure (recvInto buffer (commandPart cmdSendDataStructure)),
        ⟨s, [], .unread [name], replies⟩) := rfl
  have selected : b.switch sendSearchFileIndex
      (readNat 4 (recvInto buffer (commandPart cmdSendDataStructure))) =
        some Backend.getEncryptedDataStructure := by
    rw [readNat_commandPart (by decide)]
    rfl
  rw [selected] at taken
  refine .step () taken ?_
  have heard : (Act.server (turnCalls b (b.switch sendSearchFileIndex))).step
      (receiveFileCalls b [] true (fun _ s => some s) >>= fun _ =>
        pure (recvInto buffer (commandPart cmdSendDataStructure)),
        ⟨s, [], .unread [name], replies⟩) =
      some ((if isCString (recvInto zeroBuf name) then
          receiveNamedCalls b (cString (recvInto zeroBuf name)) true some else .stray) >>= fun _ =>
        pure (recvInto buffer (commandPart cmdSendDataStructure)),
        ⟨s, [], .unread [], replies⟩) := rfl
  rw [if_pos ends, received] at heard
  exact .step () heard (server_opened opens)

/-- The request that sizes a file. -/
theorem server_sized {after : σ → Option σ} {again : Buf → Talk σ Part Buf}
    {f : Unit → Talk σ Part Buf} (size : Part) :
    Reaches (Act.server again).alone
      (receiveSizeCalls b name after >>= f, ⟨s, [(size, [])], .waiting, replies⟩)
      (receiveDataCalls b name after (partNat size) >>= f,
        ⟨s, [], .waiting, replies ++ [[cmdSuccess]]⟩) :=
  .step () rfl (.step () rfl (.refl _))

/-- The request that brings a file. -/
theorem server_filled {after : σ → Option σ} {again : Buf → Talk σ Part Buf} {buffer : Buf}
    {size : Nat} {first : Part} {rest : List Part} {s' : σ} (fills : Fills size (first :: rest))
    (goes : after (b.write s name (fileContent size (first :: rest))) = some s') :
    Reaches (Act.server again).alone
      (receiveDataCalls b name after size >>= fun _ => pure buffer,
        ⟨s, [(first, rest)], .waiting, replies⟩)
      (again buffer, ⟨s', [], .waiting, replies ++ [[cmdSuccess]]⟩) := by
  have received : receiveContent size size 0 zeroBuf []
      (⟨s, [(first, rest)], .waiting, replies⟩ : Party σ Part) = _ :=
    receiveContent_eq (Act.recv_coming first rest) (Nat.le_add_right size 0)
      ((Nat.zero_add _).symm ▸ fills.missing) fills.nonempty fills.fits
  have runs : (receiveDataCalls b name after size).act Act.calls
      ⟨s, [(first, rest)], .waiting, replies⟩ =
        .ok () ⟨s', [], .waiting, replies ++ [[cmdSuccess]]⟩ := by
    refine (congrFun (Talk.act_bind _ _) _).trans ?_
    rw [act_receiveContentCalls]
    refine (Prog.bind_ok received).trans ?_
    have written (content : List Byte) (socket : ReplySocket Part) :
        Act.work (fun s => some (b.write s name content, ())) ⟨s, socket⟩ =
          .ok () ⟨b.write s name content, socket⟩ := Act.work_some rfl
    refine (Prog.bind_ok (written _ _)).trans ?_
    refine (Prog.bind_ok (Act.send_last cmdSuccess)).trans ?_
    refine (congrFun (Talk.act_work _) _).trans ?_
    have finished (socket : ReplySocket Part) : Act.work (fun s => (after s).map (·, ()))
        ⟨b.write s name (fileContent size (first :: rest)), socket⟩ =
          .ok () ⟨s', socket⟩ := Act.work_some (congrArg (Option.map (·, ())) goes)
    exact finished _
  exact (Talk.reaches_of_act Act.apart _ _ runs).trans (.step () rfl (.refl _))

end Server

/-! ### Both sides -/

/-- A backend with files that hold what is written to them. -/
structure FileBackend (σ Key : Type) extends Backend σ Key where
  stored : σ → List Byte → Option (List Byte)
  stored_write : ∀ (s : σ) (name content : List Byte),
    stored (write s name content) name = some content

/-- A client behind its request socket and a server behind its reply socket. -/
abbrev Sides (σ : Type) :=
  Joint (Talk LocalFiles Part Nat × Asker LocalFiles Part) (Talk σ Part Buf × Party σ Part)

namespace Upload

variable {σ Key : Type} (b : FileBackend σ Key) (sendSearchFileIndex : Bool)

/-- The server's loop. -/
def loop : Buf → Talk σ Part Buf := turnCalls b.toBackend (b.switch sendSearchFileIndex)

/-- What moves the two sides. -/
def move : Mover → Sides σ → Option (Sides σ) :=
  Joint.move Ask.client (Act.server (loop b sendSearchFileIndex))

/-- A client that calls `sendFile`, and a server in its loop that no request waits for. -/
def start (files : LocalFiles) (filename path : List Byte) (s : σ) (buffer : Buf) : Sides σ where
  left := (sendFile filename path cmdSendDataStructure, ⟨files, [], .asking [], []⟩)
  right := (loop b sendSearchFileIndex buffer, ⟨s, [], .waiting, []⟩)
  toRight := 0
  toLeft := 0

/-- The client has returned and has no request open; the server is back in its loop and has
no request open; all that was sent has arrived. -/
structure Over (j : Sides σ) : Prop where
  returned : j.left.1 = pure 0
  asked : j.left.2.turn = .asking []
  looped : ∃ buffer, j.right.1 = loop b sendSearchFileIndex buffer
  answered : j.right.2.socket.turn = .waiting
  requests : j.left.2.requests.length = j.toRight ∧ j.right.2.socket.coming = []
  replies : j.right.2.socket.replies.length = j.toLeft ∧ j.left.2.arrived = []

variable {b sendSearchFileIndex}

theorem over_iff {j : Sides σ} : Over b sendSearchFileIndex j ↔
    ∃ files requests buffer s replies,
      j = ⟨(pure 0, ⟨files, [], .asking [], requests⟩),
        (loop b sendSearchFileIndex buffer, ⟨s, [], .waiting, replies⟩),
        requests.length, replies.length⟩ := by
  constructor
  · obtain ⟨⟨client, files, arrived, asking, requests⟩, ⟨server, s, coming, turn, replies⟩,
      toRight, toLeft⟩ := j
    rintro ⟨returned, asked, ⟨buffer, looped⟩, answered, ⟨sent, come⟩, ⟨replied, arrives⟩⟩
    dsimp only at returned asked looped answered sent come replied arrives
    subst returned asked looped answered sent come replied arrives
    exact ⟨files, requests, buffer, s, replies, rfl⟩
  · rintro ⟨files, requests, buffer, s, replies, rfl⟩
    exact ⟨rfl, rfl, ⟨buffer, rfl⟩, rfl, ⟨rfl, rfl⟩, ⟨rfl, rfl⟩⟩

theorem Over.still {j : Sides σ} (ended : Over b sendSearchFileIndex j) :
    Still (move b sendSearchFileIndex) j := by
  obtain ⟨files, requests, buffer, s, replies, rfl⟩ := over_iff.mp ended
  intro i
  cases i with
  | left => rfl
  | right => rfl
  | toRight =>
    have none : requests[requests.length]? = none := List.getElem?_eq_none (Nat.le_refl _)
    exact congrArg (Option.map _) none
  | toLeft =>
    have none : replies[replies.length]? = none := List.getElem?_eq_none (Nat.le_refl _)
    exact congrArg (Option.map _) none

theorem Over.legal {j : Sides σ} (ended : Over b sendSearchFileIndex j) :
    Joint.Legal Ask.client (Act.server (loop b sendSearchFileIndex)) j := by
  obtain ⟨files, requests, buffer, s, replies, rfl⟩ := over_iff.mp ended
  refine ⟨trivial, ?_⟩
  rintro ⟨q, ⟨⟩⟩

section Run

variable {files : LocalFiles} {filename path : List Byte} {file : SizedFile} {s : σ} {buffer : Buf}

/-- The client up to its first wait. -/
theorem client_named (held : files (cStr (path ++ filename)) = some file) (cmd : Nat) :
    Reaches Ask.client.alone
      (sendFile filename path cmd, ⟨files, [], .asking [], []⟩)
      (.recv fun _ => sendData file,
        ⟨files, [], .awaiting, [(commandPart cmd, [cStr (path ++ filename)])]⟩) := by
  have opened : (files (cStr (path ++ filename))).map (files, ·) = some (files, file) :=
    congrArg (Option.map (files, ·)) held
  exact .step () (Ask.client_work opened _ _ _ _) (.step () rfl (.step () rfl (.refl _)))

variable (files) in
/-- The client sends its file in one request and waits. -/
theorem reaches_content {α : Type} (nonempty : 0 < file.bytes.length)
    (next : Part → Talk LocalFiles Part α) (requests : List (Part × List Part)) :
    ∃ first rest, Fills file.bytes.length (first :: rest) ∧
      fileContent file.bytes.length (first :: rest) = file.bytes ∧
      Reaches Ask.client.alone
        (sendContent file.bytes.length 0 file.bytes >>= fun _ => .recv next,
          ⟨files, [], .asking [], requests⟩)
        (.recv next, ⟨files, [], .awaiting, requests ++ [(first, rest)]⟩) := by
  obtain ⟨parts, last, runs, missing, present, fits, content⟩ : ∃ parts last,
      (sendContent file.bytes.length 0 file.bytes : Talk LocalFiles Part Unit).act Ask.calls
          ⟨files, [], .asking [], requests⟩ =
        .ok () ⟨files, [], .awaiting, requests ++ [Ask.request ([] ++ parts) last]⟩ ∧
      0 + (parts.map List.length).sum < file.bytes.length ∧ (∀ part ∈ parts, part ≠ []) ∧
      (∀ part ∈ parts ++ [last], part.length ≤ socketBufferSize) ∧
      (parts ++ [last]).flatten = file.bytes :=
    sendContent_act nonempty (Nat.zero_add _) []
  have all := Ask.request_eq parts last
  have before : ((Ask.request parts last).1 :: (Ask.request parts last).2).dropLast = parts := by
    rw [all, List.dropLast_concat]
  refine ⟨(Ask.request parts last).1, (Ask.request parts last).2, ⟨?_, ?_, ?_⟩, ?_, ?_⟩
  · rw [before, ← Nat.zero_add (List.sum _)]
    exact missing
  · rw [before]
    exact present
  · rw [all]
    exact fits
  · rw [fileContent, all, content, List.take_length]
  · exact Talk.reaches_of_act Ask.apart _ _ runs

/-- A run in which the file arrives. -/
theorem reaches_over (held : files (cStr (path ++ filename)) = some file)
    (nonempty : 0 < file.bytes.length) (short : (path ++ filename).length < socketBufferSize)
    (opens : b.opens s (cStr (path ++ filename)) = true) :
    ∃ j, Reaches (move b sendSearchFileIndex)
        (start b sendSearchFileIndex files filename path s buffer) j ∧
      Over b sendSearchFileIndex j ∧
      j.right.2.state = b.write s (cStr (path ++ filename)) file.bytes := by
  have size : partNat (numberPart file.bytes.length) = file.bytes.length :=
    partNat_numberPart (Nat.lt_trans file.size_lt (by decide))
  obtain ⟨first, rest, fills, content, sends⟩ := reaches_content files nonempty
    (fun _ => pure (0 : Nat)) [(commandPart cmdSendDataStructure, [cStr (path ++ filename)]),
      (numberPart file.bytes.length, [])]
  have goes : some (b.write s (cStr (path ++ filename))
      (fileContent file.bytes.length (first :: rest))) =
        some (b.write s (cStr (path ++ filename)) file.bytes) := by rw [content]
  refine ⟨_, ?_, over_iff.mpr ⟨files, [(commandPart cmdSendDataStructure, [cStr (path ++ filename)]),
      (numberPart file.bytes.length, []), (first, rest)],
    recvInto buffer (commandPart cmdSendDataStructure), _,
    [[cmdSuccess], [cmdSuccess], [cmdSuccess]], rfl⟩, rfl⟩
  -- the name
  refine (Joint.reaches_left (client_named held _)).trans ?_
  refine .step .toRight (Joint.move_toRight rfl) ?_
  refine (Joint.reaches_right (server_named (isCString_recvInto short)
    (cString_recvInto short) opens)).trans ?_
  refine .step .toLeft (Joint.move_toLeft rfl) ?_
  -- the size
  refine .step .left (Joint.move_left rfl) ?_
  refine .step .left (Joint.move_left rfl) ?_
  refine .step .toRight (Joint.move_toRight rfl) ?_
  refine (Joint.reaches_right (server_sized _)).trans ?_
  refine .step .toLeft (Joint.move_toLeft rfl) ?_
  -- the file
  refine .step .left (Joint.move_left rfl) ?_
  refine (Joint.reaches_left sends).trans ?_
  refine .step .toRight (Joint.move_toRight rfl) ?_
  rw [size]
  refine (Joint.reaches_right (server_filled fills goes)).trans ?_
  refine .step .toLeft (Joint.move_toLeft rfl) ?_
  exact .step .left (Joint.move_left rfl) (.refl _)

end Run

/-- However the two sides and the lines between them take turns, no call is illegal, and the
run goes on to one end, where both sides are done and the file is on the server byte for
byte. A run has as many moves as any other, so none goes on for ever. -/
theorem upload_lossless (b : FileBackend σ Key) (sendSearchFileIndex : Bool) (files : LocalFiles)
    (filename path : List Byte) (file : SizedFile) (s : σ) (buffer : Buf)
    (held : files (cStr (path ++ filename)) = some file) (nonempty : 1 ≤ file.bytes.length)
    (short : (path ++ filename).length < socketBufferSize)
    (opens : b.opens s (cStr (path ++ filename)) = true) :
    ∃ total ended, Over b sendSearchFileIndex ended ∧ Still (move b sendSearchFileIndex) ended ∧
      b.stored ended.right.2.state (cStr (path ++ filename)) = some file.bytes ∧
      ∀ n j, Moves (move b sendSearchFileIndex) n
          (start b sendSearchFileIndex files filename path s buffer) j →
        Joint.Legal Ask.client (Act.server (loop b sendSearchFileIndex)) j ∧
          ∃ m, n + m = total ∧ Moves (move b sendSearchFileIndex) m j ended := by
  obtain ⟨ended, ⟨total, run⟩, isOver, state⟩ :=
    reaches_over held nonempty short opens
  refine ⟨total, ended, isOver, isOver.still, ?_, fun n j other => ?_⟩
  · rw [state]
    exact b.stored_write s _ file.bytes
  · exact Joint.settles isOver.still isOver.legal run other

/-- A server with nothing but its files. -/
def plainBackend : FileBackend (List Byte → Option (List Byte)) Unit where
  index := ⟨fun _ _ => none⟩
  loadState := some
  saveState := some
  token _ := ⟨0, (), (), false⟩
  opens _ name := name != []
  write s name content := Function.update s name (some content)
  resultFile _ _ := none
  stored s name := s name
  stored_write s name content := Function.update_self name (some content) s

/-- A file of two parts. -/
def smallFile : SizedFile := ⟨(List.range 300).map (BitVec.ofNat 8), by decide +kernel⟩

theorem upload_lossless_small :
    ∃ total ended, Over plainBackend true ended ∧ Still (move plainBackend true) ended ∧
      ended.right.2.state [0x66] = some smallFile.bytes ∧
      ∀ n j, Moves (move plainBackend true) n
          (start plainBackend true (fun _ => some smallFile) [0x66] [] (fun _ => none) zeroBuf) j →
        Joint.Legal Ask.client (Act.server (loop plainBackend true)) j ∧
          ∃ m, n + m = total ∧ Moves (move plainBackend true) m j ended :=
  upload_lossless plainBackend true (fun _ => some smallFile) [0x66] [] _ (fun _ => none)
    zeroBuf rfl (by decide +kernel) (by decide) (by decide)

end Upload

end ImDsse
