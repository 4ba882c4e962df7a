import ImDsse.Kit.Reply
import ImDsse.Server

/-!
The loop of a server over its socket (`Server_DSSE::start` and its handlers).

A turn receives the command and hands the rest of the request to the handler the
`switch` selects. Most handlers receive a fixed number of parts, work and answer; an
upload is three requests, each answered, the last as long as the file it brings. What
is under the socket, the index and the files, is a `Backend`.

`Conforms` says which requests a loop can take. A loop that is sent such requests makes
no illegal call and answers each of them (`disciplined_of_conforms`).
-/

namespace ImDsse

open Kit Kit.Bits

/-- A part of a message. -/
abbrev Part := List Byte

/-- `SOCKET_BUFFER_SIZE` -/
def socketBufferSize : Nat := 256

/-- `CMD_SUCCESS`, with the zero behind it. -/
def cmdSuccess : Part := [0x43, 0x4d, 0x44, 0x5f, 0x4f, 0x4b, 0]

/-- A part received into a buffer. zmq cuts off what does not fit. -/
def recvInto (buffer : Buf) (part : Part) : Buf := ofBytes part socketBufferSize buffer

/-- A number of `len` bytes copied from a buffer. -/
def readNat : Nat → Buf → Nat
  | 0, _ => 0
  | len + 1, buffer => (buffer 0).toNat + 256 * readNat len fun i => buffer (i + 1)

/-- The string a buffer holds. -/
def cString (buffer : Buf) : List Byte := (toBytes buffer socketBufferSize).takeWhile (· ≠ 0)

/-- The string in a buffer ends in it. -/
def isCString (buffer : Buf) : Bool := (toBytes buffer socketBufferSize).contains 0

/-- A cleared buffer with a 64-bit number copied into it. -/
def numberPart (n : Nat) : Part :=
  (List.range socketBufferSize).map fun i => if i < 8 then BitVec.ofNat 8 (n / 256 ^ i) else 0

/-- The number in a part that is received into a cleared buffer. -/
def partNat (part : Part) : Nat := readNat 8 (recvInto zeroBuf part)

/-- The index and the files under a server. `resultFile` is what the result file holds
once a list is written to it, if it opens then. -/
structure Backend (σ Key : Type) where
  index : Machine σ (Command Key) (Response Key)
  loadState : σ → Option σ
  saveState : σ → Option σ
  token : Buf → SearchToken Key
  opens : σ → List Byte → Bool
  write : σ → List Byte → List Byte → σ
  resultFile : σ → List Nat → Option (List Byte)

/-- What a handler does. An exchange receives parts and answers them; an upload
receives a file for a directory, and a file that does not open ends the process or only
the handler; a silent handler receives parts and does not answer. -/
inductive Handler (σ : Type) where
  | exchange (parts : Nat) (f : List Part → σ → Option (σ × List (Part × Bool)))
  | upload (path : List Byte) (exits : Bool) (after : List Byte → σ → Option σ)
  | silent (parts : Nat) (f : List Part → σ → Option σ)

section Upload

variable {σ Key : Type}

/-- `fwrite` of bytes at the start of a buffer. More than it has are not its own. -/
def fwrite (buffer : Buf) (len : Nat) (content : List Byte) : Act σ Part (List Byte) :=
  if len ≤ socketBufferSize then pure (content ++ toBytes buffer len) else Act.stray

/-- The loop that receives a file. The fuel is no less than the bytes missing. What is received
of a part is cut off, but its length is not. -/
def receiveContent (size : Nat) : Nat → Nat → Buf → List Byte → Act σ Part (List Byte)
  | 0, _, _, content => pure content
  | fuel + 1, received, buffer, content =>
    if received < size then do
      let part ← Act.recv
      let buffer := recvInto buffer part
      let received := received + part.length
      if part.length = 0 then pure content
      else if size ≤ received then fwrite buffer (part.length - (received - size)) content
      else do
        let content ← fwrite buffer part.length content
        let more ← Act.hasMore
        if more then receiveContent size fuel received buffer content
        else pure content
    else pure content

/-- The upload of a file once it is open. -/
def receiveOpened (b : Backend σ Key) (name : List Byte) (after : σ → Option σ) :
    Act σ Part Unit := do
  Act.send cmdSuccess false
  let size ← Act.recv
  Act.send cmdSuccess false
  let content ← receiveContent (partNat size) (partNat size) 0 zeroBuf []
  Act.work fun s => some (b.write s name content, ())
  Act.send cmdSuccess false
  Act.work fun s => (after s).map (·, ())

/-- The upload of a file. A name without an end is read on behind its buffer. -/
def receiveFile (b : Backend σ Key) (path : List Byte) (exits : Bool)
    (after : List Byte → σ → Option σ) : Act σ Part Unit := do
  let part ← Act.recv
  if isCString (recvInto zeroBuf part) then
    let name := cString (recvInto zeroBuf part)
    let opened ← Act.look fun s => b.opens s (path ++ name)
    if opened then receiveOpened b (path ++ name) (after name)
    else if exits then Act.exit
    else pure ()
  else Act.stray

/-- A handler at work. -/
def Handler.act (b : Backend σ Key) : Handler σ → Act σ Part Unit
  | .exchange parts f => Act.exchange parts f
  | .upload path exits after => receiveFile b path exits after
  | .silent parts f => do
    let received ← Act.recvParts parts
    Act.work fun s => (f received s).map (·, ())

/-- The handler of a command, if it has one. -/
def dispatch (b : Backend σ Key) : Option (Handler σ) → Act σ Part Unit
  | some handler => handler.act b
  | none => pure ()

/-- One turn of `Server_DSSE::start`. The buffer keeps what the command before left in
it. -/
def turn (b : Backend σ Key) (switch : Nat → Option (Handler σ)) (buffer : Buf) :
    Act σ Part Buf := do
  let part ← Act.recv
  let buffer := recvInto buffer part
  dispatch b (switch (readNat 4 buffer))
  pure buffer

end Upload

/-! ### Uploads -/

/-- The bytes a file of `size` bytes gets from the parts sent for it. -/
def fileContent (size : Nat) (parts : List Part) : List Byte := parts.flatten.take size

/-- The parts of a file of `size` bytes: one at least is missing before the last, none before
it is empty, and each fits the buffer. -/
structure Fills (size : Nat) (parts : List Part) : Prop where
  missing : (parts.dropLast.map List.length).sum < size
  nonempty : ∀ part ∈ parts.dropLast, part ≠ []
  fits : ∀ part ∈ parts, part.length ≤ socketBufferSize

/-- What a buffer holds of a part that was received. -/
theorem toBytes_recvInto {part : Part} {len : Nat} (received : len ≤ part.length)
    (fits : len ≤ socketBufferSize) (buffer : Buf) :
    toBytes (recvInto buffer part) len = part.take len := by
  refine List.ext_getElem ?_ fun i inside inPart => ?_
  · rw [length_toBytes, List.length_take, Nat.min_eq_left received]
  · rw [length_toBytes] at inside
    have here : i < part.length := Nat.lt_of_lt_of_le inside received
    have room : i < socketBufferSize := Nat.lt_of_lt_of_le inside fits
    have byte : (toBytes (recvInto buffer part) len)[i] = recvInto buffer part i := by
      simp [toBytes]
    rw [byte, recvInto, ofBytes, if_pos room, List.getD_eq_getElem?_getD,
      List.getElem?_eq_getElem here, List.getElem_take]
    rfl

section Uploads

variable {σ Key : Type} {s : σ} {coming : List (Part × List Part)} {replies : List (List Part)}

/-- Bytes of a part that fits the buffer are written. -/
theorem fwrite_part {part : Part} {len : Nat} (received : len ≤ part.length)
    (fits : part.length ≤ socketBufferSize) (buffer : Buf) (content : List Byte) (p : Party σ Part) :
    fwrite (recvInto buffer part) len content p = .ok (content ++ part.take len) p := by
  rw [fwrite, if_pos (Nat.le_trans received fits),
    toBytes_recvInto received (Nat.le_trans received fits)]
  rfl

/-- A round of the loop, behind the part it has received. -/
theorem receiveContent_taken {size fuel received : Nat} {buffer : Buf} {content : List Byte}
    {p : Party σ Part} {part : Part} {rest : List Part} (missing : received < size)
    (taken : Act.recv p = .ok part ⟨s, coming, .unread rest, replies⟩)
    (fits : part.length ≤ socketBufferSize) :
    receiveContent size (fuel + 1) received buffer content p =
      if part.length = 0 then .ok content ⟨s, coming, .unread rest, replies⟩
      else if size ≤ received + part.length then
        .ok (content ++ part.take (size - received)) ⟨s, coming, .unread rest, replies⟩
      else if rest = [] then .ok (content ++ part) ⟨s, coming, .unread rest, replies⟩
      else receiveContent size fuel (received + part.length) (recvInto buffer part)
        (content ++ part) ⟨s, coming, .unread rest, replies⟩ := by
  rw [receiveContent, if_pos missing]
  refine (Prog.bind_ok taken).trans ?_
  split
  · rfl
  · split
    · have last : part.length - (received + part.length - size) = size - received := by omega
      rw [last]
      exact fwrite_part (by omega) fits buffer content _
    · refine (Prog.bind_ok (fwrite_part (Nat.le_refl _) fits buffer content _)).trans ?_
      rw [List.take_length]
      cases rest <;> rfl

/-- The loop that receives a file stops at the last part of what fills it. -/
theorem receiveContent_eq {size fuel received : Nat} {buffer : Buf} {content : List Byte}
    {p : Party σ Part} {part : Part} {rest : List Part}
    (taken : Act.recv p = .ok part ⟨s, coming, .unread rest, replies⟩)
    (enough : size ≤ fuel + received)
    (missing : received + ((part :: rest).dropLast.map List.length).sum < size)
    (nonempty : ∀ part' ∈ (part :: rest).dropLast, part' ≠ [])
    (fits : ∀ part' ∈ part :: rest, part'.length ≤ socketBufferSize) :
    receiveContent size fuel received buffer content p =
      .ok (content ++ fileContent (size - received) (part :: rest))
        ⟨s, coming, .unread [], replies⟩ := by
  obtain ⟨fitsHere, fitsRest⟩ := List.forall_mem_cons.mp fits
  obtain ⟨fuel, rfl⟩ : ∃ n, fuel = n + 1 := Nat.exists_eq_succ_of_ne_zero (by omega)
  induction rest generalizing fuel received buffer content p part with
  | nil =>
    rw [receiveContent_taken (by omega) taken fitsHere, fileContent, List.flatten_cons,
      List.flatten_nil, List.append_nil, if_pos rfl]
    by_cases last : part.length = 0
    · rw [if_pos last, List.length_eq_zero_iff.mp last, List.take_nil, List.append_nil]
    · rw [if_neg last]
      by_cases full : size ≤ received + part.length
      · rw [if_pos full]
      · rw [if_neg full, List.take_of_length_le (by omega)]
  | cons next rest ih =>
    rw [List.dropLast_cons_cons, List.map_cons, List.sum_cons] at missing
    rw [List.dropLast_cons_cons, List.forall_mem_cons] at nonempty
    have present : part.length ≠ 0 := fun empty => nonempty.1 (List.length_eq_zero_iff.mp empty)
    have short : ¬ size ≤ received + part.length := by omega
    have split : fileContent (size - received) (part :: next :: rest) =
        part ++ fileContent (size - (received + part.length)) (next :: rest) := by
      rw [fileContent, List.flatten_cons, List.take_append, List.take_of_length_le (by omega),
        Nat.sub_sub]
      rfl
    rw [receiveContent_taken (by omega) taken fitsHere, if_neg present, if_neg short,
      if_neg (List.cons_ne_nil next rest), split, ← List.append_assoc]
    obtain ⟨fitsNext, fitsLater⟩ := List.forall_mem_cons.mp fitsRest
    obtain ⟨fuel, rfl⟩ : ∃ n, fuel = n + 1 := Nat.exists_eq_succ_of_ne_zero (by omega)
    exact ih (Act.recv_unread next rest) (by omega) nonempty.2 fitsRest fitsNext fitsLater fuel
      (by omega)

section Opened

variable {b : Backend σ Key} {name : List Byte} {after : σ → Option σ}

/-- The start of an upload: the name is answered. -/
theorem receiveOpened_named :
    receiveOpened b name after ⟨s, coming, .unread [], replies⟩ =
      (do
        let size ← Act.recv
        Act.send cmdSuccess false
        let content ← receiveContent (partNat size) (partNat size) 0 zeroBuf []
        Act.work fun s => some (b.write s name content, ())
        Act.send cmdSuccess false
        Act.work fun s => (after s).map (·, ()))
      ⟨s, coming, .waiting, replies ++ [[cmdSuccess]]⟩ :=
  Prog.bind_ok (Act.send_last cmdSuccess)

theorem receiveOpened_noSize :
    receiveOpened b name after ⟨s, [], .unread [], replies⟩ =
      .error .noRequest ⟨s, [], .waiting, replies ++ [[cmdSuccess]]⟩ := by
  rw [receiveOpened_named]
  exact Prog.bind_error Act.recv_none

/-- The size is answered. -/
theorem receiveOpened_sized (size : Part) :
    receiveOpened b name after ⟨s, (size, []) :: coming, .unread [], replies⟩ =
      (do
        let content ← receiveContent (partNat size) (partNat size) 0 zeroBuf []
        Act.work fun s => some (b.write s name content, ())
        Act.send cmdSuccess false
        Act.work fun s => (after s).map (·, ()))
      ⟨s, coming, .waiting, replies ++ [[cmdSuccess]] ++ [[cmdSuccess]]⟩ := by
  rw [receiveOpened_named]
  refine (Prog.bind_ok (Act.recv_coming size [])).trans ?_
  exact Prog.bind_ok (Act.send_last cmdSuccess)

theorem receiveOpened_noContent {size : Part} (bytes : 0 < partNat size) :
    receiveOpened b name after ⟨s, [(size, [])], .unread [], replies⟩ =
      .error .noRequest ⟨s, [], .waiting, replies ++ [[cmdSuccess]] ++ [[cmdSuccess]]⟩ := by
  rw [receiveOpened_sized]
  obtain ⟨n, hn⟩ : ∃ n, partNat size = n + 1 := Nat.exists_eq_succ_of_ne_zero (by omega)
  refine Prog.bind_error ?_
  rw [hn, receiveContent, if_pos (Nat.succ_pos n)]
  exact Prog.bind_error Act.recv_none

/-- A file that is sent whole is answered, before what is done with it. -/
theorem receiveOpened_filled {size first : Part} {rest : List Part}
    (fills : Fills (partNat size) (first :: rest)) :
    receiveOpened b name after ⟨s, (size, []) :: (first, rest) :: coming, .unread [], replies⟩ =
      Act.work (fun s => (after s).map (·, ()))
        ⟨b.write s name (fileContent (partNat size) (first :: rest)), coming, .waiting,
          replies ++ [[cmdSuccess]] ++ [[cmdSuccess]] ++ [[cmdSuccess]]⟩ := by
  rw [receiveOpened_sized]
  generalize partNat size = bytes at fills
  have missing : 0 + ((first :: rest).dropLast.map List.length).sum < bytes := by
    rw [Nat.zero_add]
    exact fills.missing
  have content : receiveContent bytes bytes 0 zeroBuf []
      (⟨s, (first, rest) :: coming, .waiting, replies ++ [[cmdSuccess]] ++ [[cmdSuccess]]⟩ :
        Party σ Part) = _ :=
    receiveContent_eq (Act.recv_coming first rest) (Nat.le_add_right bytes 0) missing
      fills.nonempty fills.fits
  refine (Prog.bind_ok content).trans ?_
  refine (Prog.bind_ok (Act.work_some rfl)).trans ?_
  exact Prog.bind_ok (Act.send_last cmdSuccess)

end Opened

/-- An upload hands a file that opens on. -/
theorem receiveFile_opened {b : Backend σ Key} {path : List Byte} {exits : Bool}
    {after : List Byte → σ → Option σ} {part : Part}
    (ends : isCString (recvInto zeroBuf part) = true)
    (opens : b.opens s (path ++ cString (recvInto zeroBuf part)) = true) :
    receiveFile b path exits after ⟨s, coming, .unread [part], replies⟩ =
      receiveOpened b (path ++ cString (recvInto zeroBuf part))
        (after (cString (recvInto zeroBuf part))) ⟨s, coming, .unread [], replies⟩ := by
  refine (Prog.bind_ok (Act.recv_unread part [])).trans ?_
  rw [if_pos ends]
  refine (Prog.bind_ok (rfl : Act.look _ _ = _)).trans ?_
  rw [if_pos opens]

/-- A file that does not open ends a process that exits on it. -/
theorem receiveFile_unopened {b : Backend σ Key} {path : List Byte}
    {after : List Byte → σ → Option σ} {part : Part}
    (ends : isCString (recvInto zeroBuf part) = true)
    (closed : b.opens s (path ++ cString (recvInto zeroBuf part)) = false) :
    receiveFile b path true after ⟨s, coming, .unread [part], replies⟩ =
      .error .exited ⟨s, coming, .unread [], replies⟩ := by
  refine (Prog.bind_ok (Act.recv_unread part [])).trans ?_
  rw [if_pos ends]
  refine (Prog.bind_ok (rfl : Act.look _ _ = _)).trans ?_
  rw [if_neg (by rw [closed]; exact Bool.false_ne_true)]
  rfl

end Uploads

/-! ### Requests a loop can take -/

/-- What an exchange answers, where it can, is a whole reply. -/
def Handler.Whole {σ : Type} (replyable : List Part → σ → Prop) : Handler σ → Prop
  | .exchange _ f => ∀ parts s s' answer, replyable parts s → f parts s = some (s', answer) →
      WholeReply answer
  | _ => True

section Conforms

variable {σ Key : Type} (b : Backend σ Key) (switch : Nat → Option (Handler σ))
  (replyable : Nat → List Part → σ → Prop)

/-- The requests, taken by the loop in this state, are those of the commands it has: an
exchange brings the parts its handler receives, and is replyable; an upload brings a name that
ends in its buffer, of a file that opens, or ends the process, and goes on with a size
and with parts that fill it, as far as requests come. Where the handler ends the process,
nothing is asked of what follows. -/
inductive Conforms : σ → Buf → List (Part × List Part) → Prop
  | done {s : σ} {buffer : Buf} : Conforms s buffer []
  | served {s : σ} {buffer : Buf} {first : Part} {parts : List Part}
      {rest : List (Part × List Part)} {k : Nat}
      {f : List Part → σ → Option (σ × List (Part × Bool))} :
      switch (readNat 4 (recvInto buffer first)) = some (.exchange k f) →
      replyable (readNat 4 (recvInto buffer first)) parts s → parts.length = k →
      (∀ s' answer, f parts s = some (s', answer) → Conforms s' (recvInto buffer first) rest) →
      Conforms s buffer ((first, parts) :: rest)
  | unopened {s : σ} {buffer : Buf} {first name : Part} {rest : List (Part × List Part)}
      {path : List Byte} {after : List Byte → σ → Option σ} :
      switch (readNat 4 (recvInto buffer first)) = some (.upload path true after) →
      isCString (recvInto zeroBuf name) = true →
      b.opens s (path ++ cString (recvInto zeroBuf name)) = false →
      Conforms s buffer ((first, [name]) :: rest)
  | named {s : σ} {buffer : Buf} {first name : Part} {path : List Byte} {exits : Bool}
      {after : List Byte → σ → Option σ} :
      switch (readNat 4 (recvInto buffer first)) = some (.upload path exits after) →
      isCString (recvInto zeroBuf name) = true →
      b.opens s (path ++ cString (recvInto zeroBuf name)) = true →
      Conforms s buffer [(first, [name])]
  | sized {s : σ} {buffer : Buf} {first name size : Part} {path : List Byte} {exits : Bool}
      {after : List Byte → σ → Option σ} :
      switch (readNat 4 (recvInto buffer first)) = some (.upload path exits after) →
      isCString (recvInto zeroBuf name) = true →
      b.opens s (path ++ cString (recvInto zeroBuf name)) = true →
      0 < partNat size →
      Conforms s buffer [(first, [name]), (size, [])]
  | uploaded {s : σ} {buffer : Buf} {first name size content : Part} {more : List Part}
      {rest : List (Part × List Part)} {path : List Byte} {exits : Bool}
      {after : List Byte → σ → Option σ} :
      switch (readNat 4 (recvInto buffer first)) = some (.upload path exits after) →
      isCString (recvInto zeroBuf name) = true →
      b.opens s (path ++ cString (recvInto zeroBuf name)) = true →
      Fills (partNat size) (content :: more) →
      (∀ s', after (cString (recvInto zeroBuf name))
          (b.write s (path ++ cString (recvInto zeroBuf name))
            (fileContent (partNat size) (content :: more))) = some s' →
        Conforms s' (recvInto buffer first) rest) →
      Conforms s buffer ((first, [name]) :: (size, []) :: (content, more) :: rest)

variable {b switch replyable}

section Turn

variable {s : σ} {buffer : Buf} {first : Part} {parts : List Part}
  {rest : List (Part × List Part)} {replies : List (List Part)} {handler : Handler σ}
  {q : Party σ Part}

/-- A turn is what its handler does with the rest of the request. -/
theorem turn_eq (selected : switch (readNat 4 (recvInto buffer first)) = some handler) :
    turn b switch buffer ⟨s, (first, parts) :: rest, .waiting, replies⟩ =
      (do
        handler.act b
        pure (recvInto buffer first)) ⟨s, rest, .unread parts, replies⟩ := by
  refine (Prog.bind_ok (Act.recv_coming first parts)).trans ?_
  rw [selected]
  rfl

theorem turn_ok (selected : switch (readNat 4 (recvInto buffer first)) = some handler)
    (h : handler.act b ⟨s, rest, .unread parts, replies⟩ = .ok () q) :
    turn b switch buffer ⟨s, (first, parts) :: rest, .waiting, replies⟩ =
      .ok (recvInto buffer first) q :=
  (turn_eq selected).trans (Prog.bind_ok h)

theorem turn_stops {why : Stop}
    (selected : switch (readNat 4 (recvInto buffer first)) = some handler)
    (h : handler.act b ⟨s, rest, .unread parts, replies⟩ = .error why q) :
    turn b switch buffer ⟨s, (first, parts) :: rest, .waiting, replies⟩ = .error why q :=
  (turn_eq selected).trans (Prog.bind_error h)

end Turn

/-- A loop whose exchanges reply whole answers every request that it can take. -/
theorem disciplined_of_conforms
    (whole : ∀ cmd handler, switch cmd = some handler → handler.Whole (replyable cmd))
    {s : σ} {buffer : Buf} {requests : List (Part × List Part)}
    (conforms : Conforms b switch replyable s buffer requests) (replies : List (List Part)) :
    Disciplined (turn b switch) (replies.length + requests.length) buffer
      ⟨s, requests, .waiting, replies⟩ := by
  induction conforms generalizing replies with
  | done => exact .of_noRequest ⟨rfl, rfl⟩ (Prog.bind_error Act.recv_none) rfl rfl
  | @served s buffer first parts rest k f selected files count _ ih =>
    cases works : f parts s with
    | none => exact .of_exit ⟨rfl, rfl⟩ (turn_stops selected (Act.exchange_exit count works))
    | some p =>
      obtain ⟨reply, answered⟩ := Act.exchange_ok count works
        (whole _ _ selected parts s p.1 p.2 files works) rest replies
      refine .next ⟨rfl, rfl⟩ (turn_ok selected answered) ?_
      have later := ih p.1 p.2 works (replies ++ [reply])
      rwa [List.length_append, List.length_singleton, Nat.add_assoc, Nat.add_comm 1] at later
  | unopened selected ends closed =>
    exact .of_exit ⟨rfl, rfl⟩ (turn_stops selected (receiveFile_unopened ends closed))
  | @named s buffer first name path exits after selected ends opens =>
    have stop : turn b switch buffer ⟨s, [(first, [name])], .waiting, replies⟩ = _ :=
      turn_stops selected ((receiveFile_opened ends opens).trans receiveOpened_noSize)
    exact .of_noRequest ⟨rfl, rfl⟩ stop rfl (by simp)
  | @sized s buffer first name size path exits after selected ends opens bytes =>
    have stop : turn b switch buffer ⟨s, [(first, [name]), (size, [])], .waiting, replies⟩ = _ :=
      turn_stops selected ((receiveFile_opened ends opens).trans (receiveOpened_noContent bytes))
    exact .of_noRequest ⟨rfl, rfl⟩ stop rfl (by simp)
  | @uploaded s buffer first name size content more rest path exits after selected ends opens fills
      _ ih =>
    have received : receiveFile b path exits after
        ⟨s, (size, []) :: (content, more) :: rest, .unread [name], replies⟩ = _ :=
      (receiveFile_opened ends opens).trans (receiveOpened_filled fills)
    cases done : after (cString (recvInto zeroBuf name))
        (b.write s (path ++ cString (recvInto zeroBuf name))
          (fileContent (partNat size) (content :: more))) with
    | none =>
      have exits := received.trans (Act.work_none (by rw [done]; rfl))
      exact .of_exit ⟨rfl, rfl⟩ (turn_stops selected exits)
    | some s' =>
      have goes := received.trans (Act.work_some (by rw [done]; rfl))
      refine .next ⟨rfl, rfl⟩ (turn_ok selected goes) ?_
      have later := ih s' done (replies ++ [[cmdSuccess]] ++ [[cmdSuccess]] ++ [[cmdSuccess]])
      have count : replies.length + (rest.length + 1 + 1 + 1) =
          (replies ++ [[cmdSuccess]] ++ [[cmdSuccess]] ++ [[cmdSuccess]]).length + rest.length := by
        simp only [List.length_append, List.length_singleton]
        omega
      exact count ▸ later

/-- A command without a case leaves its request unanswered. -/
theorem unanswered_of_unknown {s : σ} {buffer : Buf} {first : Part}
    {rest : List (Part × List Part)} {replies : List (List Part)} {total : Nat}
    (unknown : switch (readNat 4 (recvInto buffer first)) = none) :
    ¬ Disciplined (turn b switch) total buffer ⟨s, (first, []) :: rest, .waiting, replies⟩ := by
  intro answers
  have turned : turn b switch buffer ⟨s, (first, []) :: rest, .waiting, replies⟩ =
      .ok (recvInto buffer first) ⟨s, rest, .unread [], replies⟩ := by
    refine (Prog.bind_ok (Act.recv_coming first [])).trans ?_
    rw [unknown]
    rfl
  have one := answers 1
  rw [Act.turns, Prog.bind_ok turned] at one
  cases one.1

/-- So does a silent handler. -/
theorem unanswered_of_silent {s s' : σ} {buffer : Buf} {first : Part} {parts : List Part}
    {rest : List (Part × List Part)} {replies : List (List Part)} {total k : Nat}
    {f : List Part → σ → Option σ}
    (selected : switch (readNat 4 (recvInto buffer first)) = some (.silent k f))
    (count : parts.length = k) (works : f parts s = some s') :
    ¬ Disciplined (turn b switch) total buffer ⟨s, (first, parts) :: rest, .waiting, replies⟩ := by
  subst count
  intro answers
  have handled : (Handler.silent parts.length f).act b ⟨s, rest, .unread parts, replies⟩ =
      .ok () ⟨s', rest, .unread [], replies⟩ := by
    refine (Prog.bind_ok (Act.recvParts_all parts)).trans ?_
    exact Act.work_some (by rw [works]; rfl)
  have one := answers 1
  rw [Act.turns, Prog.bind_ok (turn_ok selected handled)] at one
  cases one.1

end Conforms

/-! ### `Server_DSSE::start` -/

namespace Backend

variable {σ Key : Type} (b : Backend σ Key)

/-- A command that is answered with `CMD_SUCCESS` once its work is done. -/
def inlineCase (f : σ → Option σ) : Handler σ :=
  .exchange 0 fun _ s => (f s).map (·, [(cmdSuccess, false)])

/-- The parts `Server_DSSE::searchKeyword` sends. With `SEND_SEARCH_FILE_INDEX` they are the
size and the contents of the result file, and the process exits if it does not open. -/
def searchReply (sendSearchFileIndex : Bool) (s : σ) (lstFileId : List Nat) :
    Option (List (Part × Bool)) :=
  if sendSearchFileIndex then
    (b.resultFile s lstFileId).map fun file => [(numberPart file.length, true), (file, false)]
  else some [(numberPart lstFileId.length, false)]

/-- `Server_DSSE::searchKeyword` -/
def searchKeyword (reply : σ → List Nat → Option (List (Part × Bool))) : Handler σ :=
  .exchange 1 fun parts s =>
    match parts with
    | [tau] => (b.index.step s (.searchOperation (b.token (recvInto zeroBuf tau)))).bind
        fun (s', r) => (reply s (r.found?.getD [])).map (s', ·)
    | _ => none

/-- `Server_DSSE::getBlock_data` -/
def getBlockData (dim : Dim) : Handler σ :=
  .exchange 1 fun parts s =>
    match parts with
    | [index] =>
      (b.index.step s (match dim with
        | .row => .requestSearchData (partNat index)
        | .col => .requestBlockData (partNat index))).map
        fun (s', r) => (s', [(r.data?.getD [], false)])
    | _ => none

/-- `Server_DSSE::updateBlock_data` -/
def updateBlockData : Handler σ :=
  .exchange 2 fun parts s =>
    match parts with
    | [index, data] => (b.index.step s (.updateBlockData (partNat index) data)).map
        fun (s', _) => (s', [(cmdSuccess, false)])
    | _ => none

/-- `Server_DSSE::getEncrypted_data_structure`. The name comes with its path. -/
def getEncryptedDataStructure : Handler σ := .upload [] true fun _ s => some s

/-- The `switch` of `Server_DSSE::start` -/
def switch (sendSearchFileIndex : Bool) : Nat → Option (Handler σ)
  | 0x10 => some getEncryptedDataStructure
  | 0x11 => some (inlineCase b.loadState)
  | 0x12 => some (inlineCase b.saveState)
  | 0x20 => some (b.searchKeyword (b.searchReply sendSearchFileIndex))
  | 0x50 => some (b.getBlockData .col)
  | 0x60 => some b.updateBlockData
  | 0x51 => some (b.getBlockData .row)
  | _ => none

/-- The rows and blocks of a request are those of the index, and the server searches only where
it decrypts. The handlers take the numbers as they come, but the index has no other rows and
blocks, and elsewhere no states to search with. -/
def Inside (cfg : Config) : Nat → List Part → Prop
  | 0x20, [tau] => cfg.decryptAtClientSide = false ∧
      (Command.searchOperation (b.token (recvInto zeroBuf tau))).Valid cfg
  | 0x50, [index] => (Command.requestBlockData (partNat index) : Command Key).Valid cfg
  | 0x60, [index, data] => (Command.updateBlockData (partNat index) data : Command Key).Valid cfg
  | 0x51, [index] => (Command.requestSearchData (partNat index) : Command Key).Valid cfg
  | _, _ => True

section Whole

variable {b} {replyable : List Part → σ → Prop}

theorem inlineCase_whole (f : σ → Option σ) : (inlineCase f).Whole replyable := by
  intro parts s s' answer _ works
  obtain ⟨_, _, eq⟩ := Option.map_eq_some_iff.mp works
  cases eq
  exact wholeReply_single _

theorem searchKeyword_whole {reply : σ → List Nat → Option (List (Part × Bool))}
    (whole : ∀ parts s ids answer, replyable parts s → reply s ids = some answer →
      WholeReply answer) :
    (b.searchKeyword reply).Whole replyable := by
  intro parts s s' answer files works
  dsimp only at works
  split at works
  · obtain ⟨p, _, replies⟩ := Option.bind_eq_some_iff.mp works
    obtain ⟨_, sent, eq⟩ := Option.map_eq_some_iff.mp replies
    cases eq
    exact whole _ s _ _ files sent
  · cases works

theorem getBlockData_whole (dim : Dim) : (b.getBlockData dim).Whole replyable := by
  intro parts s s' answer _ works
  dsimp only at works
  split at works
  · obtain ⟨_, _, eq⟩ := Option.map_eq_some_iff.mp works
    cases eq
    exact wholeReply_single _
  · cases works

theorem updateBlockData_whole : b.updateBlockData.Whole replyable := by
  intro parts s s' answer _ works
  dsimp only at works
  split at works
  · obtain ⟨_, _, eq⟩ := Option.map_eq_some_iff.mp works
    cases eq
    exact wholeReply_single _
  · cases works

theorem searchReply_whole {sendSearchFileIndex : Bool} (s : σ) (ids : List Nat)
    (answer : List (Part × Bool)) (sent : b.searchReply sendSearchFileIndex s ids = some answer) :
    WholeReply answer := by
  unfold searchReply at sent
  split at sent
  · obtain ⟨file, _, rfl⟩ := Option.map_eq_some_iff.mp sent
    exact ⟨[numberPart file.length], file, rfl⟩
  · cases sent
    exact wholeReply_single _

/-- Every exchange of the loop replies whole. -/
theorem switch_whole {sendSearchFileIndex : Bool} {cmd : Nat} {handler : Handler σ}
    (selected : b.switch sendSearchFileIndex cmd = some handler) : handler.Whole replyable := by
  unfold switch at selected
  split at selected
  · cases selected
    trivial
  · cases selected
    exact inlineCase_whole _
  · cases selected
    exact inlineCase_whole _
  · cases selected
    exact searchKeyword_whole fun _ s ids answer _ => searchReply_whole s ids answer
  · cases selected
    exact getBlockData_whole _
  · cases selected
    exact updateBlockData_whole
  · cases selected
    exact getBlockData_whole _
  · cases selected

end Whole

end Backend

end ImDsse
