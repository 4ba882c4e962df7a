import ImDsse.StartLoop
import ImDsse.DiskCorrect
import ImDsse.Kit.Text

/-!
The loops of both servers take turns with their clients, the one of `IM-DSSE` and the
one of `SEU-DSSE` on Android, as long as the requests are those they have an answer to.
A command without a case, and the deletion of a file on Android, is never answered.
-/

namespace ImDsse

open Kit Kit.Bits

variable {σ Key : Type}

/-- What the Android server has beside: its directories, the removal of a file, and what
lies in memory behind the text `CMD_SUCCESS`. -/
structure SeuBackend (σ Key : Type) extends Backend σ Key where
  gcsDataStructureFilepath : List Byte
  gcsEncFilepath : List Byte
  remove : σ → List Byte → σ
  behindSuccess : Buf

/-- The bytes of a text. -/
def textBytes (text : String) : List Byte := text.toList.map fun c => BitVec.ofNat 8 c.toNat

/-- A file in pieces of the buffer's size, more to follow each but the last. -/
def filePieces (file : List Byte) : List (Part × Bool) :=
  if _h : file = [] then []
  else if file.length ≤ socketBufferSize then [(file, false)]
  else (file.take socketBufferSize, true) :: filePieces (file.drop socketBufferSize)
termination_by file.length
decreasing_by
  have := List.length_pos_of_ne_nil _h
  simp only [List.length_drop, socketBufferSize]
  omega

/-- A file that is not empty is sent whole. -/
theorem filePieces_whole {file : List Byte} (bytes : file ≠ []) : WholeReply (filePieces file) := by
  induction file using filePieces.induct with
  | case1 => exact absurd rfl bytes
  | case2 file h fits =>
    rw [filePieces, dif_neg h, if_pos fits]
    exact wholeReply_single file
  | case3 file h long ih =>
    rw [filePieces, dif_neg h, if_neg long]
    have rest : file.drop socketBufferSize ≠ [] := fun none =>
      long (List.drop_eq_nil_iff.mp none)
    obtain ⟨parts, last, pieces⟩ := ih rest
    exact ⟨file.take socketBufferSize :: parts, last, by rw [pieces]; rfl⟩

namespace SeuBackend

variable (b : SeuBackend σ Key)

/-- The parts `Server_DSSE::searchKeyword` sends. With `SEND_SEARCH_FILE_INDEX` they are the
size of the result file and its pieces; without the file nothing is sent. -/
def searchReply (sendSearchFileIndex : Bool) (s : σ) (lstFileId : List Nat) :
    Option (List (Part × Bool)) :=
  some (if sendSearchFileIndex then
    match b.resultFile s lstFileId with
    | some file => (numberPart file.length, true) :: filePieces file
    | none => []
  else [(numberPart lstFileId.length, false)])

/-- `Server_DSSE::getEncrypted_data_structure`. The file that is uploaded last has the
whole index read into memory. -/
def getEncryptedDataStructure : Handler σ :=
  .upload b.gcsDataStructureFilepath false fun name s =>
    if name = textBytes "block_counter_arr" then b.loadState s else some s

/-- `Server_DSSE::getEncrypted_file` -/
def getEncryptedFile : Handler σ := .upload b.gcsEncFilepath false fun _ s => some s

/-- `Server_DSSE::deleteFile`. The line that sends the reply is commented out. -/
def deleteFile : Handler σ :=
  .silent 1 fun parts s =>
    match parts with
    | [index] => some (b.remove s (b.gcsEncFilepath ++ textBytes "encTar" ++
        textBytes (toString (partNat index)) ++ textBytes ".tar.gz"))
    | _ => none

/-- `CMD_SAVE`, which sends as many bytes as the buffer has from the text on. -/
def save : Handler σ :=
  .exchange 0 fun _ s => some (s, [(toBytes (recvInto b.behindSuccess cmdSuccess) socketBufferSize,
    false)])

/-- The `switch` of `Server_DSSE::start` -/
def switch (sendSearchFileIndex : Bool) : Nat → Option (Handler σ)
  | 0x10 => some b.getEncryptedDataStructure
  | 0x0f => some b.getEncryptedFile
  | 0x20 => some (b.searchKeyword (b.searchReply sendSearchFileIndex))
  | 0x50 => some (b.getBlockData .col)
  | 0x60 => some b.updateBlockData
  | 0x40 => some b.deleteFile
  | 0x51 => some (b.getBlockData .row)
  | 123456 => some b.save
  | _ => none

/-- The request stays inside the index, and with `SEND_SEARCH_FILE_INDEX` a search has its result
file. -/
def Replyable (cfg : Config) (sendSearchFileIndex : Bool) (cmd : Nat) (parts : List Part) (s : σ) :
    Prop :=
  b.Inside cfg cmd parts ∧ (cmd = 0x20 → sendSearchFileIndex = true →
    ∀ ids, ∃ file, b.resultFile s ids = some file ∧ file ≠ [])

/-- Every exchange of the loop replies whole, a search where it has its result file. -/
theorem switch_whole {cfg : Config} {sendSearchFileIndex : Bool} (cmd : Nat) (handler : Handler σ)
    (selected : b.switch sendSearchFileIndex cmd = some handler) :
    handler.Whole (b.Replyable cfg sendSearchFileIndex cmd) := by
  unfold switch at selected
  split at selected
  · cases selected
    trivial
  · cases selected
    trivial
  · cases selected
    refine Backend.searchKeyword_whole fun parts s ids answer files sent => ?_
    cases sent
    by_cases index : sendSearchFileIndex = true
    · obtain ⟨file, read, bytes⟩ := files.2 rfl index ids
      obtain ⟨parts, last, pieces⟩ := filePieces_whole bytes
      refine ⟨numberPart file.length :: parts, last, ?_⟩
      rw [if_pos index, read]
      exact congrArg _ pieces
    · rw [if_neg index]
      exact wholeReply_single _
  · cases selected
    exact Backend.getBlockData_whole _
  · cases selected
    exact Backend.updateBlockData_whole
  · cases selected
    trivial
  · cases selected
    exact Backend.getBlockData_whole _
  · cases selected
    intro parts s s' answer _ works
    cases works
    exact wholeReply_single _
  · cases selected

end SeuBackend

/-- In the loops of both servers, whatever requests come that the loop can take, no
receive and no send is illegal, no buffer is left, and every request is answered before the next
one is waited for. -/
theorem start_answers (cfg : Config) (b : Backend σ Key) (seu : SeuBackend σ Key)
    (sendSearchFileIndex : Bool) (s : σ) (buffer : Buf) (requests : List (Part × List Part)) :
    (Conforms b (b.switch sendSearchFileIndex) (fun cmd parts _ => b.Inside cfg cmd parts) s buffer
        requests →
      Disciplined (turn b (b.switch sendSearchFileIndex)) requests.length buffer
        ⟨s, requests, .waiting, []⟩) ∧
    (Conforms seu.toBackend (seu.switch sendSearchFileIndex)
        (seu.Replyable cfg sendSearchFileIndex) s buffer requests →
      Disciplined (turn seu.toBackend (seu.switch sendSearchFileIndex)) requests.length buffer
        ⟨s, requests, .waiting, []⟩) := by
  constructor
  · intro conforms
    have answers := disciplined_of_conforms (fun _ _ => b.switch_whole) conforms []
    rwa [List.length_nil, Nat.zero_add] at answers
  · intro conforms
    have answers := disciplined_of_conforms seu.switch_whole conforms []
    rwa [List.length_nil, Nat.zero_add] at answers

/-- An index in memory, with one file that can be written. -/
def smallBackend : SeuBackend RamServer (Option (Nat × Nat)) where
  index := ramServer (smallConfig 1 false) smallCipher
  loadState := some
  saveState := some
  token buffer := ⟨readNat 8 buffer, some (readNat 8 buffer, 1), none, false⟩
  opens _ name := name == [0x66]
  write s _ _ := s
  resultFile _ ids := some (textBytes (String.ofList (Text.spaced ids)))
  gcsDataStructureFilepath := []
  gcsEncFilepath := []
  remove s _ := s
  behindSuccess := zeroBuf

theorem start_answers_small :
    Disciplined (turn smallBackend.toBackend (smallBackend.toBackend.switch false)) 5 zeroBuf
        ⟨blankRam, [([0x12], []), ([0x50], [[3]]), ([0x10], [[0x66]]), ([3], []), ([7], [[8, 9]])],
          .waiting, []⟩ ∧
      Disciplined (turn smallBackend.toBackend (smallBackend.switch false)) 4 zeroBuf
        ⟨blankRam, [([0x20], [[3]]), ([0x0f], [[0x66]]), ([3], []), ([7], [[8, 9]])],
          .waiting, []⟩ := by
  have fills : Fills (partNat [3]) [[7], [8, 9]] := ⟨by decide, by decide, by decide⟩
  have block : partNat [3] < (smallConfig 1 false).numBlocks := by decide
  have row : (smallBackend.token (recvInto zeroBuf [3])).rowIndex <
      (smallConfig 1 false).matrixRowSize := by decide
  have name : isCString (recvInto zeroBuf [0x66]) = true := by decide +kernel
  constructor
  · refine (start_answers (smallConfig 1 false) smallBackend.toBackend smallBackend false blankRam
      zeroBuf _).1 ?_
    refine .served rfl trivial rfl fun _ _ saved => ?_
    cases saved
    refine .served rfl block rfl fun _ _ asked => ?_
    cases asked
    exact .uploaded rfl name rfl fills fun _ _ => .done
  · refine (start_answers (smallConfig 1 false) smallBackend.toBackend smallBackend false blankRam
      zeroBuf _).2 ?_
    refine .served rfl ⟨⟨rfl, row⟩, fun _ index => absurd index Bool.false_ne_true⟩ rfl
      fun _ _ _ => ?_
    exact .uploaded rfl name rfl fills fun _ _ => .done

/-- Neither loop answers a command without a case, and the Android loop does not answer
the deletion of a file. -/
theorem start_unanswered :
    ¬ Disciplined (turn smallBackend.toBackend (smallBackend.toBackend.switch false)) 1 zeroBuf
        ⟨blankRam, [([0x13], [])], .waiting, []⟩ ∧
      ¬ Disciplined (turn smallBackend.toBackend (smallBackend.switch false)) 1 zeroBuf
        ⟨blankRam, [([0x13], [])], .waiting, []⟩ ∧
      ¬ Disciplined (turn smallBackend.toBackend (smallBackend.switch false)) 1 zeroBuf
        ⟨blankRam, [([0x40], [[3]])], .waiting, []⟩ :=
  ⟨unanswered_of_unknown rfl, unanswered_of_unknown rfl,
    unanswered_of_silent rfl rfl rfl⟩

end ImDsse
