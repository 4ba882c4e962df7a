import Mathlib.Data.List.Basic
import ImDsse.Kit.Prog

/-!
Servers behind a reply socket.

A reply socket takes requests one at a time. A request comes in parts; receiving is
allowed while parts of it are left, or when the request before it has its reply, and
sending only once all its parts are received. Whatever else is tried is illegal and
ends the process. A server is a program over such a socket and a state of its own, and
a loop runs one turn after another. A server that leaves its memory is promised nothing.

`Disciplined` says of a loop that no call it makes is illegal, that it stays in its memory, and
that every request is answered before the loop goes on. It is proved turn by turn (`Disciplined.next`,
`Disciplined.of_exit`, `Disciplined.of_noRequest`).
-/

namespace Kit

/-- What a reply socket is in the middle of. -/
inductive Turn (π : Type) where
  | waiting
  | reading (part : π) (rest : List π)
  | answering (sent : List π)

/-- The turn with these parts of a request left. -/
def Turn.unread {π : Type} : List π → Turn π
  | [] => .answering []
  | part :: rest => .reading part rest

/-- A reply socket: the requests to come, each with its first part, and the replies
sent so far. -/
structure ReplySocket (π : Type) where
  coming : List (π × List π)
  turn : Turn π
  replies : List (List π)

/-- Why a server stops: it waits for a request that does not come, it makes an illegal
call, it leaves its memory, or it exits. -/
inductive Stop where
  | noRequest
  | illegal
  | stray
  | exited
deriving DecidableEq

/-- A server and its socket. -/
structure Party (σ : Type) (π : Type) where
  state : σ
  socket : ReplySocket π

/-- Programs of a server. -/
abbrev Act (σ : Type) (π : Type) (α : Type) := EStateM Stop (Party σ π) α

namespace Act

variable {σ : Type} {π : Type}

/-- Receive a part. -/
def recv : Act σ π π := fun p =>
  match p.socket.turn with
  | .waiting =>
    match p.socket.coming with
    | [] => .error .noRequest p
    | (part, rest) :: later =>
      .ok part { p with socket := { p.socket with coming := later, turn := .unread rest } }
  | .reading part rest => .ok part { p with socket := { p.socket with turn := .unread rest } }
  | .answering _ => .error .illegal p

/-- Send a part, the last of the reply unless `more` follow. -/
def send (part : π) (more : Bool) : Act σ π Unit := fun p =>
  match p.socket.turn with
  | .answering sent =>
    if more then .ok () { p with socket := { p.socket with turn := .answering (sent ++ [part]) } }
    else .ok () { p with socket :=
      { p.socket with turn := .waiting, replies := p.socket.replies ++ [sent ++ [part]] } }
  | _ => .error .illegal p

/-- Whether parts of the request are left. -/
def hasMore : Act σ π Bool := fun p =>
  match p.socket.turn with
  | .reading _ _ => .ok true p
  | _ => .ok false p

/-- End the process. -/
def exit {α : Type} : Act σ π α := fun p => .error .exited p

/-- Read or write outside the memory. -/
def stray {α : Type} : Act σ π α := fun p => .error .stray p

/-- Work on the state, which may end the process. -/
def work {α : Type} (f : σ → Option (σ × α)) : Act σ π α := fun p =>
  match f p.state with
  | none => .error .exited p
  | some (s, a) => .ok a { p with state := s }

/-- Look at the state. -/
def look {α : Type} (f : σ → α) : Act σ π α := fun p => .ok (f p.state) p

/-- Receive a number of parts. -/
def recvParts : Nat → Act σ π (List π)
  | 0 => pure []
  | k + 1 => do
    let part ← recv
    let rest ← recvParts k
    pure (part :: rest)

/-- Send parts, each with its flag. -/
def sendParts : List (π × Bool) → Act σ π Unit
  | [] => pure ()
  | (part, more) :: rest => do
    send part more
    sendParts rest

/-- Receive a number of parts, work on them, and send what comes of it. -/
def exchange (k : Nat) (f : List π → σ → Option (σ × List (π × Bool))) : Act σ π Unit := do
  let parts ← recvParts k
  let answer ← work (f parts)
  sendParts answer

/-- Run turns, each with what the turn before left. -/
def turns {β : Type} (turn : β → Act σ π β) : Nat → β → Act σ π β
  | 0, x => pure x
  | n + 1, x => do
    let y ← turn x
    turns turn n y

/-! ### Single calls -/

section Calls

variable {s : σ} {coming : List (π × List π)} {replies : List (List π)}

theorem recv_unread (part : π) (rest : List π) :
    recv ⟨s, coming, .unread (part :: rest), replies⟩ = .ok part ⟨s, coming, .unread rest, replies⟩ :=
  rfl

theorem recv_coming (part : π) (rest : List π) :
    recv ⟨s, (part, rest) :: coming, .waiting, replies⟩ =
      .ok part ⟨s, coming, .unread rest, replies⟩ :=
  rfl

theorem recv_none :
    recv (⟨s, [], .waiting, replies⟩ : Party σ π) = .error .noRequest ⟨s, [], .waiting, replies⟩ :=
  rfl

theorem send_last (part : π) :
    send part false ⟨s, coming, .unread [], replies⟩ =
      .ok () ⟨s, coming, .waiting, replies ++ [[part]]⟩ :=
  rfl

theorem work_some {α : Type} {f : σ → Option (σ × α)} {s' : σ} {a : α} {socket : ReplySocket π}
    (h : f s = some (s', a)) : work f ⟨s, socket⟩ = .ok a ⟨s', socket⟩ := by
  simp [work, h]

theorem work_none {α : Type} {f : σ → Option (σ × α)} {socket : ReplySocket π}
    (h : f s = none) : work f ⟨s, socket⟩ = .error .exited ⟨s, socket⟩ := by
  simp [work, h]

theorem recvParts_all (parts : List π) :
    recvParts parts.length ⟨s, coming, .unread parts, replies⟩ =
      .ok parts ⟨s, coming, .unread [], replies⟩ := by
  induction parts with
  | nil => rfl
  | cons part rest ih =>
    refine (Prog.bind_ok (recv_unread part rest)).trans ?_
    exact Prog.bind_ok ih

theorem sendParts_more (parts : List π) (last : π) (sent : List π) :
    sendParts (parts.map (·, true) ++ [(last, false)]) ⟨s, coming, .answering sent, replies⟩ =
      .ok () ⟨s, coming, .waiting, replies ++ [sent ++ parts ++ [last]]⟩ := by
  induction parts generalizing sent with
  | nil =>
    rw [List.append_nil]
    rfl
  | cons part rest ih =>
    have further := ih (sent ++ [part])
    rw [List.append_assoc sent [part]] at further
    exact further

end Calls

end Act

/-- A whole reply: more is to follow each part but the last. -/
def WholeReply {π : Type} (answer : List (π × Bool)) : Prop :=
  ∃ (parts : List π) (last : π), answer = parts.map (·, true) ++ [(last, false)]

theorem wholeReply_single {π : Type} (part : π) : WholeReply [(part, false)] :=
  ⟨[], part, rfl⟩

namespace Act

variable {σ : Type} {π : Type} {s s' : σ} {k : Nat} {f : List π → σ → Option (σ × List (π × Bool))}

/-- An exchange that is sent the parts it receives answers once. -/
theorem exchange_ok {parts : List π} {answer : List (π × Bool)} (count : parts.length = k)
    (works : f parts s = some (s', answer)) (whole : WholeReply answer)
    (coming : List (π × List π)) (replies : List (List π)) :
    ∃ reply, exchange k f ⟨s, coming, .unread parts, replies⟩ =
      .ok () ⟨s', coming, .waiting, replies ++ [reply]⟩ := by
  subst count
  obtain ⟨init, last, rfl⟩ := whole
  refine ⟨[] ++ init ++ [last], ?_⟩
  refine (Prog.bind_ok (recvParts_all parts)).trans ?_
  refine (Prog.bind_ok (work_some works)).trans ?_
  exact sendParts_more init last []

theorem exchange_exit {parts : List π} {coming : List (π × List π)} {replies : List (List π)}
    (count : parts.length = k) (exits : f parts s = none) :
    exchange k f ⟨s, coming, .unread parts, replies⟩ =
      .error .exited ⟨s, coming, .unread [], replies⟩ := by
  subst count
  refine (Prog.bind_ok (recvParts_all parts)).trans ?_
  exact Prog.bind_error (work_none exits)

end Act

/-! ### Loops -/

section Loop

variable {σ : Type} {π : Type} {β : Type}

/-- How a run of a loop over this many requests may stand: between turns every request
taken has its reply, and so it is when no further request comes. -/
def Answered (total : Nat) : EStateM.Result Stop (Party σ π) β → Prop
  | .ok _ p => p.socket.turn = .waiting ∧ p.socket.replies.length + p.socket.coming.length = total
  | .error .noRequest p => p.socket.coming = [] ∧ p.socket.replies.length = total
  | .error .illegal _ => False
  | .error .stray _ => False
  | .error .exited _ => True

/-- From here on the loop makes no illegal call, stays in its memory and answers every request,
however many turns it runs. -/
def Disciplined (turn : β → Act σ π β) (total : Nat) (x : β) (p : Party σ π) : Prop :=
  ∀ n, Answered total (Act.turns turn n x p)

variable {turn : β → Act σ π β} {total : Nat} {x y : β} {p q : Party σ π}

/-- A turn that answers what it takes, before a loop that does. -/
theorem Disciplined.next (start : Answered total (.ok x p)) (h : turn x p = .ok y q)
    (rest : Disciplined turn total y q) : Disciplined turn total x p := by
  intro n
  cases n with
  | zero => exact start
  | succ n =>
    rw [Act.turns, Prog.bind_ok h]
    exact rest n

/-- A turn that ends the process. -/
theorem Disciplined.of_exit (start : Answered total (.ok x p)) (h : turn x p = .error .exited q) :
    Disciplined turn total x p := by
  intro n
  cases n with
  | zero => exact start
  | succ n =>
    rw [Act.turns, Prog.bind_error h]
    trivial

/-- A turn that waits for a request that does not come. -/
theorem Disciplined.of_noRequest (start : Answered total (.ok x p))
    (h : turn x p = .error .noRequest q) (none : q.socket.coming = [])
    (all : q.socket.replies.length = total) : Disciplined turn total x p := by
  intro n
  cases n with
  | zero => exact start
  | succ n =>
    rw [Act.turns, Prog.bind_error h]
    exact ⟨none, all⟩

end Loop

end Kit
