import ImDsse.Kit.Network
import ImDsse.Kit.Reply

/-!
Programs over a socket, call by call.

A `Talk` is a program whose next call can be seen, so that two of them can take turns.
Run over the calls of a socket it is a program like any other (`Talk.act`), and what it
does there it does call by call (`Talk.reaches_of_act`). A talk and its socket are a
`Peer` (`Talk.peer`).

A request socket is the other end of a reply socket. It sends a request, receives the
reply, and only then sends the next.
-/

namespace Kit

/-- A program that receives parts, sends parts, and works on its state, which may end the
process. One that strays leaves its memory. -/
inductive Talk (σ π α : Type) : Type 1 where
  | done (a : α)
  | recv (next : π → Talk σ π α)
  | send (part : π) (more : Bool) (next : Talk σ π α)
  | hasMore (next : Bool → Talk σ π α)
  | work {β : Type} (f : σ → Option (σ × β)) (next : β → Talk σ π α)
  | stray

/-- The calls of a socket. -/
structure Calls (σ π P : Type) where
  recv : EStateM Stop P π
  send : π → Bool → EStateM Stop P Unit
  hasMore : EStateM Stop P Bool
  work : {β : Type} → (σ → Option (σ × β)) → EStateM Stop P β

namespace Talk

variable {σ π P α β : Type}

/-- One program after another. -/
def bind : Talk σ π α → (α → Talk σ π β) → Talk σ π β
  | .done a, f => f a
  | .recv next, f => .recv fun part => (next part).bind f
  | .send part more next, f => .send part more (next.bind f)
  | .hasMore next, f => .hasMore fun more => (next more).bind f
  | .work g next, f => .work g fun b => (next b).bind f
  | .stray, _ => .stray

instance : Monad (Talk σ π) where
  pure := .done
  bind := Talk.bind

/-- Receive a number of parts. -/
def recvParts : Nat → Talk σ π (List π)
  | 0 => pure []
  | k + 1 => .recv fun part => do
    let rest ← recvParts k
    pure (part :: rest)

/-- Send parts, each with its flag. -/
def sendParts : List (π × Bool) → Talk σ π Unit
  | [] => pure ()
  | (part, more) :: rest => .send part more (sendParts rest)

/-- The program over a socket. -/
def act (c : Calls σ π P) : Talk σ π α → EStateM Stop P α
  | .done a => pure a
  | .recv next => c.recv >>= fun part => (next part).act c
  | .send part more next => c.send part more >>= fun _ => next.act c
  | .hasMore next => c.hasMore >>= fun more => (next more).act c
  | .work g next => c.work g >>= fun b => (next b).act c
  | .stray => throw .stray

/-- What comes after a call. A call that waits or that is not taken has nothing after it. -/
def after {γ : Type} : EStateM.Result Stop P γ → (γ → Talk σ π α) → Option (Talk σ π α × P)
  | .ok b q, f => some (f b, q)
  | .error _ _, _ => none

/-- The program after its next call. A program that is done may go on with another. -/
def next (c : Calls σ π P) (again : α → Option (Talk σ π α)) :
    Talk σ π α × P → Option (Talk σ π α × P)
  | (.done a, p) => (again a).map (·, p)
  | (.recv f, p) => after (c.recv p) f
  | (.send part more t, p) => after (c.send part more p) fun _ => t
  | (.hasMore f, p) => after (c.hasMore p) f
  | (.work g f, p) => after (c.work g p) f
  | (.stray, _) => none

/-- The socket does not take a call in its state. -/
def Refused {γ : Type} (r : EStateM.Result Stop P γ) : Prop := ∃ q, r = .error .illegal q

/-- The next call is one that the socket takes. To leave the memory is none. -/
def Legal (c : Calls σ π P) : Talk σ π α × P → Prop
  | (.done _, _) => True
  | (.recv _, p) => ¬ Refused (c.recv p)
  | (.send part more _, p) => ¬ Refused (c.send part more p)
  | (.hasMore _, p) => ¬ Refused (c.hasMore p)
  | (.work g _, p) => ¬ Refused (c.work g p)
  | (.stray, _) => False

/-! ### A talk as a program -/

section Act

variable {c : Calls σ π P} {p q : P} {a : α}

theorem act_bind (x : Talk σ π α) (f : α → Talk σ π β) :
    (x >>= f).act c = x.act c >>= fun a => (f a).act c := by
  change (x.bind f).act c = _
  induction x with
  | done a => exact (pure_bind a fun a => (f a).act c).symm
  | recv g ih =>
    rw [act, bind_assoc]
    exact bind_congr ih
  | send part more t ih =>
    rw [act, bind_assoc]
    exact bind_congr fun _ => ih
  | hasMore g ih =>
    rw [act, bind_assoc]
    exact bind_congr ih
  | work g h ih =>
    rw [act, bind_assoc]
    exact bind_congr ih
  | stray => rfl

theorem act_work (g : σ → Option (σ × α)) : (Talk.work g pure : Talk σ π α).act c = c.work g :=
  bind_pure (c.work g)

end Act

/-! ### A talk as a peer -/

section Peer

variable {M N : Type} {sent : P → List M} {arrive : N → P → P} {c : Calls σ π P}
  {again : α → Option (Talk σ π α)}

theorem after_eq_some {γ : Type} {r : EStateM.Result Stop P γ} {f : γ → Talk σ π α}
    {x : Talk σ π α × P} : after r f = some x ↔ ∃ b q, r = .ok b q ∧ (f b, q) = x := by
  constructor
  · intro h
    cases r with
    | ok b q => exact ⟨b, q, rfl, Option.some.inj h⟩
    | error e q => cases h
  · rintro ⟨b, q, rfl, rfl⟩
    rfl

/-- A call that a message that arrives does not disturb. -/
structure Steady {γ : Type} (sent : P → List M) (arrive : N → P → P) (x : EStateM Stop P γ) :
    Prop where
  sends : ∀ {p q : P} {b : γ}, x p = .ok b q → sent p <+: sent q
  works : ∀ (n : N) {p q : P} {b : γ}, x p = .ok b q → x (arrive n p) = .ok b (arrive n q)
  refuses : ∀ (n : N) {p : P}, Refused (x p) → Refused (x (arrive n p))

/-- A socket with calls that no message that arrives disturbs. -/
structure Apart (sent : P → List M) (arrive : N → P → P) (c : Calls σ π P) : Prop where
  sent_arrive : ∀ (n : N) (p : P), sent (arrive n p) = sent p
  recv : Steady sent arrive c.recv
  send : ∀ (part : π) (more : Bool), Steady sent arrive (c.send part more)
  hasMore : Steady sent arrive c.hasMore
  work : ∀ {γ : Type} (g : σ → Option (σ × γ)), Steady sent arrive (c.work g)

theorem Steady.sent_after {γ : Type} {x : EStateM Stop P γ} (steady : Steady sent arrive x)
    {f : γ → Talk σ π α} {p : P} {y : Talk σ π α × P} (h : after (x p) f = some y) :
    sent p <+: sent y.2 := by
  obtain ⟨b, q, ran, rfl⟩ := after_eq_some.mp h
  exact steady.sends ran

theorem Steady.after_arrive {γ : Type} {x : EStateM Stop P γ} (steady : Steady sent arrive x)
    (n : N) {f : γ → Talk σ π α} {p : P} {y : Talk σ π α × P} (h : after (x p) f = some y) :
    after (x (arrive n p)) f = some (y.1, arrive n y.2) := by
  obtain ⟨b, q, ran, rfl⟩ := after_eq_some.mp h
  exact after_eq_some.mpr ⟨b, arrive n q, steady.works n ran, rfl⟩

theorem not_refused_of_after {γ : Type} {r : EStateM.Result Stop P γ} {f : γ → Talk σ π α}
    {y : Talk σ π α × P} (h : after r f = some y) : ¬ Refused r := by
  obtain ⟨b, q, rfl, _⟩ := after_eq_some.mp h
  rintro ⟨_, ⟨⟩⟩

theorem sent_next (apart : Apart sent arrive c) {x y : Talk σ π α × P}
    (h : next c again x = some y) : sent x.2 <+: sent y.2 := by
  obtain ⟨t, p⟩ := x
  cases t with
  | done a =>
    obtain ⟨t', _, rfl⟩ := Option.map_eq_some_iff.mp h
    exact List.prefix_refl _
  | recv f => exact apart.recv.sent_after h
  | send part more t => exact (apart.send part more).sent_after h
  | hasMore f => exact apart.hasMore.sent_after h
  | work g f => exact (apart.work g).sent_after h
  | stray => cases h

theorem next_arrive (apart : Apart sent arrive c) (n : N) {x y : Talk σ π α × P}
    (h : next c again x = some y) :
    next c again (x.1, arrive n x.2) = some (y.1, arrive n y.2) := by
  obtain ⟨t, p⟩ := x
  cases t with
  | done a =>
    obtain ⟨t', goes, rfl⟩ := Option.map_eq_some_iff.mp h
    exact Option.map_eq_some_iff.mpr ⟨t', goes, rfl⟩
  | recv f => exact apart.recv.after_arrive n h
  | send part more t => exact (apart.send part more).after_arrive n h
  | hasMore f => exact apart.hasMore.after_arrive n h
  | work g f => exact (apart.work g).after_arrive n h
  | stray => cases h

theorem legal_of_next {x y : Talk σ π α × P} (h : next c again x = some y) : Legal c x := by
  obtain ⟨t, p⟩ := x
  cases t with
  | done a => trivial
  | recv f => exact not_refused_of_after h
  | send part more t => exact not_refused_of_after h
  | hasMore f => exact not_refused_of_after h
  | work g f => exact not_refused_of_after h
  | stray => cases h

theorem legal_of_arrive (apart : Apart sent arrive c) {n : N} {x : Talk σ π α × P}
    (h : Legal c (x.1, arrive n x.2)) : Legal c x := by
  obtain ⟨t, p⟩ := x
  cases t with
  | done a => trivial
  | recv f => exact fun refused => h (apart.recv.refuses n refused)
  | send part more t => exact fun refused => h ((apart.send part more).refuses n refused)
  | hasMore f => exact fun refused => h (apart.hasMore.refuses n refused)
  | work g f => exact fun refused => h ((apart.work g).refuses n refused)
  | stray => exact h

/-- A talk and its socket. -/
def peer (c : Calls σ π P) (again : α → Option (Talk σ π α)) {sent : P → List M}
    {arrive : N → P → P} (apart : Apart sent arrive c) : Peer (Talk σ π α × P) M N where
  step := next c again
  sent := fun x => sent x.2
  arrive := fun n x => (x.1, arrive n x.2)
  Legal := Legal c
  sent_step := sent_next apart
  sent_arrive := fun n x => apart.sent_arrive n x.2
  step_arrive := next_arrive apart
  legal_of_step := legal_of_next
  legal_of_arrive := legal_of_arrive apart

/-- What a program does over its socket, it does call by call. -/
theorem reaches_of_act {γ : Type} (apart : Apart sent arrive c) (t : Talk σ π γ)
    (f : γ → Talk σ π α) {p q : P} {a : γ} (h : t.act c p = .ok a q) :
    Reaches (peer c again apart).alone (t >>= f, p) (f a, q) := by
  induction t generalizing p with
  | done b =>
    cases h
    exact .refl _
  | recv g ih =>
    obtain ⟨part, r, call, rest⟩ := Prog.bind_eq_ok.mp h
    exact .step () (after_eq_some.mpr ⟨part, r, call, rfl⟩) (ih part rest)
  | send part more t ih =>
    obtain ⟨_, r, call, rest⟩ := Prog.bind_eq_ok.mp h
    exact .step () (after_eq_some.mpr ⟨(), r, call, rfl⟩) (ih rest)
  | hasMore g ih =>
    obtain ⟨more, r, call, rest⟩ := Prog.bind_eq_ok.mp h
    exact .step () (after_eq_some.mpr ⟨more, r, call, rfl⟩) (ih more rest)
  | work g g' ih =>
    obtain ⟨b, r, call, rest⟩ := Prog.bind_eq_ok.mp h
    exact .step () (after_eq_some.mpr ⟨b, r, call, rfl⟩) (ih b rest)
  | stray => cases h

end Peer

end Talk

/-! ### The reply socket -/

namespace Act

variable {σ π α : Type}

/-- The calls of a reply socket. -/
def calls : Calls σ π (Party σ π) := ⟨recv, send, hasMore, work⟩

theorem act_recvParts (k : Nat) :
    (Talk.recvParts k : Talk σ π (List π)).act calls = recvParts k := by
  induction k with
  | zero => rfl
  | succ k ih =>
    refine bind_congr fun part => ?_
    refine (Talk.act_bind _ _).trans ?_
    rw [ih]
    rfl

theorem act_sendParts (parts : List (π × Bool)) :
    (Talk.sendParts parts : Talk σ π Unit).act calls = sendParts parts := by
  induction parts with
  | nil => rfl
  | cons part rest ih => exact bind_congr fun _ => ih

/-- The replies a server has sent. -/
def sent (p : Party σ π) : List (List π) := p.socket.replies

/-- A request arrives at a server. -/
def arrive (request : π × List π) (p : Party σ π) : Party σ π :=
  { p with socket := { p.socket with coming := p.socket.coming ++ [request] } }

theorem steady_recv : Talk.Steady sent arrive (recv : Act σ π π) where
  sends := by
    rintro ⟨s, coming, turn, replies⟩ q part h
    rcases turn with _ | ⟨first, rest⟩ | answer
    · rcases coming with _ | ⟨⟨first, rest⟩, later⟩ <;> cases h
      exact List.prefix_refl _
    · cases h
      exact List.prefix_refl _
    · cases h
  works := by
    rintro request ⟨s, coming, turn, replies⟩ q part h
    rcases turn with _ | ⟨first, rest⟩ | answer
    · rcases coming with _ | ⟨⟨first, rest⟩, later⟩ <;> cases h
      rfl
    · cases h
      rfl
    · cases h
  refuses := by
    rintro request ⟨s, coming, turn, replies⟩ ⟨q, h⟩
    rcases turn with _ | ⟨first, rest⟩ | answer
    · rcases coming with _ | ⟨⟨first, rest⟩, later⟩ <;> cases h
    · cases h
    · exact ⟨_, rfl⟩

theorem steady_send (part : π) (more : Bool) :
    Talk.Steady sent arrive (send part more : Act σ π Unit) where
  sends := by
    rintro ⟨s, coming, turn, replies⟩ q ⟨⟩ h
    rcases turn with _ | ⟨first, rest⟩ | answer
    · cases h
    · cases h
    · cases more <;> cases h
      · exact List.prefix_append _ _
      · exact List.prefix_refl _
  works := by
    rintro request ⟨s, coming, turn, replies⟩ q ⟨⟩ h
    rcases turn with _ | ⟨first, rest⟩ | answer
    · cases h
    · cases h
    · cases more <;> cases h <;> rfl
  refuses := by
    rintro request ⟨s, coming, turn, replies⟩ ⟨q, h⟩
    rcases turn with _ | ⟨first, rest⟩ | answer
    · exact ⟨_, rfl⟩
    · exact ⟨_, rfl⟩
    · cases more <;> cases h

theorem steady_hasMore : Talk.Steady sent arrive (hasMore : Act σ π Bool) where
  sends := by
    rintro ⟨s, coming, turn, replies⟩ q more h
    cases turn <;> cases h <;> exact List.prefix_refl _
  works := by
    rintro request ⟨s, coming, turn, replies⟩ q more h
    cases turn <;> cases h <;> rfl
  refuses := by
    rintro request ⟨s, coming, turn, replies⟩ ⟨q, h⟩
    cases turn <;> cases h

theorem steady_work (g : σ → Option (σ × α)) :
    Talk.Steady sent arrive (work g : Act σ π α) where
  sends := by
    rintro ⟨s, socket⟩ q b h
    cases does : g s with
    | none => cases (work_none does).symm.trans h
    | some r =>
      cases (work_some does).symm.trans h
      exact List.prefix_refl _
  works := by
    rintro request ⟨s, socket⟩ q b h
    cases does : g s with
    | none => cases (work_none does).symm.trans h
    | some r =>
      cases (work_some does).symm.trans h
      exact work_some does
  refuses := by
    rintro request ⟨s, socket⟩ ⟨q, h⟩
    cases does : g s with
    | none => cases (work_none does).symm.trans h
    | some r => cases (work_some does).symm.trans h

theorem apart : Talk.Apart sent arrive (calls : Calls σ π (Party σ π)) where
  sent_arrive _ _ := rfl
  recv := steady_recv
  send := steady_send
  hasMore := steady_hasMore
  work := steady_work

/-- A server that takes turns, call by call. -/
def server (turn : α → Talk σ π α) : Peer (Talk σ π α × Party σ π) (List π) (π × List π) :=
  Talk.peer calls (some ∘ turn) apart

end Act

/-! ### The request socket -/

/-- What a request socket is in the middle of. -/
inductive Asking (π : Type) where
  | asking (sent : List π)
  | awaiting
  | reading (part : π) (rest : List π)

/-- The socket with these parts of a reply left. -/
def Asking.unread {π : Type} : List π → Asking π
  | [] => .asking []
  | part :: rest => .reading part rest

/-- A client and its request socket: the replies that have arrived, and the requests sent
so far. -/
structure Asker (σ π : Type) where
  state : σ
  arrived : List (List π)
  turn : Asking π
  requests : List (π × List π)

/-- Programs of a client. -/
abbrev Ask (σ π α : Type) := EStateM Stop (Asker σ π) α

namespace Ask

variable {σ π α : Type}

/-- The request of these parts and a last one. -/
def request (sent : List π) (last : π) : π × List π :=
  match sent with
  | [] => (last, [])
  | first :: rest => (first, rest ++ [last])

theorem request_eq (sent : List π) (last : π) :
    (request sent last).1 :: (request sent last).2 = sent ++ [last] := by
  cases sent <;> rfl

/-- Receive a part of the reply, which is waited for until it has arrived. -/
def recv : Ask σ π π := fun p =>
  match p.turn with
  | .awaiting =>
    match p.arrived with
    | (part :: rest) :: later => .ok part { p with arrived := later, turn := .unread rest }
    | _ => .error .noRequest p
  | .reading part rest => .ok part { p with turn := .unread rest }
  | .asking _ => .error .illegal p

/-- Send a part, the last of the request unless `more` follow. -/
def send (part : π) (more : Bool) : Ask σ π Unit := fun p =>
  match p.turn with
  | .asking sent =>
    if more then .ok () { p with turn := .asking (sent ++ [part]) }
    else .ok () { p with turn := .awaiting, requests := p.requests ++ [request sent part] }
  | _ => .error .illegal p

/-- Whether parts of the reply are left. -/
def hasMore : Ask σ π Bool := fun p =>
  match p.turn with
  | .reading _ _ => .ok true p
  | _ => .ok false p

/-- Work on the state, which may end the process. -/
def work {α : Type} (f : σ → Option (σ × α)) : Ask σ π α := fun p =>
  match f p.state with
  | none => .error .exited p
  | some (s, a) => .ok a { p with state := s }

/-- The calls of a request socket. -/
def calls : Calls σ π (Asker σ π) := ⟨recv, send, hasMore, work⟩

/-- A reply arrives at a client. -/
def arrive (reply : List π) (p : Asker σ π) : Asker σ π :=
  { p with arrived := p.arrived ++ [reply] }

theorem steady_recv : Talk.Steady Asker.requests arrive (recv : Ask σ π π) where
  sends := by
    rintro ⟨s, arrived, turn, requests⟩ q part h
    rcases turn with parts | _ | ⟨first, rest⟩
    · cases h
    · rcases arrived with _ | ⟨_ | ⟨first, rest⟩, later⟩ <;> cases h
      exact List.prefix_refl _
    · cases h
      exact List.prefix_refl _
  works := by
    rintro reply ⟨s, arrived, turn, requests⟩ q part h
    rcases turn with parts | _ | ⟨first, rest⟩
    · cases h
    · rcases arrived with _ | ⟨_ | ⟨first, rest⟩, later⟩ <;> cases h
      rfl
    · cases h
      rfl
  refuses := by
    rintro reply ⟨s, arrived, turn, requests⟩ ⟨q, h⟩
    rcases turn with parts | _ | ⟨first, rest⟩
    · exact ⟨_, rfl⟩
    · rcases arrived with _ | ⟨_ | ⟨first, rest⟩, later⟩ <;> cases h
    · cases h

theorem steady_send (part : π) (more : Bool) :
    Talk.Steady Asker.requests arrive (send part more : Ask σ π Unit) where
  sends := by
    rintro ⟨s, arrived, turn, requests⟩ q ⟨⟩ h
    rcases turn with parts | _ | ⟨first, rest⟩
    · cases more <;> cases h
      · exact List.prefix_append _ _
      · exact List.prefix_refl _
    · cases h
    · cases h
  works := by
    rintro reply ⟨s, arrived, turn, requests⟩ q ⟨⟩ h
    rcases turn with parts | _ | ⟨first, rest⟩
    · cases more <;> cases h <;> rfl
    · cases h
    · cases h
  refuses := by
    rintro reply ⟨s, arrived, turn, requests⟩ ⟨q, h⟩
    rcases turn with parts | _ | ⟨first, rest⟩
    · cases more <;> cases h
    · exact ⟨_, rfl⟩
    · exact ⟨_, rfl⟩

theorem steady_hasMore : Talk.Steady Asker.requests arrive (hasMore : Ask σ π Bool) where
  sends := by
    rintro ⟨s, arrived, turn, requests⟩ q more h
    cases turn <;> cases h <;> exact List.prefix_refl _
  works := by
    rintro reply ⟨s, arrived, turn, requests⟩ q more h
    cases turn <;> cases h <;> rfl
  refuses := by
    rintro reply ⟨s, arrived, turn, requests⟩ ⟨q, h⟩
    cases turn <;> cases h

theorem work_some {f : σ → Option (σ × α)} {p : Asker σ π} {s : σ} {a : α}
    (h : f p.state = some (s, a)) : work f p = .ok a { p with state := s } := by
  simp [work, h]

theorem work_none {f : σ → Option (σ × α)} {p : Asker σ π} (h : f p.state = none) :
    work f p = .error .exited p := by
  simp [work, h]

theorem steady_work (g : σ → Option (σ × α)) :
    Talk.Steady Asker.requests arrive (work g : Ask σ π α) where
  sends := by
    intro p q b h
    cases does : g p.state with
    | none => cases (work_none does).symm.trans h
    | some r =>
      cases (work_some does).symm.trans h
      exact List.prefix_refl _
  works := by
    intro reply p q b h
    cases does : g p.state with
    | none => cases (work_none does).symm.trans h
    | some r =>
      cases (work_some does).symm.trans h
      exact work_some does
  refuses := by
    rintro reply p ⟨q, h⟩
    cases does : g p.state with
    | none => cases (work_none does).symm.trans h
    | some r => cases (work_some does).symm.trans h

theorem apart : Talk.Apart Asker.requests arrive (calls : Calls σ π (Asker σ π)) where
  sent_arrive _ _ := rfl
  recv := steady_recv
  send := steady_send
  hasMore := steady_hasMore
  work := steady_work

/-- A client, call by call. -/
def client : Peer (Talk σ π α × Asker σ π) (π × List π) (List π) :=
  Talk.peer calls (fun _ => none) apart

theorem client_work {β : Type} {f : σ → Option (σ × β)} {s s' : σ} {b : β} (h : f s = some (s', b))
    (t : β → Talk σ π α) (arrived : List (List π)) (turn : Asking π)
    (requests : List (π × List π)) :
    client.step (.work f t, ⟨s, arrived, turn, requests⟩) =
      some (t b, ⟨s', arrived, turn, requests⟩) :=
  Talk.after_eq_some.mpr ⟨b, _, work_some h, rfl⟩

end Ask

/-! ### A program on a part of the state -/

/-- A part of a state that can be read and replaced. -/
structure Portion (τ τ' : Type) where
  get : τ' → τ
  put : τ → τ' → τ'
  get_put : ∀ c l, get (put c l) = c
  put_get : ∀ l, put (get l) l = l
  put_put : ∀ c c' l, put c (put c' l) = put c l

section Within

variable {τ τ' π α γ : Type} (q : Portion τ τ')

/-- The same program, its work done on a part of the state. -/
def Talk.within : Talk τ π α → Talk τ' π α
  | .done a => .done a
  | .recv next => .recv fun part => (next part).within
  | .send part more t => .send part more t.within
  | .hasMore next => .hasMore fun more => (next more).within
  | .work f next => .work (fun l => (f (q.get l)).map fun (c, b) => (q.put c l, b)) fun b =>
      (next b).within
  | .stray => .stray

/-- The client with the rest of the state around its part. -/
def Asker.around (l : τ') (p : Asker τ π) : Asker τ' π :=
  ⟨q.put p.state l, p.arrived, p.turn, p.requests⟩

/-- A program and what comes after it, the rest of the state around. -/
def Ask.around (l : τ') (f : γ → Talk τ' π α) (x : Talk τ π γ × Asker τ π) :
    Talk τ' π α × Asker τ' π :=
  (x.1.within q >>= f, x.2.around q l)

/-- The rest of the state changes nothing. -/
theorem Ask.step_around (l : τ') (f : γ → Talk τ' π α) {x y : Talk τ π γ × Asker τ π}
    (step : Ask.client.step x = some y) :
    Ask.client.step (Ask.around q l f x) = some (Ask.around q l f y) := by
  obtain ⟨t, s, arrived, turn, requests⟩ := x
  cases t with
  | done a => cases step
  | recv next =>
    obtain ⟨part, p, call, rfl⟩ := Talk.after_eq_some.mp step
    refine Talk.after_eq_some.mpr ⟨part, p.around q l, ?_, rfl⟩
    rcases turn with parts | _ | ⟨first, rest⟩
    · cases call
    · rcases arrived with _ | ⟨_ | ⟨first, rest⟩, later⟩ <;> cases call
      rfl
    · cases call
      rfl
  | send part more t =>
    obtain ⟨_, p, call, rfl⟩ := Talk.after_eq_some.mp step
    refine Talk.after_eq_some.mpr ⟨(), p.around q l, ?_, rfl⟩
    rcases turn with parts | _ | ⟨first, rest⟩
    · cases more <;> cases call <;> rfl
    · cases call
    · cases call
  | hasMore next =>
    obtain ⟨more, p, call, rfl⟩ := Talk.after_eq_some.mp step
    refine Talk.after_eq_some.mpr ⟨more, p.around q l, ?_, rfl⟩
    cases turn <;> cases call <;> rfl
  | work g next =>
    obtain ⟨b, p, call, rfl⟩ := Talk.after_eq_some.mp step
    cases does : g s with
    | none => cases (Ask.work_none does).symm.trans call
    | some r =>
      cases (Ask.work_some does).symm.trans call
      have around : (g (q.get (q.put s l))).map (fun (c, b) => (q.put c (q.put s l), b)) =
          some (q.put r.1 l, r.2) := by
        rw [q.get_put, does]
        exact congrArg (fun l => some (l, r.2)) (q.put_put r.1 s l)
      exact Ask.client_work around _ _ _ _
  | stray => cases step

end Within

end Kit
