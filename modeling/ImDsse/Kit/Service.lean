import ImDsse.Kit.Talk

/-!
A client that calls a server.

Between calls neither side has a request open and nothing is under way (`idle`). A call
is a request of the client, a turn of the server's loop, and what the client does with
the reply; `Goes.exchange` puts the three together, and calls follow each other
(`Goes.trans`). What one run comes to every run comes to, however client, server and
lines take turns (`Goes.settles`).
-/

namespace Kit

/-- A client behind a request socket and a server behind a reply socket. -/
abbrev Meeting (τ σ π α β : Type) := Joint (Talk τ π α × Asker τ π) (Talk σ π β × Party σ π)

namespace Talk

variable {σ π α : Type}

theorem bind_pure (t : Talk σ π α) : t >>= pure = t := by
  change t.bind Talk.done = t
  induction t with
  | done a => rfl
  | recv next ih => exact congrArg Talk.recv (funext ih)
  | send part more t ih => exact congrArg (Talk.send part more) ih
  | hasMore next ih => exact congrArg Talk.hasMore (funext ih)
  | work f next ih => exact congrArg (Talk.work f) (funext ih)
  | stray => rfl

theorem bind_assoc {β γ : Type} (t : Talk σ π α) (f : α → Talk σ π β) (g : β → Talk σ π γ) :
    t >>= f >>= g = t >>= fun a => f a >>= g := by
  change (t.bind f).bind g = t.bind fun a => (f a).bind g
  induction t with
  | done a => rfl
  | recv next ih => exact congrArg Talk.recv (funext ih)
  | send part more t ih => exact congrArg (Talk.send part more) ih
  | hasMore next ih => exact congrArg Talk.hasMore (funext ih)
  | work f next ih => exact congrArg (Talk.work f) (funext ih)
  | stray => rfl

/-- Send the parts of a request and receive the first part of its reply. -/
def ask (first : π) : List π → Talk σ π π
  | [] => .send first false (.recv pure)
  | second :: rest => .send first true (ask second rest)

end Talk

namespace Meeting

variable {τ σ π α β : Type} (again : β → Talk σ π β)

/-- What moves the two sides. -/
def move : Mover → Meeting τ σ π α β → Option (Meeting τ σ π α β) :=
  Joint.move Ask.client (Act.server again)

/-- The client at `t` and the server at `u`, no request open and nothing under way. -/
def resting (t : Talk τ π α) (c : τ) (requests : List (π × List π)) (u : Talk σ π β) (s : σ)
    (replies : List (List π)) : Meeting τ σ π α β where
  left := (t, ⟨c, [], .asking [], requests⟩)
  right := (u, ⟨s, [], .waiting, replies⟩)
  toRight := requests.length
  toLeft := replies.length

/-- The server before a turn. -/
def idle (t : Talk τ π α) (c : τ) (requests : List (π × List π)) (x : β) (s : σ)
    (replies : List (List π)) : Meeting τ σ π α β :=
  resting t c requests (again x) s replies

/-- Between calls a run leads from here to there, whatever was said before. -/
def Goes (t : Talk τ π α) (c : τ) (u : Talk σ π β) (s : σ) (t' : Talk τ π α) (c' : τ)
    (u' : Talk σ π β) (s' : σ) : Prop :=
  ∀ requests replies, ∃ requests' replies',
    Reaches (move again) (resting t c requests u s replies)
      (resting t' c' requests' u' s' replies')

/-- The server takes a request and answers it. -/
def Serves (u : Talk σ π β) (s : σ) (request : π × List π) (reply : List π) (u' : Talk σ π β)
    (s' : σ) : Prop :=
  ∀ replies, Reaches (Act.server again).alone (u, ⟨s, [request], .waiting, replies⟩)
    (u', ⟨s', [], .waiting, replies ++ [reply]⟩)

/-- A client sends a request and waits. -/
def Asks (t : Talk τ π α) (c : τ) (request : π × List π) (next : π → Talk τ π α) (c' : τ) : Prop :=
  ∀ requests, Reaches Ask.client.alone (t, ⟨c, [], .asking [], requests⟩)
    (.recv next, ⟨c', [], .awaiting, requests ++ [request]⟩)

/-- A client reads a reply. -/
def Reads (next : π → Talk τ π α) (c : τ) (reply : List π) (t : Talk τ π α) (c' : τ) : Prop :=
  ∀ requests, Reaches Ask.client.alone (.recv next, ⟨c, [reply], .awaiting, requests⟩)
    (t, ⟨c', [], .asking [], requests⟩)

/-- A loop that starts each turn with a receive. -/
def Waits : Prop := ∀ x, ∃ next, again x = .recv next

variable {again} {t t' t'' : Talk τ π α} {c c' c'' : τ} {u u' u'' : Talk σ π β} {x x' : β}
  {s s' s'' : σ}

theorem Goes.refl : Goes again t c u s t c u s := fun requests replies =>
  ⟨requests, replies, .refl _⟩

theorem Goes.trans (first : Goes again t c u s t' c' u' s')
    (second : Goes again t' c' u' s' t'' c'' u'' s'') : Goes again t c u s t'' c'' u'' s'' := by
  intro requests replies
  obtain ⟨requests', replies', there⟩ := first requests replies
  obtain ⟨requests'', replies'', onward⟩ := second requests' replies'
  exact ⟨requests'', replies'', there.trans onward⟩

/-- Work of the client between calls. -/
theorem Goes.work {γ : Type} {f : τ → Option (τ × γ)} {next : γ → Talk τ π α} {g : γ}
    (works : f c = some (c', g)) : Goes again (.work f next) c u s (next g) c' u s :=
  fun requests replies =>
    ⟨requests, replies, .step .left (Joint.move_left (Ask.client_work works _ _ _ _)) (.refl _)⟩

/-- A call, whose request may depend on what was said before. -/
theorem Goes.call {next : π → Talk τ π α}
    (call : ∀ requests, ∃ request reply,
      Reaches Ask.client.alone (t, ⟨c, [], .asking [], requests⟩)
        (.recv next, ⟨c', [], .awaiting, requests ++ [request]⟩) ∧
      Serves again u s request reply u' s' ∧ Reads next c' reply t' c'') :
    Goes again t c u s t' c'' u' s' := by
  intro requests replies
  obtain ⟨request, reply, asks, serves, reads⟩ := call requests
  refine ⟨requests ++ [request], replies ++ [reply], ?_⟩
  have sent : (requests ++ [request])[requests.length]? = some request := by simp
  have answered : (replies ++ [reply])[replies.length]? = some reply := by simp
  refine (Joint.reaches_left asks).trans ?_
  refine .step .toRight (Joint.move_toRight sent) ?_
  refine (Joint.reaches_right (serves replies)).trans ?_
  refine .step .toLeft (Joint.move_toLeft answered) ?_
  unfold resting
  rw [List.length_append, List.length_append]
  exact Joint.reaches_left (reads (requests ++ [request]))

/-- A call with one request. -/
theorem Goes.exchange {request : π × List π} {reply : List π} {next : π → Talk τ π α}
    (asks : Asks t c request next c') (serves : Serves again u s request reply u' s')
    (reads : Reads next c' reply t' c'') : Goes again t c u s t' c'' u' s' :=
  .call fun requests => ⟨request, reply, asks requests, serves, reads⟩

theorem reaches_ask (first : π) (rest sent : List π) (f : π → Talk τ π α)
    (requests : List (π × List π)) :
    ∃ init last, init ++ [last] = sent ++ first :: rest ∧
      Reaches Ask.client.alone (Talk.ask first rest >>= f, ⟨c, [], .asking sent, requests⟩)
        (.recv f, ⟨c, [], .awaiting, requests ++ [Ask.request init last]⟩) := by
  induction rest generalizing first sent with
  | nil => exact ⟨sent, first, rfl, .step () rfl (.refl _)⟩
  | cons second rest ih =>
    obtain ⟨init, last, parts, run⟩ := ih second (sent ++ [first])
    refine ⟨init, last, ?_, .step () rfl run⟩
    rw [parts, List.append_assoc, List.singleton_append]

/-- `ask` sends one request. -/
theorem ask_asks (first : π) (rest : List π) (f : π → Talk τ π α) :
    Asks (Talk.ask first rest >>= f) c (first, rest) f c := by
  intro requests
  obtain ⟨init, last, parts, run⟩ := reaches_ask first rest [] f requests
  have whole := List.cons.inj ((Ask.request_eq init last).trans parts)
  have request : Ask.request init last = (first, rest) := Prod.ext whole.1 whole.2
  rwa [request] at run

/-- A reply of one part is read at once. -/
theorem reads_single (next : π → Talk τ π α) (part : π) :
    Reads next c [part] (next part) c := fun _ => .step () rfl (.refl _)

/-- A call that is answered with one part. -/
theorem Goes.ask {first reply : π} {rest : List π} {f : π → Talk τ π α}
    (serves : Serves again u s (first, rest) [reply] u' s') :
    Goes again (Talk.ask first rest >>= f) c u s (f reply) c u' s' :=
  .exchange (ask_asks first rest f) serves (reads_single f reply)

/-- A talk of the client that returns `a`, whatever the client goes on with. -/
def Returns (again : β → Talk σ π β) {γ : Type} (t : Talk τ π γ) (c : τ) (s : σ) (a : γ) (c' : τ)
    (s' : σ) : Prop :=
  ∀ (α : Type) (f : γ → Talk τ π α) (x : β), ∃ x', Goes again (t >>= f) c (again x) s (f a) c' (again x') s'

namespace Returns

variable {γ δ : Type} {v : Talk τ π γ} {a : γ}

theorem pure (a : γ) : Returns again (pure a : Talk τ π γ) c s a c s := fun _ _ x => ⟨x, .refl⟩

theorem bind {f : γ → Talk τ π δ} {d : δ} (first : Returns again v c s a c' s')
    (second : Returns again (f a) c' s' d c'' s'') : Returns again (v >>= f) c s d c'' s'' := by
  intro α g x
  obtain ⟨x', there⟩ := first α (fun a => f a >>= g) x
  obtain ⟨x'', onward⟩ := second α g x'
  rw [Talk.bind_assoc]
  exact ⟨x'', there.trans onward⟩

theorem work {f : τ → Option (τ × γ)} {next : γ → Talk τ π δ} {d : δ} (works : f c = some (c', a))
    (rest : Returns again (next a) c' s d c'' s') : Returns again (.work f next) c s d c'' s' := by
  intro α g x
  obtain ⟨x', onward⟩ := rest α g x
  exact ⟨x', (Goes.work works).trans onward⟩

/-- A call that every turn of the loop answers so. -/
theorem ask {first reply : π} {rest : List π}
    (serves : ∀ x, ∃ x', Serves again (again x) s (first, rest) [reply] (again x') s') :
    Returns again (Talk.ask first rest) c s reply c s' := by
  intro α g x
  obtain ⟨x', served⟩ := serves x
  exact ⟨x', .ask served⟩

/-- Talks that return, one for each element of a list. -/
theorem forM {ι : Type} {f : ι → Talk τ π Unit} {g : σ → ι → σ} (l : List ι)
    (each : ∀ s, ∀ i ∈ l, Returns again (f i) c s () c (g s i)) (s : σ) :
    Returns again (l.forM f) c s () c (l.foldl g s) := by
  induction l generalizing s with
  | nil => exact .pure ()
  | cons i l ih =>
    have rest := fun s j mem => each s j (List.mem_cons_of_mem i mem)
    exact .bind (each s i List.mem_cons_self) (ih rest (g s i))

/-- A talk that returns does so on a part of a state. -/
theorem within {τ' : Type} (q : Portion τ τ') {l : τ'} (returns : Returns again v (q.get l) s a c' s') :
    Returns again (v.within q) l s a (q.put c' l) s' := by
  intro α f x
  obtain ⟨x', goes⟩ := returns γ Pure.pure x
  refine ⟨x', fun requests replies => ?_⟩
  obtain ⟨requests', replies', run⟩ := goes requests replies
  refine ⟨requests', replies', ?_⟩
  rw [Talk.bind_pure] at run
  have around : Reaches (move again)
      ((resting v (q.get l) requests (again x) s replies).mapLeft (Ask.around q l f))
      ((resting (Pure.pure a) c' requests' (again x') s' replies').mapLeft (Ask.around q l f)) :=
    Joint.reaches_mapLeft (Ask.step_around q l f) (fun _ => rfl) (fun _ _ => rfl) run
  have start : Ask.around q l f (v, ⟨q.get l, [], .asking [], requests⟩) =
      (v.within q >>= f, ⟨l, [], .asking [], requests⟩) := by
    rw [Ask.around, Asker.around, q.put_get]
  unfold resting Joint.mapLeft at around
  rw [start] at around
  exact around

end Returns

/-- Between calls a client that is done leaves nothing to move. -/
theorem idle_still (waits : Waits again) (a : α) (requests : List (π × List π))
    (replies : List (List π)) : Still (move again) (idle again (pure a) c requests x s replies) := by
  obtain ⟨next, waiting⟩ := waits x
  intro i
  cases i with
  | left => rfl
  | right =>
    have stuck : (Act.server again).step (.recv next, ⟨s, [], .waiting, replies⟩) = none := rfl
    rw [move, Joint.move, idle, resting, waiting]
    exact congrArg (Option.map _) stuck
  | toRight =>
    have none : requests[requests.length]? = none := List.getElem?_eq_none (Nat.le_refl _)
    exact congrArg (Option.map _) none
  | toLeft =>
    have none : replies[replies.length]? = none := List.getElem?_eq_none (Nat.le_refl _)
    exact congrArg (Option.map _) none

theorem idle_legal (waits : Waits again) (a : α) (requests : List (π × List π))
    (replies : List (List π)) : Joint.Legal Ask.client (Act.server again)
      (idle again (pure a) c requests x s replies) := by
  obtain ⟨next, waiting⟩ := waits x
  have legal : (Act.server again).Legal (.recv next, ⟨s, [], .waiting, replies⟩) := by
    rintro ⟨q, ⟨⟩⟩
  refine ⟨trivial, ?_⟩
  unfold idle resting
  rw [waiting]
  exact legal

/-- However the two sides and the lines take turns, no call is illegal and the run goes on
to the same end, after as many moves in all. -/
def Settles (again : β → Talk σ π β) (start ended : Meeting τ σ π α β) : Prop :=
  Still (move again) ended ∧ ∃ total, ∀ n j, Moves (move again) n start j →
    Joint.Legal Ask.client (Act.server again) j ∧ ∃ m, n + m = total ∧ Moves (move again) m j ended

/-- What one run comes to, every run comes to. -/
theorem Goes.settles (waits : Waits again) {a : α}
    (goes : Goes again t c (again x) s (pure a) c' (again x') s') :
    ∃ requests replies, Settles again (idle again t c [] x s [])
      (idle again (pure a) c' requests x' s' replies) := by
  obtain ⟨requests, replies, total, run⟩ := goes [] []
  have still := idle_still (c := c') (x := x') (s := s') waits a requests replies
  have legal := idle_legal (c := c') (x := x') (s := s') waits a requests replies
  exact ⟨requests, replies, still, total, fun n j other => Joint.settles still legal run other⟩

/-- A talk that returns. -/
theorem Returns.settles {γ : Type} {v : Talk τ π γ} {a : γ} (waits : Waits again)
    (returns : Returns again v c s a c' s') (x : β) :
    ∃ x' requests replies, Settles again (idle again v c [] x s [])
      (idle again (Pure.pure a) c' requests x' s' replies) := by
  obtain ⟨x', goes⟩ := returns γ Pure.pure x
  rw [Talk.bind_pure] at goes
  exact ⟨x', goes.settles waits⟩

end Meeting

end Kit
