import Mathlib.Algebra.Ring.Nat
import Mathlib.Data.List.Basic

/-!
Two parties and the messages under way between them.

A system is moved by any of its movers that can move it. `Commutes` says that two movers
do not get in each other's way. Every run of such a system then is the start of a run to
where it comes to rest, so one run that comes to rest tells how all of them end
(`Commutes.descends`).

A `Peer` goes on by itself, sends messages, and has messages arrive, which change nothing
in what it can do already. Two peers with a line each way commute (`Joint.commutes`).
-/

namespace Kit

/-! ### Movers -/

section Movers

variable {ι : Type*} {S : Type*} {move : ι → S → Option S} {s t u : S} {k n : Nat}

/-- A run of a number of moves. -/
inductive Moves (move : ι → S → Option S) : Nat → S → S → Prop
  | rest {s : S} : Moves move 0 s s
  | next {k : Nat} {s t u : S} (i : ι) : move i s = some t → Moves move k t u →
      Moves move (k + 1) s u

/-- Some run leads from one state to another. -/
def Reaches (move : ι → S → Option S) (s t : S) : Prop := ∃ k, Moves move k s t

/-- Nothing moves any more. -/
def Still (move : ι → S → Option S) (t : S) : Prop := ∀ i, move i t = none

/-- The moves of two movers can be made in either order. -/
def Commutes (move : ι → S → Option S) : Prop :=
  ∀ {i j : ι} {s t u : S}, i ≠ j → move i s = some t → move j s = some u →
    ∃ v, move j t = some v ∧ move i u = some v

theorem Moves.trans (first : Moves move k s t) (second : Moves move n t u) :
    Moves move (k + n) s u := by
  induction first with
  | rest =>
    rw [Nat.zero_add]
    exact second
  | next i moved _ ih =>
    rw [Nat.succ_add]
    exact .next i moved (ih second)

theorem Reaches.refl (s : S) : Reaches move s s := ⟨0, .rest⟩

theorem Reaches.step (i : ι) (moved : move i s = some t) (rest : Reaches move t u) :
    Reaches move s u := by
  obtain ⟨k, run⟩ := rest
  exact ⟨k + 1, .next i moved run⟩

theorem Reaches.trans (first : Reaches move s t) (second : Reaches move t u) :
    Reaches move s u := by
  obtain ⟨k, first⟩ := first
  obtain ⟨n, second⟩ := second
  exact ⟨k + n, first.trans second⟩

/-- A move on the way to rest leaves the rest to be reached in one move less. -/
theorem Commutes.cut (comm : Commutes move) (still : Still move t) (run : Moves move k s t)
    {i : ι} (moved : move i s = some u) : ∃ m, m + 1 = k ∧ Moves move m u t := by
  induction run generalizing u with
  | rest =>
    rw [still i] at moved
    cases moved
  | @next k s a t j first later ih =>
    by_cases same : i = j
    · subst same
      cases first.symm.trans moved
      exact ⟨k, rfl, later⟩
    · obtain ⟨v, after, before⟩ := comm same moved first
      obtain ⟨m, rfl, goes⟩ := ih still before
      exact ⟨m + 1, rfl, .next j after goes⟩

/-- Every run from where rest is reached goes on to that rest, and with as many moves in
all. -/
theorem Commutes.descends (comm : Commutes move) (still : Still move t) (run : Moves move k s t)
    (other : Moves move n s u) : ∃ m, n + m = k ∧ Moves move m u t := by
  induction other generalizing k with
  | rest => exact ⟨k, Nat.zero_add k, run⟩
  | next i moved _ ih =>
    obtain ⟨m, rfl, later⟩ := comm.cut still run moved
    obtain ⟨m', rfl, goes⟩ := ih later
    exact ⟨m', Nat.add_right_comm _ 1 m', goes⟩

end Movers

/-! ### Peers -/

/-- A party that sends messages of one kind and has messages of another kind arrive. What
arrives stops nothing that it can do, and makes nothing right that it tries wrongly. -/
structure Peer (X : Type*) (M N : Type*) where
  step : X → Option X
  sent : X → List M
  arrive : N → X → X
  Legal : X → Prop
  sent_step : ∀ {x y : X}, step x = some y → sent x <+: sent y
  sent_arrive : ∀ (n : N) (x : X), sent (arrive n x) = sent x
  step_arrive : ∀ (n : N) {x y : X}, step x = some y → step (arrive n x) = some (arrive n y)
  legal_of_step : ∀ {x y : X}, step x = some y → Legal x
  legal_of_arrive : ∀ {n : N} {x : X}, Legal (arrive n x) → Legal x

/-- A peer by itself. -/
def Peer.alone {X M N : Type*} (A : Peer X M N) : Unit → X → Option X := fun _ => A.step

/-- Two peers, and how many of the messages of each have arrived at the other. -/
structure Joint (X Y : Type*) where
  left : X
  right : Y
  toRight : Nat
  toLeft : Nat

/-- What moves two peers: each of them by itself, and each of the lines between them. -/
inductive Mover where
  | left
  | right
  | toRight
  | toLeft

namespace Joint

variable {X Y M N : Type*} (A : Peer X M N) (B : Peer Y N M)

/-- A line delivers the first message that has not arrived. -/
def move : Mover → Joint X Y → Option (Joint X Y)
  | .left, s => (A.step s.left).map fun x => { s with left := x }
  | .right, s => (B.step s.right).map fun y => { s with right := y }
  | .toRight, s => (A.sent s.left)[s.toRight]?.map fun m =>
      { s with right := B.arrive m s.right, toRight := s.toRight + 1 }
  | .toLeft, s => (B.sent s.right)[s.toLeft]?.map fun n =>
      { s with left := A.arrive n s.left, toLeft := s.toLeft + 1 }

/-- Neither peer tries what it may not. -/
def Legal (s : Joint X Y) : Prop := A.Legal s.left ∧ B.Legal s.right

variable {A B} {s t : Joint X Y} {x x' : X} {y y' : Y} {toRight toLeft : Nat}

theorem move_left (h : A.step x = some x') :
    move A B .left ⟨x, y, toRight, toLeft⟩ = some ⟨x', y, toRight, toLeft⟩ := by
  rw [move, h]
  rfl

theorem move_right (h : B.step y = some y') :
    move A B .right ⟨x, y, toRight, toLeft⟩ = some ⟨x, y', toRight, toLeft⟩ := by
  rw [move, h]
  rfl

theorem move_toRight {m : M} (h : (A.sent x)[toRight]? = some m) :
    move A B .toRight ⟨x, y, toRight, toLeft⟩ =
      some ⟨x, B.arrive m y, toRight + 1, toLeft⟩ := by
  rw [move, h]
  rfl

theorem move_toLeft {n : N} (h : (B.sent y)[toLeft]? = some n) :
    move A B .toLeft ⟨x, y, toRight, toLeft⟩ =
      some ⟨A.arrive n x, y, toRight, toLeft + 1⟩ := by
  rw [move, h]
  rfl

/-- What has been sent stays to be delivered. -/
theorem still_sent {P : Type*} {l l' : List P} {i : Nat} {p : P} (grows : l <+: l')
    (h : l[i]? = some p) : l'[i]? = some p := by
  obtain ⟨more, rfl⟩ := grows
  obtain ⟨inside, rfl⟩ := List.getElem?_eq_some_iff.mp h
  rw [List.getElem?_append_left inside]
  exact List.getElem?_eq_getElem inside

/-- A peer and a line that brings it a message. -/
theorem left_toLeft (worked : move A B .left s = some t) {u : Joint X Y}
    (brought : move A B .toLeft s = some u) :
    ∃ v, move A B .toLeft t = some v ∧ move A B .left u = some v := by
  obtain ⟨x, y, toRight, toLeft⟩ := s
  obtain ⟨x', step, rfl⟩ := Option.map_eq_some_iff.mp worked
  obtain ⟨n, first, rfl⟩ := Option.map_eq_some_iff.mp brought
  exact ⟨_, move_toLeft first, move_left (A.step_arrive n step)⟩

theorem right_toRight (worked : move A B .right s = some t) {u : Joint X Y}
    (brought : move A B .toRight s = some u) :
    ∃ v, move A B .toRight t = some v ∧ move A B .right u = some v := by
  obtain ⟨x, y, toRight, toLeft⟩ := s
  obtain ⟨y', step, rfl⟩ := Option.map_eq_some_iff.mp worked
  obtain ⟨m, first, rfl⟩ := Option.map_eq_some_iff.mp brought
  exact ⟨_, move_toRight first, move_right (B.step_arrive m step)⟩

/-- A peer and a line that takes its messages away. -/
theorem left_toRight (worked : move A B .left s = some t) {u : Joint X Y}
    (brought : move A B .toRight s = some u) :
    ∃ v, move A B .toRight t = some v ∧ move A B .left u = some v := by
  obtain ⟨x, y, toRight, toLeft⟩ := s
  obtain ⟨x', step, rfl⟩ := Option.map_eq_some_iff.mp worked
  obtain ⟨m, first, rfl⟩ := Option.map_eq_some_iff.mp brought
  exact ⟨_, move_toRight (still_sent (A.sent_step step) first), move_left step⟩

theorem right_toLeft (worked : move A B .right s = some t) {u : Joint X Y}
    (brought : move A B .toLeft s = some u) :
    ∃ v, move A B .toLeft t = some v ∧ move A B .right u = some v := by
  obtain ⟨x, y, toRight, toLeft⟩ := s
  obtain ⟨y', step, rfl⟩ := Option.map_eq_some_iff.mp worked
  obtain ⟨n, first, rfl⟩ := Option.map_eq_some_iff.mp brought
  exact ⟨_, move_toLeft (still_sent (B.sent_step step) first), move_right step⟩

theorem left_right (worked : move A B .left s = some t) {u : Joint X Y}
    (other : move A B .right s = some u) :
    ∃ v, move A B .right t = some v ∧ move A B .left u = some v := by
  obtain ⟨x, y, toRight, toLeft⟩ := s
  obtain ⟨x', step, rfl⟩ := Option.map_eq_some_iff.mp worked
  obtain ⟨y', step', rfl⟩ := Option.map_eq_some_iff.mp other
  exact ⟨_, move_right step', move_left step⟩

theorem toRight_toLeft (brought : move A B .toRight s = some t) {u : Joint X Y}
    (other : move A B .toLeft s = some u) :
    ∃ v, move A B .toLeft t = some v ∧ move A B .toRight u = some v := by
  obtain ⟨x, y, toRight, toLeft⟩ := s
  obtain ⟨m, first, rfl⟩ := Option.map_eq_some_iff.mp brought
  obtain ⟨n, second, rfl⟩ := Option.map_eq_some_iff.mp other
  have second' : (B.sent (B.arrive m y))[toLeft]? = some n := (B.sent_arrive m y).symm ▸ second
  have first' : (A.sent (A.arrive n x))[toRight]? = some m := (A.sent_arrive n x).symm ▸ first
  exact ⟨_, move_toLeft second', move_toRight first'⟩

/-- Two peers and their lines do not get in each other's way. -/
theorem commutes : Commutes (move A B) := by
  intro i j s t u differ first second
  -- a pair in the other order has the two moves of the first the other way round
  cases i <;> cases j
  case left.left | right.right | toRight.toRight | toLeft.toLeft => exact absurd rfl differ
  case left.right => exact left_right first second
  case left.toRight => exact left_toRight first second
  case left.toLeft => exact left_toLeft first second
  case right.toRight => exact right_toRight first second
  case right.toLeft => exact right_toLeft first second
  case toRight.toLeft => exact toRight_toLeft first second
  all_goals refine Exists.imp (fun _ => And.symm) ?_
  case right.left => exact left_right second first
  case toRight.left => exact left_toRight second first
  case toLeft.left => exact left_toLeft second first
  case toRight.right => exact right_toRight second first
  case toLeft.right => exact right_toLeft second first
  case toLeft.toRight => exact toRight_toLeft second first

/-- A peer that tries what it may not never goes on. -/
theorem Legal.before {i : Mover} (moved : move A B i s = some t) (legal : Legal A B t) :
    Legal A B s := by
  obtain ⟨x, y, toRight, toLeft⟩ := s
  cases i with
  | left =>
    obtain ⟨x', step, rfl⟩ := Option.map_eq_some_iff.mp moved
    exact ⟨A.legal_of_step step, legal.2⟩
  | right =>
    obtain ⟨y', step, rfl⟩ := Option.map_eq_some_iff.mp moved
    exact ⟨legal.1, B.legal_of_step step⟩
  | toRight =>
    obtain ⟨m, _, rfl⟩ := Option.map_eq_some_iff.mp moved
    exact ⟨legal.1, B.legal_of_arrive legal.2⟩
  | toLeft =>
    obtain ⟨n, _, rfl⟩ := Option.map_eq_some_iff.mp moved
    exact ⟨A.legal_of_arrive legal.1, legal.2⟩

theorem Legal.of_moves {k : Nat} (run : Moves (move A B) k s t) (legal : Legal A B t) :
    Legal A B s := by
  induction run with
  | rest => exact legal
  | next i moved _ ih => exact (ih legal).before moved

/-- Every run of two peers that can come to rest is legal throughout, and goes on to that
rest with as many moves in all. -/
theorem settles {k n : Nat} (still : Still (move A B) t) (legal : Legal A B t)
    (run : Moves (move A B) k s t) {u : Joint X Y} (other : Moves (move A B) n s u) :
    Legal A B u ∧ ∃ m, n + m = k ∧ Moves (move A B) m u t := by
  obtain ⟨m, all, later⟩ := commutes.descends still run other
  exact ⟨legal.of_moves later, m, all, later⟩

/-! ### Runs of one of them -/

/-- What a peer does by itself, it does in company. -/
theorem reaches_left (h : Reaches A.alone x x') :
    Reaches (move A B) ⟨x, y, toRight, toLeft⟩ ⟨x', y, toRight, toLeft⟩ := by
  obtain ⟨k, run⟩ := h
  induction run with
  | rest => exact .refl _
  | next _ step _ ih => exact .step .left (move_left step) ih

theorem reaches_right (h : Reaches B.alone y y') :
    Reaches (move A B) ⟨x, y, toRight, toLeft⟩ ⟨x, y', toRight, toLeft⟩ := by
  obtain ⟨k, run⟩ := h
  induction run with
  | rest => exact .refl _
  | next _ step _ ih => exact .step .right (move_right step) ih

/-! ### One peer for another -/

variable {X' : Type*} {A' : Peer X' M N} {f : X → X'}

/-- With another peer on the left. -/
def mapLeft (f : X → X') (s : Joint X Y) : Joint X' Y where
  left := f s.left
  right := s.right
  toRight := s.toRight
  toLeft := s.toLeft

/-- Where a peer does what another does, sends what it sends and takes what it takes, the
two go together wherever the other goes. -/
theorem reaches_mapLeft (steps : ∀ {x y}, A.step x = some y → A'.step (f x) = some (f y))
    (sends : ∀ x, A'.sent (f x) = A.sent x) (arrives : ∀ n x, f (A.arrive n x) = A'.arrive n (f x))
    (h : Reaches (move A B) s t) : Reaches (move A' B) (s.mapLeft f) (t.mapLeft f) := by
  obtain ⟨k, run⟩ := h
  induction run with
  | rest => exact .refl _
  | @next k s t u i moved _ ih =>
    obtain ⟨x, y, toRight, toLeft⟩ := s
    refine .step i ?_ ih
    cases i with
    | left =>
      obtain ⟨x', step, rfl⟩ := Option.map_eq_some_iff.mp moved
      exact move_left (steps step)
    | right =>
      obtain ⟨y', step, rfl⟩ := Option.map_eq_some_iff.mp moved
      exact move_right step
    | toRight =>
      obtain ⟨m, first, rfl⟩ := Option.map_eq_some_iff.mp moved
      exact move_toRight ((sends x).symm ▸ first)
    | toLeft =>
      obtain ⟨n, first, rfl⟩ := Option.map_eq_some_iff.mp moved
      have brought : move A' B .toLeft ⟨f x, y, toRight, toLeft⟩ =
          some ⟨A'.arrive n (f x), y, toRight, toLeft + 1⟩ := move_toLeft first
      rw [← arrives] at brought
      exact brought

end Joint

end Kit
