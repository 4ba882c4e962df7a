import Mathlib.Algebra.Ring.Nat
import Mathlib.Data.List.Forall2
import Mathlib.Data.Option.Basic

/-!
Deterministic machines that answer each input and may stop.

`step s i = none` means that the process ends on input `i`; it gives no output
and runs no further input. Properties of whole runs come from one step: an
invariant (`invariant`), an invariant that also speaks of the outputs given so
far (`invariant_history`), and a lockstep simulation of one machine by another
(`simulation`). Each takes a guard on the steps, `Along`, for properties that
hold only while every step meets some condition; `Along` of `True` is free.
-/

namespace Kit

universe u v w

/-- A step answers an input with a new state and an output, or stops. -/
structure Machine (σ : Type u) (ι : Type v) (ο : Type w) where
  step : σ → ι → Option (σ × ο)

namespace Machine

variable {σ τ : Type u} {ι : Type v} {ο ο' : Type w}

/-- The state after the inputs, `none` once the machine has stopped. -/
def exec (m : Machine σ ι ο) : σ → List ι → Option σ
  | s, [] => some s
  | s, i :: is =>
    match m.step s i with
    | none => none
    | some (s', _) => m.exec s' is

/-- The outputs given until the inputs or the machine end. -/
def outputs (m : Machine σ ι ο) : σ → List ι → List ο
  | _, [] => []
  | s, i :: is =>
    match m.step s i with
    | none => []
    | some (s', o) => o :: m.outputs s' is

/-- Every step executed on the inputs meets `Good`. -/
def Along (m : Machine σ ι ο) (Good : σ → ι → Prop) : σ → List ι → Prop
  | _, [] => True
  | s, i :: is => Good s i ∧ ∀ s' o, m.step s i = some (s', o) → m.Along Good s' is

variable {m : Machine σ ι ο}

@[simp] theorem exec_nil (s : σ) : m.exec s [] = some s := rfl

@[simp] theorem outputs_nil (s : σ) : m.outputs s [] = [] := rfl

theorem exec_cons_of_step {s s' : σ} {i : ι} {o : ο} (is : List ι)
    (h : m.step s i = some (s', o)) : m.exec s (i :: is) = m.exec s' is := by
  simp [exec, h]

theorem outputs_cons_of_step {s s' : σ} {i : ι} {o : ο} (is : List ι)
    (h : m.step s i = some (s', o)) : m.outputs s (i :: is) = o :: m.outputs s' is := by
  simp [outputs, h]

theorem exec_cons_of_stop {s : σ} {i : ι} (is : List ι) (h : m.step s i = none) :
    m.exec s (i :: is) = none := by
  simp [exec, h]

/-- A run that goes on has made its first step. -/
theorem step_of_exec_cons {s s' : σ} {i : ι} {is : List ι} (run : m.exec s (i :: is) = some s') :
    ∃ t o, m.step s i = some (t, o) ∧ m.exec t is = some s' := by
  cases step : m.step s i with
  | none =>
    rw [exec_cons_of_stop is step] at run
    cases run
  | some p => exact ⟨p.1, p.2, rfl, (exec_cons_of_step is step).symm.trans run⟩

theorem outputs_cons_of_stop {s : σ} {i : ι} (is : List ι) (h : m.step s i = none) :
    m.outputs s (i :: is) = [] := by
  simp [outputs, h]

theorem along_of_forall {Good : σ → ι → Prop} (h : ∀ s i, Good s i) (s : σ) (is : List ι) :
    m.Along Good s is := by
  induction is generalizing s with
  | nil => trivial
  | cons i is ih => exact ⟨h s i, fun s' _ _ => ih s'⟩

/-- A guard on the inputs alone holds along a run when it holds of every input. -/
theorem along_of_inputs {Good : ι → Prop} {is : List ι} (h : ∀ i ∈ is, Good i) (s : σ) :
    m.Along (fun _ i => Good i) s is := by
  induction is generalizing s with
  | nil => trivial
  | cons i is ih =>
    exact ⟨h i List.mem_cons_self, fun s' _ _ => ih (fun j hj => h j (List.mem_cons_of_mem i hj)) s'⟩

/-- A guard checked along a run. -/
def check (m : Machine σ ι ο) (good : σ → ι → Bool) : σ → List ι → Bool
  | _, [] => true
  | s, i :: is => good s i &&
    match m.step s i with
    | none => true
    | some (s', _) => m.check good s' is

theorem along_of_check {Good : σ → ι → Prop} {good : σ → ι → Bool}
    (sound : ∀ s i, good s i = true → Good s i) {s : σ} {is : List ι}
    (h : m.check good s is = true) : m.Along Good s is := by
  induction is generalizing s with
  | nil => trivial
  | cons i is ih =>
    rw [check, Bool.and_eq_true] at h
    refine ⟨sound s i h.1, fun s' o step => ?_⟩
    have rest := h.2
    rw [step] at rest
    exact ih rest

/-- What every good step preserves from a history of outputs and a state holds
of the outputs and the state of every run of good steps. -/
theorem invariant_history {Good : σ → ι → Prop} (Inv : List ο → σ → Prop)
    (preserve : ∀ past s i s' o, Inv past s → Good s i → m.step s i = some (s', o) →
      Inv (past ++ [o]) s')
    (past : List ο) {s s' : σ} {is : List ι} (start : Inv past s) (good : m.Along Good s is)
    (run : m.exec s is = some s') : Inv (past ++ m.outputs s is) s' := by
  induction is generalizing past s with
  | nil =>
    cases run
    simpa using start
  | cons i is ih =>
    cases hstep : m.step s i with
    | none => rw [exec_cons_of_stop is hstep] at run; cases run
    | some p =>
      obtain ⟨t, o⟩ := p
      rw [exec_cons_of_step is hstep] at run
      have next := ih (past ++ [o]) (preserve past s i t o start good.1 hstep) (good.2 t o hstep) run
      rwa [outputs_cons_of_step is hstep, ← List.append_cons] at *

/-- What every good step preserves holds of every state a run of good steps reaches. -/
theorem invariant {Good : σ → ι → Prop} (Inv : σ → Prop)
    (preserve : ∀ s i s' o, Inv s → Good s i → m.step s i = some (s', o) → Inv s')
    {s s' : σ} {is : List ι} (start : Inv s) (good : m.Along Good s is)
    (run : m.exec s is = some s') : Inv s' :=
  invariant_history (fun _ => Inv) (fun _ s i s' o => preserve s i s' o) [] start good run

/-- A run that stops is a shorter run that does not, with the same outputs. -/
theorem executed_prefix {Good : σ → ι → Prop} {s : σ} {is : List ι} (good : m.Along Good s is) :
    ∃ js s', js <+: is ∧ m.Along Good s js ∧ m.exec s js = some s' ∧
      m.outputs s js = m.outputs s is := by
  induction is generalizing s with
  | nil => exact ⟨[], s, List.prefix_refl _, trivial, rfl, rfl⟩
  | cons i is ih =>
    cases hstep : m.step s i with
    | none =>
      exact ⟨[], s, List.nil_prefix, trivial, rfl, by rw [outputs_cons_of_stop is hstep]; rfl⟩
    | some p =>
      obtain ⟨js, s', pre, along, run, outs⟩ := ih (good.2 p.1 p.2 hstep)
      refine ⟨i :: js, s', (List.prefix_cons_inj i).mpr pre, ⟨good.1, ?_⟩, ?_, ?_⟩
      · intro t o ht
        cases hstep.symm.trans ht
        exact along
      · rwa [exec_cons_of_step js hstep]
      · rw [outputs_cons_of_step js hstep, outputs_cons_of_step is hstep, outs]

/-- A machine that an invariant keeps going runs to the end of its inputs. -/
theorem exec_of_progress {Good : ι → Prop} (Inv : σ → Prop)
    (progress : ∀ s i, Inv s → Good i → ∃ s' o, m.step s i = some (s', o) ∧ Inv s') {s : σ}
    {is : List ι} (start : Inv s) (good : ∀ i ∈ is, Good i) :
    ∃ s', m.exec s is = some s' ∧ Inv s' := by
  induction is generalizing s with
  | nil => exact ⟨s, rfl, start⟩
  | cons i is ih =>
    obtain ⟨s', o, step, kept⟩ := progress s i start (good i List.mem_cons_self)
    rw [exec_cons_of_step is step]
    exact ih kept fun j hj => good j (List.mem_cons_of_mem i hj)

/-- A weaker guard holds along a run too. -/
theorem Along.imp {Good Good' : σ → ι → Prop} (weaker : ∀ s i, Good s i → Good' s i) {s : σ}
    {is : List ι} (h : m.Along Good s is) : m.Along Good' s is := by
  induction is generalizing s with
  | nil => trivial
  | cons i is ih => exact ⟨weaker s i h.1, fun t o step => ih (h.2 t o step)⟩

/-- What an invariant and the guard of a step imply holds along a run. -/
theorem Along.of_invariant {Good Good' : σ → ι → Prop} (Inv : σ → Prop)
    (preserve : ∀ s i s' o, Inv s → Good s i → m.step s i = some (s', o) → Inv s')
    (gives : ∀ s i, Inv s → Good s i → Good' s i) {s : σ} {is : List ι} (start : Inv s)
    (good : m.Along Good s is) : m.Along Good' s is := by
  induction is generalizing s with
  | nil => trivial
  | cons i is ih =>
    exact ⟨gives s i start good.1, fun t o step =>
      ih (preserve s i t o start good.1 step) (good.2 t o step)⟩

/-- Two guards hold along a run when each does. -/
theorem Along.and {Good Good' : σ → ι → Prop} {s : σ} {is : List ι} (h : m.Along Good s is)
    (h' : m.Along Good' s is) : m.Along (fun s i => Good s i ∧ Good' s i) s is := by
  induction is generalizing s with
  | nil => trivial
  | cons i is ih =>
    exact ⟨⟨h.1, h'.1⟩, fun t o step => ih (h.2 t o step) (h'.2 t o step)⟩

/-- Two steps agree: both stop, or both go on to related states with related
outputs. -/
def Lockstep (Rel : σ → τ → Prop) (Out : ο → ο' → Prop) :
    Option (σ × ο) → Option (τ × ο') → Prop :=
  Option.Rel fun p q => Rel p.1 q.1 ∧ Out p.2 q.2

/-- Steps that agree, followed by steps that agree. -/
theorem Lockstep.bind {σ' τ' : Type u} {ω ω' : Type w} {Rel : σ → τ → Prop}
    {Out : ο → ο' → Prop} {Rel' : σ' → τ' → Prop} {Out' : ω → ω' → Prop} {x : Option (σ × ο)}
    {y : Option (τ × ο')} {f : σ × ο → Option (σ' × ω)} {g : τ × ο' → Option (τ' × ω')}
    (h : Lockstep Rel Out x y)
    (next : ∀ s t o o', Rel s t → Out o o' → x = some (s, o) →
      Lockstep Rel' Out' (f (s, o)) (g (t, o'))) :
    Lockstep Rel' Out' (x.bind f) (y.bind g) := by
  cases h with
  | none => exact .none
  | some both => exact next _ _ _ _ both.1 both.2 rfl

/-- Steps that agree, after a common value that may be missing. -/
theorem Lockstep.bind_same {σ' τ' : Type u} {ω ω' : Type w} {α : Type v}
    {Rel' : σ' → τ' → Prop} {Out' : ω → ω' → Prop} (x : Option α)
    {f : α → Option (σ' × ω)} {g : α → Option (τ' × ω')}
    (next : ∀ a, x = some a → Lockstep Rel' Out' (f a) (g a)) :
    Lockstep Rel' Out' (x.bind f) (x.bind g) := by
  cases x with
  | none => exact .none
  | some a => exact next a rfl

/-- Steps that agree, with their results seen through functions. -/
theorem Lockstep.map {σ' τ' : Type u} {ω ω' : Type w} {Rel : σ → τ → Prop}
    {Out : ο → ο' → Prop} {Rel' : σ' → τ' → Prop} {Out' : ω → ω' → Prop} {x : Option (σ × ο)}
    {y : Option (τ × ο')} {f : σ × ο → σ' × ω} {g : τ × ο' → τ' × ω'} (h : Lockstep Rel Out x y)
    (next : ∀ s t o o', Rel s t → Out o o' → x = some (s, o) →
      Rel' (f (s, o)).1 (g (t, o')).1 ∧ Out' (f (s, o)).2 (g (t, o')).2) :
    Lockstep Rel' Out' (x.map f) (y.map g) := by
  cases h with
  | none => exact .none
  | some both => exact .some (next _ _ _ _ both.1 both.2 rfl)

/-- Steps that agree with steps that agree. -/
theorem Lockstep.trans {υ : Type u} {R : σ → τ → Prop} {S : τ → υ → Prop} {x : Option (σ × ο)}
    {y : Option (τ × ο)} {z : Option (υ × ο)} (first : Lockstep R Eq x y)
    (second : Lockstep S Eq y z) : Lockstep (fun s u => ∃ t, R s t ∧ S t u) Eq x z := by
  cases first with
  | none => cases second; exact .none
  | some one =>
    cases second with
    | some two => exact .some ⟨⟨_, one.1, two.1⟩, one.2.trans two.2⟩

/-- What holds of every state the first step leads to holds beside the relation. -/
theorem Lockstep.and_left {R : σ → τ → Prop} {Out : ο → ο' → Prop} {P : σ → Prop}
    {x : Option (σ × ο)} {y : Option (τ × ο')} (h : Lockstep R Out x y)
    (holds : ∀ s o, x = some (s, o) → P s) : Lockstep (fun s t => R s t ∧ P s) Out x y := by
  cases h with
  | none => exact .none
  | some both => exact .some ⟨⟨both.1, holds _ _ rfl⟩, both.2⟩

/-- Where the second step goes on, so does the first. -/
theorem Lockstep.of_right {Rel : σ → τ → Prop} {Out : ο → ο' → Prop} {x : Option (σ × ο)}
    {y : Option (τ × ο')} {t : τ} {o' : ο'} (h : Lockstep Rel Out x y) (right : y = some (t, o')) :
    ∃ s o, x = some (s, o) ∧ Rel s t ∧ Out o o' := by
  subst right
  cases h with
  | some both => exact ⟨_, _, rfl, both⟩

/-- Where the first step goes on, so does the second. -/
theorem Lockstep.of_left {Rel : σ → τ → Prop} {Out : ο → ο' → Prop} {x : Option (σ × ο)}
    {y : Option (τ × ο')} {s : σ} {o : ο} (h : Lockstep Rel Out x y) (left : x = some (s, o)) :
    ∃ t o', y = some (t, o') ∧ Rel s t ∧ Out o o' := by
  subst left
  cases h with
  | some both => exact ⟨_, _, rfl, both⟩

/-- Lockstep simulation: machines whose good steps agree give related outputs
on every run, stop on the same input, and end in related states. -/
theorem simulation {n : Machine τ ι ο'} {Rel : σ → τ → Prop} {Out : ο → ο' → Prop}
    {Good : σ → ι → Prop}
    (agree : ∀ s t i, Rel s t → Good s i → Lockstep Rel Out (m.step s i) (n.step t i))
    {s : σ} {t : τ} {is : List ι} (start : Rel s t) (good : m.Along Good s is) :
    List.Forall₂ Out (m.outputs s is) (n.outputs t is) ∧
      Option.Rel Rel (m.exec s is) (n.exec t is) := by
  induction is generalizing s t with
  | nil => exact ⟨.nil, .some start⟩
  | cons i is ih =>
    have here := agree s t i start good.1
    cases hs : m.step s i with
    | none =>
      cases ht : n.step t i with
      | none =>
        rw [outputs_cons_of_stop is hs, outputs_cons_of_stop is ht,
          exec_cons_of_stop is hs, exec_cons_of_stop is ht]
        exact ⟨.nil, .none⟩
      | some q => rw [hs, ht] at here; cases here
    | some p =>
      cases ht : n.step t i with
      | none => rw [hs, ht] at here; cases here
      | some q =>
        rw [hs, ht] at here
        cases here with
        | some both =>
          have rest := ih both.1 (good.2 p.1 p.2 hs)
          rw [outputs_cons_of_step is hs, outputs_cons_of_step is ht,
            exec_cons_of_step is hs, exec_cons_of_step is ht]
          exact ⟨.cons both.2 rest.1, rest.2⟩

/-- A simulation with equal outputs, as equations. -/
theorem simulation_eq {n : Machine τ ι ο} {Rel : σ → τ → Prop}
    {Good : σ → ι → Prop}
    (agree : ∀ s t i, Rel s t → Good s i → Lockstep Rel Eq (m.step s i) (n.step t i))
    {s : σ} {t : τ} {is : List ι} (start : Rel s t) (good : m.Along Good s is) :
    m.outputs s is = n.outputs t is ∧ Option.Rel Rel (m.exec s is) (n.exec t is) := by
  obtain ⟨out, states⟩ := simulation agree start good
  exact ⟨List.forall₂_eq_eq_eq ▸ out, states⟩

/-- The inputs of a run, each as it is seen from the state it finds. -/
def seen {ι' : Type*} (m : Machine σ ι ο) (see : σ → ι → ι') : σ → List ι → List ι'
  | _, [] => []
  | s, i :: is =>
    see s i :: match m.step s i with
      | none => []
      | some (s', _) => seen m see s' is

/-- A simulation of a machine that is given the inputs as they are seen. -/
theorem simulation_seen {ι' : Type*} {n : Machine τ ι' ο} {Rel : σ → τ → Prop} (see : σ → ι → ι')
    (agree : ∀ s t i, Rel s t → Lockstep Rel Eq (m.step s i) (n.step t (see s i)))
    {s : σ} {t : τ} (is : List ι) (start : Rel s t) :
    m.outputs s is = n.outputs t (m.seen see s is) ∧
      Option.Rel Rel (m.exec s is) (n.exec t (m.seen see s is)) := by
  induction is generalizing s t with
  | nil => exact ⟨rfl, .some start⟩
  | cons i is ih =>
    have here := agree s t i start
    unfold seen
    generalize one : m.step s i = x at here
    generalize other : n.step t (see s i) = y at here
    cases here with
    | none =>
      rw [outputs_cons_of_stop is one, exec_cons_of_stop is one, outputs_cons_of_stop _ other,
        exec_cons_of_stop _ other]
      exact ⟨rfl, .none⟩
    | @some p q both =>
      obtain ⟨outs, states⟩ := ih both.1
      rw [outputs_cons_of_step is one, exec_cons_of_step is one, outputs_cons_of_step _ other,
        exec_cons_of_step _ other, both.2]
      exact ⟨congrArg _ outs, states⟩

/-- A machine whose steps, as long as it goes on, are those of another gives a
prefix of the other's outputs, and all of them when it does not stop. -/
theorem simulation_prefix {n : Machine τ ι ο'} {Good : σ → ι → Prop} (Rel : σ → τ → Prop)
    (view : ο → ο')
    (agree : ∀ s t i s' o, Rel s t → Good s i → m.step s i = some (s', o) →
      ∃ t', n.step t i = some (t', view o) ∧ Rel s' t')
    {s : σ} {t : τ} {is : List ι} (start : Rel s t) (good : m.Along Good s is) :
    (m.outputs s is).map view <+: n.outputs t is ∧
      ∀ s', m.exec s is = some s' → (m.outputs s is).map view = n.outputs t is ∧
        ∃ t', n.exec t is = some t' ∧ Rel s' t' := by
  induction is generalizing s t with
  | nil => exact ⟨List.prefix_refl _, fun s' h => ⟨rfl, t, rfl, by cases h; exact start⟩⟩
  | cons i is ih =>
    cases hs : m.step s i with
    | none =>
      rw [outputs_cons_of_stop is hs, exec_cons_of_stop is hs]
      exact ⟨List.nil_prefix, fun s' h => by cases h⟩
    | some p =>
      obtain ⟨t', ht, rel⟩ := agree s t i p.1 p.2 start good.1 hs
      obtain ⟨pre, whole⟩ := ih rel (good.2 p.1 p.2 hs)
      rw [outputs_cons_of_step is hs, outputs_cons_of_step is ht, exec_cons_of_step is hs,
        exec_cons_of_step is ht, List.map_cons]
      refine ⟨(List.prefix_cons_inj _).mpr pre, fun s' h => ?_⟩
      obtain ⟨eq, rest⟩ := whole s' h
      exact ⟨by rw [eq], rest⟩

/-! ### Records beside a run -/

/-- The machine with a record of its inputs beside it. -/
def track {γ : Type u} (m : Machine σ ι ο) (record : γ → ι → γ) : Machine (σ × γ) ι ο where
  step p i := (m.step p.1 i).map fun (s, o) => ((s, record p.2 i), o)

/-- A step of the machine, with the record. -/
theorem track_step {γ : Type u} {record : γ → ι → γ} {p p' : σ × γ} {i : ι} {o : ο} :
    (m.track record).step p i = some (p', o) ↔
      m.step p.1 i = some (p'.1, o) ∧ p'.2 = record p.2 i := by
  obtain ⟨s', g'⟩ := p'
  simp only [track, Option.map_eq_some_iff, Prod.exists, Prod.mk.injEq]
  constructor
  · rintro ⟨s, o, step, ⟨rfl, rfl⟩, rfl⟩
    exact ⟨step, rfl⟩
  · rintro ⟨step, rfl⟩
    exact ⟨s', o, step, ⟨rfl, rfl⟩, rfl⟩

/-- A record beside a machine leaves its runs as they are. -/
theorem track_forgets {γ : Type u} (m : Machine σ ι ο) (record : γ → ι → γ) (s : σ) (g : γ)
    (is : List ι) : (m.track record).outputs (s, g) is = m.outputs s is ∧
      Option.Rel (fun p t => p.1 = t) ((m.track record).exec (s, g) is) (m.exec s is) := by
  have step : ∀ (p : σ × γ) (t : σ) (i : ι), p.1 = t → True →
      Lockstep (fun p t => p.1 = t) Eq ((m.track record).step p i) (m.step t i) := by
    rintro ⟨s, g⟩ _ i rfl -
    change Lockstep _ Eq ((m.step s i).map fun (t, o) => ((t, record g i), o)) (m.step s i)
    cases m.step s i with
    | none => exact .none
    | some q => exact .some ⟨rfl, rfl⟩
  exact simulation_eq step rfl (along_of_forall (fun _ _ => trivial) _ is)

/-- A guard that does not look at the record holds without it. -/
theorem Along.untrack {γ : Type u} {record : γ → ι → γ} {Good : σ → ι → Prop} {p : σ × γ}
    {is : List ι} (good : (m.track record).Along (fun p i => Good p.1 i) p is) :
    m.Along Good p.1 is := by
  induction is generalizing p with
  | nil => trivial
  | cons i is ih =>
    exact ⟨good.1, fun s' o step => ih (good.2 (s', record p.2 i) o (track_step.mpr ⟨step, rfl⟩))⟩

/-- The machine with a record of its inputs and outputs beside it. -/
def recording {γ : Type u} (m : Machine σ ι ο) (record : γ → ι → ο → γ) : Machine (σ × γ) ι ο where
  step p i := (m.step p.1 i).map fun (s, o) => ((s, record p.2 i o), o)

/-- A step of the machine, with the record. -/
theorem recording_step {γ : Type u} {record : γ → ι → ο → γ} {p p' : σ × γ} {i : ι} {o : ο} :
    (m.recording record).step p i = some (p', o) ↔
      m.step p.1 i = some (p'.1, o) ∧ p'.2 = record p.2 i o := by
  obtain ⟨s', g'⟩ := p'
  simp only [recording, Option.map_eq_some_iff, Prod.exists, Prod.mk.injEq]
  constructor
  · rintro ⟨s, o, step, ⟨rfl, rfl⟩, rfl⟩
    exact ⟨step, rfl⟩
  · rintro ⟨step, rfl⟩
    exact ⟨s', o, step, ⟨rfl, rfl⟩, rfl⟩

/-! ### Other outputs -/

/-- The machine with what is to be seen of each step for its output. -/
def observe (m : Machine σ ι ο) (see : σ → ι → ο') : Machine σ ι ο' where
  step s i := (m.step s i).map fun (s', _) => (s', see s i)

/-- A step of the machine, as it is seen. -/
theorem observe_step {see : σ → ι → ο'} {s s' : σ} {i : ι} {o' : ο'} :
    (m.observe see).step s i = some (s', o') ↔ (∃ o, m.step s i = some (s', o)) ∧ o' = see s i := by
  simp only [observe, Option.map_eq_some_iff, Prod.exists, Prod.mk.injEq]
  constructor
  · rintro ⟨s', o, step, rfl, rfl⟩
    exact ⟨⟨o, step⟩, rfl⟩
  · rintro ⟨⟨o, step⟩, rfl⟩
    exact ⟨s', o, step, rfl, rfl⟩

/-! ### Marks in a run -/

/-- The machine with a mark beside it: the state after the last input that sets it. -/
def mark (m : Machine σ ι ο) (marks : ι → Bool) : Machine (σ × σ) ι ο where
  step p i := (m.step p.1 i).map fun (s, o) => ((s, if marks i then s else p.2), o)

/-- A step of the machine, with the mark. -/
theorem mark_step {marks : ι → Bool} {p p' : σ × σ} {i : ι} {o : ο} :
    (m.mark marks).step p i = some (p', o) ↔
      m.step p.1 i = some (p'.1, o) ∧ p'.2 = if marks i then p'.1 else p.2 := by
  obtain ⟨s', g'⟩ := p'
  simp only [mark, Option.map_eq_some_iff, Prod.exists, Prod.mk.injEq]
  constructor
  · rintro ⟨s, o, step, ⟨rfl, rfl⟩, rfl⟩
    exact ⟨step, rfl⟩
  · rintro ⟨step, rfl⟩
    exact ⟨s', o, step, ⟨rfl, rfl⟩, rfl⟩

end Machine

end Kit
