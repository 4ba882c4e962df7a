import Mathlib.Algebra.Ring.Nat
import Mathlib.Algebra.Ring.Int.Defs
import Mathlib.Logic.Function.Basic
import Mathlib.Data.List.Basic

/-!
Counted loops over an explicit state.

`forLoop n f s` is `for (i = 0; i < n; i++) s = f i s`. A loop that advances its
index by a stride, or that carries a running position beside its data, is the
same loop after `forLoop_counter`. Proofs about loops go through `forLoop_inv`,
so that no proof unfolds the recursion itself.
-/

namespace Kit.Loop

universe u v

variable {σ : Type u} {τ : Type v}

/-- Run `f 0`, …, `f (n - 1)` on the state, in this order. -/
def forLoop : Nat → (Nat → σ → σ) → σ → σ
  | 0, _, s => s
  | n + 1, f, s => f n (forLoop n f s)

@[simp] theorem forLoop_zero (f : Nat → σ → σ) (s : σ) : forLoop 0 f s = s := rfl

@[simp] theorem forLoop_succ (n : Nat) (f : Nat → σ → σ) (s : σ) :
    forLoop (n + 1) f s = f n (forLoop n f s) := rfl

/-- The invariant rule: `P i` before iteration `i` gives `P (i + 1)` after it. -/
theorem forLoop_inv {n : Nat} {f : Nat → σ → σ} {s : σ} (P : Nat → σ → Prop)
    (start : P 0 s) (step : ∀ i, i < n → ∀ t, P i t → P (i + 1) (f i t)) :
    P n (forLoop n f s) := by
  suffices h : ∀ k, k ≤ n → P k (forLoop k f s) from h n (Nat.le_refl n)
  intro k
  induction k with
  | zero => exact fun _ => start
  | succ k ih => exact fun hk => step k hk _ (ih (Nat.le_of_lt hk))

/-- Two loops whose bodies agree on the iterations run are equal. -/
theorem forLoop_congr {n : Nat} {f g : Nat → σ → σ} (s : σ)
    (agree : ∀ i, i < n → ∀ t, f i t = g i t) : forLoop n f s = forLoop n g s := by
  refine forLoop_inv (P := fun i t => t = forLoop i g s) rfl ?_
  intro i hi t ht
  rw [forLoop_succ, agree i hi, ht]

/-- A map that commutes with every iteration commutes with the loop. -/
theorem forLoop_map {n : Nat} {f : Nat → σ → σ} {g : Nat → τ → τ} (π : σ → τ) (s : σ)
    (commute : ∀ i, i < n → ∀ t, π (f i t) = g i (π t)) :
    π (forLoop n f s) = forLoop n g (π s) := by
  refine forLoop_inv (P := fun i t => π t = forLoop i g (π s)) rfl ?_
  intro i hi t ht
  rw [commute i hi, ht, forLoop_succ]

/-- A position incremented once an iteration is the start plus the index. -/
theorem forLoop_counter (n : Nat) (f : Nat → Nat → σ → σ) (s : σ) (k : Nat) :
    forLoop n (fun i t => (f i t.2 t.1, t.2 + 1)) (s, k) =
      (forLoop n (fun i t => f i (k + i) t) s, k + n) := by
  induction n with
  | zero => rfl
  | succ n ih => rw [forLoop_succ, ih, forLoop_succ, Nat.add_assoc]

/-- The same for a position carried through two nested loops: it is
`i * m + j` in iteration `(i, j)`. -/
theorem forLoop_counter₂ (n m : Nat) (f : Nat → Nat → Nat → σ → σ) (s : σ) :
    forLoop n (fun i t => forLoop m (fun j t => (f i j t.2 t.1, t.2 + 1)) t) (s, 0) =
      (forLoop n (fun i t => forLoop m (fun j t => f i j (i * m + j) t) t) s, n * m) := by
  induction n with
  | zero => simp
  | succ n ih => rw [forLoop_succ, ih, forLoop_counter m (f n), forLoop_succ, Nat.succ_mul]

/-- The first component of a loop whose body treats it independently of the second. -/
theorem forLoop_fst {n : Nat} {f : Nat → σ × τ → σ × τ} (g : Nat → σ → σ) (s : σ × τ)
    (first : ∀ i t, (f i t).1 = g i t.1) : (forLoop n f s).1 = forLoop n g s.1 :=
  forLoop_map Prod.fst s fun i _ t => first i t

/-- A loop that appends to a log a record of each iteration. -/
theorem forLoop_log {ε : Type v} {n : Nat} {f : Nat → σ × List ε → σ × List ε}
    (record : Nat → List ε) (s : σ × List ε)
    (appends : ∀ i, i < n → ∀ t, (f i t).2 = t.2 ++ record i) :
    (forLoop n f s).2 = s.2 ++ (List.range n).flatMap record := by
  refine forLoop_inv (P := fun m (t : σ × List ε) =>
    t.2 = s.2 ++ (List.range m).flatMap record) ?_ ?_
  · simp
  · intro m hm t ih
    rw [appends m hm, ih, List.range_succ, List.flatMap_append, List.append_assoc,
      List.flatMap_singleton]

/-- The number of iterations of `for (i = 0; i < bound; i += stride)`. -/
def iterations (bound stride : Nat) : Nat := (bound + stride - 1) / stride

@[simp] theorem iterations_mul (n : Nat) {stride : Nat} (pos : 0 < stride) :
    iterations (n * stride) stride = n := by
  unfold iterations
  refine Nat.div_eq_of_lt_le ?_ ?_
  · omega
  · rw [Nat.succ_mul]; omega

@[simp] theorem iterations_self {stride : Nat} (pos : 0 < stride) :
    iterations stride stride = 1 := by
  simpa using iterations_mul 1 pos

theorem iterations_of_dvd {bound stride : Nat} (h : stride ∣ bound) :
    iterations bound stride = bound / stride := by
  rcases Nat.eq_zero_or_pos stride with rfl | pos
  · simp [iterations]
  · obtain ⟨q, rfl⟩ := h
    rw [Nat.mul_comm, iterations_mul q pos, Nat.mul_div_cancel q pos]

end Kit.Loop
