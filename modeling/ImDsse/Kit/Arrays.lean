import ImDsse.Kit.Bits

/-!
Arrays that have a size.

`load` and `store` fail outside of their array, and `checkedLoop` is a loop whose body
can fail. A program over them is the program over unbounded memory as long as every
index lies in the array it is used on: `checkedLoop_run` carries this through a loop,
and `checkedLoop_inside` gives back what a loop that did not fail has met.
-/

namespace Kit.Arrays

open Kit.Loop Kit.Bits

universe u v

variable {α : Type u} {σ : Type v}

/-! ### Single accesses -/

def load (size : Nat) (a : Nat → α) (i : Nat) : Option α :=
  if i < size then some (a i) else none

def store (size : Nat) (a : Nat → α) (i : Nat) (x : α) : Option (Nat → α) :=
  if i < size then some (Function.update a i x) else none

/-- Set or clear a bit of a byte in place. -/
def storeBit (size : Nat) (b : Buf) (i pos : Nat) (v : Bool) : Option Buf :=
  if i < size then some (putBit b i pos v) else none

/-- Write within row `r` of a matrix that has `rows` of them. -/
def storeRow (rows : Nat) (I : Matrix) (r : Nat) (f : Buf → Option Buf) : Option Matrix :=
  (load rows I r).bind fun row => (f row).map (Function.update I r)

section Access

variable {size i : Nat} (inside : i < size)
include inside

theorem load_eq (a : Nat → α) : load size a i = some (a i) := if_pos inside

theorem store_eq (a : Nat → α) (x : α) : store size a i x = some (Function.update a i x) :=
  if_pos inside

theorem storeBit_eq (b : Buf) (pos : Nat) (v : Bool) :
    storeBit size b i pos v = some (putBit b i pos v) := if_pos inside

theorem storeRow_eq {f : Buf → Option Buf} {g : Buf → Buf} (row : ∀ b, f b = some (g b))
    (I : Matrix) : storeRow size I i f = some (onRow I i g) := by
  unfold storeRow
  rw [load_eq inside, Option.bind_some, row, Option.map_some, onRow]

end Access

theorem load_inside {size i : Nat} {a : Nat → α} {x : α} (h : load size a i = some x) :
    i < size := by
  unfold load at h
  split at h
  · assumption
  · cases h

theorem storeBit_inside {size i pos : Nat} {b b' : Buf} {v : Bool}
    (h : storeBit size b i pos v = some b') : i < size := by
  unfold storeBit at h
  split at h
  · assumption
  · cases h

theorem storeRow_inside {rows r : Nat} {I I' : Matrix} {f : Buf → Option Buf}
    (h : storeRow rows I r f = some I') : ∃ b, f (I r) = some b := by
  obtain ⟨row, found, stored⟩ := Option.bind_eq_some_iff.mp h
  rw [load_eq (load_inside found)] at found
  obtain ⟨b, stored, -⟩ := Option.map_eq_some_iff.mp stored
  cases found
  exact ⟨b, stored⟩

/-! ### Loops -/

/-- Run `body 0`, …, `body (n - 1)` on the state, until one of them fails. -/
def checkedLoop : Nat → (Nat → σ → Option σ) → σ → Option σ
  | 0, _, s => some s
  | n + 1, body, s => (checkedLoop n body s).bind (body n)

/-- A loop none of whose iterations fails, with what it keeps. -/
theorem checkedLoop_run {n : Nat} {body : Nat → σ → Option σ} {f : Nat → σ → σ} {s : σ}
    (P : Nat → σ → Prop) (start : P 0 s)
    (inside : ∀ i, i < n → ∀ t, P i t → body i t = some (f i t) ∧ P (i + 1) (f i t)) :
    checkedLoop n body s = some (forLoop n f s) ∧ P n (forLoop n f s) := by
  induction n with
  | zero => exact ⟨rfl, start⟩
  | succ n ih =>
    obtain ⟨run, kept⟩ := ih fun i hi => inside i (Nat.lt_succ_of_lt hi)
    obtain ⟨last, next⟩ := inside n (Nat.lt_succ_self n) _ kept
    exact ⟨by rw [checkedLoop, run, Option.bind_some, last, forLoop_succ], next⟩

theorem checkedLoop_eq {n : Nat} {body : Nat → σ → Option σ} {f : Nat → σ → σ}
    (inside : ∀ i, i < n → ∀ t, body i t = some (f i t)) (s : σ) :
    checkedLoop n body s = some (forLoop n f s) :=
  (checkedLoop_run (fun _ _ => True) trivial fun i hi t _ => ⟨inside i hi t, trivial⟩).1

/-- A running position that every iteration of the inner loop moves on by one. -/
theorem checkedLoop_counter₂ {n m : Nat} {body : Nat → Nat → σ × Nat → Option (σ × Nat)}
    {f : Nat → Nat → Nat → σ → σ}
    (inside : ∀ i, i < n → ∀ j, j < m → ∀ t,
      body i j (t, i * m + j) = some (f i j (i * m + j) t, i * m + j + 1)) (s : σ) :
    checkedLoop n (fun i t => checkedLoop m (body i) t) (s, 0) =
      some (forLoop n (fun i t => forLoop m (fun j t => (f i j t.2 t.1, t.2 + 1)) t) (s, 0)) := by
  refine (checkedLoop_run (fun i t => t.2 = i * m) (Nat.zero_mul m).symm ?_).1
  intro i hi t ht
  rw [Nat.succ_mul]
  refine checkedLoop_run (fun j (t : σ × Nat) => t.2 = i * m + j) ht ?_
  rintro j hj ⟨t, pos⟩ rfl
  exact ⟨inside i hi j hj t, Nat.add_assoc _ _ _⟩

/-- A loop that did not fail has met every iteration. -/
theorem checkedLoop_inside {n : Nat} {body : Nat → σ → Option σ} {s s' : σ}
    (h : checkedLoop n body s = some s') {i : Nat} (hi : i < n) :
    ∃ t t', body i t = some t' := by
  induction n generalizing s' with
  | zero => exact absurd hi (Nat.not_lt_zero i)
  | succ n ih =>
    obtain ⟨t, run, last⟩ := Option.bind_eq_some_iff.mp h
    rcases Nat.lt_succ_iff_lt_or_eq.mp hi with earlier | rfl
    · exact ih run earlier
    · exact ⟨t, s', last⟩

theorem checkedLoop_congr {n : Nat} {f g : Nat → σ → Option σ}
    (agree : ∀ i, i < n → ∀ t, f i t = g i t) (s : σ) : checkedLoop n f s = checkedLoop n g s := by
  induction n with
  | zero => rfl
  | succ n ih =>
    rw [checkedLoop, checkedLoop, ih fun i hi => agree i (Nat.lt_succ_of_lt hi)]
    exact congrArg _ (funext (agree n (Nat.lt_succ_self n)))

theorem checkedLoop_eq_foldlM (n : Nat) (body : Nat → σ → Option σ) (s : σ) :
    checkedLoop n body s = (List.range n).foldlM (fun s i => body i s) s := by
  induction n with
  | zero => rfl
  | succ n ih =>
    rw [checkedLoop, ih, List.range_succ, List.foldlM_append]
    simp only [List.foldlM_cons, List.foldlM_nil, bind_pure]
    rfl

/-- A fold over a list none of whose steps fails. -/
theorem foldlM_eq_foldl {f : σ → α → Option σ} {g : σ → α → σ} {l : List α}
    (inside : ∀ a ∈ l, ∀ s, f s a = some (g s a)) (s : σ) : l.foldlM f s = some (l.foldl g s) := by
  induction l generalizing s with
  | nil => rfl
  | cons a l ih =>
    rw [List.foldlM_cons, inside a List.mem_cons_self, Option.bind_eq_bind, Option.bind_some,
      List.foldl_cons]
    exact ih (fun b hb => inside b (List.mem_cons_of_mem a hb)) _

/-! ### Copies -/

/-- Copy `n` bits within one byte, bit by bit. -/
def copyBitsIn (n dsize : Nat) (dst : Buf) (dcol dbit ssize : Nat) (src : Buf) (scol sbit : Nat) :
    Option Buf :=
  checkedLoop n (fun ii b => (load ssize src scol).bind fun x =>
    storeBit dsize b dcol (dbit + ii) (bitCheck x (sbit + ii))) dst

/-- Copy `n` bytes. -/
def copyBytesIn (n dsize : Nat) (dst : Buf) (dcol ssize : Nat) (src : Buf) (scol : Nat) :
    Option Buf :=
  checkedLoop n (fun ii b => (load ssize src (scol + ii)).bind fun x =>
    store dsize b (dcol + ii) x) dst

theorem copyBitsIn_eq {n dsize dcol ssize scol : Nat} (hd : dcol < dsize) (hs : scol < ssize)
    (dst : Buf) (dbit : Nat) (src : Buf) (sbit : Nat) :
    copyBitsIn n dsize dst dcol dbit ssize src scol sbit =
      some (copyBits n dst dcol dbit src scol sbit) :=
  checkedLoop_eq (fun _ _ _ => by rw [load_eq hs, Option.bind_some, storeBit_eq hd]) dst

theorem copyBytesIn_eq {n dsize dcol ssize scol : Nat} (hd : dcol + n ≤ dsize)
    (hs : scol + n ≤ ssize) (dst src : Buf) :
    copyBytesIn n dsize dst dcol ssize src scol = some (copyBytes n dst dcol src scol) := by
  refine checkedLoop_eq (fun ii hii b => ?_) dst
  rw [load_eq (by omega), Option.bind_some]
  exact store_eq (by omega) b _

/-- Append `base + k` for every set bit `k` of the first `n` bytes of an array. -/
def scanBytesIn (n size : Nat) (b : Buf) (base : Nat) (l : List Nat) : Option (List Nat) :=
  checkedLoop n (fun ii l => (load size b ii).map fun x => forLoop 8 (fun p l =>
    if bitCheck x p then l ++ [base + (ii * 8 + p)] else l) l) l

theorem scanBytesIn_eq {n size : Nat} (h : n ≤ size) (b : Buf) (base : Nat) (l : List Nat) :
    scanBytesIn n size b base l = some (scanBytes n b base l) :=
  checkedLoop_eq (fun ii hii _ => by rw [load_eq (Nat.lt_of_lt_of_le hii h), Option.map_some]) l

end Kit.Arrays
