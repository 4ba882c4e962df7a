import ImDsse.Kit.Arrays

/-!
The bytes of the hardware generator (`rdrand`).

The words that are drawn go into a temporary array through a pointer that moves on
with each of them, and the output is copied from that pointer. When all words have been
drawn it points behind the array: the copy then reads outside of it. A call keeps
within the array only where it gives up before, and `rdrand_fills_iff` says when it
does.
-/

namespace ImDsse

open Kit.Loop Kit.Bits Kit.Arrays

/-- What the calls of `_rdrand64_asm` answer, one after the other: whether there is a
word, and the word. -/
abbrev Answers := Nat → Bool × BitVec 64

/-- The `do … while` loop: a word, if one of the answers has it, and the answers used. -/
def drawWord (answers : Answers) (retryLimit used count : Nat) : Option (BitVec 64) × Nat :=
  if (answers used).1 then (some (answers used).2, used + 1)
  else if count < retryLimit then drawWord answers retryLimit (used + 1) (count + 1)
  else (none, used + 1)
termination_by retryLimit - count

/-- The temporary array, the position of `tmp` in it, and the answers used. -/
structure Filling where
  words : Nat → BitVec 64
  tmp : Nat
  used : Nat

/-- The loop over the words of an array of `size`, with its last `m` iterations to go.
It ends early where no word is drawn. -/
def fillWords (answers : Answers) (retryLimit size : Nat) : Nat → Filling → Option (Bool × Filling)
  | 0, s => some (true, s)
  | m + 1, s =>
    match drawWord answers retryLimit s.used 0 with
    | (some qrand, used) =>
      (store size s.words s.tmp qrand).bind fun words =>
        fillWords answers retryLimit size m ⟨words, s.tmp + 1, used⟩
    | (none, used) => some (false, { s with used := used })

/-- `int n = output_len * sizeof(unsigned long int)` -/
def wordCount (outputLen : BitVec 32) : Int :=
  ((outputLen.setWidth 64 * 8#64).setWidth 32).toInt

/-- An array of words as the bytes it consists of. -/
def wordBytes (words : Nat → BitVec 64) : Buf := fun i =>
  (words (i / 8)).extractLsb' (8 * (i % 8)) 8

/-- What `rdrand` returns, `output` after it, and the answers it used. -/
structure Rdrand where
  code : Int
  output : Buf
  used : Nat

/-- `rdrand`, with `heap` what the temporary array holds at first. It is `none` when a
negative number of words is asked of `new`, or when memory is read or written outside
of the array. -/
def rdrand (output : Buf) (outputLen retryLimit : BitVec 32) (answers : Answers)
    (heap : Nat → BitVec 64) : Option Rdrand :=
  let n := wordCount outputLen
  if n < 0 then none
  else
    (fillWords answers retryLimit.toNat n.toNat n.toNat ⟨heap, 0, 0⟩).bind fun (filled, s) =>
      if filled then
        (copyBytesIn outputLen.toNat outputLen.toNat output 0 (8 * n.toNat) (wordBytes s.words)
          (8 * s.tmp)).map fun output => ⟨0, output, s.used⟩
      else some ⟨-1, output, s.used⟩

/-! ### The words drawn -/

/-- The words of the first `used` answers. -/
def drawn (answers : Answers) (used : Nat) : List (BitVec 64) :=
  ((List.range used).filter fun i => (answers i).1).map fun i => (answers i).2

/-- The bytes of words, one word after the other. -/
def bytesOfWords (words : List (BitVec 64)) : List Byte :=
  words.flatMap fun w => (List.range 8).map fun j => w.extractLsb' (8 * j) 8

/-- The call kept to its array, and failed or filled the output from the words drawn. -/
def FillsOutput (answers : Answers) (outputLen : Nat) : Option Rdrand → Prop
  | none => False
  | some r => r.code = -1 ∨
    r.code = 0 ∧ toBytes r.output outputLen = (bytesOfWords (drawn answers r.used)).take outputLen

/-- Before `n` words are drawn, no word comes in `retryLimit + 1` answers in a row. -/
def Exhausted (answers : Answers) (retryLimit : Nat) (n : Int) : Prop :=
  ∃ i, (drawn answers i).length < n ∧ ∀ j ≤ retryLimit, (answers (i + j)).1 = false

theorem drawn_succ (answers : Answers) (i : Nat) :
    drawn answers (i + 1) =
      drawn answers i ++ if (answers i).1 then [(answers i).2] else [] := by
  unfold drawn
  rw [List.range_succ, List.filter_append, List.map_append]
  cases success : (answers i).1 <;> simp [success]

/-- Answers without a word add none. -/
theorem drawn_add {answers : Answers} {i k : Nat} (fails : ∀ j < k, (answers (i + j)).1 = false) :
    drawn answers (i + k) = drawn answers i := by
  induction k with
  | zero => rfl
  | succ k ih =>
    have last := fails k (Nat.lt_succ_self k)
    rw [← Nat.add_assoc, drawn_succ, last, ih fun j hj => fails j (Nat.lt_succ_of_lt hj)]
    exact List.append_nil _

theorem drawn_length_mono (answers : Answers) {i k : Nat} (h : i ≤ k) :
    (drawn answers i).length ≤ (drawn answers k).length := by
  obtain ⟨d, rfl⟩ := Nat.exists_eq_add_of_le h
  clear h
  induction d with
  | zero => exact Nat.le_refl _
  | succ d ih =>
    rw [← Nat.add_assoc, drawn_succ, List.length_append]
    exact Nat.le_add_right_of_le ih

/-! ### The loops -/

/-- The retry loop stops at the first answer with a word, or after `retryLimit` more
without one. -/
theorem drawWord_spec (answers : Answers) (retryLimit used count : Nat) :
    (∃ k ≤ retryLimit - count, drawWord answers retryLimit used count =
        (some (answers (used + k)).2, used + k + 1) ∧ (answers (used + k)).1 = true ∧
        ∀ j < k, (answers (used + j)).1 = false) ∨
    (drawWord answers retryLimit used count).1 = none ∧
      ∀ j ≤ retryLimit - count, (answers (used + j)).1 = false := by
  fun_induction drawWord answers retryLimit used count with
  | case1 used count success =>
    exact Or.inl ⟨0, Nat.zero_le _, rfl, success, fun j hj => absurd hj (Nat.not_lt_zero j)⟩
  | case2 used count fails more ih =>
    have first : (answers (used + 0)).1 = false := Bool.eq_false_iff.mpr fails
    rcases ih with ⟨k, hk, draw, success, before⟩ | ⟨draw, all⟩
    · refine Or.inl ⟨k + 1, by omega, ?_, ?_, fun j hj => ?_⟩
      · rw [draw, Nat.add_assoc used 1 k, Nat.add_comm 1 k]
      · rw [← success, Nat.add_assoc used 1 k, Nat.add_comm 1 k]
      · cases j with
        | zero => exact first
        | succ j =>
          rw [← before j (Nat.lt_of_succ_lt_succ hj), Nat.add_assoc used 1 j, Nat.add_comm 1 j]
    · refine Or.inr ⟨draw, fun j hj => ?_⟩
      cases j with
      | zero => exact first
      | succ j =>
        rw [← all j (by omega), Nat.add_assoc used 1 j, Nat.add_comm 1 j]
  | case3 used count fails limit =>
    refine Or.inr ⟨rfl, fun j hj => ?_⟩
    obtain rfl : j = 0 := by omega
    exact Bool.eq_false_iff.mpr fails

/-- While the array fills: one word is drawn for each written, and from no answer used
did it take more than `retryLimit` retries to the next word. -/
structure Filled (answers : Answers) (retryLimit : Nat) (s : Filling) : Prop where
  count : (drawn answers s.used).length = s.tmp
  answered : ∀ i < s.used, ∃ j ≤ retryLimit, (answers (i + j)).1 = true

theorem Filled.next {answers : Answers} {retryLimit : Nat} {s : Filling}
    (filled : Filled answers retryLimit s) {k : Nat} (le : k ≤ retryLimit)
    (success : (answers (s.used + k)).1 = true) (fails : ∀ j < k, (answers (s.used + j)).1 = false)
    (words : Nat → BitVec 64) : Filled answers retryLimit ⟨words, s.tmp + 1, s.used + k + 1⟩ := by
  constructor
  · show (drawn answers (s.used + k + 1)).length = s.tmp + 1
    rw [drawn_succ, drawn_add fails, success, List.length_append, filled.count]
    rfl
  · intro i hi
    by_cases old : i < s.used
    · exact filled.answered i old
    · have hik : i < s.used + k + 1 := hi
      refine ⟨s.used + k - i, by omega, ?_⟩
      rw [Nat.add_sub_cancel' (by omega)]
      exact success

/-- The loop fills the array to its end, or stops where the answers are exhausted. It
writes within the array. -/
theorem fillWords_spec {answers : Answers} {retryLimit size m : Nat} {s : Filling}
    (filled : Filled answers retryLimit s) (left : s.tmp + m = size) :
    ∃ done s', fillWords answers retryLimit size m s = some (done, s') ∧
      if done then s'.tmp = size ∧ Filled answers retryLimit s'
      else Exhausted answers retryLimit size := by
  induction m generalizing s with
  | zero => exact ⟨true, s, rfl, left, filled⟩
  | succ m ih =>
    rw [fillWords]
    rcases drawWord_spec answers retryLimit s.used 0 with
      ⟨k, le, draw, success, fails⟩ | ⟨draw, fails⟩
    · rw [draw]
      dsimp only
      rw [store_eq (by omega), Option.bind_some]
      exact ih (filled.next le success fails _) (by dsimp only; omega)
    · rcases stopped : drawWord answers retryLimit s.used 0 with ⟨word, used⟩
      rw [stopped] at draw
      cases draw
      refine ⟨false, _, rfl, s.used, ?_, fails⟩
      rw [filled.count]
      omega

/-- A full array has not seen the answers exhausted. -/
theorem Filled.not_exhausted {answers : Answers} {retryLimit n : Nat} {s : Filling}
    (filled : Filled answers retryLimit s) (full : s.tmp = n) :
    ¬ Exhausted answers retryLimit n := by
  rintro ⟨i, few, fails⟩
  by_cases used : i < s.used
  · obtain ⟨j, le, success⟩ := filled.answered i used
    rw [fails j le] at success
    cases success
  · have all := drawn_length_mono answers (Nat.le_of_not_lt used)
    rw [filled.count, full] at all
    omega

/-- Nothing can be copied from behind the array. -/
theorem copyBytesIn_outside {n dsize ssize scol : Nat} {dst src : Buf} (pos : 0 < n)
    (outside : ssize ≤ scol) : copyBytesIn n dsize dst 0 ssize src scol = none := by
  by_contra copied
  obtain ⟨out, copied⟩ := Option.ne_none_iff_exists'.mp copied
  obtain ⟨t, t', first⟩ := checkedLoop_inside copied pos
  obtain ⟨x, read, -⟩ := Option.bind_eq_some_iff.mp first
  have inside := load_inside read
  omega

/-- An array is filled until the answers are exhausted, and a full one is left. -/
theorem rdrand_eq {answers : Answers} {outputLen : BitVec 32} (pos : 0 < outputLen.toNat)
    (retryLimit : BitVec 32) (output : Buf) (heap : Nat → BitVec 64) :
    (∃ used, rdrand output outputLen retryLimit answers heap = some ⟨-1, output, used⟩ ∧
      Exhausted answers retryLimit.toNat (wordCount outputLen)) ∨
    rdrand output outputLen retryLimit answers heap = none ∧
      ¬ Exhausted answers retryLimit.toNat (wordCount outputLen) := by
  unfold rdrand
  dsimp only
  split
  · next negative =>
    refine Or.inr ⟨rfl, ?_⟩
    rintro ⟨i, few, -⟩
    omega
  · next size =>
    have whole : ((wordCount outputLen).toNat : Int) = wordCount outputLen :=
      Int.toNat_of_nonneg (Int.not_lt.mp size)
    have start : Filled answers retryLimit.toNat ⟨heap, 0, 0⟩ :=
      ⟨rfl, fun i hi => absurd hi (Nat.not_lt_zero i)⟩
    obtain ⟨done, s, run, ends⟩ := fillWords_spec start (Nat.zero_add (wordCount outputLen).toNat)
    rw [run, Option.bind_some]
    cases done with
    | false => exact Or.inl ⟨s.used, rfl, whole ▸ ends⟩
    | true =>
      obtain ⟨full, filled⟩ := ends
      refine Or.inr ⟨?_, whole ▸ filled.not_exhausted full⟩
      rw [if_pos rfl, copyBytesIn_outside pos (Nat.mul_le_mul_left 8 (Nat.le_of_eq full.symm)),
        Option.map_none]

/-- `rdrand` keeps to its array and to what it promises exactly when the generator lets
it down. -/
theorem rdrand_fills_iff (output : Buf) {outputLen : BitVec 32} (pos : 0 < outputLen.toNat)
    (retryLimit : BitVec 32) (answers : Answers) (heap : Nat → BitVec 64) :
    FillsOutput answers outputLen.toNat (rdrand output outputLen retryLimit answers heap) ↔
      Exhausted answers retryLimit.toNat (wordCount outputLen) := by
  rcases rdrand_eq pos retryLimit output heap with
    ⟨used, failed, exhausted⟩ | ⟨outside, answering⟩
  · rw [failed]
    exact ⟨fun _ => exhausted, fun _ => Or.inl rfl⟩
  · rw [outside]
    exact ⟨False.elim, answering⟩

/-- A generator that has no word. -/
theorem rdrand_fills_small : FillsOutput (fun _ => (false, 0)) 16
    (rdrand zeroBuf 16 10 (fun _ => (false, 0)) fun _ => 0) :=
  (rdrand_fills_iff zeroBuf (by decide) 10 _ _).mpr ⟨0, by decide, fun _ _ => rfl⟩

/-- A generator that always has one: the seed of `pickRandom_element` is read from
behind the array. -/
theorem rdrand_reads_outside : ¬ FillsOutput (fun i => (true, BitVec.ofNat 64 i)) 16
    (rdrand zeroBuf 16 10 (fun i => (true, BitVec.ofNat 64 i)) fun _ => 0) := by
  have pos : 0 < (16 : BitVec 32).toNat := by decide
  have never : ¬ Exhausted (fun i => (true, BitVec.ofNat 64 i)) (10 : BitVec 32).toNat
      (wordCount 16) := by
    rintro ⟨i, -, fails⟩
    cases fails 0 (Nat.zero_le _)
  obtain ⟨outside, -⟩ := (rdrand_eq pos 10 zeroBuf fun _ => 0).resolve_left
    fun ⟨_, _, exhausted⟩ => never exhausted
  rw [outside]
  exact id

end ImDsse
