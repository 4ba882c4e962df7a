import ImDsse.Kit.Bits

/-!
Binary files and streams over them.

A stream is a file, a position and the failure flag of the C++ stream classes: a
read that meets the end of the file takes what is there and fails, and a failed
stream ignores what follows. Away from the end of the file reads and writes are
copies, as `read_of_le` and `write_data` say; a program that seeks and reads in a
fixed rhythm is then described by positions alone.
-/

namespace Kit.Files

open Kit.Loop Kit.Bits

/-- A file: its length and its bytes. Bytes from `size` on mean nothing. -/
structure File where
  size : Nat
  data : Buf

/-- A file just created or truncated. -/
def File.empty : File := ⟨0, zeroBuf⟩

/-- An open file. -/
structure Stream where
  file : File
  pos : Nat
  fail : Bool

namespace Stream

/-- Open a file that exists; a missing file gives a failed stream. -/
def openFile : Option File → Stream
  | some f => ⟨f, 0, false⟩
  | none => ⟨.empty, 0, true⟩

/-- `seekg(n, ios::beg)` -/
def seekBeg (s : Stream) (n : Nat) : Stream := if s.fail then s else { s with pos := n }

/-- `seekg(n, ios::cur)` -/
def seekCur (s : Stream) (n : Nat) : Stream := if s.fail then s else { s with pos := s.pos + n }

/-- `read(&dst[start], n)` -/
def read (s : Stream) (n : Nat) (dst : Buf) (start : Nat) : Stream × Buf :=
  if s.fail then (s, dst)
  else
    let got := min n (s.file.size - s.pos)
    ({ s with pos := s.pos + got, fail := decide (got < n) },
      copyBytes got dst start s.file.data s.pos)

/-- `write(&src[start], n)`. A gap left by seeking past the end is filled with zeros. -/
def write (s : Stream) (n : Nat) (src : Buf) (start : Nat) : Stream :=
  if s.fail then s
  else
    let data := fun i => if i < s.file.size then s.file.data i else 0
    { s with
      file := ⟨if n = 0 then s.file.size else max s.file.size (s.pos + n),
        copyBytes n data s.pos src start⟩
      pos := s.pos + n }

@[simp] theorem openFile_some (f : File) : openFile (some f) = ⟨f, 0, false⟩ := rfl

@[simp] theorem openFile_none : openFile none = ⟨.empty, 0, true⟩ := rfl

@[simp] theorem seekBeg_ok (f : File) (p n : Nat) : seekBeg ⟨f, p, false⟩ n = ⟨f, n, false⟩ := rfl

@[simp] theorem seekCur_ok (f : File) (p n : Nat) :
    seekCur ⟨f, p, false⟩ n = ⟨f, p + n, false⟩ := rfl

/-- A read within the file is a copy. -/
theorem read_of_le {f : File} {p n : Nat} (h : p + n ≤ f.size) (dst : Buf) (start : Nat) :
    read ⟨f, p, false⟩ n dst start = (⟨f, p + n, false⟩, copyBytes n dst start f.data p) := by
  have got : min n (f.size - p) = n := by omega
  simp [read, got]

/-- A write within the file keeps its length. -/
theorem write_size {f : File} {p n : Nat} (h : p + n ≤ f.size) (src : Buf) (start : Nat) :
    (write ⟨f, p, false⟩ n src start).file.size = f.size := by
  simp only [write, Bool.false_eq_true, if_false]
  split
  · rfl
  · exact Nat.max_eq_left h

/-- A write at the end of the file extends it. -/
theorem write_size_end (f : File) (n : Nat) (src : Buf) (start : Nat) :
    (write ⟨f, f.size, false⟩ n src start).file.size = f.size + n := by
  simp only [write, Bool.false_eq_true, if_false]
  split
  · next h => rw [h, Nat.add_zero]
  · exact Nat.max_eq_right (Nat.le_add_right _ _)

@[simp] theorem write_pos (f : File) (p n : Nat) (src : Buf) (start : Nat) :
    (write ⟨f, p, false⟩ n src start).pos = p + n := rfl

@[simp] theorem write_fail (f : File) (p n : Nat) (src : Buf) (start : Nat) :
    (write ⟨f, p, false⟩ n src start).fail = false := rfl

/-- What a write leaves at a position. -/
theorem write_data (f : File) (p n : Nat) (src : Buf) (start i : Nat) :
    (write ⟨f, p, false⟩ n src start).file.data i =
      if p ≤ i ∧ i < p + n then src (start + (i - p))
      else if i < f.size then f.data i else 0 := by
  simp only [write, Bool.false_eq_true, if_false, copyBytes_apply]

end Stream

/-! ### Rows in a fixed rhythm

Skip `before` bytes, transfer `width`, skip `after`: one row of `before + width +
after` bytes. -/

section Rhythm

variable (before width after : Nat)

/-- Read `n` rows into the rows of a matrix from `first` on. -/
def readRows (n : Nat) (s : Stream) (I : Matrix) (first : Nat) : Stream × Matrix :=
  forLoop n (fun row t =>
    let out := (t.1.seekCur before).read width (t.2 (first + row)) 0
    (out.1.seekCur after, Function.update t.2 (first + row) out.2)) (s, I)

/-- Write `n` rows of a matrix from row `first` on. -/
def writeRows (n : Nat) (s : Stream) (I : Matrix) (first : Nat) : Stream :=
  forLoop n (fun row s => ((s.seekCur before).write width (I (first + row)) 0).seekCur after) s

variable {before width after}

theorem readRows_apply {n : Nat} {f : File} {p : Nat}
    (fits : p + n * (before + width + after) ≤ f.size) (I : Matrix) (first r j : Nat) :
    (readRows before width after n ⟨f, p, false⟩ I first).2 r j =
      if first ≤ r ∧ r < first + n ∧ j < width then
        f.data (p + (r - first) * (before + width + after) + before + j) else I r j := by
  have inv : (readRows before width after n ⟨f, p, false⟩ I first).1 =
        ⟨f, p + n * (before + width + after), false⟩ ∧
      (readRows before width after n ⟨f, p, false⟩ I first).2 r j =
        if first ≤ r ∧ r < first + n ∧ j < width then
          f.data (p + (r - first) * (before + width + after) + before + j) else I r j := by
    refine forLoop_inv (P := fun m (t : Stream × Matrix) =>
      t.1 = ⟨f, p + m * (before + width + after), false⟩ ∧
      t.2 r j = if first ≤ r ∧ r < first + m ∧ j < width then
        f.data (p + (r - first) * (before + width + after) + before + j) else I r j) ?_ ?_
    · exact ⟨by rw [Nat.zero_mul, Nat.add_zero], by rw [if_neg (by omega)]⟩
    · intro m hm t ⟨stream, read⟩
      have row := Nat.mul_le_mul_right (before + width + after) hm
      rw [Nat.succ_mul] at row
      dsimp only
      rw [stream, Stream.seekCur_ok, Stream.read_of_le (by omega)]
      dsimp only
      refine ⟨?_, ?_⟩
      · rw [Stream.seekCur_ok, Nat.succ_mul]
        simp only [Nat.add_assoc]
      · by_cases hr : r = first + m
        · subst hr
          rw [Function.update_self, copyBytes_apply, Nat.add_sub_cancel_left, Nat.zero_add]
          by_cases hj : j < width
          · rw [if_pos ⟨Nat.zero_le _, hj⟩, if_pos ⟨by omega, by omega, hj⟩, Nat.sub_zero]
          · rw [if_neg (by omega), if_neg (by omega), read, if_neg (by omega)]
        · rw [Function.update_of_ne hr, read]
          congr 1
          simp only [eq_iff_iff]
          omega
  exact inv.2

/-- Writing rows within a file replaces their bytes and no other. -/
theorem writeRows_spec {n : Nat} {f : File} {p : Nat}
    (fits : p + n * (before + width + after) ≤ f.size) (I : Matrix) (first : Nat) :
    ∃ f', writeRows before width after n ⟨f, p, false⟩ I first =
        ⟨f', p + n * (before + width + after), false⟩ ∧ f'.size = f.size ∧
      ∀ i, i < f.size → f'.data i =
        if p ≤ i ∧ i < p + n * (before + width + after) ∧
            before ≤ (i - p) % (before + width + after) ∧
            (i - p) % (before + width + after) < before + width
        then I (first + (i - p) / (before + width + after))
          ((i - p) % (before + width + after) - before)
        else f.data i := by
  set w := before + width + after with hw
  unfold writeRows
  refine forLoop_inv (P := fun m (s : Stream) => ∃ f', s = ⟨f', p + m * w, false⟩ ∧ f'.size = f.size ∧
    ∀ i, i < f.size → f'.data i =
      if p ≤ i ∧ i < p + m * w ∧ before ≤ (i - p) % w ∧ (i - p) % w < before + width
      then I (first + (i - p) / w) ((i - p) % w - before) else f.data i) ?_ ?_
  · exact ⟨f, by rw [Nat.zero_mul, Nat.add_zero], rfl, fun i _ => by rw [if_neg (by omega)]⟩
  · rintro m hm _ ⟨f', rfl, size, bytes⟩
    have row := Nat.mul_le_mul_right w hm
    rw [Nat.succ_mul] at row
    have room : p + m * w + before + width ≤ f'.size := by omega
    refine ⟨(Stream.write ⟨f', p + m * w + before, false⟩ width (I (first + m)) 0).file, ?_, ?_, ?_⟩
    · rw [Stream.seekCur_ok, Nat.succ_mul]
      simp only [Stream.seekCur, Stream.write, Bool.false_eq_true, if_false, Stream.mk.injEq,
        true_and, and_true]
      omega
    · rw [Stream.write_size room, size]
    · intro i hi
      rw [Stream.write_data, size, if_pos hi, bytes i hi, Nat.succ_mul]
      by_cases hin : p + m * w ≤ i ∧ i < p + m * w + w
      · obtain ⟨hdiv, hmod⟩ := div_mod_tile (k := i - p) (r := m) (B := w) (by omega) (by omega)
        rw [hdiv, hmod]
        by_cases hcol : before ≤ i - p - m * w ∧ i - p - m * w < before + width
        · rw [if_pos (by omega), if_pos (by omega)]
          congr 1
          omega
        · rw [if_neg (by omega), if_neg (by omega), if_neg (by omega)]
      · rw [if_neg (by omega)]
        by_cases hlt : i < p + m * w
        · have both : i < p + (m * w + w) := by omega
          simp only [hlt, both]
        · rw [if_neg (by omega), if_neg (by omega)]

/-- Rows written to a new file one after the other. -/
theorem writeRows_new (n width : Nat) (I : Matrix) (first : Nat) :
    ∃ f, writeRows 0 width 0 n ⟨.empty, 0, false⟩ I first = ⟨f, n * width, false⟩ ∧
      f.size = n * width ∧ ∀ i, i < n * width → f.data i = I (first + i / width) (i % width) := by
  unfold writeRows
  refine forLoop_inv (P := fun m (s : Stream) => ∃ f, s = ⟨f, m * width, false⟩ ∧
    f.size = m * width ∧ ∀ i, i < m * width → f.data i = I (first + i / width) (i % width)) ?_ ?_
  · exact ⟨.empty, by rw [Nat.zero_mul], (Nat.zero_mul _).symm, fun i hi => by omega⟩
  · rintro m hm _ ⟨f, rfl, size, bytes⟩
    refine ⟨(Stream.write ⟨f, m * width, false⟩ width (I (first + m)) 0).file, ?_, ?_, ?_⟩
    · rw [Nat.succ_mul]
      rfl
    · have ends := Stream.write_size_end f width (I (first + m)) 0
      rw [size] at ends
      rw [Nat.succ_mul, ends]
    · intro i hi
      rw [Nat.succ_mul] at hi
      rw [Stream.write_data]
      by_cases here : m * width ≤ i
      · obtain ⟨div, mod⟩ := div_mod_tile here hi
        rw [if_pos ⟨here, hi⟩, div, mod, Nat.zero_add]
      · rw [if_neg fun h => here h.1, if_pos (by omega), bytes i (by omega)]

end Rhythm

end Kit.Files
