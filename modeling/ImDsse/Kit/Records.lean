import ImDsse.Kit.Arrays
import ImDsse.Kit.Files

/-!
Files of records.

A file that is a row of records of one length is read and written within one record at
a time. `readIn` and `writeIn` are the transfers of a stream that fail where the file
does not have the bytes or where they go beyond a record; `readRowsIn_eq` and
`writeRowsIn_eq` say when the rhythmic transfers never do.
-/

namespace Kit.Files

open Kit.Loop Kit.Bits Kit.Arrays

namespace Stream

/-- Open a file that has to be there. -/
def openIn : Option File → Option Stream := Option.map fun f => ⟨f, 0, false⟩

/-- The next `n` bytes are bytes of the file, and of one record of it. -/
def Inside (record : Nat) (s : Stream) (n : Nat) : Prop :=
  s.fail = false ∧ s.pos % record + n ≤ record ∧ s.pos + n ≤ s.file.size

instance (record : Nat) (s : Stream) (n : Nat) : Decidable (s.Inside record n) := by
  unfold Inside
  infer_instance

def readIn (record : Nat) (s : Stream) (n : Nat) (dst : Buf) (start : Nat) :
    Option (Stream × Buf) :=
  if s.Inside record n then some (s.read n dst start) else none

def writeIn (record : Nat) (s : Stream) (n : Nat) (src : Buf) (start : Nat) : Option Stream :=
  if s.Inside record n then some (s.write n src start) else none

/-- A place `before` bytes into a record. -/
theorem inside_of_start {record : Nat} {f : File} {p before n : Nat} (start : record ∣ p)
    (room : before + n ≤ record) (fits : p + record ≤ f.size) :
    Inside record ⟨f, p + before, false⟩ n := by
  obtain ⟨k, rfl⟩ := start
  have le := Nat.mod_le before record
  refine ⟨rfl, ?_, ?_⟩
  · dsimp only
    rw [Nat.mul_add_mod]
    omega
  · dsimp only
    omega

end Stream

section Rhythm

variable (record before width after : Nat)

/-- Read `n` rows, each within its record. -/
def readRowsIn (n : Nat) (s : Stream) (I : Matrix) (first : Nat) : Option (Stream × Matrix) :=
  checkedLoop n (fun row t =>
    ((t.1.seekCur before).readIn record width (t.2 (first + row)) 0).map fun out =>
      (out.1.seekCur after, Function.update t.2 (first + row) out.2)) (s, I)

/-- Write `n` rows, each within its record. -/
def writeRowsIn (n : Nat) (s : Stream) (I : Matrix) (first : Nat) : Option Stream :=
  checkedLoop n (fun row s =>
    ((s.seekCur before).writeIn record width (I (first + row)) 0).map (·.seekCur after)) s

variable {record before width after} (whole : before + width + after = record) {n p : Nat}
  {f : File} (start : record ∣ p) (fits : p + n * record ≤ f.size)
include whole start fits

theorem readRowsIn_eq (I : Matrix) (first : Nat) :
    readRowsIn record before width after n ⟨f, p, false⟩ I first =
      some (readRows before width after n ⟨f, p, false⟩ I first) := by
  refine (checkedLoop_run (fun m (t : Stream × Matrix) => t.1 = ⟨f, p + m * record, false⟩)
    (by rw [Nat.zero_mul, Nat.add_zero]) ?_).1
  rintro m hm ⟨_, I'⟩ rfl
  have row := Nat.mul_le_mul_right record hm
  rw [Nat.succ_mul] at row
  have inside : Stream.Inside record ⟨f, p + m * record + before, false⟩ width :=
    Stream.inside_of_start (Nat.dvd_add start (Nat.dvd_mul_left record m)) (by omega) (by omega)
  constructor
  · rw [Stream.seekCur_ok, Stream.readIn, if_pos inside]
    rfl
  · rw [Stream.seekCur_ok, Stream.read_of_le inside.2.2]
    dsimp only
    rw [Stream.seekCur_ok, Nat.succ_mul]
    congr 1
    omega

theorem writeRowsIn_eq (I : Matrix) (first : Nat) :
    writeRowsIn record before width after n ⟨f, p, false⟩ I first =
      some (writeRows before width after n ⟨f, p, false⟩ I first) := by
  refine (checkedLoop_run (fun m (s : Stream) => ∃ f', s = ⟨f', p + m * record, false⟩ ∧
    f'.size = f.size) ⟨f, by rw [Nat.zero_mul, Nat.add_zero], rfl⟩ ?_).1
  rintro m hm _ ⟨f', rfl, size⟩
  have row := Nat.mul_le_mul_right record hm
  rw [Nat.succ_mul] at row
  have inside : Stream.Inside record ⟨f', p + m * record + before, false⟩ width :=
    Stream.inside_of_start (Nat.dvd_add start (Nat.dvd_mul_left record m)) (by omega) (by omega)
  constructor
  · rw [Stream.seekCur_ok, Stream.writeIn, if_pos inside]
    rfl
  · refine ⟨(Stream.write ⟨f', p + m * record + before, false⟩ width (I (first + m)) 0).file, ?_, ?_⟩
    · rw [Stream.seekCur_ok, Nat.succ_mul]
      simp only [Stream.seekCur, Stream.write, Bool.false_eq_true, if_false, Stream.mk.injEq,
        true_and, and_true]
      omega
    · rw [Stream.write_size inside.2.2, size]

end Rhythm

end Kit.Files
