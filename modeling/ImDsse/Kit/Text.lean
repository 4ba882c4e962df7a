import ImDsse.Kit.Bits
import Mathlib.Data.List.TakeWhile
import Mathlib.Data.List.Range

/-!
Numbers in text files, written with `<<` and read with `>>`.

An input stream is the text not read yet and the failure flag. `>>` of an unsigned
64-bit number skips blanks and takes the digits; it fails where there is no digit,
and at the end of the text it fails and leaves the variable as it is. Numbers
written with a blank behind each are read back, one by one into an array or to the
end of the file into a list.
-/

namespace Kit.Text

open Kit.Loop Kit.Bits

/-- The characters of a text file. -/
abbrev TextFile := List Char

/-- An input stream. -/
structure Input where
  rest : TextFile
  fail : Bool

/-- A file just opened for reading. -/
def Input.ofFile (text : TextFile) : Input := ⟨text, false⟩

/-- `output << n` -/
def decimal (n : Nat) : TextFile := Nat.toDigits 10 n

/-- The white space of the C locale. -/
def isBlank (c : Char) : Bool := c ∈ [' ', '\t', '\n', '\x0b', '\x0c', '\r']

/-- `input >> x`. A number that does not fit fails and gives the largest that does;
signs, which no number is written with, count as no digits. -/
def readNumber (s : Input) (x : Nat) : Input × Nat :=
  if s.fail then (s, x)
  else
    let text := s.rest.dropWhile isBlank
    let digits := text.takeWhile Char.isDigit
    let rest := text.dropWhile Char.isDigit
    let n := Nat.ofDigitChars 10 digits 0
    if text.isEmpty then (⟨[], true⟩, x)
    else if digits.isEmpty then (⟨text, true⟩, 0)
    else if n < 2 ^ 64 then (⟨rest, false⟩, n)
    else (⟨rest, true⟩, 2 ^ 64 - 1)

/-- `for (i < n) output << arr[i] << " "` -/
def writeArray (n : Nat) (arr : Nat → Nat) : TextFile :=
  (List.range n).flatMap fun i => decimal (arr i) ++ [' ']

/-- `for (i < n) input >> arr[i]` -/
def readArray (n : Nat) (text : TextFile) (arr : Nat → Nat) : Nat → Nat :=
  (forLoop n (fun i s =>
    let out := readNumber s.1 (s.2 i)
    (out.1, Function.update s.2 i out.2)) (Input.ofFile text, arr)).2

/-- The numbers `while (input >> x)` goes through, `fuel` of them at most. -/
def readNumbers : Nat → Input → List Nat
  | 0, _ => []
  | fuel + 1, s =>
    let out := readNumber s 0
    if out.1.fail then [] else out.2 :: readNumbers fuel out.1

/-- All of them: a number takes at least one character. -/
def readAll (text : TextFile) : List Nat := readNumbers text.length (Input.ofFile text)

/-! ### One number -/

theorem isDigit_of_mem_decimal {n : Nat} {c : Char} (h : c ∈ decimal n) : c.isDigit = true :=
  Nat.isDigit_of_mem_toDigits (by decide) (by decide) h

theorem isBlank_of_isDigit {c : Char} (h : c.isDigit = true) : isBlank c = false := by
  by_contra blank
  simp only [isBlank, List.mem_cons, List.not_mem_nil, or_false, Bool.not_eq_false,
    decide_eq_true_eq] at blank
  rcases blank with rfl | rfl | rfl | rfl | rfl | rfl <;> exact absurd h (by decide)

/-- A number is read up to the first character that is no digit. -/
theorem readNumber_decimal {n : Nat} (fits : n < 2 ^ 64) {lead : TextFile}
    (blank : ∀ c ∈ lead, isBlank c = true) (rest : TextFile)
    (ends : ∀ c ∈ rest.head?, c.isDigit = false) (x : Nat) :
    readNumber ⟨lead ++ (decimal n ++ rest), false⟩ x = (⟨rest, false⟩, n) := by
  have text : (lead ++ (decimal n ++ rest)).dropWhile isBlank = decimal n ++ rest := by
    rw [List.dropWhile_append_of_pos blank]
    cases digits : decimal n with
    | nil => exact absurd digits Nat.toDigits_ne_nil
    | cons c cs =>
      have digit : c.isDigit = true := isDigit_of_mem_decimal (n := n) (by rw [digits]; simp)
      rw [List.cons_append, List.dropWhile_cons_of_neg (by simp [isBlank_of_isDigit digit])]
  have stop : rest.takeWhile Char.isDigit = [] ∧ rest.dropWhile Char.isDigit = rest := by
    cases rest with
    | nil => exact ⟨rfl, rfl⟩
    | cons c cs =>
      have noDigit : ¬ c.isDigit = true := by simp [ends c rfl]
      exact ⟨List.takeWhile_cons_of_neg noDigit, List.dropWhile_cons_of_neg noDigit⟩
  have digits : (decimal n ++ rest).takeWhile Char.isDigit = decimal n := by
    rw [List.takeWhile_append_of_pos fun _ => isDigit_of_mem_decimal, stop.1, List.append_nil]
  have left : (decimal n ++ rest).dropWhile Char.isDigit = rest := by
    rw [List.dropWhile_append_of_pos fun _ => isDigit_of_mem_decimal, stop.2]
  have some : (decimal n ++ rest).isEmpty = false ∧ (decimal n).isEmpty = false := by
    constructor <;> cases number : decimal n with
    | nil => exact absurd number Nat.toDigits_ne_nil
    | cons => rfl
  have value : Nat.ofDigitChars 10 (decimal n) 0 = n := Nat.ofDigitChars_ten_toDigits
  simp only [readNumber, text, digits, left, some.1, some.2, value, fits, Bool.false_eq_true,
    if_false, if_true]

/-- Blanks alone hold no number. -/
theorem readNumber_blank {lead : TextFile} (blank : ∀ c ∈ lead, isBlank c = true) (x : Nat) :
    readNumber ⟨lead, false⟩ x = (⟨[], true⟩, x) := by
  have text : lead.dropWhile isBlank = [] := List.dropWhile_eq_nil_iff.mpr blank
  simp only [readNumber, text, List.isEmpty_nil, Bool.false_eq_true, if_false, if_true]

/-! ### Many numbers -/

/-- What stands before number `m`: the blank behind the one before. -/
def lead (m : Nat) : TextFile := if m = 0 then [] else [' ']

theorem lead_blank (m : Nat) : ∀ c ∈ lead m, isBlank c = true := by
  intro c mem
  unfold lead at mem
  split at mem
  · cases mem
  · rw [List.mem_singleton.mp mem]
    decide

theorem writeArray_congr {n : Nat} {arr arr' : Nat → Nat} (same : ∀ i, i < n → arr i = arr' i) :
    writeArray n arr = writeArray n arr' :=
  List.flatMap_congr fun i mem => by rw [same i (List.mem_range.mp mem)]

/-- An array is read back; the rest of the target stays. -/
theorem readArray_writeArray {n : Nat} {arr : Nat → Nat} (fits : ∀ i, i < n → arr i < 2 ^ 64)
    (old : Nat → Nat) (i : Nat) :
    readArray n (writeArray n arr) old i = if i < n then arr i else old i := by
  unfold readArray
  have inv := forLoop_inv (n := n) (s := (Input.ofFile (writeArray n arr), old))
    (f := fun i s =>
      let out := readNumber s.1 (s.2 i)
      (out.1, Function.update s.2 i out.2))
    (fun m (s : Input × (Nat → Nat)) =>
      s.1 = ⟨lead m ++ (List.range' m (n - m)).flatMap fun i => decimal (arr i) ++ [' '], false⟩ ∧
        s.2 i = if i < m then arr i else old i) ?_ ?_
  · exact inv.2
  · refine ⟨?_, by rw [if_neg (Nat.not_lt_zero i)]⟩
    rw [writeArray, List.range_eq_range']
    rfl
  · rintro m hm ⟨_, s⟩ ⟨rfl, values⟩
    have next : n - m = (n - (m + 1)) + 1 := by omega
    have read := readNumber_decimal (fits m hm) (lead_blank m)
      (' ' :: (List.range' (m + 1) (n - (m + 1))).flatMap fun i => decimal (arr i) ++ [' '])
      (fun c mem => by cases mem; decide) (s m)
    simp only [next, List.range'_succ, List.flatMap_cons, List.append_assoc, List.singleton_append,
      read]
    refine ⟨by simp [lead], ?_⟩
    by_cases here : i = m
    · rw [here, Function.update_self, if_pos (Nat.lt_succ_self m)]
    · have same : i < m ↔ i < m + 1 := by omega
      rw [Function.update_of_ne here]
      simp only [← same]
      exact values

/-- Numbers with a blank behind each. -/
def spaced (ns : List Nat) : TextFile := ns.flatMap fun n => decimal n ++ [' ']

theorem readNumbers_spaced {ns : List Nat} (fits : ∀ n ∈ ns, n < 2 ^ 64) {m fuel : Nat}
    (enough : ns.length ≤ fuel) : readNumbers fuel ⟨lead m ++ spaced ns, false⟩ = ns := by
  induction ns generalizing m fuel with
  | nil =>
    cases fuel with
    | zero => rfl
    | succ fuel =>
      rw [spaced, List.flatMap_nil, List.append_nil, readNumbers, readNumber_blank (lead_blank m)]
      rfl
  | cons n ns ih =>
    cases fuel with
    | zero => exact absurd enough (Nat.not_succ_le_zero _)
    | succ fuel =>
      have read := readNumber_decimal (fits n List.mem_cons_self) (lead_blank m)
        (' ' :: spaced ns) (fun c mem => by cases mem; decide) 0
      have rest := ih (fun n' mem => fits n' (List.mem_cons_of_mem n mem)) (m := 1)
        (Nat.le_of_succ_le_succ enough)
      rw [readNumbers]
      simp only [spaced, List.flatMap_cons, List.append_assoc, List.singleton_append] at read rest ⊢
      simp only [read, Bool.false_eq_true, if_false]
      exact congrArg (n :: ·) rest

/-- Numbers with a blank behind each are read back. -/
theorem readAll_spaced {ns : List Nat} (fits : ∀ n ∈ ns, n < 2 ^ 64) : readAll (spaced ns) = ns := by
  refine readNumbers_spaced fits (m := 0) ?_
  -- a number takes at least the blank behind it
  induction ns with
  | nil => exact Nat.zero_le _
  | cons n ns ih =>
    have rest := ih fun m mem => fits m (List.mem_cons_of_mem n mem)
    simp only [spaced, List.flatMap_cons, List.length_append, List.length_cons,
      List.length_nil] at rest ⊢
    omega

/-- A number alone is read back. -/
theorem readAll_decimal {n : Nat} (fits : n < 2 ^ 64) : readAll (decimal n) = [n] := by
  have read := readNumber_decimal fits (lead_blank 0) [] nofun 0
  rw [List.append_nil] at read
  have next : readNumbers ((decimal n).length - 1) ⟨[], false⟩ = [] :=
    readNumbers_spaced (m := 0) (List.forall_mem_nil _) (Nat.zero_le _)
  have length : (decimal n).length = (decimal n).length - 1 + 1 :=
    (Nat.succ_pred_eq_of_pos Nat.length_toDigits_pos).symm
  rw [readAll, length, readNumbers, Input.ofFile]
  rw [show lead 0 = [] from rfl, List.nil_append] at read
  rw [read]
  simp only [Bool.false_eq_true, if_false, next]

/-! ### Numbers in names -/

theorem decimal_injective {i j : Nat} (same : decimal i = decimal j) : i = j := by
  have read : Nat.ofDigitChars 10 (decimal i) 0 = Nat.ofDigitChars 10 (decimal j) 0 := by rw [same]
  rwa [decimal, decimal, Nat.ofDigitChars_ten_toDigits, Nat.ofDigitChars_ten_toDigits] at read

/-- A number is read off the text that starts with it. -/
theorem takeWhile_decimal (i : Nat) {c : Char} (stop : c.isDigit = false) (rest : TextFile) :
    (decimal i ++ c :: rest).takeWhile Char.isDigit = decimal i := by
  rw [List.takeWhile_append_of_pos fun _ => isDigit_of_mem_decimal,
    List.takeWhile_cons_of_neg (by simp [stop]), List.append_nil]

/-- The number a text starts with. -/
def leadingNumber (text : TextFile) : Nat := Nat.ofDigitChars 10 (text.takeWhile Char.isDigit) 0

theorem leadingNumber_decimal (i : Nat) {c : Char} (stop : c.isDigit = false) (rest : TextFile) :
    leadingNumber (decimal i ++ c :: rest) = i := by
  rw [leadingNumber, takeWhile_decimal i stop]
  exact Nat.ofDigitChars_ten_toDigits

theorem leadingNumber_end (i : Nat) : leadingNumber (decimal i) = i := by
  have all : (decimal i).takeWhile Char.isDigit = decimal i :=
    List.takeWhile_eq_self_iff.mpr fun _ => isDigit_of_mem_decimal
  rw [leadingNumber, all]
  exact Nat.ofDigitChars_ten_toDigits

/-- What follows the number. -/
theorem dropWhile_decimal (i : Nat) {c : Char} (stop : c.isDigit = false) (rest : TextFile) :
    (decimal i ++ c :: rest).dropWhile Char.isDigit = c :: rest := by
  rw [List.dropWhile_append_of_pos fun _ => isDigit_of_mem_decimal,
    List.dropWhile_cons_of_neg (by simp [stop])]

/-- A number of 64 bits has at most twenty digits. -/
theorem length_decimal {n : Nat} (fits : n < 2 ^ 64) : (decimal n).length ≤ 20 :=
  (Nat.length_toDigits_le_iff (by decide) (by decide)).mpr (Nat.lt_trans fits (by decide))

/-! ### Text in bytes -/

/-- A byte for each character. -/
def charBytes (text : TextFile) : List Byte := text.map fun c => BitVec.ofNat 8 c.toNat

/-- A character for each byte. -/
def byteChars (bytes : List Byte) : TextFile := bytes.map fun b => Char.ofNat b.toNat

/-- Every character is a byte, and none is the null. -/
def Narrow (text : TextFile) : Prop := ∀ c ∈ text, 0 < c.toNat ∧ c.toNat < 256

@[simp] theorem charBytes_append (text text' : TextFile) :
    charBytes (text ++ text') = charBytes text ++ charBytes text' := List.map_append

@[simp] theorem length_charBytes (text : TextFile) : (charBytes text).length = text.length :=
  List.length_map _

theorem byteChars_charBytes {text : TextFile} (narrow : Narrow text) :
    byteChars (charBytes text) = text := by
  rw [byteChars, charBytes, List.map_map]
  refine List.map_congr_left (fun c mem => ?_) |>.trans (List.map_id text)
  have byte : (BitVec.ofNat 8 c.toNat).toNat = c.toNat := Nat.mod_eq_of_lt (narrow c mem).2
  rw [Function.comp_apply, byte]
  exact Char.ofNat_toNat c

theorem charBytes_ne_zero {text : TextFile} (narrow : Narrow text) :
    ∀ b ∈ charBytes text, b ≠ 0 := by
  intro b mem zero
  obtain ⟨c, memText, rfl⟩ := List.mem_map.mp mem
  obtain ⟨pos, small⟩ := narrow c memText
  have byte : (BitVec.ofNat 8 c.toNat).toNat = c.toNat := Nat.mod_eq_of_lt small
  rw [zero] at byte
  exact absurd byte.symm (Nat.ne_of_gt pos)

theorem Narrow.append {text text' : TextFile} (narrow : Narrow text) (narrow' : Narrow text') :
    Narrow (text ++ text') := by
  intro c mem
  rcases List.mem_append.mp mem with mem | mem
  · exact narrow c mem
  · exact narrow' c mem

theorem narrow_singleton {c : Char} (some_ : 0 < c.toNat) (small : c.toNat < 256) : Narrow [c] := by
  intro c' mem
  cases List.mem_singleton.mp mem
  exact ⟨some_, small⟩

theorem narrow_decimal (n : Nat) : Narrow (decimal n) := by
  intro c mem
  have digit := isDigit_of_mem_decimal mem
  simp only [Char.isDigit, Bool.and_eq_true, decide_eq_true_eq] at digit
  have low : '0'.toNat ≤ c.toNat := digit.1
  have high : c.toNat ≤ '9'.toNat := digit.2
  exact ⟨Nat.lt_of_lt_of_le (by decide) low, Nat.lt_of_le_of_lt high (by decide)⟩

theorem narrow_writeArray (n : Nat) (arr : Nat → Nat) : Narrow (writeArray n arr) := by
  intro c mem
  obtain ⟨i, -, mem⟩ := List.mem_flatMap.mp mem
  exact (narrow_decimal (arr i)).append (narrow_singleton (by decide) (by decide)) c mem

/-- A number takes twenty digits at most, and a blank. -/
theorem length_writeArray {n : Nat} {arr : Nat → Nat} (fits : ∀ i, i < n → arr i < 2 ^ 64) :
    (writeArray n arr).length ≤ n * 21 := by
  induction n with
  | zero => exact Nat.le_refl 0
  | succ n ih =>
    have before := ih fun i inside => fits i (Nat.lt_succ_of_lt inside)
    have last := length_decimal (fits n (Nat.lt_succ_self n))
    rw [writeArray] at before ⊢
    rw [List.range_succ, List.flatMap_append, List.length_append, List.flatMap_singleton,
      List.length_append, List.length_singleton]
    omega

theorem writeArray_ne_nil {n : Nat} (some_ : n ≠ 0) (arr : Nat → Nat) : writeArray n arr ≠ [] := by
  obtain ⟨m, rfl⟩ := Nat.exists_eq_succ_of_ne_zero some_
  rw [writeArray, List.range_succ, List.flatMap_append, List.flatMap_singleton]
  simp

end Kit.Text
