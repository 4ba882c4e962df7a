import ImDsse.Kit.Cmac

/-!
Counter mode.

Byte `i` of the text meets byte `i % 16` of the cipher block of counter `i / 16`. The
counters are any sequence of blocks, so that implementations that count differently are
compared where they agree.
-/

namespace Kit.Ctr

open Kit.Bits Kit.Cmac

/-- Byte `i` of the key stream. -/
def ksByte (E : Block → Block) (counter : Nat → Block) (i : Nat) : Byte :=
  bytesOf (E (counter (i / 16))) (i % 16)

/-- The first `len` bytes of `pt` added to the key stream, over `ct`. -/
def ctrXor (E : Block → Block) (counter : Nat → Block) (len : Nat) (pt ct : Buf) : Buf := fun i =>
  if i < len then pt i ^^^ ksByte E counter i else ct i

variable {E : Block → Block} {counter counter' : Nat → Block} {len i : Nat} {pt ct : Buf}

theorem ctrXor_inside (inside : i < len) :
    ctrXor E counter len pt ct i = pt i ^^^ ksByte E counter i := if_pos inside

theorem ctrXor_outside (outside : len ≤ i) : ctrXor E counter len pt ct i = ct i :=
  if_neg (Nat.not_lt.mpr outside)

/-- The first block of the key stream is that of the first counter. -/
theorem ksByte_first (first : counter 0 = counter' 0) (inside : i < 16) :
    ksByte E counter i = ksByte E counter' i := by
  unfold ksByte
  rw [Nat.div_eq_of_lt inside, first]

/-- A byte added to the key stream twice is itself. -/
theorem ksByte_cancel (x : Byte) (same : ksByte E counter i = ksByte E counter' i) :
    x ^^^ ksByte E counter i ^^^ ksByte E counter' i = x := by
  rw [same, BitVec.xor_assoc, BitVec.xor_self, BitVec.xor_zero]

end Kit.Ctr
