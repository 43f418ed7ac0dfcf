import Mathlib

/-!
# The bits of a byte

Bytes in words of 64 bits, as C has them in an unsigned integer: shifts, masks and
what is left when a word is stored into a byte. The bits of a byte are counted
from the most significant one.
-/

namespace Otp.Lib

/-- A byte read into a word. -/
def extend (b : BitVec 8) : BitVec 64 := b.setWidth 64

/-- A word stored into a byte. -/
def truncate (w : BitVec 64) : BitVec 8 := w.setWidth 8

/-- Bit `j` of a byte, from the most significant one. -/
def byteBit (b : BitVec 8) (j : ℕ) : Bool := b.getLsbD (7 - j)

/-- Bit `j` of the lowest byte of a word. -/
def wordBit (w : BitVec 64) (j : ℕ) : Bool := w.getLsbD (7 - j)

variable {a b : BitVec 8} {w : BitVec 64} {j : ℕ}

theorem byteBit_truncate (w : BitVec 64) (j : ℕ) : byteBit (truncate w) j = wordBit w j := by
  unfold byteBit truncate wordBit
  rw [BitVec.getLsbD_setWidth, decide_eq_true (by omega : 7 - j < 8), Bool.true_and]

theorem wordBit_extend (b : BitVec 8) (j : ℕ) : wordBit (extend b) j = byteBit b j := by
  unfold byteBit extend wordBit
  rw [BitVec.getLsbD_setWidth, decide_eq_true (by omega : 7 - j < 64), Bool.true_and]

theorem wordBit_or (v w : BitVec 64) (j : ℕ) : wordBit (v ||| w) j = (wordBit v j || wordBit w j) :=
  BitVec.getLsbD_or

/-- A shift to the left brings later bits forward. -/
theorem wordBit_shiftLeft {l : ℕ} (hj : j < 8) :
    wordBit (extend b <<< l) j = if j + l < 8 then byteBit b (j + l) else false := by
  unfold wordBit byteBit extend
  rw [BitVec.getLsbD_shiftLeft, BitVec.getLsbD_setWidth]
  split_ifs with h
  · rw [show 7 - j - l = 7 - (j + l) by omega]
    simp only [decide_eq_true (by omega : 7 - j < 64), decide_eq_false (by omega : ¬ 7 - j < l),
      decide_eq_true (by omega : 7 - (j + l) < 64), Bool.not_false, Bool.true_and]
  · simp only [decide_eq_true (by omega : 7 - j < l), Bool.not_true, Bool.and_false, Bool.false_and]

/-- A shift to the right moves bits back. -/
theorem wordBit_shiftRight {r : ℕ} (hj : j < 8) :
    wordBit (extend b >>> r) j = if j < r then false else byteBit b (j - r) := by
  unfold wordBit byteBit extend
  rw [BitVec.getLsbD_ushiftRight, BitVec.getLsbD_setWidth]
  split_ifs with h
  · rw [BitVec.getLsbD_of_ge _ _ (by omega), Bool.and_false]
  · rw [show r + (7 - j) = 7 - (j - r) by omega, decide_eq_true (by omega : 7 - (j - r) < 64),
      Bool.true_and]

/-- `MASK_BITS(src, dst, mask)`: bits of one word where a mask has ones, and of another where it
has zeros. -/
def maskBits (v w mask : BitVec 64) : BitVec 64 := (v &&& mask) ||| (w &&& ~~~mask)

theorem wordBit_maskBits (v w mask : BitVec 64) (j : ℕ) :
    wordBit (maskBits v w mask) j = if wordBit mask j then wordBit v j else wordBit w j := by
  unfold wordBit maskBits
  rw [BitVec.getLsbD_or, BitVec.getLsbD_and, BitVec.getLsbD_and, BitVec.getLsbD_not,
    decide_eq_true (by omega : 7 - j < 64)]
  cases mask.getLsbD (7 - j) <;> simp

/-- `MAKE_MASK(n)`: a word with `n` ones at its end. -/
def makeMask (n : ℕ) : BitVec 64 := (1#64 <<< n) - 1#64

/-- The mask for the bits from `d` on. -/
theorem wordBit_makeMask {d : ℕ} (hd : d < 8) (hj : j < 8) :
    wordBit (makeMask (8 - d)) j = decide (d ≤ j) := by
  have h : ∀ d < 8, ∀ j < 8, wordBit (makeMask (8 - d)) j = decide (d ≤ j) := by decide
  exact h d hd j hj

/-- The mask for the first `e` bits. -/
theorem wordBit_makeMask_shiftLeft {e : ℕ} (he : e < 8) (hj : j < 8) :
    wordBit (makeMask e <<< (8 - e)) j = decide (j < e) := by
  have h : ∀ e < 8, ∀ j < 8, wordBit (makeMask e <<< (8 - e)) j = decide (j < e) := by decide
  exact h e he j hj

end Otp.Lib
