import Mathlib

/-!
# Bits and prefixes of two's-complement integers

For an integer `n` the quotient `n / 2 ^ k` (rounded down) holds the bits of
`n` from position `k` upwards, sign included, and `n % 2 ^ k` the bits below.
Bitwise operations act on the two parts separately, so a statement about the
order of `x ||| y` can be proved one bit at a time from the top: numbers with
different prefixes are ordered by their prefixes.
-/

namespace Otp.Lib.IntBits

open Int

/-! ## Bits and quotients -/

theorem bodd_eq (n : ℤ) : bodd n = decide (n % 2 = 1) := by
  have h := bodd_add_div2 n
  cases hb : bodd n <;> rw [hb] at h <;> simp at h <;> simp <;> omega

/-- Bit `k` is the parity of the prefix at `k`. -/
theorem testBit_eq (n : ℤ) (k : ℕ) : n.testBit k = decide (n / 2 ^ k % 2 = 1) := by
  induction k generalizing n with
  | zero =>
    have hlow : n.testBit 0 = bodd n := by
      conv_lhs => rw [← bit_decomp n]
      exact testBit_bit_zero _ _
    rw [hlow, bodd_eq, pow_zero, Int.ediv_one]
  | succ k ih =>
    have hstep : n.testBit (k + 1) = (div2 n).testBit k := by
      conv_lhs => rw [← bit_decomp n]
      exact testBit_bit_succ k _ _
    rw [hstep, ih, div2_val, Int.ediv_ediv_of_nonneg (by norm_num), pow_succ, mul_comm]

/-- Shifting right moves the bits down. -/
theorem testBit_ediv (n : ℤ) (k j : ℕ) : (n / 2 ^ k).testBit j = n.testBit (k + j) := by
  rw [testBit_eq, testBit_eq, Int.ediv_ediv_of_nonneg (by positivity), pow_add]

theorem ediv_two_pow_succ (n : ℤ) (k : ℕ) : n / 2 ^ (k + 1) = n / 2 ^ k / 2 := by
  rw [pow_succ, Int.ediv_ediv_of_nonneg (by positivity)]

/-- A prefix is the next shorter prefix followed by one bit. -/
theorem ediv_two_pow_eq (n : ℤ) (k : ℕ) :
    n / 2 ^ k = 2 * (n / 2 ^ (k + 1)) + (n.testBit k).toNat := by
  rw [ediv_two_pow_succ, testBit_eq]
  by_cases h : n / 2 ^ k % 2 = 1
  · simp only [h, decide_true, Bool.toNat_true]
    omega
  · simp only [h, decide_false, Bool.toNat_false]
    omega

/-- Induction over a pair of integers from the sign down to the lowest bit:
halving ends at `-1` or `0`. -/
theorem half_induction {motive : ℤ → ℤ → Prop}
    (sign : ∀ x y, -1 ≤ x → x < 1 → -1 ≤ y → y < 1 → motive x y)
    (step : ∀ x y, motive (x / 2) (y / 2) → motive x y) (x y : ℤ) : motive x y := by
  -- induction on a width that holds both numbers
  have hwidth : ∀ (w : ℕ) (x y : ℤ), -2 ^ w ≤ x → x < 2 ^ w → -2 ^ w ≤ y → y < 2 ^ w →
      motive x y := by
    intro w
    induction w with
    | zero => simpa using sign
    | succ w ih =>
      intro x y hx hx' hy hy'
      exact step x y (ih _ _ (by omega) (by omega) (by omega) (by omega))
  have hfits : ∀ z : ℤ, ∀ w, z.natAbs ≤ w → -2 ^ w ≤ z ∧ z < 2 ^ w := by
    intro z w hw
    have : (w : ℤ) < 2 ^ w := by exact_mod_cast Nat.lt_two_pow_self
    omega
  have hx := hfits x (x.natAbs + y.natAbs) (by omega)
  have hy := hfits y (x.natAbs + y.natAbs) (by omega)
  exact hwidth _ x y hx.1 hx.2 hy.1 hy.2

theorem testBit_zero_eq (n : ℤ) : n.testBit 0 = decide (n % 2 = 1) := by
  rw [testBit_eq, pow_zero, Int.ediv_one]

theorem testBit_half (n : ℤ) (k : ℕ) : (n / 2).testBit k = n.testBit (1 + k) := by
  have := testBit_ediv n 1 k
  rwa [pow_one] at this

variable {x y z n : ℤ} {k : ℕ}

/-- Two integers with the same bits are equal. -/
theorem eq_of_testBit_eq (h : ∀ k, x.testBit k = y.testBit k) : x = y := by
  induction x, y using half_induction with
  | sign x y hx hx' hy hy' =>
    have hlow := h 0
    simp only [testBit_zero_eq, decide_eq_decide] at hlow
    omega
  | step x y ih =>
    have hhalf := ih (fun k => by rw [testBit_half, testBit_half, h])
    have hlow := h 0
    simp only [testBit_zero_eq, decide_eq_decide] at hlow
    omega

/-! ## Bitwise operations and prefixes -/

theorem lor_ediv (x y : ℤ) (k : ℕ) : lor x y / 2 ^ k = lor (x / 2 ^ k) (y / 2 ^ k) := by
  apply eq_of_testBit_eq
  intro j
  simp only [testBit_ediv, testBit_lor]

theorem land_ediv (x y : ℤ) (k : ℕ) : land x y / 2 ^ k = land (x / 2 ^ k) (y / 2 ^ k) := by
  apply eq_of_testBit_eq
  intro j
  simp only [testBit_ediv, testBit_land]

theorem xor_ediv (x y : ℤ) (k : ℕ) : Int.xor x y / 2 ^ k = Int.xor (x / 2 ^ k) (y / 2 ^ k) := by
  apply eq_of_testBit_eq
  intro j
  simp only [testBit_ediv, testBit_lxor]

theorem lor_comm (x y : ℤ) : lor x y = lor y x := by
  apply eq_of_testBit_eq
  intro j
  simp only [testBit_lor, Bool.or_comm]

theorem xor_comm (x y : ℤ) : Int.xor x y = Int.xor y x := by
  apply eq_of_testBit_eq
  intro j
  simp only [testBit_lxor, Bool.xor_comm]

/-- Exclusive or with a fixed number is injective. -/
theorem xor_left_cancel (h : Int.xor x y = Int.xor x z) : y = z := by
  apply eq_of_testBit_eq
  intro j
  have := congrArg (fun n => n.testBit j) h
  simpa only [testBit_lxor, Bool.xor_right_inj] using this

theorem lxor_self (n : ℤ) : Int.xor n n = 0 := by
  apply eq_of_testBit_eq
  intro j
  rw [testBit_lxor, testBit_eq 0]
  simp

theorem lor_self (n : ℤ) : lor n n = n := by
  apply eq_of_testBit_eq
  intro j
  rw [testBit_lor, Bool.or_self]

/-- The low part keeps the bits below its width and no others. -/
theorem testBit_emod (n : ℤ) (k j : ℕ) :
    (n % 2 ^ k).testBit j = (decide (j < k) && n.testBit j) := by
  have hpos : (0 : ℤ) < 2 ^ k := by positivity
  rw [testBit_eq, testBit_eq]
  by_cases hj : j < k
  · -- the part above is a multiple of `2 ^ (j + 1)`
    obtain ⟨i, rfl⟩ := Nat.exists_eq_add_of_lt hj
    have hquot := Int.add_mul_ediv_left (n % 2 ^ (j + i + 1)) (2 * (2 ^ i * (n / 2 ^ (j + i + 1))))
      (show (2 : ℤ) ^ j ≠ 0 by positivity)
    rw [show (2 : ℤ) ^ j * (2 * (2 ^ i * (n / 2 ^ (j + i + 1)))) =
      2 ^ (j + i + 1) * (n / 2 ^ (j + i + 1)) by ring, Int.emod_add_mul_ediv] at hquot
    rw [hquot]
    simp [hj]
  · have hlow : n % 2 ^ k / 2 ^ j = 0 := by
      apply Int.ediv_eq_zero_of_lt (Int.emod_nonneg n hpos.ne')
      calc n % 2 ^ k < 2 ^ k := Int.emod_lt_of_pos n hpos
        _ ≤ 2 ^ j := pow_le_pow_right₀ (by norm_num) (by omega)
    rw [hlow]
    simp [hj]

theorem lor_emod (x y : ℤ) (k : ℕ) : lor x y % 2 ^ k = lor (x % 2 ^ k) (y % 2 ^ k) := by
  apply eq_of_testBit_eq
  intro j
  simp only [testBit_emod, testBit_lor]
  cases decide (j < k) <;> simp

theorem xor_emod (x y : ℤ) (k : ℕ) : Int.xor x y % 2 ^ k = Int.xor (x % 2 ^ k) (y % 2 ^ k) := by
  apply eq_of_testBit_eq
  intro j
  simp only [testBit_emod, testBit_lxor]
  cases decide (j < k) <;> simp

theorem xor_zero_right (n : ℤ) : Int.xor n 0 = n := by
  apply eq_of_testBit_eq
  intro j
  rw [testBit_lxor, testBit_eq 0]
  simp

/-! ## Order -/

/-- Different prefixes decide the order. -/
theorem lt_of_ediv_lt (h : x / 2 ^ k < y / 2 ^ k) : x < y := by
  by_contra hle
  have := Int.ediv_le_ediv (show (0 : ℤ) < 2 ^ k by positivity) (not_lt.mp hle)
  omega

theorem ediv_mono (h : x ≤ y) (k : ℕ) : x / 2 ^ k ≤ y / 2 ^ k :=
  Int.ediv_le_ediv (by positivity) h

/-- Prefixes and low parts together decide the order. -/
theorem le_of_ediv_le_of_emod_le (hp : x / 2 ^ k ≤ y / 2 ^ k) (hl : x % 2 ^ k ≤ y % 2 ^ k) :
    x ≤ y := by
  have hx := Int.emod_add_mul_ediv x (2 ^ k)
  have hy := Int.emod_add_mul_ediv y (2 ^ k)
  have := mul_le_mul_of_nonneg_left hp (show (0 : ℤ) ≤ 2 ^ k by positivity)
  omega

/-- With equal prefixes the order is that of the low parts. -/
theorem emod_le_of_le (h : x ≤ y) (hp : x / 2 ^ k = y / 2 ^ k) : x % 2 ^ k ≤ y % 2 ^ k := by
  have hx := Int.emod_add_mul_ediv x (2 ^ k)
  have hy := Int.emod_add_mul_ediv y (2 ^ k)
  rw [hp] at hx
  omega

/-- A number whose bits are among those of another is not larger, unless the
sign bit is the difference. -/
theorem le_of_testBit_imp (h : ∀ k, x.testBit k = true → z.testBit k = true)
    (hsign : z < 0 → x < 0) :
    x ≤ z := by
  induction x, z using half_induction with
  | sign x z hx hx' hz hz' =>
    omega
  | step x z ih =>
    have hhalf := ih (fun k => by rw [testBit_half, testBit_half]; exact h _) (by omega)
    have hlow := h 0
    simp only [testBit_zero_eq, decide_eq_true_eq] at hlow
    omega

theorem lor_neg_iff (x y : ℤ) : lor x y < 0 ↔ x < 0 ∨ y < 0 := by
  cases x <;> cases y <;> simp [lor, Int.negSucc_lt_zero]
  omega

theorem xor_neg_iff (x y : ℤ) : Int.xor x y < 0 ↔ ¬ (x < 0 ↔ y < 0) := by
  cases x <;> cases y <;> simp [Int.xor, Int.negSucc_lt_zero]
  omega

theorem land_neg_iff (x y : ℤ) : land x y < 0 ↔ x < 0 ∧ y < 0 := by
  cases x <;> cases y <;> simp [land, Int.negSucc_lt_zero] <;> omega

theorem le_lor_left (h : y < 0 → x < 0) : x ≤ lor x y := by
  apply le_of_testBit_imp
  · intro k hk
    rw [testBit_lor, hk, Bool.true_or]
  · rw [lor_neg_iff]
    tauto

/-! ## Single bits -/

theorem lnot_eq (x : ℤ) : Int.lnot x = -x - 1 := by
  cases x with
  | ofNat n =>
    simp only [Int.lnot, Int.negSucc_eq, Int.ofNat_eq_natCast]
    ring
  | negSucc n =>
    simp only [Int.lnot, Int.negSucc_eq]
    ring

theorem testBit_two_pow (k j : ℕ) : ((2 : ℤ) ^ k).testBit j = decide (k = j) := by
  have hcast : ((2 : ℤ) ^ k) = ((2 ^ k : ℕ) : ℤ) := by push_cast; rfl
  exact Nat.testBit_two_pow

theorem testBit_two_pow_sub_one (k j : ℕ) : ((2 : ℤ) ^ k - 1).testBit j = decide (j < k) := by
  have hcast : ((2 : ℤ) ^ k - 1) = ((2 ^ k - 1 : ℕ) : ℤ) := by
    have := Nat.one_le_two_pow (n := k)
    push_cast [Nat.cast_sub this]
    rfl
  rw [hcast]
  exact Nat.testBit_two_pow_sub_one k j

theorem testBit_neg_two_pow (k j : ℕ) : (-(2 : ℤ) ^ k).testBit j = decide (k ≤ j) := by
  have hnot : -(2 : ℤ) ^ k = lnot (2 ^ k - 1) := by
    rw [lnot_eq]
    ring
  rw [hnot, testBit_lnot, testBit_two_pow_sub_one, ← decide_not, decide_eq_decide, not_lt]

/-- Testing a number against a mask of one bit. -/
theorem land_two_pow_ne_zero (n : ℤ) (k : ℕ) : land n (2 ^ k) ≠ 0 ↔ n.testBit k = true := by
  constructor
  · intro hne
    by_contra hbit
    apply hne
    apply eq_of_testBit_eq
    intro j
    rw [testBit_land, testBit_two_pow, testBit_eq 0]
    by_cases hj : k = j
    · subst hj
      simpa using hbit
    · simp [hj]
  · intro hbit hzero
    have := congrArg (fun z => z.testBit k) hzero
    simp only [testBit_land, hbit, testBit_two_pow, decide_true, Bool.and_true] at this
    simp [testBit_eq] at this

/-- A number is determined by its prefix and its low part. -/
theorem eq_of_ediv_of_emod {q r : ℤ} (hq : n / 2 ^ k = q) (hr : n % 2 ^ k = r) :
    n = 2 ^ k * q + r := by
  rw [← hq, ← hr]
  exact (Int.mul_ediv_add_emod n (2 ^ k)).symm

theorem land_neg_one_right (n : ℤ) : land n (-1) = n := by
  apply eq_of_testBit_eq
  intro j
  have hones := testBit_neg_two_pow 0 j
  rw [pow_zero] at hones
  rw [testBit_land, hones]
  simp

theorem lor_zero_right (n : ℤ) : lor n 0 = n := by
  apply eq_of_testBit_eq
  intro j
  rw [testBit_lor, testBit_eq 0]
  simp

theorem lor_one_of_even (h : n % 2 = 0) : lor n 1 = n + 1 := by
  have hsplit := ediv_two_pow_eq (lor n 1) 0
  have hone : (1 : ℤ).testBit 0 = true := rfl
  rw [lor_ediv _ _ 1, testBit_lor, hone, Bool.or_true, pow_zero,
    pow_one, show (1 : ℤ) / 2 = 0 from rfl, lor_zero_right] at hsplit
  simp only [Bool.toNat_true, Nat.cast_one] at hsplit
  omega

/-- Setting a zero bit and clearing the bits below gives the least number above
that differs first at this bit. -/
theorem land_lor_neg_two_pow (h : n.testBit k = false) :
    land (lor n (2 ^ k)) (-2 ^ k) = 2 ^ k * (n / 2 ^ k + 1) := by
  have hpos : (0 : ℤ) < 2 ^ k := by positivity
  have hhigh : land (lor n (2 ^ k)) (-2 ^ k) / 2 ^ k = n / 2 ^ k + 1 := by
    have heven : n / 2 ^ k % 2 = 0 := by
      rw [testBit_eq, decide_eq_false_iff_not] at h
      omega
    rw [← lor_one_of_even heven, land_ediv, lor_ediv, Int.ediv_self hpos.ne',
      Int.neg_ediv_self _ hpos.ne', land_neg_one_right]
  have hlow : land (lor n (2 ^ k)) (-2 ^ k) % 2 ^ k = 0 := by
    apply eq_of_testBit_eq
    intro j
    rw [testBit_emod, testBit_land, testBit_neg_two_pow, testBit_eq 0]
    by_cases hj : j < k
    · simp [hj]
    · simp [hj]
  rw [eq_of_ediv_of_emod hhigh hlow, add_zero]

/-- Clearing a bit and setting the bits below gives the greatest number below
that differs first at this bit. -/
theorem lor_sub_two_pow (n : ℤ) (k : ℕ) :
    lor (n - 2 ^ k) (2 ^ k - 1) = 2 ^ k * (n / 2 ^ k) - 1 := by
  have hpos : (0 : ℤ) < 2 ^ k := by positivity
  have hhigh : lor (n - 2 ^ k) (2 ^ k - 1) / 2 ^ k = n / 2 ^ k - 1 := by
    rw [lor_ediv, Int.ediv_eq_zero_of_lt (a := 2 ^ k - 1) (by omega) (by omega)]
    have hquot : (n - 2 ^ k) / 2 ^ k = n / 2 ^ k - 1 := by
      have := Int.add_mul_ediv_right n (-1) hpos.ne'
      rw [neg_one_mul] at this
      exact this
    rw [hquot, lor_zero_right]
  have hlow : lor (n - 2 ^ k) (2 ^ k - 1) % 2 ^ k = 2 ^ k - 1 := by
    apply eq_of_testBit_eq
    intro j
    rw [testBit_emod, testBit_lor, testBit_two_pow_sub_one]
    by_cases hj : j < k
    · simp [hj]
    · simp [hj]
  rw [eq_of_ediv_of_emod hhigh hlow]
  ring

end Otp.Lib.IntBits
