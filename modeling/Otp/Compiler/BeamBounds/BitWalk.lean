import Otp.Compiler.BeamBounds.Bounds
import Otp.Lib.IntBits

/-!
# The bit-walk loops of `bor` and `bxor`

The loops walk a mask down from a high bit and look for the first bit at which
one operand may be moved to make the result smaller (or larger). The
invariants compare prefixes: at mask `k` the bits from `k` upwards of the
current result are already as good as those of any pair of members, and for
`bor` a pair that ties on them has the same prefixes as the operands
themselves. Quotients round towards minus infinity, so the same argument
covers negative numbers.
-/

namespace Otp.Compiler.BeamBounds

open Otp.Lib.IntBits

/-! ## The steps in terms of bits -/

/-- The first test of the loops that minimize: the bit is zero in `a` and one
in `c`. -/
theorem raise_test (a c : ℤ) (k : ℕ) :
    Int.land (Int.land (Int.lnot a) c) (2 ^ k) ≠ 0 ↔
      a.testBit k = false ∧ c.testBit k = true := by
  rw [land_two_pow_ne_zero, Int.testBit_land]
  simp

/-- The second test: the bit is one in `a` and zero in `c`. -/
theorem raise_test' (a c : ℤ) (k : ℕ) :
    Int.land (Int.land a (Int.lnot c)) (2 ^ k) ≠ 0 ↔
      c.testBit k = false ∧ a.testBit k = true := by
  rw [land_two_pow_ne_zero, Int.testBit_land]
  simp [and_comm]

/-- The test of the loops that maximize: the bit is one in both. -/
theorem lower_test (b d : ℤ) (k : ℕ) :
    Int.land (Int.land b d) (2 ^ k) ≠ 0 ↔ b.testBit k = true ∧ d.testBit k = true := by
  rw [land_two_pow_ne_zero]
  simp

/-- The least number above `a` that differs from it first at a zero bit `k`. -/
def raise (a : ℤ) (k : ℕ) : ℤ := 2 ^ k * (a / 2 ^ k + 1)

/-- The greatest number below `b` that differs from it first at a one bit
`k`. -/
def lower (b : ℤ) (k : ℕ) : ℤ := 2 ^ k * (b / 2 ^ k) - 1

theorem raise_ediv (a : ℤ) (k : ℕ) : raise a k / 2 ^ k = a / 2 ^ k + 1 :=
  Int.mul_ediv_cancel_left _ (by positivity)

theorem raise_emod (a : ℤ) (k : ℕ) : raise a k % 2 ^ k = 0 :=
  Int.mul_emod_right _ _

theorem lower_eq (b : ℤ) (k : ℕ) : lower b k = (2 ^ k - 1) + 2 ^ k * (b / 2 ^ k - 1) := by
  unfold lower
  ring

theorem lower_ediv (b : ℤ) (k : ℕ) : lower b k / 2 ^ k = b / 2 ^ k - 1 := by
  have hpos : (0 : ℤ) < 2 ^ k := by positivity
  rw [lower_eq, Int.add_mul_ediv_left _ _ hpos.ne', Int.ediv_eq_zero_of_lt (by omega) (by omega)]
  ring

theorem lower_emod (b : ℤ) (k : ℕ) : lower b k % 2 ^ k = 2 ^ k - 1 := by
  have hpos : (0 : ℤ) < 2 ^ k := by positivity
  rw [lower_eq, Int.add_mul_emod_self_left, Int.emod_eq_of_lt (by omega) (by omega)]

variable {a b x c y n d : ℤ} {k : ℕ}

/-- Raising at a zero bit keeps the bits above it and sets the bit. -/
theorem raise_ediv_succ (h : a.testBit k = false) : raise a k / 2 ^ (k + 1) = a / 2 ^ (k + 1) := by
  have hsplit := ediv_two_pow_eq a k
  rw [h] at hsplit
  rw [ediv_two_pow_succ, raise_ediv, hsplit]
  simp only [Bool.toNat_false, Nat.cast_zero]
  omega

theorem raise_testBit (h : a.testBit k = false) : (raise a k).testBit k = true := by
  rw [testBit_eq, decide_eq_false_iff_not] at h
  rw [testBit_eq, raise_ediv, decide_eq_true_eq]
  omega

/-- Lowering at a one bit keeps the bits above it and clears the bit. -/
theorem lower_ediv_succ (h : b.testBit k = true) : lower b k / 2 ^ (k + 1) = b / 2 ^ (k + 1) := by
  have hsplit := ediv_two_pow_eq b k
  rw [h] at hsplit
  rw [ediv_two_pow_succ, lower_ediv, hsplit]
  simp only [Bool.toNat_true, Nat.cast_one]
  omega

theorem lower_testBit (h : b.testBit k = true) : (lower b k).testBit k = false := by
  rw [testBit_eq, decide_eq_true_eq] at h
  rw [testBit_eq, lower_ediv, decide_eq_false_iff_not]
  omega

theorem ediv_le_of_lt_raise (h : x < raise a k) : x / 2 ^ k ≤ a / 2 ^ k := by
  rw [raise, mul_comm] at h
  have := Int.ediv_lt_of_lt_mul (show (0 : ℤ) < 2 ^ k by positivity) h
  omega

theorem ediv_ge_of_lower_lt (h : lower b k < x) : b / 2 ^ k ≤ x / 2 ^ k := by
  rw [Int.le_ediv_iff_mul_le (by positivity), mul_comm]
  unfold lower at h
  omega

/-- One step of `min_bor/5`. -/
theorem minBor₅_succ (a : ℤ) (b : Bound) (c : ℤ) (d : Bound) (k : ℕ) :
    minBor₅ a b c d (k + 1) =
      if a.testBit k = false ∧ c.testBit k = true then
        if termLe (.int (raise a k)) b then Int.lor (raise a k) c else minBor₅ a b c d k
      else if c.testBit k = false ∧ a.testBit k = true then
        if termLe (.int (raise c k)) d then Int.lor a (raise c k) else minBor₅ a b c d k
      else minBor₅ a b c d k := by
  simp only [minBor₅, raise_test, raise_test']
  split_ifs <;> simp_all [land_lor_neg_two_pow, raise]

/-- One step of `max_bor/6`, whose first argument is `b band d`. -/
theorem maxBor₆_succ (a : Bound) (b : ℤ) (c : Bound) (d : ℤ) (k : ℕ) :
    maxBor₆ (Int.land b d) a b c d (k + 1) =
      if b.testBit k = true ∧ d.testBit k = true then
        if infGe (.int (lower b k)) a then Int.lor (lower b k) d
        else if infGe (.int (lower d k)) c then Int.lor b (lower d k)
        else maxBor₆ (Int.land b d) a b c d k
      else maxBor₆ (Int.land b d) a b c d k := by
  simp only [maxBor₆, lower_test, lor_sub_two_pow, lower]
  exact if_congr Iff.rfl rfl rfl

/-- One step of `min_bxor/5`. -/
theorem minBxor₅_succ (a : ℤ) (b : Bound) (c : ℤ) (d : Bound) (k : ℕ) :
    minBxor₅ a b c d (k + 1) =
      if a.testBit k = false ∧ c.testBit k = true then
        if termLe (.int (raise a k)) b then minBxor₅ (raise a k) b c d k
        else minBxor₅ a b c d k
      else if c.testBit k = false ∧ a.testBit k = true then
        if termLe (.int (raise c k)) d then minBxor₅ a b (raise c k) d k
        else minBxor₅ a b c d k
      else minBxor₅ a b c d k := by
  simp only [minBxor₅, raise_test, raise_test']
  split_ifs <;> simp_all [land_lor_neg_two_pow, raise]

/-- One step of `max_bxor/5`. -/
theorem maxBxor₅_succ (a : Bound) (b : ℤ) (c : Bound) (d : ℤ) (k : ℕ) :
    maxBxor₅ a b c d (k + 1) =
      if b.testBit k = true ∧ d.testBit k = true then
        if infGe (.int (lower b k)) a then maxBxor₅ a (lower b k) c d k
        else if infGe (.int (lower d k)) c then maxBxor₅ a b c (lower d k) k
        else maxBxor₅ a b c d k
      else maxBxor₅ a b c d k := by
  simp only [maxBxor₅, lower_test, lor_sub_two_pow, lower]
  exact if_congr Iff.rfl rfl rfl

/-! ## Minimizing `bor` -/

/-- The invariant of `min_bor/5` for one pair of members: the prefix of
`a bor c` is not larger, and a tie is reached only by the prefixes of `a` and
`c` themselves. -/
def LowPrefix (k : ℕ) (a c x y : ℤ) : Prop :=
  Int.lor a c / 2 ^ k ≤ Int.lor x y / 2 ^ k ∧
    (Int.lor x y / 2 ^ k = Int.lor a c / 2 ^ k → x / 2 ^ k = a / 2 ^ k ∧ y / 2 ^ k = c / 2 ^ k)

theorem LowPrefix.symm (h : LowPrefix k a c x y) : LowPrefix k c a y x := by
  unfold LowPrefix at h ⊢
  rw [lor_comm c a, lor_comm y x]
  exact ⟨h.1, fun heq => (h.2 heq).symm⟩

/-- One bit further down, when the bit offers no move. -/
theorem LowPrefix.step (hinv : LowPrefix (k + 1) a c x y) (ha : a ≤ x) (hc : c ≤ y)
    (hA : a.testBit k = false → c.testBit k = true → x < raise a k)
    (hC : c.testBit k = false → a.testBit k = true → y < raise c k) : LowPrefix k a c x y := by
  have hx := ediv_mono ha k
  have hy := ediv_mono hc k
  have hA' : a.testBit k = false → c.testBit k = true → x / 2 ^ k ≤ a / 2 ^ k :=
    fun h1 h2 => ediv_le_of_lt_raise (hA h1 h2)
  have hC' : c.testBit k = false → a.testBit k = true → y / 2 ^ k ≤ c / 2 ^ k :=
    fun h1 h2 => ediv_le_of_lt_raise (hC h1 h2)
  obtain ⟨hle, htie⟩ := hinv
  unfold LowPrefix
  rw [ediv_two_pow_eq a k, ediv_two_pow_eq x k] at *
  rw [ediv_two_pow_eq c k, ediv_two_pow_eq y k] at *
  rw [ediv_two_pow_eq (Int.lor a c) k, ediv_two_pow_eq (Int.lor x y) k, Int.testBit_lor,
    Int.testBit_lor]
  generalize a.testBit k = i, c.testBit k = j, x.testBit k = p, y.testBit k = q at *
  cases i <;> cases j <;> cases p <;> cases q <;>
    simp only [Bool.toNat_true, Bool.toNat_false, Bool.or_true, Bool.or_false, Nat.cast_one,
      Nat.cast_zero, forall_const, reduceCtorEq, false_implies] at * <;>
    omega

/-- A move that is taken: `a` is raised at the bit where `c` has a one. Only
the prefix of `y` has to agree on a tie. -/
theorem lor_raise_le (hle : Int.lor a c / 2 ^ (k + 1) ≤ Int.lor x y / 2 ^ (k + 1))
    (htie : Int.lor x y / 2 ^ (k + 1) = Int.lor a c / 2 ^ (k + 1) →
      y / 2 ^ (k + 1) = c / 2 ^ (k + 1)) (hc : c ≤ y) (ha₀ : a.testBit k = false)
    (hc₁ : c.testBit k = true) : Int.lor (raise a k) c ≤ Int.lor x y := by
  have hhigh : Int.lor (raise a k) c / 2 ^ (k + 1) = Int.lor a c / 2 ^ (k + 1) := by
    rw [lor_ediv, lor_ediv, raise_ediv_succ ha₀]
  rcases lt_or_eq_of_le hle with hlt | heq
  · exact (lt_of_ediv_lt (hhigh ▸ hlt)).le
  · have hy := htie heq.symm
    -- `y` is not below `c` and shares its prefix, so it has the bit as well
    have hbit : y.testBit k = true := by
      have hmono := ediv_mono hc k
      rw [ediv_two_pow_eq c k, ediv_two_pow_eq y k, hc₁, hy] at hmono
      cases hy' : y.testBit k
      · rw [hy'] at hmono
        simp at hmono
      · rfl
    have hyc : c / 2 ^ k = y / 2 ^ k := by
      rw [ediv_two_pow_eq c k, ediv_two_pow_eq y k, hc₁, hy, hbit]
    apply le_of_ediv_le_of_emod_le (k := k)
    · rw [ediv_two_pow_eq (Int.lor (raise a k) c) k, ediv_two_pow_eq (Int.lor x y) k,
        hhigh, heq, Int.testBit_lor, Int.testBit_lor, hc₁, hbit, Bool.or_true, Bool.or_true]
    · have hlow : Int.lor (raise a k) c % 2 ^ k = c % 2 ^ k := by
        rw [lor_emod, raise_emod, lor_comm, lor_zero_right]
      have hnonneg : ∀ n : ℤ, ¬ n % 2 ^ k < 0 := fun n =>
        not_lt.mpr (Int.emod_nonneg n (by positivity))
      rw [hlow, lor_emod, lor_comm]
      exact (emod_le_of_le hc hyc).trans (le_lor_left fun h => absurd h (hnonneg x))

/-- A failed comparison with an end means that the end is an integer below the
value. -/
theorem lt_of_termLe_false {b : Bound} (h : termLe (.int n) b = false) (hb : .int x ≤ b) :
    x < n := by
  cases b with
  | negInf => simp at hb
  | posInf => simp [termLe] at h
  | int b =>
    rw [Bound.int_le_int] at hb
    simp only [termLe, decide_eq_false_iff_not] at h
    omega

/-- `min_bor/5` returns a lower bound, from any mask at which the invariant
holds. -/
theorem minBor₅_le {b d : Bound} (ha : a ≤ x) (hb : .int x ≤ b) (hc : c ≤ y) (hd : .int y ≤ d)
    (k : ℕ) (hinv : LowPrefix k a c x y) : minBor₅ a b c d k ≤ Int.lor x y := by
  induction k with
  | zero => simpa [minBor₅] using hinv.1
  | succ k ih =>
    rw [minBor₅_succ]
    split_ifs with hA hmoveA hC hmoveC
    · exact lor_raise_le hinv.1 (fun h => (hinv.2 h).2) hc hA.1 hA.2
    · refine ih (hinv.step ha hc (fun _ _ => ?_) fun h _ => ?_)
      · exact lt_of_termLe_false (by simpa using hmoveA) hb
      · rw [hA.2] at h
        exact absurd h (by simp)
    · rw [lor_comm a, lor_comm x]
      exact lor_raise_le hinv.symm.1 (fun h => (hinv.symm.2 h).2) ha hC.1 hC.2
    · refine ih (hinv.step ha hc (fun h _ => ?_) fun _ _ => ?_)
      · rw [hC.2] at h
        exact absurd h (by simp)
      · exact lt_of_termLe_false (by simpa using hmoveC) hd
    · exact ih (hinv.step ha hc (fun h1 h2 => absurd ⟨h1, h2⟩ hA) fun h1 h2 => absurd ⟨h1, h2⟩ hC)

/-! ## Maximizing `bor` -/

/-- The invariant of `max_bor/6` for one pair of members: the prefix of
`b bor d` is not smaller, and a tie is reached only by the prefixes of `b` and
`d` themselves. -/
def HighPrefix (k : ℕ) (b d x y : ℤ) : Prop :=
  Int.lor x y / 2 ^ k ≤ Int.lor b d / 2 ^ k ∧
    (Int.lor x y / 2 ^ k = Int.lor b d / 2 ^ k → x / 2 ^ k = b / 2 ^ k ∧ y / 2 ^ k = d / 2 ^ k)

theorem HighPrefix.symm (h : HighPrefix k b d x y) : HighPrefix k d b y x := by
  unfold HighPrefix at h ⊢
  rw [lor_comm d b, lor_comm y x]
  exact ⟨h.1, fun heq => (h.2 heq).symm⟩

/-- One bit further down, when the bit offers no move. -/
theorem HighPrefix.step (hinv : HighPrefix (k + 1) b d x y) (hb : x ≤ b) (hd : y ≤ d)
    (hmove : b.testBit k = true → d.testBit k = true → lower b k < x ∧ lower d k < y) :
    HighPrefix k b d x y := by
  have hx := ediv_mono hb k
  have hy := ediv_mono hd k
  have hmove' : b.testBit k = true → d.testBit k = true →
      b / 2 ^ k ≤ x / 2 ^ k ∧ d / 2 ^ k ≤ y / 2 ^ k := fun h1 h2 =>
    ⟨ediv_ge_of_lower_lt (hmove h1 h2).1, ediv_ge_of_lower_lt (hmove h1 h2).2⟩
  obtain ⟨hle, htie⟩ := hinv
  unfold HighPrefix
  rw [ediv_two_pow_eq b k, ediv_two_pow_eq x k] at *
  rw [ediv_two_pow_eq d k, ediv_two_pow_eq y k] at *
  rw [ediv_two_pow_eq (Int.lor b d) k, ediv_two_pow_eq (Int.lor x y) k, Int.testBit_lor,
    Int.testBit_lor]
  generalize b.testBit k = i, d.testBit k = j, x.testBit k = p, y.testBit k = q at *
  cases i <;> cases j <;> cases p <;> cases q <;>
    simp only [Bool.toNat_true, Bool.toNat_false, Bool.or_true, Bool.or_false, Nat.cast_one,
      Nat.cast_zero, forall_const, reduceCtorEq, false_implies] at * <;>
    omega

/-- A move that is taken: `b` is lowered at a bit that `d` keeps. -/
theorem le_lor_lower (hle : Int.lor x y / 2 ^ (k + 1) ≤ Int.lor b d / 2 ^ (k + 1))
    (hb₁ : b.testBit k = true) (hd₁ : d.testBit k = true) :
    Int.lor x y ≤ Int.lor (lower b k) d := by
  have hpos : (0 : ℤ) < 2 ^ k := by positivity
  have hhigh : Int.lor (lower b k) d / 2 ^ (k + 1) = Int.lor b d / 2 ^ (k + 1) := by
    rw [lor_ediv, lor_ediv, lower_ediv_succ hb₁]
  apply le_of_ediv_le_of_emod_le (k := k)
  · rw [ediv_two_pow_eq (Int.lor (lower b k) d) k, ediv_two_pow_eq (Int.lor x y) k,
      Int.testBit_lor _ d, hd₁, Bool.or_true, Bool.toNat_true]
    have := Bool.toNat_le (Int.testBit (Int.lor x y) k)
    omega
  · -- all bits below the moved one are set
    have hlow : 2 ^ k - 1 ≤ Int.lor (lower b k) d % 2 ^ k := by
      rw [lor_emod, lower_emod]
      exact le_lor_left fun h => absurd h (not_lt.mpr (Int.emod_nonneg d hpos.ne'))
    omega

theorem lt_of_infGe_false {a : Bound} (h : infGe (.int n) a = false) (ha : a ≤ .int x) : n < x := by
  rw [infGe_eq, decide_eq_false_iff_not] at h
  have := lt_of_lt_of_le (not_le.mp h) ha
  rw [← not_le, Bound.int_le_int] at this
  omega

/-- `max_bor/6` returns an upper bound, from any mask at which the invariant
holds. -/
theorem le_maxBor₆ {a c : Bound} (ha : a ≤ .int x) (hb : x ≤ b) (hc : c ≤ .int y) (hd : y ≤ d)
    (k : ℕ) (hinv : HighPrefix k b d x y) : Int.lor x y ≤ maxBor₆ (Int.land b d) a b c d k := by
  induction k with
  | zero => simpa [maxBor₆] using hinv.1
  | succ k ih =>
    rw [maxBor₆_succ]
    split_ifs with hbits hmoveB hmoveD
    · exact le_lor_lower hinv.1 hbits.1 hbits.2
    · rw [lor_comm x, lor_comm b]
      exact le_lor_lower hinv.symm.1 hbits.2 hbits.1
    · refine ih (hinv.step hb hd fun _ _ => ⟨?_, ?_⟩)
      · exact lt_of_infGe_false (by simpa using hmoveB) ha
      · exact lt_of_infGe_false (by simpa using hmoveD) hc
    · exact ih (hinv.step hb hd fun h1 h2 => absurd ⟨h1, h2⟩ hbits)

/-! ## Minimizing `bxor` -/

/-- The moves of `min_bxor/5` do not touch the bits above the mask. -/
theorem minBxor₅_ediv (a : ℤ) (b : Bound) (c : ℤ) (d : Bound) (k : ℕ) :
    minBxor₅ a b c d k / 2 ^ k = Int.xor a c / 2 ^ k := by
  induction k generalizing a c with
  | zero => simp [minBxor₅]
  | succ k ih =>
    rw [minBxor₅_succ]
    split_ifs with hA hmoveA hC hmoveC
    · rw [ediv_two_pow_succ, ih, ← ediv_two_pow_succ, xor_ediv, xor_ediv, raise_ediv_succ hA.1]
    · rw [ediv_two_pow_succ, ih, ← ediv_two_pow_succ]
    · rw [ediv_two_pow_succ, ih, ← ediv_two_pow_succ, xor_ediv, xor_ediv, raise_ediv_succ hC.1]
    · rw [ediv_two_pow_succ, ih, ← ediv_two_pow_succ]
    · rw [ediv_two_pow_succ, ih, ← ediv_two_pow_succ]

/-- A pair that ties with `a bxor c` above bit `k` and whose left member was
not raised there has the bits of `a` and `c` at `k` as well. -/
theorem xor_tie (ha : a ≤ x) (hc : c ≤ y) (hx : x < raise a k) (hc₁ : c.testBit k = true)
    (htie : Int.xor a c / 2 ^ (k + 1) = Int.xor x y / 2 ^ (k + 1)) :
    Int.xor a c / 2 ^ k = Int.xor x y / 2 ^ k := by
  have hxa : x / 2 ^ k = a / 2 ^ k := le_antisymm (ediv_le_of_lt_raise hx) (ediv_mono ha k)
  have hyc : c / 2 ^ (k + 1) = y / 2 ^ (k + 1) := by
    rw [xor_ediv, xor_ediv, ediv_two_pow_succ x, hxa, ← ediv_two_pow_succ] at htie
    exact xor_left_cancel htie
  have hy := ediv_mono hc k
  rw [xor_ediv, xor_ediv, hxa]
  rw [ediv_two_pow_eq c k, ediv_two_pow_eq y k, hc₁, hyc] at *
  cases hy' : y.testBit k
  · rw [hy'] at hy
    simp at hy
  · rfl

/-- The two operands of `min_bxor/5` may be exchanged. -/
theorem minBxor₅_comm (a : ℤ) (b : Bound) (c : ℤ) (d : Bound) (k : ℕ) :
    minBxor₅ a b c d k = minBxor₅ c d a b k := by
  induction k generalizing a c with
  | zero => exact xor_comm a c
  | succ k ih =>
    rw [minBxor₅_succ, minBxor₅_succ, ih a c, ih (raise a k) c, ih a (raise c k)]
    by_cases hA : a.testBit k = false ∧ c.testBit k = true
    · simp [hA.1, hA.2]
    · simp [hA]

theorem xor_ediv_split (x y : ℤ) (k : ℕ) :
    Int.xor x y / 2 ^ k =
      2 * (Int.xor x y / 2 ^ (k + 1)) + ((x.testBit k).xor (y.testBit k)).toNat := by
  rw [ediv_two_pow_eq (Int.xor x y) k, Int.testBit_lxor]

/-- `min_bxor/5` returns a lower bound, from any mask at which the prefix of
`a bxor c` is not larger. -/
theorem minBxor₅_le (k : ℕ) : ∀ {a c x y : ℤ} {b d : Bound}, a ≤ x → .int x ≤ b → c ≤ y →
    .int y ≤ d → Int.xor a c / 2 ^ k ≤ Int.xor x y / 2 ^ k →
      minBxor₅ a b c d k ≤ Int.xor x y := by
  induction k with
  | zero =>
    intro a c x y b d _ _ _ _ hle
    simpa [minBxor₅] using hle
  | succ k ih =>
    -- the move of `a` at its zero bit; the move of `c` is its mirror image
    have hmove : ∀ {a c x y : ℤ} {b d : Bound}, a ≤ x → .int x ≤ b → c ≤ y → .int y ≤ d →
        Int.xor a c / 2 ^ (k + 1) = Int.xor x y / 2 ^ (k + 1) →
        a.testBit k = false → c.testBit k = true →
        minBxor₅ (raise a k) b c d k ≤ Int.xor x y := by
      intro a c x y b d ha hb hc hd htie ha₀ hc₁
      have hraised : Int.xor (raise a k) c / 2 ^ k = 2 * (Int.xor x y / 2 ^ (k + 1)) := by
        rw [xor_ediv_split, raise_testBit ha₀, hc₁, xor_ediv, raise_ediv_succ ha₀, ← xor_ediv, htie]
        simp
      by_cases hx : raise a k ≤ x
      · refine ih hx hb hc hd ?_
        rw [xor_ediv_split x y k]
        omega
      · have hsame := xor_tie ha hc (not_le.mp hx) hc₁ htie
        apply le_of_lt
        apply lt_of_ediv_lt (k := k)
        rw [minBxor₅_ediv, hraised, ← hsame, xor_ediv_split a c k, ha₀, hc₁, htie]
        simp
    intro a c x y b d ha hb hc hd hle
    rcases lt_or_eq_of_le hle with hlt | htie
    · rw [← minBxor₅_ediv a b c d] at hlt
      exact (lt_of_ediv_lt hlt).le
    · rw [minBxor₅_succ]
      split_ifs with hA hmoveA hC hmoveC
      · exact hmove ha hb hc hd htie hA.1 hA.2
      · refine ih ha hb hc hd (xor_tie ha hc ?_ hA.2 htie).le
        exact lt_of_termLe_false (by simpa using hmoveA) hb
      · rw [minBxor₅_comm, xor_comm x]
        rw [xor_comm a, xor_comm x] at htie
        exact hmove hc hd ha hb htie hC.1 hC.2
      · refine ih ha hb hc hd ?_
        rw [xor_comm a, xor_comm x] at htie ⊢
        refine (xor_tie hc ha ?_ hC.2 htie).le
        exact lt_of_termLe_false (by simpa using hmoveC) hd
      · refine ih ha hb hc hd ?_
        rw [xor_ediv_split a c k, xor_ediv_split x y k, htie]
        have hsame : a.testBit k = c.testBit k := by
          cases ha' : a.testBit k <;> cases hc' : c.testBit k <;> simp_all
        rw [hsame]
        simp

/-! ## Maximizing `bxor` -/

/-- The invariant of `max_bxor/5` for one pair of members. -/
def HighXorPrefix (k : ℕ) (b d x y : ℤ) : Prop :=
  Int.xor x y / 2 ^ k ≤ Int.xor b d / 2 ^ k ∧
    (Int.xor x y / 2 ^ k = Int.xor b d / 2 ^ k → x / 2 ^ k = b / 2 ^ k ∧ y / 2 ^ k = d / 2 ^ k)

/-- The moves of `max_bxor/5` do not touch the bits above the mask. -/
theorem maxBxor₅_ediv (a : Bound) (b : ℤ) (c : Bound) (d : ℤ) (k : ℕ) :
    maxBxor₅ a b c d k / 2 ^ k = Int.xor b d / 2 ^ k := by
  induction k generalizing b d with
  | zero => simp [maxBxor₅]
  | succ k ih =>
    rw [maxBxor₅_succ]
    split_ifs with hbits
    · rw [ediv_two_pow_succ, ih, ← ediv_two_pow_succ, xor_ediv, xor_ediv, lower_ediv_succ hbits.1]
    · rw [ediv_two_pow_succ, ih, ← ediv_two_pow_succ, xor_ediv, xor_ediv, lower_ediv_succ hbits.2]
    · rw [ediv_two_pow_succ, ih, ← ediv_two_pow_succ]
    · rw [ediv_two_pow_succ, ih, ← ediv_two_pow_succ]

theorem HighXorPrefix.of_ediv_eq (hx : x / 2 ^ k = b / 2 ^ k) (hy : y / 2 ^ k = d / 2 ^ k) :
    HighXorPrefix k b d x y := by
  refine ⟨?_, fun _ => ⟨hx, hy⟩⟩
  rw [xor_ediv, xor_ediv, hx, hy]

theorem le_lower_of_ediv_lt (h : x / 2 ^ k < b / 2 ^ k) : x ≤ lower b k := by
  by_contra hgt
  have := ediv_ge_of_lower_lt (not_le.mp hgt)
  omega

theorem lower_le (b : ℤ) (k : ℕ) : lower b k ≤ b := by
  have := Int.mul_ediv_add_emod b (2 ^ k)
  unfold lower
  omega

/-- The pair that dominates all others once `b` may be lowered at bit `k`: all
bits below `k` are one in the left member and zero in the right one. -/
theorem xor_le_xor_lower (h : Int.xor x y / 2 ^ k = Int.xor (b / 2 ^ k - 1) (d / 2 ^ k)) :
    Int.xor x y ≤ Int.xor (lower b k) (2 ^ k * (d / 2 ^ k)) := by
  have hpos : (0 : ℤ) < 2 ^ k := by positivity
  apply le_of_ediv_le_of_emod_le (k := k)
  · rw [h, xor_ediv, lower_ediv, Int.mul_ediv_cancel_left _ hpos.ne']
  · rw [xor_emod (lower b k), lower_emod, Int.mul_emod_right, xor_zero_right]
    omega

/-- From the mask `k`, `max_bxor/5` returns an upper bound where the invariant holds. -/
def XorBoundedFrom (k : ℕ) : Prop := ∀ ⦃a c : Bound⦄ ⦃b d x y : ℤ⦄, a ≤ .int x → x ≤ b →
  c ≤ .int y → y ≤ d → HighXorPrefix k b d x y → Int.xor x y ≤ maxBxor₅ a b c d k

section

variable {a c : Bound} (hk : XorBoundedFrom k) (ha : a ≤ .int x) (hc : c ≤ .int y)
  (hy : y / 2 ^ (k + 1) = d / 2 ^ (k + 1)) (hb₁ : b.testBit k = true) (hd₁ : d.testBit k = true)

include hk ha hc hy hb₁ hd₁

/-- The move of `b` at a bit that both have. -/
theorem XorBoundedFrom.lower_left (hd : y ≤ d) (hx : x / 2 ^ (k + 1) = b / 2 ^ (k + 1))
    (hmove : a ≤ .int (lower b k)) : Int.xor x y ≤ maxBxor₅ a (lower b k) c d k := by
  have hbx := ediv_two_pow_eq b k
  have hdy := ediv_two_pow_eq d k
  have hxx := ediv_two_pow_eq x k
  have hyy := ediv_two_pow_eq y k
  rw [hb₁] at hbx
  rw [hd₁] at hdy
  have hlowered : Int.xor (lower b k) d / 2 ^ k = 2 * (Int.xor x y / 2 ^ (k + 1)) + 1 := by
    rw [xor_ediv_split, lower_testBit hb₁, hd₁, xor_ediv, lower_ediv_succ hb₁, xor_ediv x, hx, hy]
    simp
  have hstrict : x.testBit k = y.testBit k → Int.xor x y ≤ maxBxor₅ a (lower b k) c d k := by
    intro hsame
    refine (lt_of_ediv_lt (k := k) ?_).le
    rw [maxBxor₅_ediv, hlowered, xor_ediv_split x y, hsame]
    simp
  cases hxk : x.testBit k <;> cases hyk : y.testBit k <;> rw [hxk] at hxx <;>
    rw [hyk] at hyy <;> simp only [Bool.toNat_true, Bool.toNat_false] at hbx hdy hxx hyy
  · exact hstrict (hxk.trans hyk.symm)
  · refine hk ha (le_lower_of_ediv_lt (by omega)) hc hd (.of_ediv_eq ?_ (by omega))
    rw [lower_ediv]
    omega
  · -- the dominating pair is a member of both ranges
    have hdom : Int.xor x y ≤ Int.xor (lower b k) (2 ^ k * (d / 2 ^ k)) := by
      apply xor_le_xor_lower
      rw [← lower_ediv, ← xor_ediv, hlowered, xor_ediv_split x y, hxk, hyk]
      simp
    refine hdom.trans (hk hmove le_rfl ?_ ?_ (.of_ediv_eq rfl ?_))
    · refine hc.trans (Bound.int_le_int.mpr ?_)
      have := le_lower_of_ediv_lt (show y / 2 ^ k < d / 2 ^ k by omega)
      unfold lower at this
      omega
    · exact Int.mul_ediv_self_le (by positivity)
    · exact Int.mul_ediv_cancel_left _ (by positivity)
  · exact hstrict (hxk.trans hyk.symm)

/-- The move of `d`, where `x` is above the lowered `b` and so keeps the bit. -/
theorem XorBoundedFrom.lower_right (hb : x ≤ b) (hx : x / 2 ^ k = b / 2 ^ k) :
    Int.xor x y ≤ maxBxor₅ a b c (lower d k) k := by
  have hdy := ediv_two_pow_eq d k
  have hyy := ediv_two_pow_eq y k
  rw [hd₁] at hdy
  cases hyk : y.testBit k
  · rw [hyk] at hyy
    simp only [Bool.toNat_true, Bool.toNat_false] at hdy hyy
    refine hk ha hb hc (le_lower_of_ediv_lt (by omega)) (.of_ediv_eq hx ?_)
    rw [lower_ediv]
    omega
  · refine (lt_of_ediv_lt (k := k) ?_).le
    have hxk : x.testBit k = true := by
      rw [testBit_eq, hx, ← testBit_eq]
      exact hb₁
    rw [maxBxor₅_ediv, xor_ediv_split b, lower_testBit hd₁, hb₁, xor_ediv b, lower_ediv_succ hd₁,
      xor_ediv_split x y, hxk, hyk, xor_ediv x, hy, ediv_two_pow_succ x, hx, ← ediv_two_pow_succ]
    simp

end

/-- `max_bxor/5` returns an upper bound, from any mask at which the invariant
holds. -/
theorem le_maxBxor₅ (k : ℕ) : XorBoundedFrom k := by
  induction k with
  | zero =>
    intro a c b d x y _ _ _ _ hinv
    simpa [maxBxor₅] using hinv.1
  | succ k ih =>
    intro a c b d x y ha hb hc hd hinv
    rcases lt_or_eq_of_le hinv.1 with hlt | htie
    · rw [← maxBxor₅_ediv a b c d] at hlt
      exact (lt_of_ediv_lt hlt).le
    -- from here on `x` and `y` share the prefixes of `b` and `d`
    obtain ⟨hx, hy⟩ := hinv.2 htie
    have hxb := ediv_mono hb k
    have hyd := ediv_mono hd k
    rw [maxBxor₅_succ]
    split_ifs with hbits hmoveB hmoveD
    · exact ih.lower_left ha hc hy hbits.1 hbits.2 hd hx (by simpa [infGe_eq] using hmoveB)
    · exact ih.lower_right ha hc hy hbits.1 hbits.2 hb (le_antisymm hxb
        (ediv_ge_of_lower_lt (lt_of_infGe_false (by simpa using hmoveB) ha)))
    · refine ih ha hb hc hd (.of_ediv_eq (le_antisymm hxb ?_) (le_antisymm hyd ?_))
      · exact ediv_ge_of_lower_lt (lt_of_infGe_false (by simpa using hmoveB) ha)
      · exact ediv_ge_of_lower_lt (lt_of_infGe_false (by simpa using hmoveD) hc)
    · by_cases hsame : x / 2 ^ k = b / 2 ^ k ∧ y / 2 ^ k = d / 2 ^ k
      · exact ih ha hb hc hd (.of_ediv_eq hsame.1 hsame.2)
      · -- at most one of `b` and `d` has the bit, and it is lost
        apply le_of_lt
        apply lt_of_ediv_lt (k := k)
        have hbx := ediv_two_pow_eq b k
        have hdy := ediv_two_pow_eq d k
        have hxx := ediv_two_pow_eq x k
        have hyy := ediv_two_pow_eq y k
        rw [maxBxor₅_ediv, xor_ediv_split b d, xor_ediv_split x y]
        generalize b.testBit k = i, d.testBit k = j, x.testBit k = p, y.testBit k = q at *
        cases i <;> cases j <;> cases p <;> cases q <;>
          simp only [Bool.toNat_true, Bool.toNat_false, Bool.xor_true, Bool.xor_false,
            Bool.not_true, Bool.not_false, Nat.cast_one, Nat.cast_zero, and_self,
            not_true_eq_false, reduceCtorEq, and_true, and_false] at * <;>
          omega

end Otp.Compiler.BeamBounds
