import Otp.Compiler.BeamBounds.Bitwise

/-!
# The bounds of `band` and `bor` are tight

A bit walk moves at most one operand, and only to a number that the test of
the loop keeps inside its range. Each end it returns is therefore the result
on two members. The mixed-sign shortcuts use a member that is zero or minus
one.
-/

namespace Otp.Compiler.BeamBounds

open Otp.Lib.IntBits

/-- Some members of the two ranges give the result `v`. -/
def Attained (f : ℤ → ℤ → ℤ) (a b c d v : ℤ) : Prop :=
  ∃ x y, (a ≤ x ∧ x ≤ b) ∧ (c ≤ y ∧ y ≤ d) ∧ f x y = v

/-- Both ends of a computed pair are integers that members attain. -/
def Tight (f : ℤ → ℤ → ℤ) (a b c d : ℤ) (res : Option (Bound × Bound)) : Prop :=
  ∃ lo hi, res = some (.int lo, .int hi) ∧ Attained f a b c d lo ∧ Attained f a b c d hi

variable {f : ℤ → ℤ → ℤ} {a b c d v lo hi : ℤ}

theorem le_raise (a : ℤ) (k : ℕ) : a ≤ raise a k := by
  have := Int.mul_ediv_add_emod a (2 ^ k)
  unfold raise
  rw [mul_add]
  omega

/-- `min_bor/5` returns the result on two members, from any mask. -/
theorem minBor₅_attained (hab : a ≤ b) (hcd : c ≤ d) (k : ℕ) :
    Attained Int.lor a b c d (minBor₅ a (.int b) c (.int d) k) := by
  induction k with
  | zero => exact ⟨a, c, ⟨le_rfl, hab⟩, ⟨le_rfl, hcd⟩, rfl⟩
  | succ k ih =>
    rw [minBor₅_succ]
    split_ifs with _ hA _ hC
    · exact ⟨_, c, ⟨le_raise a k, by simpa [termLe] using hA⟩, ⟨le_rfl, hcd⟩, rfl⟩
    · exact ih
    · exact ⟨a, _, ⟨le_rfl, hab⟩, ⟨le_raise c k, by simpa [termLe] using hC⟩, rfl⟩
    · exact ih
    · exact ih

/-- `max_bor/6` returns the result on two members, from any mask. -/
theorem maxBor₆_attained (hab : a ≤ b) (hcd : c ≤ d) (k : ℕ) :
    Attained Int.lor a b c d (maxBor₆ (Int.land b d) (.int a) b (.int c) d k) := by
  induction k with
  | zero => exact ⟨b, d, ⟨hab, le_rfl⟩, ⟨hcd, le_rfl⟩, rfl⟩
  | succ k ih =>
    rw [maxBor₆_succ]
    split_ifs with _ hB hD
    · exact ⟨_, d, ⟨by simpa [infGe_eq] using hB, lower_le b k⟩, ⟨hcd, le_rfl⟩, rfl⟩
    · exact ⟨b, _, ⟨hab, le_rfl⟩, ⟨by simpa [infGe_eq] using hD, lower_le d k⟩, rfl⟩
    · exact ih
    · exact ih

/-- A result on smaller ranges is one on the ranges themselves. -/
theorem Attained.mono {a' b' c' d' : ℤ} (h : Attained f a' b' c' d' v) (ha : a ≤ a') (hb : b' ≤ b)
    (hc : c ≤ c') (hd : d' ≤ d) : Attained f a b c d v := by
  obtain ⟨x, y, hx, hy, hv⟩ := h
  exact ⟨x, y, ⟨ha.trans hx.1, hx.2.trans hb⟩, ⟨hc.trans hy.1, hy.2.trans hd⟩, hv⟩

theorem Attained.symm (h : Attained Int.lor c d a b v) : Attained Int.lor a b c d v := by
  obtain ⟨x, y, hx, hy, hv⟩ := h
  exact ⟨y, x, hy, hx, (lor_comm y x).trans hv⟩

/-- The sign cases of `do_min_max_bor/4`, for ranges ordered by their low
ends. -/
theorem doMinMaxBor_tight (hab : a ≤ b) (hcd : c ≤ d) (hac : a ≤ c) :
    Tight Int.lor a b c d (doMinMaxBor (.int a) (.int b) (.int c) (.int d)) := by
  have hmin := minBor₅_attained hab hcd (upperBit (Int.xor a c) + 1)
  have hmax := maxBor₆_attained hab hcd (upperBit (Int.land b d) + 1)
  have hmem : ∀ x y, a ≤ x → x ≤ b → c ≤ y → y ≤ d → Attained Int.lor a b c d (Int.lor x y) :=
    fun x y h1 h2 h3 h4 => ⟨x, y, ⟨h1, h2⟩, ⟨h3, h4⟩, rfl⟩
  unfold doMinMaxBor
  simp only [infSign]
  by_cases hb : b < 0 <;> by_cases hc : c < 0 <;> by_cases hd : d < 0 <;> by_cases ha : a < 0 <;>
    simp only [ha, hb, hc, hd, if_true, if_false] <;> try omega
  · exact ⟨_, _, rfl, hmin, hmax⟩
  · -- the right range crosses zero: its zero keeps `a`, its minus one gives minus one
    refine ⟨_, _, rfl, ?_, ?_⟩
    · simpa [lor_zero_right] using hmem a 0 le_rfl hab (by omega) (by omega)
    · simpa [lor_neg_one_right] using hmem a (-1) le_rfl hab (by omega) (by omega)
  · exact ⟨_, _, rfl, hmin, hmax⟩
  · -- the left range crosses zero
    refine ⟨_, _, rfl, ?_, ?_⟩
    · simpa [lor_comm 0, lor_zero_right] using hmem 0 c (by omega) (by omega) le_rfl hcd
    · simpa [lor_neg_one_left] using hmem (-1) c (by omega) (by omega) le_rfl hcd
  · -- both cross zero: the maximum is that of the non-negative parts
    have hcross := maxBor₆_attained (show 0 ≤ b by omega) (show 0 ≤ d by omega)
      (upperBit (Int.land b d) + 1)
    refine ⟨a, _, ?_, ?_, hcross.mono (by omega) le_rfl (by omega) le_rfl⟩
    · rw [infMin_eq, min_eq_left (Bound.int_le_int.mpr hac)]
      rfl
    · simpa [lor_zero_right] using hmem a 0 le_rfl hab (by omega) (by omega)
  · -- the minimum is taken over the negative part of the left range
    have hneg := minBor₅_attained (show a ≤ -1 by omega) hcd (upperBit (Int.xor a c) + 1)
    exact ⟨_, _, rfl, hneg.mono le_rfl (by omega) le_rfl le_rfl, hmax⟩
  · exact ⟨_, _, rfl, hmin, hmax⟩

theorem minMaxBor_tight (hab : a ≤ b) (hcd : c ≤ d) :
    Tight Int.lor a b c d (minMaxBor (.int a) (.int b) (.int c) (.int d)) := by
  unfold minMaxBor
  rw [infLe_eq]
  split_ifs with h
  · exact doMinMaxBor_tight hab hcd (by simpa using h)
  · have hca : c ≤ a := le_of_not_ge (by simpa using h)
    obtain ⟨lo, hi, hres, hlo, hhi⟩ := doMinMaxBor_tight hcd hab hca
    exact ⟨lo, hi, hres, hlo.symm, hhi.symm⟩

/-- A result of `bor` on the complements is the complement of one of
`band`. -/
theorem Attained.band (h : Attained Int.lor (Int.lnot b) (Int.lnot a) (Int.lnot d) (Int.lnot c) v) :
    Attained Int.land a b c d (Int.lnot v) := by
  obtain ⟨x, y, hx, hy, hv⟩ := h
  simp only [lnot_eq] at hx hy
  refine ⟨Int.lnot x, Int.lnot y, ?_, ?_, ?_⟩
  · rw [lnot_eq]
    omega
  · rw [lnot_eq]
    omega
  · rw [land_eq_lnot_lor, lnot_lnot, lnot_lnot, hv]

theorem minMaxBand_tight (hab : a ≤ b) (hcd : c ≤ d) :
    Tight Int.land a b c d (minMaxBand (.int a) (.int b) (.int c) (.int d)) := by
  have hba : Int.lnot b ≤ Int.lnot a := by simp only [lnot_eq]; omega
  have hdc : Int.lnot d ≤ Int.lnot c := by simp only [lnot_eq]; omega
  obtain ⟨lo, hi, hres, hlo, hhi⟩ := minMaxBor_tight hba hdc
  exact ⟨Int.lnot hi, Int.lnot lo, by simp [minMaxBand, infBnot, hres], hhi.band, hlo.band⟩

/-- Integer ends that `normalize` returns are the ends it was given. -/
theorem eq_of_normalize_eq_pair {l h : Bound}
    (heq : normalize (l, h) = some (.pair (.int lo) (.int hi))) : l = .int lo ∧ h = .int hi := by
  unfold normalize normalize₂ at heq
  split at heq
  · simp at heq
  · simp at heq
  · simp at heq
  · split_ifs at heq
    obtain ⟨h1, h2⟩ := Range.pair.inj (Option.some.inj heq)
    exact ⟨eq_of_infCap_eq_int h1, eq_of_infCap_eq_int h2⟩

theorem Tight.of_normalize {res : Option (Bound × Bound)} (h : Tight f a b c d res)
    (heq : res >>= normalize = some (.pair (.int lo) (.int hi))) :
    Attained f a b c d lo ∧ Attained f a b c d hi := by
  obtain ⟨m, n, rfl, hm, hn⟩ := h
  obtain ⟨h1, h2⟩ := eq_of_normalize_eq_pair heq
  rw [← Bound.int.inj h1, ← Bound.int.inj h2]
  exact ⟨hm, hn⟩

/-- `canonical_arg/1` keeps a finite range below the cap. -/
theorem canonicalArg_of_lt (ha : |a| < 2 ^ numBits - 1) (hb : |b| < 2 ^ numBits - 1) :
    canonicalArg (.pair (.int a) (.int b)) = (.int a, .int b) := by
  have hcap : ∀ n : ℤ, |n| < 2 ^ numBits - 1 → infCap (.int n) = .int n := fun n hn =>
    infCap_of_lt (hn.trans (sub_one_lt _))
  simp only [canonicalArg, expand, hcap a ha, hcap b hb]

/-- Finite bounds of `band` and `bor` on finite ranges below the cap are the
results on members of the ranges. -/
theorem bandBor_bounds_tight {op : BinOp} (hop : op = .band ∨ op = .bor) (hab : a ≤ b) (hcd : c ≤ d)
    (ha : |a| < 2 ^ numBits - 1) (hb : |b| < 2 ^ numBits - 1) (hc : |c| < 2 ^ numBits - 1)
    (hd : |d| < 2 ^ numBits - 1)
    (h : bounds₃ op (.pair (.int a) (.int b)) (.pair (.int c) (.int d)) =
      some (.pair (.int lo) (.int hi))) :
    Attained op.eval a b c d lo ∧ Attained op.eval a b c d hi := by
  unfold bounds₃ at h
  rw [canonicalArg_of_lt ha hb, canonicalArg_of_lt hc hd] at h
  rcases hop with rfl | rfl
  · exact (minMaxBand_tight hab hcd).of_normalize h
  · exact (minMaxBor_tight hab hcd).of_normalize h

theorem bandBor_bounds_tight_at :
    Attained Int.land (-6) 5 (-3) 9 (-8) ∧ Attained Int.land (-6) 5 (-3) 9 9 :=
  bandBor_bounds_tight (.inl rfl) (by decide) (by decide) (by decide) (by decide)
    (by decide) (by decide)
    (show bounds₃ .band (.pair (.int (-6)) (.int 5)) (.pair (.int (-3)) (.int 9)) =
      some (.pair (.int (-8)) (.int 9)) by decide +kernel)

end Otp.Compiler.BeamBounds
