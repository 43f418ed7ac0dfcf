import Mathlib

/-!
# Doubles as rational numbers

A finite double is a rational `m * 2 ^ e` with a 53 bit significand and a
bounded exponent. `roundNat` is the conversion from an integer, to the nearest
double and to the even one on a tie. What the clients use of it is that it is
monotone against every double: no double lies strictly between a number and
its rounding.
-/

namespace Otp.Lib.Double

/-- The largest exponent of a finite double with an integral significand. -/
@[irreducible] def maxExp : ℕ := 971

/-- The finite values of the format. -/
def IsDouble (q : ℚ) : Prop :=
  ∃ m e : ℤ, |m| < 2 ^ 53 ∧ -1074 ≤ e ∧ e ≤ maxExp ∧ q = m * 2 ^ e

theorem zero_isDouble : IsDouble 0 :=
  ⟨0, 0, by norm_num, by norm_num, by positivity, by simp⟩

variable {q : ℚ} {n : ℕ} {r : {q : ℚ // IsDouble q}}

theorem IsDouble.neg (h : IsDouble q) : IsDouble (-q) := by
  obtain ⟨m, e, hm, he₁, he₂, rfl⟩ := h
  refine ⟨-m, e, by rwa [abs_neg], he₁, he₂, ?_⟩
  push_cast
  ring

theorem IsDouble.lt (h : IsDouble q) : q < 2 ^ (53 + maxExp) := by
  obtain ⟨m, e, hm, -, he, rfl⟩ := h
  have hmq : (m : ℚ) < 2 ^ 53 := by exact_mod_cast (abs_lt.mp hm).2
  have hpow : (2 : ℚ) ^ e ≤ 2 ^ (maxExp : ℤ) := zpow_le_zpow_right₀ (by norm_num) he
  calc (m : ℚ) * 2 ^ e < 2 ^ 53 * 2 ^ e := by
        apply mul_lt_mul_of_pos_right hmq
        positivity
    _ ≤ 2 ^ 53 * 2 ^ (maxExp : ℤ) := by gcongr
    _ = 2 ^ (53 + maxExp) := by rw [pow_add, zpow_natCast]

/-- A double that is not below `2 ^ (52 + e)` is a multiple of `2 ^ e`. -/
theorem IsDouble.multiple {e : ℕ} (h : IsDouble q) (hq : 2 ^ (52 + e) ≤ q) :
    ∃ k : ℤ, q = k * 2 ^ e := by
  obtain ⟨m, x, hm, -, -, rfl⟩ := h
  have hmq : (m : ℚ) < 2 ^ 53 := by exact_mod_cast (abs_lt.mp hm).2
  have hlt : (2 : ℚ) ^ ((52 + e : ℕ) : ℤ) < 2 ^ (53 + x) := by
    calc (2 : ℚ) ^ ((52 + e : ℕ) : ℤ) = 2 ^ (52 + e) := zpow_natCast _ _
      _ ≤ m * 2 ^ x := hq
      _ < 2 ^ 53 * 2 ^ x := by
          apply mul_lt_mul_of_pos_right hmq
          positivity
      _ = 2 ^ (53 + x) := by rw [zpow_add₀ (by norm_num)]; norm_num
  have hx : (e : ℤ) ≤ x := by
    have := (zpow_lt_zpow_iff_right₀ (by norm_num : (1 : ℚ) < 2)).mp hlt
    omega
  obtain ⟨d, rfl⟩ := Int.le.dest hx
  refine ⟨m * 2 ^ d, ?_⟩
  push_cast
  rw [zpow_add₀ (by norm_num), zpow_natCast, zpow_natCast]
  ring

/-- `n / d` to the nearest integer, and to the even one on a tie. -/
def roundEven (n d : ℕ) : ℕ :=
  if 2 * (n % d) < d then n / d
  else if d < 2 * (n % d) then n / d + 1
  else if n / d % 2 = 0 then n / d else n / d + 1

theorem le_roundEven (n d : ℕ) : n / d ≤ roundEven n d := by
  unfold roundEven
  split_ifs <;> omega

theorem roundEven_le (n d : ℕ) : roundEven n d ≤ n / d + 1 := by
  unfold roundEven
  split_ifs <;> omega

/-- An exact quotient is not moved. -/
theorem roundEven_of_dvd {d : ℕ} (hd : 0 < d) (h : n % d = 0) : roundEven n d = n / d := by
  unfold roundEven
  rw [if_pos (by omega)]

/-- The value of a non-negative integer as a double, the largest finite
exponent left aside. -/
def roundNat (n : ℕ) : ℕ :=
  if n < 2 ^ 53 then n else roundEven n (2 ^ (n.log2 - 52)) * 2 ^ (n.log2 - 52)

theorem exponent_bounds (h : ¬ n < 2 ^ 53) :
    2 ^ 52 ≤ n / 2 ^ (n.log2 - 52) ∧ n / 2 ^ (n.log2 - 52) < 2 ^ 53 := by
  have hlog : 53 ≤ n.log2 := (Nat.le_log2 (by omega)).mpr (by omega)
  have hlow : 2 ^ n.log2 ≤ n := Nat.log2_self_le (by omega)
  have hhigh : n < 2 ^ (n.log2 + 1) := Nat.lt_log2_self
  constructor
  · rw [Nat.le_div_iff_mul_le (by positivity), ← pow_add]
    rwa [show 52 + (n.log2 - 52) = n.log2 by omega]
  · rw [Nat.div_lt_iff_lt_mul (by positivity), ← pow_add]
    rwa [show 53 + (n.log2 - 52) = n.log2 + 1 by omega]

/-- A double above an integer is above its rounding. -/
theorem roundNat_le (hq : IsDouble q) (h : (n : ℚ) ≤ q) : (roundNat n : ℚ) ≤ q := by
  unfold roundNat
  split_ifs with hn
  · exact h
  obtain ⟨hlow, -⟩ := exponent_bounds hn
  generalize n.log2 - 52 = e at *
  have hpos : 0 < 2 ^ e := by positivity
  have hbase : 2 ^ (52 + e) ≤ n := by
    rw [pow_add]
    exact (Nat.le_div_iff_mul_le hpos).mp hlow
  obtain ⟨k, rfl⟩ := hq.multiple ((by exact_mod_cast hbase : (2 : ℚ) ^ (52 + e) ≤ n).trans h)
  have hk : (n : ℤ) ≤ k * 2 ^ e := by exact_mod_cast h
  have hround : (roundEven n (2 ^ e) : ℤ) ≤ k := by
    have hdiv := Nat.div_add_mod n (2 ^ e)
    have hup := roundEven_le n (2 ^ e)
    by_cases hr : n % 2 ^ e = 0
    · rw [roundEven_of_dvd hpos hr]
      have : ((n / 2 ^ e : ℕ) : ℤ) = n / 2 ^ e := by push_cast; rfl
      exact Int.ediv_le_of_le_mul (by positivity) hk
    · -- the quotient is not exact, so `k` is above its floor
      have hlt : ((n / 2 ^ e : ℕ) : ℤ) < k := by
        by_contra hge
        have hmul : k * 2 ^ e ≤ (n / 2 ^ e : ℕ) * 2 ^ e :=
          mul_le_mul_of_nonneg_right (not_lt.mp hge) (by positivity)
        have hz : (n : ℤ) ≤ ((n / 2 ^ e * 2 ^ e : ℕ) : ℤ) := by
          exact hk.trans hmul
        have hnat : n ≤ n / 2 ^ e * 2 ^ e := by exact_mod_cast hz
        rw [mul_comm] at hnat
        omega
      omega
  have : ((roundEven n (2 ^ e) * 2 ^ e : ℕ) : ℚ) = ((roundEven n (2 ^ e) : ℤ) : ℚ) * 2 ^ e := by
    push_cast
    ring
  rw [this]
  gcongr

/-- A double below an integer is below its rounding. -/
theorem le_roundNat (hq : IsDouble q) (h : q ≤ n) : q ≤ (roundNat n : ℚ) := by
  unfold roundNat
  split_ifs with hn
  · exact h
  obtain ⟨hlow, -⟩ := exponent_bounds hn
  generalize n.log2 - 52 = e at *
  have hround := le_roundEven n (2 ^ e)
  by_cases hbig : 2 ^ (52 + e) ≤ q
  · obtain ⟨k, rfl⟩ := hq.multiple hbig
    have hk : k * 2 ^ e ≤ (n : ℤ) := by exact_mod_cast h
    have hdiv : k ≤ (n / 2 ^ e : ℤ) := (Int.le_ediv_iff_mul_le (by positivity)).mpr hk
    have hle : k ≤ (roundEven n (2 ^ e) : ℤ) := by
      refine hdiv.trans ?_
      exact_mod_cast hround
    have hcast : (k : ℚ) ≤ ((roundEven n (2 ^ e) : ℕ) : ℚ) := by exact_mod_cast hle
    push_cast
    gcongr
  · have hmul : 2 ^ (52 + e) ≤ roundEven n (2 ^ e) * 2 ^ e := by
      rw [pow_add]
      exact Nat.mul_le_mul_right _ (hlow.trans hround)
    exact (not_le.mp hbig).le.trans (by exact_mod_cast hmul)

theorem isDouble_roundNat (h : roundNat n < 2 ^ (53 + maxExp)) : IsDouble (roundNat n) := by
  unfold roundNat at h ⊢
  split_ifs with hn
  · refine ⟨n, 0, ?_, by norm_num, by norm_num, by simp⟩
    exact_mod_cast hn
  rw [if_neg hn] at h
  obtain ⟨hlow, hhigh⟩ := exponent_bounds hn
  generalize n.log2 - 52 = e at *
  have h1 := le_roundEven n (2 ^ e)
  have h2 := roundEven_le n (2 ^ e)
  have hexp : e ≤ maxExp := by
    by_contra hbig
    have hmul : 2 ^ 52 * 2 ^ (maxExp + 1) ≤ roundEven n (2 ^ e) * 2 ^ e :=
      Nat.mul_le_mul (hlow.trans h1) (Nat.pow_le_pow_right (by norm_num) (by omega))
    rw [← pow_add, show 52 + (maxExp + 1) = 53 + maxExp by omega] at hmul
    exact absurd h (not_lt.mpr hmul)
  by_cases hcarry : roundEven n (2 ^ e) = 2 ^ 53
  · -- the significand overflows into the next power of two
    rw [hcarry] at h ⊢
    have hexp' : e < maxExp := by
      by_contra hbig
      rw [← pow_add, show e = maxExp by omega] at h
      exact lt_irrefl _ h
    refine ⟨2 ^ 52, e + 1, by norm_num, by omega, by omega, ?_⟩
    rw [zpow_add₀ (by norm_num)]
    norm_num
    ring
  · refine ⟨roundEven n (2 ^ e), e, ?_, by omega, by omega, ?_⟩
    · have : roundEven n (2 ^ e) < 2 ^ 53 := by omega
      exact_mod_cast this
    · push_cast
      rw [zpow_natCast]

/-- The double nearest to an integer; `none` where the conversion overflows. -/
def ofInt (n : ℤ) : Option {q : ℚ // IsDouble q} :=
  if h : roundNat n.natAbs < 2 ^ (53 + maxExp) then
    if n < 0 then some ⟨-(roundNat n.natAbs : ℚ), (isDouble_roundNat h).neg⟩
    else some ⟨roundNat n.natAbs, isDouble_roundNat h⟩
  else none

theorem natAbs_cast_of_nonneg {n : ℤ} (h : ¬ n < 0) : ((n.natAbs : ℕ) : ℚ) = n := by
  rw [Nat.cast_natAbs, abs_of_nonneg (not_lt.mp h)]

theorem natAbs_cast_of_neg {n : ℤ} (h : n < 0) : ((n.natAbs : ℕ) : ℚ) = -n := by
  rw [Nat.cast_natAbs, abs_of_neg h]
  rfl

theorem ofInt_le {n : ℤ} (hr : ofInt n = some r) (hq : IsDouble q) (h : (n : ℚ) ≤ q) : r.1 ≤ q := by
  unfold ofInt at hr
  split_ifs at hr with hfin hneg
  · have hle : -q ≤ (n.natAbs : ℚ) := by
      rw [natAbs_cast_of_neg hneg]
      linarith
    have := le_roundNat hq.neg hle
    cases hr
    linarith
  · cases hr
    exact roundNat_le hq (by rwa [natAbs_cast_of_nonneg hneg])

theorem le_ofInt {n : ℤ} (hr : ofInt n = some r) (hq : IsDouble q) (h : q ≤ (n : ℚ)) : q ≤ r.1 := by
  unfold ofInt at hr
  split_ifs at hr with hfin hneg
  · have hle : (n.natAbs : ℚ) ≤ -q := by
      rw [natAbs_cast_of_neg hneg]
      linarith
    have := roundNat_le hq.neg hle
    cases hr
    linarith
  · cases hr
    exact le_roundNat hq (by rwa [natAbs_cast_of_nonneg hneg])

/-- Where the conversion overflows, the integer is beyond every double. -/
theorem lt_of_ofInt_none {n : ℤ} (hn : ofInt n = none) (hq : IsDouble q) :
    (0 < n → q < n) ∧ (n < 0 → (n : ℚ) < q) := by
  unfold ofInt at hn
  split_ifs at hn with hfin
  have hbig : ∀ p : ℚ, IsDouble p → p < (n.natAbs : ℚ) := by
    intro p hp
    by_contra hge
    have h1 := roundNat_le hp (not_lt.mp hge)
    have h2 := hp.lt
    generalize 53 + maxExp = k at *
    have h3 : (2 : ℚ) ^ k ≤ roundNat n.natAbs := by exact_mod_cast not_lt.mp hfin
    exact absurd h2 (not_lt.mpr (h3.trans h1))
  refine ⟨fun hpos => ?_, fun hneg => ?_⟩
  · have := hbig q hq
    rwa [natAbs_cast_of_nonneg (by omega)] at this
  · have := hbig (-q) hq.neg
    rw [natAbs_cast_of_neg hneg] at this
    linarith

end Otp.Lib.Double
