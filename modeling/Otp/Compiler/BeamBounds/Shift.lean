import Otp.Compiler.BeamBounds.Bounds

/-!
# Soundness of the shift ranges

`bounds/3` computes the range of a shift from the four corners of the two
argument ranges. The corners are right because a shift is monotone in its
value and, for a value of fixed sign, monotone in its count. The exception is
a value of `0` under a count of `numBits` or more: `inf_bsr/2` answers `'+inf'`
for every non-negative value there, and `0` shifted by any count stays `0`.
-/

namespace Otp.Compiler.BeamBounds

/-! ## Monotonicity of the shift -/

variable {n s t x y : ℤ} {c d b : Bound} {r r1 r2 : Range}

theorem bsr_nonneg_count (hs : 0 ≤ s) : bsr n s = n / 2 ^ s.natAbs := by
  unfold bsr bsl
  by_cases h : s = 0
  · simp [h]
  · rw [if_pos (by omega), Int.natAbs_neg]

theorem bsr_neg_count (hs : s ≤ 0) : bsr n s = n * 2 ^ s.natAbs := by
  unfold bsr bsl
  rw [if_neg (by omega), Int.natAbs_neg]

theorem bsr_mono {m : ℤ} (h : m ≤ n) (s : ℤ) : bsr m s ≤ bsr n s := by
  have hpow : (0 : ℤ) < 2 ^ s.natAbs := by positivity
  rcases le_total 0 s with hs | hs
  · rw [bsr_nonneg_count hs, bsr_nonneg_count hs]
    exact Int.ediv_le_ediv hpow h
  · rw [bsr_neg_count hs, bsr_neg_count hs]
    exact mul_le_mul_of_nonneg_right h hpow.le

theorem bsr_nonneg (hn : 0 ≤ n) (s : ℤ) : 0 ≤ bsr n s := by
  have h := bsr_mono hn s
  have hzero : bsr 0 s = 0 := by simp [bsr, bsl]
  rwa [hzero] at h

theorem bsr_neg (hn : n < 0) (s : ℤ) : bsr n s < 0 := by
  have hpow : (0 : ℤ) < 2 ^ s.natAbs := by positivity
  rcases le_total 0 s with hs | hs
  · rw [bsr_nonneg_count hs]
    exact Int.ediv_neg_of_neg_of_pos hn hpow
  · rw [bsr_neg_count hs]
    exact mul_neg_of_neg_of_pos hn hpow

/-- Shifting in two steps, the second one to the right. -/
theorem bsr_add (n s : ℤ) (k : ℕ) : bsr n (s + k) = bsr n s / 2 ^ k := by
  rcases le_total 0 s with hs | hs
  · obtain ⟨j, rfl⟩ := Int.eq_ofNat_of_zero_le hs
    rw [bsr_nonneg_count (by omega), bsr_nonneg_count hs, ← Nat.cast_add]
    simp only [Int.natAbs_natCast]
    rw [pow_add, Int.ediv_ediv_of_nonneg (by positivity)]
  · obtain ⟨j, hj⟩ := Int.eq_ofNat_of_zero_le (Int.neg_nonneg_of_nonpos hs)
    obtain rfl : s = -(j : ℤ) := by omega
    rw [bsr_neg_count hs, Int.natAbs_neg, Int.natAbs_natCast]
    rcases le_total k j with hkj | hkj
    · obtain ⟨i, rfl⟩ := Nat.exists_eq_add_of_le hkj
      have hcount : -((k + i : ℕ) : ℤ) + k = -(i : ℤ) := by push_cast; ring
      rw [hcount, bsr_neg_count (by omega), Int.natAbs_neg, Int.natAbs_natCast, pow_add,
        mul_left_comm, Int.mul_ediv_cancel_left _ (by positivity)]
    · obtain ⟨i, rfl⟩ := Nat.exists_eq_add_of_le hkj
      have hcount : -(j : ℤ) + (j + i : ℕ) = (i : ℤ) := by push_cast; ring
      rw [hcount, bsr_nonneg_count (by omega), Int.natAbs_natCast, pow_add, mul_comm n,
        Int.mul_ediv_mul_of_pos _ _ (by positivity)]

theorem bsr_count_anti (hn : 0 ≤ n) (h : s ≤ t) : bsr n t ≤ bsr n s := by
  obtain ⟨k, rfl⟩ := Int.le.dest h
  rw [bsr_add]
  exact Int.ediv_le_self _ (bsr_nonneg hn s)

theorem bsr_count_mono (hn : n < 0) (h : s ≤ t) : bsr n s ≤ bsr n t := by
  obtain ⟨k, rfl⟩ := Int.le.dest h
  rw [bsr_add]
  have hpow : (1 : ℤ) ≤ 2 ^ k := one_le_pow₀ (by norm_num)
  have := bsr_neg hn s
  rw [Int.le_ediv_iff_mul_le (by positivity)]
  nlinarith

/-- A non-zero value shifted left by `numBits` or more leaves the capped
range. -/
theorem cap_le_bsr (hn : 1 ≤ n) (hs : s ≤ -(numBits : ℤ)) : 2 ^ numBits ≤ bsr n s := by
  have hpow : (2 : ℤ) ^ numBits ≤ 2 ^ s.natAbs :=
    pow_le_pow_right₀ (by norm_num) (by omega)
  rw [bsr_neg_count (by omega)]
  exact hpow.trans (le_mul_of_one_le_left (by positivity) hn)

theorem bsr_le_neg_cap (hn : n < 0) (hs : s ≤ -(numBits : ℤ)) : bsr n s ≤ -2 ^ numBits := by
  have hpow : (2 : ℤ) ^ numBits ≤ 2 ^ s.natAbs :=
    pow_le_pow_right₀ (by norm_num) (by omega)
  have hprod : n * 2 ^ s.natAbs ≤ (-1) * 2 ^ s.natAbs :=
    mul_le_mul_of_nonneg_right (by omega) (by positivity)
  rw [bsr_neg_count (by omega)]
  omega

/-! ## The corners -/

/-- `inf_bsr/2` on integers, with the capped counts made explicit. -/
theorem infBsr_int (n s : ℤ) :
    infBsr (.int n) (.int s) =
      if s ≤ -(numBits : ℤ) then (if n < 0 then .negInf else .posInf)
      else .int (bsr n s) := by
  simp only [infBsr]
  by_cases hs : s < 0
  · rw [if_pos hs]
    by_cases hcap : (numBits : ℤ) ≤ -s
    · rw [if_pos hcap, if_pos (show s ≤ -(numBits : ℤ) by omega)]
    · rw [if_neg hcap, if_neg (show ¬ s ≤ -(numBits : ℤ) by omega)]
      rfl
  · rw [if_neg hs, if_neg (by simp [numBits]; omega)]

/-- All counts up to a capped one give the same infinity. -/
theorem infBsr_far {d : ℤ} (n : ℤ) (hc : c ≤ .int d) (hd : d ≤ -(numBits : ℤ)) :
    infBsr (.int n) c = if n < 0 then .negInf else .posInf := by
  match c, hc with
  | .negInf, _ => rfl
  | .int c, hc =>
    rw [Bound.int_le_int] at hc
    rw [infBsr_int, if_pos (by omega)]

/-- The corner at the low end of the value is a sound lower end, unless the
value is `0` and every count of the range is capped. -/
theorem infBsr_below {a : Bound} (ha : a ≤ .int x) (hc : c ≤ .int y) (hd : .int y ≤ d)
    (hzero : 1 ≤ x ∨ ¬ (a = .int 0 ∧ d ≤ .int (-(numBits : ℤ)))) :
    (infMin (infBsr a c) (infBsr a d)).Below (bsr x y) := by
  rw [infMin_eq]
  match a, ha with
  | .negInf, _ => exact Bound.below_of_le (min_le_of_left_le (Bound.negInf_le _))
  | .int a, ha =>
    rw [Bound.int_le_int] at ha
    rcases lt_or_ge a 0 with hneg | hpos
    · -- a negative value grows with the count: the corner at `c`
      refine Bound.below_of_le (min_le_of_left_le ?_)
      match c, hc with
      | .negInf, _ => simp [infBsr, hneg]
      | .int c, hc =>
        rw [infBsr_int]
        split_ifs
        · exact Bound.negInf_le _
        · rw [Bound.int_le_int]
          exact (bsr_count_mono hneg (Bound.int_le_int.mp hc)).trans (bsr_mono ha y)
    · -- a non-negative value shrinks with the count: the corner at `d`
      have hnneg : ¬ a < 0 := not_lt.mpr hpos
      match d, hd with
      | .posInf, _ =>
        refine Bound.below_of_le (min_le_of_right_le ?_)
        simpa [infBsr, hnneg] using bsr_nonneg (hpos.trans ha) y
      | .int d, hd =>
        rw [Bound.int_le_int] at hd
        by_cases hcap : d ≤ -(numBits : ℤ)
        · have hx : 1 ≤ x := by
            rcases hzero with h | h
            · exact h
            · simp only [Bound.int.injEq, Bound.int_le_int, not_and_or] at h
              omega
          rw [infBsr_far a (hc.trans (Bound.int_le_int.mpr hd)) hcap, infBsr_far a le_rfl hcap,
            if_neg hnneg]
          exact cap_le_bsr hx (by omega)
        · refine Bound.below_of_le (min_le_of_right_le ?_)
          rw [infBsr_int, if_neg hcap, Bound.int_le_int]
          exact (bsr_count_anti hpos hd).trans (bsr_mono ha y)

/-- The corner at the high end of the value is a sound upper end. -/
theorem infBsr_above (hb : .int x ≤ b) (hc : c ≤ .int y) (hd : .int y ≤ d) :
    (infMax (infBsr b c) (infBsr b d)).Above (bsr x y) := by
  rw [infMax_eq]
  match b, hb with
  | .posInf, _ => exact Bound.above_of_le (le_max_of_le_left (Bound.le_posInf _))
  | .int b, hb =>
    rw [Bound.int_le_int] at hb
    rcases lt_or_ge b 0 with hneg | hpos
    · match d, hd with
      | .posInf, _ =>
        refine Bound.above_of_le (le_max_of_le_right ?_)
        have := bsr_neg (lt_of_le_of_lt hb hneg) y
        simp only [infBsr, hneg, ↓reduceIte, Bound.int_le_int]
        omega
      | .int d, hd =>
        rw [Bound.int_le_int] at hd
        by_cases hcap : d ≤ -(numBits : ℤ)
        · rw [infBsr_far b (hc.trans (Bound.int_le_int.mpr hd)) hcap, infBsr_far b le_rfl hcap,
            if_pos hneg]
          exact bsr_le_neg_cap (by omega) (by omega)
        · refine Bound.above_of_le (le_max_of_le_right ?_)
          rw [infBsr_int, if_neg hcap, Bound.int_le_int]
          exact (bsr_mono hb y).trans (bsr_count_mono hneg hd)
    · have hnneg : ¬ b < 0 := not_lt.mpr hpos
      refine Bound.above_of_le (le_max_of_le_left ?_)
      cases c with
      | negInf => simp [infBsr, hnneg]
      | posInf => exact absurd hc (Bound.posInf_le_int y)
      | int c =>
        rw [infBsr_int]
        split_ifs
        · exact Bound.le_posInf _
        · rw [Bound.int_le_int]
          exact (bsr_mono hb y).trans (bsr_count_anti hpos (Bound.int_le_int.mp hc))

/-! ## Left shifts are right shifts by the negated range -/

theorem bsl_eq_bsr (n s : ℤ) : bsl n s = bsr n (-s) := by
  rw [bsr, neg_neg]

/-! ## When the analysis is sound -/

/-- The corner the analysis gets wrong: the value range starts at `0` and all
counts shift to the left by `numBits` or more, where the end of the count range
nearest to zero is not itself widened to an infinity by `inf_cap`. -/
def ZeroShiftedFar : BinOp → Range → Range → Prop
  | .bsl, r1, r2 => (expand r1).1 = .int 0 ∧
      ∃ c : ℤ, (expand r2).1 = .int c ∧ numBits ≤ c ∧ c < 2 ^ numBits
  | .bsr, r1, r2 => (expand r1).1 = .int 0 ∧
      ∃ d : ℤ, (expand r2).2 = .int d ∧ d ≤ -(numBits : ℤ) ∧ -2 ^ numBits < d
  | _, _, _ => False

/-- A canonical low end `0` above a member `0` is the range's own low end. -/
theorem lower_zero_of_canonicalArg (hmem : (0 : ℤ) ∈ r) (h : (canonicalArg r).1 = .int 0) :
    (expand r).1 = .int 0 := by
  have hlow : (expand r).1 ≤ .int 0 := by
    cases r with
    | any => exact Bound.negInf_le _
    | pair a b => exact hmem.1
  rcases canonicalArg_cases r with hc | ⟨-, hc⟩ | ⟨hcap, -⟩
  · rw [hc] at h
    exact eq_of_infCap_eq_int h
  · simp [hc] at h
  · have hbelow := Bound.below_infCap (Bound.below_of_le hlow)
    rw [hcap] at hbelow
    exact absurd hbelow (by simp [Bound.Below, numBits])

/-- Both corners are `'+inf'` when `0` is shifted far to the left. -/
theorem infBsr_corners_far {d : ℤ} (hb : .int 0 ≤ b) (hc : c ≤ .int d) (hd : d ≤ -(numBits : ℤ)) :
    infMin (infBsr (.int 0) c) (infBsr (.int 0) (.int d)) = .posInf ∧
      infMax (infBsr b c) (infBsr b (.int d)) = .posInf := by
  have hfar : ∀ n : Bound, .int 0 ≤ n → ∀ s : Bound, s ≤ .int d → infBsr n s = .posInf := by
    intro n hn s hs
    match n, hn with
    | .posInf, _ => rfl
    | .int n, hn => rw [infBsr_far n hs hd, if_neg (Bound.int_le_int.mp hn).not_gt]
  constructor
  · rw [hfar _ le_rfl _ hc, hfar _ le_rfl _ le_rfl, infMin_eq, min_self]
  · rw [hfar _ hb _ hc, hfar _ hb _ le_rfl, infMax_eq, max_self]

/-- The canonical arguments in the corner: the value range still starts at
`0` and reaches up to a non-negative end. -/
theorem canonicalArg_of_lower_zero (hr : r.Valid) (h : (expand r).1 = .int 0) :
    (canonicalArg r).1 = .int 0 ∧ .int 0 ≤ (canonicalArg r).2 ∧ (0 : ℤ) ∈ r := by
  have hmem : (0 : ℤ) ∈ r := by
    match r, hr, h with
    | .pair (.int a) .posInf, _, h => simp_all [expand]
    | .pair (.int a) (.int b), (hab : a ≤ b), h =>
      obtain rfl : a = 0 := by simpa [expand] using h
      simpa using hab
  refine ⟨?_, ((canonicalArg_spec hr).2 0 hmem).2, hmem⟩
  have hcap : |(0 : ℤ)| < 2 ^ numBits := by simp
  rw [canonicalArg_of_int hr (.inl h) hcap, h, infCap_of_lt hcap]

/-- The corners of a right shift give one sound range for all values of `r`
and all counts in `S`, which lie between the ends `c` and `d`. -/
theorem corners_sound (hr : r.Valid) {S : ℤ → Prop} (hne : ∃ y, S y)
    (hcounts : ∀ y, S y → c ≤ .int y ∧ .int y ≤ d)
    (hzero : (0 : ℤ) ∈ r → (canonicalArg r).1 = .int 0 → ¬ d ≤ .int (-(numBits : ℤ))) :
    ∃ res, normalize
        (infMin (infBsr (canonicalArg r).1 c) (infBsr (canonicalArg r).1 d),
          infMax (infBsr (canonicalArg r).2 c) (infBsr (canonicalArg r).2 d)) = some res ∧
      ∀ x ∈ r, ∀ y, S y → bsr x y ∈ res := by
  obtain ⟨x₀, hx₀⟩ := hr.exists_mem
  obtain ⟨y₀, hy₀⟩ := hne
  have hends := (canonicalArg_spec hr).2
  have hlow : ∀ x ∈ r, ∀ y, S y →
      (infMin (infBsr (canonicalArg r).1 c) (infBsr (canonicalArg r).1 d)).Below (bsr x y) := by
    intro x hx y hy
    refine infBsr_below (hends x hx).1 (hcounts y hy).1 (hcounts y hy).2 ?_
    by_cases hpos : 1 ≤ x
    · exact .inl hpos
    · right
      rintro ⟨ha, hd⟩
      have hlow := (hends x hx).1
      rw [ha, Bound.int_le_int] at hlow
      obtain rfl : x = 0 := by omega
      exact hzero hx ha hd
  have hhigh : ∀ x ∈ r, ∀ y, S y →
      (infMax (infBsr (canonicalArg r).2 c) (infBsr (canonicalArg r).2 d)).Above (bsr x y) :=
    fun x hx y hy => infBsr_above (hends x hx).2 (hcounts y hy).1 (hcounts y hy).2
  obtain ⟨res, hres, hall⟩ := normalize_sound (hlow x₀ hx₀ y₀ hy₀) (hhigh x₀ hx₀ y₀ hy₀)
  exact ⟨res, hres, fun x hx y hy => hall _ (hlow x hx y hy) (hhigh x hx y hy)⟩

/-- `bounds/3` on `bsl` works on the corners of the right shift by the negated
count range. -/
theorem bounds₃_bsl (r1 r2 : Range) :
    bounds₃ .bsl r1 r2 = normalize
      (infMin (infBsr (canonicalArg r1).1 (infNeg (canonicalArg r2).2))
          (infBsr (canonicalArg r1).1 (infNeg (canonicalArg r2).1)),
        infMax (infBsr (canonicalArg r1).2 (infNeg (canonicalArg r2).2))
          (infBsr (canonicalArg r1).2 (infNeg (canonicalArg r2).1))) := by
  simp only [bounds₃, infBsl, infMin_eq, infMax_eq]
  rw [min_comm, max_comm]

/-- The range returned in the corner is `{2 ^ numBits - 1, '+inf'}`. -/
theorem normalize_posInf_posInf :
    normalize (.posInf, .posInf) = some (.pair (.int (2 ^ numBits - 1)) .posInf) := by
  decide

/-- A canonical high end at or below `-numBits` is the range's own. -/
theorem upper_of_canonicalArg (hr : r.Valid) (h : (canonicalArg r).2 ≤ .int (-(numBits : ℤ))) :
    ∃ d : ℤ, (expand r).2 = .int d ∧ d ≤ -(numBits : ℤ) ∧ -2 ^ numBits < d := by
  obtain ⟨x, hx⟩ := hr.exists_mem
  have hup := ((canonicalArg_spec hr).2 x hx).2
  rcases canonicalArg_cases r with hc | ⟨-, hc⟩ | ⟨-, hc⟩
  · rw [hc] at h hup
    rcases infCap_cases (expand r).2 with hcap | hcap | ⟨d, hcap, hd⟩
    · simp [hcap] at hup
    · simp [hcap] at h
    · rw [hcap] at h
      exact ⟨d, eq_of_infCap_eq_int hcap, by simpa using h, (abs_lt.mp hd).1⟩
  · rw [hc] at h
    simp [numBits] at h
  · rw [hc] at h
    simp at h

/-- A canonical low end at or above `numBits` is the range's own. -/
theorem lower_of_canonicalArg (hr : r.Valid) (h : .int (numBits : ℤ) ≤ (canonicalArg r).1) :
    ∃ c : ℤ, (expand r).1 = .int c ∧ numBits ≤ c ∧ c < 2 ^ numBits := by
  obtain ⟨x, hx⟩ := hr.exists_mem
  have hlow := ((canonicalArg_spec hr).2 x hx).1
  rcases canonicalArg_cases r with hc | ⟨-, hc⟩ | ⟨-, hc⟩
  · rw [hc] at h hlow
    rcases infCap_cases (expand r).1 with hcap | hcap | ⟨c, hcap, hlt⟩
    · simp [hcap] at h
    · simp [hcap] at hlow
    · rw [hcap] at h
      exact ⟨c, eq_of_infCap_eq_int hcap, by simpa using h, (abs_lt.mp hlt).2⟩
  · rw [hc] at h
    simp at h
  · rw [hc] at h
    simp [numBits] at h

/-- In the corner the high end of the counts of a right shift survives
`canonical_arg/1`. -/
theorem canonicalArg_upper_of_lt (hr : r.Valid) {d : ℤ} (h : (expand r).2 = .int d)
    (hd : d ≤ -(numBits : ℤ)) (hcap : -2 ^ numBits < d) : (canonicalArg r).2 = .int d := by
  have habs : |d| < 2 ^ numBits := abs_lt.mpr ⟨hcap, by simp [numBits] at hd ⊢; omega⟩
  rw [canonicalArg_of_int hr (.inr h) habs, h, infCap_of_lt habs]

/-- In the corner the low end of the counts of a left shift survives
`canonical_arg/1`. -/
theorem canonicalArg_lower_of_lt (hr : r.Valid) {c : ℤ} (h : (expand r).1 = .int c)
    (hc₀ : numBits ≤ c) (hcap : c < 2 ^ numBits) : (canonicalArg r).1 = .int c := by
  have habs : |c| < 2 ^ numBits := abs_lt.mpr ⟨by simp [numBits] at hc₀ ⊢; omega, hcap⟩
  rw [canonicalArg_of_int hr (.inl h) habs, h, infCap_of_lt habs]

/-- A range that starts at `2 ^ numBits - 1` has lost the result `0`. -/
theorem not_boundsSound_of_far {op : BinOp} (h2 : r2.Valid) (hmem : (0 : ℤ) ∈ r1)
    (hdef : ∀ y, op.Defined y) (heval : ∀ y, op.eval 0 y = 0)
    (hres : bounds₃ op r1 r2 = normalize (.posInf, .posInf)) : ¬ BoundsSound op r1 r2 := by
  rintro ⟨r, hr, hall⟩
  obtain ⟨y, hy⟩ := h2.exists_mem
  rw [hres, normalize_posInf_posInf] at hr
  cases hr
  have hlost := hall 0 hmem y hy (hdef y)
  rw [heval] at hlost
  simp [numBits] at hlost

/-- The canonical ends of a valid range are ordered. -/
theorem canonicalArg_le (hr : r.Valid) : (canonicalArg r).1 ≤ (canonicalArg r).2 := by
  obtain ⟨y, hy⟩ := hr.exists_mem
  exact ((canonicalArg_spec hr).2 y hy).1.trans ((canonicalArg_spec hr).2 y hy).2

section

variable (h1 : r1.Valid) (h2 : r2.Valid)

include h1 h2

theorem bsl_not_boundsSound (hfar : ZeroShiftedFar .bsl r1 r2) :
    ¬ BoundsSound .bsl r1 r2 := by
  obtain ⟨hlow, c, hc, hc₀, hcap⟩ := hfar
  obtain ⟨ha, hb, hmem⟩ := canonicalArg_of_lower_zero h1 hlow
  have hcd := infNeg_le_infNeg (canonicalArg_le h2)
  rw [canonicalArg_lower_of_lt h2 hc hc₀ hcap] at hcd
  obtain ⟨hmin, hmax⟩ := infBsr_corners_far hb (d := -c) hcd (by omega)
  apply not_boundsSound_of_far h2 hmem
  · intro y
    trivial
  · intro y
    simp [BinOp.eval, bsl]
  · rw [bounds₃_bsl, ha, canonicalArg_lower_of_lt h2 hc hc₀ hcap]
    exact congrArg normalize (Prod.ext hmin hmax)

theorem bsr_not_boundsSound (hfar : ZeroShiftedFar .bsr r1 r2) :
    ¬ BoundsSound .bsr r1 r2 := by
  obtain ⟨hlow, d, hd, hd₀, hcap⟩ := hfar
  obtain ⟨ha, hb, hmem⟩ := canonicalArg_of_lower_zero h1 hlow
  have hcd := canonicalArg_le h2
  rw [canonicalArg_upper_of_lt h2 hd hd₀ hcap] at hcd
  obtain ⟨hmin, hmax⟩ := infBsr_corners_far hb hcd hd₀
  apply not_boundsSound_of_far h2 hmem
  · intro y
    trivial
  · intro y
    simp [BinOp.eval, bsr, bsl]
  · simp only [bounds₃, ha, canonicalArg_upper_of_lt h2 hd hd₀ hcap, hmin, hmax]

theorem bsr_boundsSound (hfar : ¬ ZeroShiftedFar .bsr r1 r2) :
    BoundsSound .bsr r1 r2 := by
  obtain ⟨res, hres, hall⟩ := corners_sound h1 h2.exists_mem (canonicalArg_spec h2).2
    (by
      intro hmem ha hd
      exact hfar ⟨lower_zero_of_canonicalArg hmem ha, upper_of_canonicalArg h2 hd⟩)
  exact ⟨res, hres, fun x hx y hy _ => hall x hx y hy⟩

theorem bsl_boundsSound (hfar : ¬ ZeroShiftedFar .bsl r1 r2) :
    BoundsSound .bsl r1 r2 := by
  -- the counts of the right shift are the negated members of `r2`
  have hcounts : ∀ y, -y ∈ r2 →
      infNeg (canonicalArg r2).2 ≤ .int y ∧ .int y ≤ infNeg (canonicalArg r2).1 := by
    intro y hy
    have := (canonicalArg_spec h2).2 (-y) hy
    exact ⟨infNeg_le_int.mpr this.2, int_le_infNeg.mpr this.1⟩
  have hne : ∃ y, -y ∈ r2 := by
    obtain ⟨y, hy⟩ := h2.exists_mem
    exact ⟨-y, by simpa using hy⟩
  obtain ⟨res, hres, hall⟩ := corners_sound h1 hne hcounts
    (by
      intro hmem ha hd
      refine hfar ⟨lower_zero_of_canonicalArg hmem ha, lower_of_canonicalArg h2 ?_⟩
      simpa using infNeg_le_int.mp hd)
  refine ⟨res, by rw [bounds₃_bsl, hres], fun x hx y hy _ => ?_⟩
  have := hall x hx (-y) (by simpa using hy)
  rwa [← bsl_eq_bsr] at this

end

/-- The shift ranges are sound except in the corner `ZeroShiftedFar`, and
there they never are: the value `0` is lost. -/
theorem shift_boundsSound_iff {op : BinOp} (hop : op = .bsl ∨ op = .bsr) {r1 r2 : Range}
    (h1 : r1.Valid) (h2 : r2.Valid) : BoundsSound op r1 r2 ↔ ¬ ZeroShiftedFar op r1 r2 := by
  rcases hop with rfl | rfl
  · exact ⟨fun h hfar => bsl_not_boundsSound h1 h2 hfar h, bsl_boundsSound h1 h2⟩
  · exact ⟨fun h hfar => bsr_not_boundsSound h1 h2 hfar h, bsr_boundsSound h1 h2⟩

/-- `0 bsl 200` is `0`, but the range computed for `{0,5} bsl {200,200}` starts
at `2 ^ numBits - 1`. -/
theorem shift_zero_lost :
    (Range.pair (.int 0) (.int 5)).Valid ∧ (Range.pair (.int 200) (.int 200)).Valid ∧
      bounds₃ .bsl (.pair (.int 0) (.int 5)) (.pair (.int 200) (.int 200)) =
        some (.pair (.int (2 ^ numBits - 1)) .posInf) ∧
      BinOp.bsl.eval 0 200 = 0 ∧
      ¬ BoundsSound .bsl (.pair (.int 0) (.int 5)) (.pair (.int 200) (.int 200)) := by
  refine ⟨by decide, by decide, by decide, by decide, ?_⟩
  exact bsl_not_boundsSound (by decide) (by decide) ⟨rfl, 200, rfl, by decide, by decide⟩

/-- The iff applied on both sides of the corner: counts up to `10000` are
sound for a value range that starts at `1`, and not for one that starts at
`0` when every count is capped. -/
theorem shift_boundsSound_iff_at :
    BoundsSound .bsl (.pair (.int 1) (.int 10)) (.pair (.int 1) (.int 10000)) ∧
      ¬ BoundsSound .bsr (.pair (.int 0) .posInf) (.pair .negInf (.int (-128))) := by
  constructor
  · refine (shift_boundsSound_iff (.inl rfl) (by decide) (by decide)).mpr ?_
    rintro ⟨h, -⟩
    exact absurd h (by decide)
  · intro hsound
    refine (shift_boundsSound_iff (.inr rfl) (by decide) (by decide)).mp hsound ?_
    exact ⟨rfl, -128, rfl, by decide, by decide⟩

end Otp.Compiler.BeamBounds
