import Otp.Compiler.BeamBounds.BitWalk

/-!
# Soundness of the bitwise ranges

Every sign case of `do_min_max_bor/4` and `do_min_max_bxor/4` starts one of the
bit-walk loops at a mask above which the operands are known: both prefixes are
`0` for non-negative ends and `-1` for negative ones. Masks above the highest
common one bit make no move, so the loops that maximize may be taken to start
as high as the proof needs.
-/

namespace Otp.Compiler.BeamBounds

open Otp.Lib.IntBits

/-! ## The starting mask -/

theorem upperBit₁_eq (val n : ℕ) : upperBit₁ val n = n + val.log2 := by
  induction val, n using upperBit₁.induct with
  | case1 val n h =>
    rw [upperBit₁]
    have : val < 2 := by omega
    interval_cases val <;> rfl
  | case2 val n h ih =>
    rw [upperBit₁, if_neg h, Nat.log2_def val, if_pos (by omega)]
    omega

variable {v n x y : ℤ} {k : ℕ} {a b c d : Bound} {f : ℤ → ℤ → ℤ}

/-- A non-negative number has no bit from the starting mask upwards. -/
theorem ediv_upperBit (hv : 0 ≤ v) : v / 2 ^ (upperBit v + 1) = 0 := by
  obtain ⟨n, rfl⟩ := Int.eq_ofNat_of_zero_le hv
  rw [upperBit, upperBit₁_eq, zero_add]
  have := @Nat.lt_log2_self n
  exact Int.ediv_eq_zero_of_lt hv (by exact_mod_cast this)

theorem upperBit_neg (hv : v < 0) : upperBit v + 1 = numBits + 2 := by
  rw [upperBit, if_pos hv]

theorem ediv_eq_zero (h0 : 0 ≤ n) (h : n < 2 ^ k) : n / 2 ^ k = 0 :=
  Int.ediv_eq_zero_of_lt h0 h

theorem ediv_eq_neg_one (h0 : n < 0) (h : -2 ^ k ≤ n) : n / 2 ^ k = -1 := by
  have hpos : (0 : ℤ) < 2 ^ k := by positivity
  have hlow : -1 ≤ n / 2 ^ k := (Int.le_ediv_iff_mul_le hpos).mpr (by omega)
  have hhigh : n / 2 ^ k < 0 := Int.ediv_neg_of_neg_of_pos h0 hpos
  omega

/-- The ends the loops run on. They are canonical ends or complements of such
ends, and the complement of a number below the cap can reach the cap itself. -/
inductive Fits : Bound → Bound → Prop where
  | any : Fits .negInf .posInf
  | below {b : ℤ} : |b| ≤ 2 ^ numBits → Fits .negInf (.int b)
  | above {a : ℤ} : |a| ≤ 2 ^ numBits → Fits (.int a) .posInf
  | closed {a b : ℤ} : |a| ≤ 2 ^ numBits → |b| ≤ 2 ^ numBits → a ≤ b → Fits (.int a) (.int b)

theorem Canonical.fits (h : Canonical a b) : Fits a b := by
  cases h with
  | any => exact .any
  | below hb => exact .below hb.le
  | above ha => exact .above ha.le
  | closed ha hb hab => exact .closed ha.le hb.le hab

/-- A capped number fits below the mask for negative numbers. -/
theorem cap_lt (h : |n| ≤ 2 ^ numBits) : -2 ^ (numBits + 2) ≤ n ∧ n < 2 ^ (numBits + 2) := by
  rw [abs_le] at h
  have : (2 : ℤ) ^ (numBits + 2) = 4 * 2 ^ numBits := by ring
  have : (0 : ℤ) < 2 ^ numBits := by positivity
  omega

/-- Bit `numBits + 1` of a capped number is its sign. -/
theorem testBit_cap (h : |n| ≤ 2 ^ numBits) : n.testBit (numBits + 1) = decide (n < 0) := by
  rw [abs_le] at h
  have : (0 : ℤ) < 2 ^ numBits := by positivity
  by_cases hn : n < 0
  · rw [testBit_eq, ediv_eq_neg_one hn (by omega), decide_eq_true hn]
    rfl
  · rw [testBit_eq, ediv_eq_zero (by omega) (by omega), decide_eq_false hn]
    rfl

theorem lor_neg_one_left (n : ℤ) : Int.lor (-1) n = -1 := by
  have h1 : Int.lor (-1) n < 0 := (lor_neg_iff _ _).mpr (.inl (by norm_num))
  have h2 : -1 ≤ Int.lor (-1) n := le_lor_left fun _ => by norm_num
  omega

theorem lor_neg_one_right (n : ℤ) : Int.lor n (-1) = -1 := by
  rw [lor_comm, lor_neg_one_left]

/-! ## Lower ends of `bor` -/

/-- Above the highest bit in which `a` and `c` differ the invariant holds for
members of one sign. -/
theorem lowPrefix_of_same_sign {a c : ℤ} (ha : a ≤ x) (hc : c ≤ y) (hsame : 0 ≤ Int.xor a c)
    (hs : (0 ≤ a ∧ 0 ≤ c) ∨ (x < 0 ∧ y < 0)) : LowPrefix (upperBit (Int.xor a c) + 1) a c x y := by
  generalize hk : upperBit (Int.xor a c) + 1 = k
  have hpos : (0 : ℤ) < 2 ^ k := by positivity
  have hhigh : c / 2 ^ k = a / 2 ^ k := by
    have hzero := ediv_upperBit hsame
    rw [hk, xor_ediv, ← lxor_self (a / 2 ^ k)] at hzero
    exact xor_left_cancel hzero
  have hX := ediv_mono ha k
  have hY := ediv_mono hc k
  have hsign : (y / 2 ^ k < 0 → x / 2 ^ k < 0) ∧ (x / 2 ^ k < 0 → y / 2 ^ k < 0) := by
    rcases hs with ⟨ha0, hc0⟩ | ⟨hx0, hy0⟩
    · have h1 := Int.ediv_nonneg ha0 hpos.le
      omega
    · exact ⟨fun _ => Int.ediv_neg_of_neg_of_pos hx0 hpos,
        fun _ => Int.ediv_neg_of_neg_of_pos hy0 hpos⟩
  have hXle := le_lor_left hsign.1
  have hYle := le_lor_left hsign.2
  rw [lor_comm] at hYle
  unfold LowPrefix
  rw [lor_ediv, lor_ediv, hhigh, lor_self]
  omega

/-- `min_bor/4` on low ends of one sign. -/
theorem minBor₄_same_sign {a c : ℤ} (hac : a < 0 ↔ c < 0) (b d : Bound) :
    ∃ lo, minBor₄ (.int a) b (.int c) d = some lo ∧ ∀ x y, Bound.int a ≤ .int x → .int x ≤ b →
      Bound.int c ≤ .int y → .int y ≤ d → (0 ≤ a ∨ x < 0 ∧ y < 0) → lo ≤ .int (Int.lor x y) := by
  refine ⟨_, rfl, fun x y hax hxb hcy hyd hs => ?_⟩
  rw [Bound.int_le_int] at hax hcy ⊢
  have hsign := xor_neg_iff a c
  exact minBor₅_le hax hxb hcy hyd _ (lowPrefix_of_same_sign hax hcy (by omega) (by omega))

/-- With a left operand of zero that cannot be raised the walk never moves. -/
theorem minBor₅_zero {b : ℤ} (hb : b < 0) (c : ℤ) (d : Bound) (k : ℕ) :
    minBor₅ 0 (.int b) c d k = c := by
  have hzero : ∀ j, (0 : ℤ).testBit j = false := fun j => by simp [testBit_eq]
  induction k with
  | zero =>
    show Int.lor 0 c = c
    rw [lor_comm, lor_zero_right]
  | succ k ih =>
    have hraise : ¬ raise 0 k ≤ b := by
      have : (0 : ℤ) < 2 ^ k := by positivity
      simp only [raise, Int.zero_ediv, zero_add, mul_one]
      omega
    rw [minBor₅_succ]
    simp [hzero, termLe, hraise, ih]

/-- `min_bor/4` on a negative and a non-negative range, the negative one
bounded below. The walk starts above all bits of the capped ends. -/
theorem minBor₄_mixed {a c : ℤ} (ha : a < 0) (hacap : |a| ≤ 2 ^ numBits) (hc : 0 ≤ c)
    (hccap : |c| ≤ 2 ^ numBits) (hdcap : d = .posInf ∨ ∃ n, d = .int n ∧ |n| ≤ 2 ^ numBits)
    (b : Bound) :
    ∃ lo, minBor₄ (.int a) b (.int c) d = some lo ∧ ∀ x y, Bound.int a ≤ .int x → x < 0 →
      .int x ≤ b → Bound.int c ≤ .int y → .int y ≤ d → lo ≤ .int (Int.lor x y) := by
  have hdiff : Int.xor a c < 0 := (xor_neg_iff a c).mpr (by omega)
  refine ⟨_, rfl, fun x y hax hx hxb hcy hyd => ?_⟩
  rw [Bound.int_le_int] at hax hcy ⊢
  rw [upperBit_neg hdiff]
  have hA := ediv_eq_neg_one ha (cap_lt hacap).1
  have hX := ediv_eq_neg_one hx ((cap_lt hacap).1.trans hax)
  have hC := ediv_eq_zero hc (cap_lt hccap).2
  have hlor : Int.lor a c / 2 ^ (numBits + 2) = Int.lor x y / 2 ^ (numBits + 2) := by
    rw [lor_ediv, lor_ediv, hA, hX, lor_neg_one_left, lor_neg_one_left]
  rcases hdcap with rfl | ⟨n, rfl, hn⟩
  · -- the first bit already lets `c` rise out of the way
    rw [minBor₅_succ]
    have hAbit : a.testBit (numBits + 1) = true := by
      rw [testBit_cap hacap, decide_eq_true ha]
    have hCbit : c.testBit (numBits + 1) = false := by
      rw [testBit_cap hccap, decide_eq_false (not_lt.mpr hc)]
    have hmove : termLe (.int (raise c (numBits + 1))) .posInf = true := rfl
    rw [if_neg (by simp [hAbit]), if_pos ⟨hCbit, hAbit⟩, lor_comm a, lor_comm x]
    rw [lor_comm a, lor_comm x] at hlor
    exact lor_raise_le hlor.le (fun _ => hX.trans hA.symm) hax hCbit hAbit
  · have hY := ediv_eq_zero (hc.trans hcy) (lt_of_le_of_lt (Bound.int_le_int.mp hyd) (cap_lt hn).2)
    refine minBor₅_le hax hxb hcy hyd _ ⟨hlor.le, fun _ => ?_⟩
    rw [hA, hX, hC, hY]
    exact ⟨rfl, rfl⟩

/-! ## Upper ends of `bor` -/

theorem no_common_bit {b d : ℤ} (h : Int.land b d / 2 ^ k = 0) (n : ℕ) :
    ¬ (b.testBit (k + n) = true ∧ d.testBit (k + n) = true) := by
  intro hboth
  have hbit : (Int.land b d).testBit (k + n) = true := by
    rw [Int.testBit_land, hboth.1, hboth.2]
    rfl
  rw [← testBit_ediv, h] at hbit
  simp [testBit_eq] at hbit

/-- Masks above the highest common one bit make no move. -/
theorem maxBor₆_start {b d : ℤ} (h : Int.land b d / 2 ^ k = 0) (a c : Bound) (n : ℕ) :
    maxBor₆ (Int.land b d) a b c d (k + n) = maxBor₆ (Int.land b d) a b c d k := by
  induction n with
  | zero => rfl
  | succ n ih => rw [← Nat.add_assoc, maxBor₆_succ, if_neg (no_common_bit h n), ih]

/-- A width above the mask `k` at which two integers fit. -/
theorem exists_start (b : ℤ) {d y : ℤ} (hy : 0 ≤ y) (hd : y ≤ d) :
    0 ≤ Int.land b d ∧
      ∃ n, let k := upperBit (Int.land b d) + 1 + n; y / 2 ^ k = 0 ∧ d / 2 ^ k = 0 := by
  refine ⟨?_, d.natAbs, ?_⟩
  · by_contra hneg
    rw [not_le, land_neg_iff] at hneg
    omega
  · intro k
    have hself : (k : ℤ) < 2 ^ k := by exact_mod_cast Nat.lt_two_pow_self
    exact ⟨ediv_eq_zero hy (by omega), ediv_eq_zero (hy.trans hd) (by omega)⟩

/-- `max_bor/6` with its starting mask, for a right operand that is
non-negative. -/
theorem le_maxBor₆_start {b d : ℤ} (ha : a ≤ .int x) (hb : x ≤ b) (hc : c ≤ .int y) (hd : y ≤ d)
    (hy : 0 ≤ y) :
    Int.lor x y ≤
      maxBor₆ (Int.land b d) a b c d (upperBit (Int.land b d) + 1) := by
  obtain ⟨hnonneg, n, hY, hD⟩ := exists_start b hy hd
  rw [← maxBor₆_start (ediv_upperBit hnonneg) a c n]
  refine le_maxBor₆ ha hb hc hd _ ?_
  unfold HighPrefix
  rw [lor_ediv, lor_ediv, hY, hD, lor_zero_right, lor_zero_right]
  exact ⟨ediv_mono hb _, fun h => ⟨h, rfl⟩⟩

/-- `max_bor/6` with its starting mask on negative operands. With no lower end
the first bit is given up at once and the result is `-1`. -/
theorem le_maxBor₆_neg {b d : ℤ} (hbcap : |b| ≤ 2 ^ numBits) (hdcap : |d| ≤ 2 ^ numBits)
    (hb₀ : b < 0) (hd₀ : d < 0) (ha : a ≤ .int x) (hb : x ≤ b) (hc : c ≤ .int y) (hd : y ≤ d)
    (hlow : a = .negInf ∨ -2 ^ (numBits + 2) ≤ x ∧ -2 ^ (numBits + 2) ≤ y) :
    Int.lor x y ≤
      maxBor₆ (Int.land b d) a b c d (upperBit (Int.land b d) + 1) := by
  have hneg : Int.land b d < 0 := (land_neg_iff b d).mpr ⟨hb₀, hd₀⟩
  rw [upperBit_neg hneg]
  have hB := ediv_eq_neg_one hb₀ (cap_lt hbcap).1
  have hD := ediv_eq_neg_one hd₀ (cap_lt hdcap).1
  have hle : Int.lor x y / 2 ^ (numBits + 2) ≤ Int.lor b d / 2 ^ (numBits + 2) := by
    have hlor : Int.lor x y < 0 := (lor_neg_iff x y).mpr (.inl (by omega))
    have := Int.ediv_neg_of_neg_of_pos hlor (show (0 : ℤ) < 2 ^ (numBits + 2) by positivity)
    rw [lor_ediv b d, hB, lor_neg_one_left]
    omega
  rcases hlow with rfl | ⟨hx, hy⟩
  · have hbits : b.testBit (numBits + 1) = true ∧ d.testBit (numBits + 1) = true := by
      rw [testBit_cap hbcap, testBit_cap hdcap, decide_eq_true hb₀, decide_eq_true hd₀]
      exact ⟨rfl, rfl⟩
    rw [maxBor₆_succ, if_pos hbits]
    exact le_lor_lower hle hbits.1 hbits.2
  · refine le_maxBor₆ ha hb hc hd _ ⟨hle, fun _ => ?_⟩
    rw [hB, hD]
    exact ⟨ediv_eq_neg_one (by omega) hx, ediv_eq_neg_one (by omega) hy⟩

/-- The case `{B0,B0,-1}` of `max_bor/4`: a right operand of `-1` that may not
be lowered keeps the result at `-1`. -/
theorem maxBor₆_neg_one {c : ℤ} (hc : 0 ≤ c) (a : Bound) (b : ℤ) (k : ℕ) :
    maxBor₆ (Int.land b (-1)) a b (.int c) (-1) k = -1 := by
  induction k with
  | zero =>
    exact lor_neg_one_right b
  | succ k ih =>
    have hlower : ¬ c ≤ lower (-1) k := by
      have := lower_le (-1) k
      omega
    rw [maxBor₆_succ]
    split_ifs with hbits hmoveB hmoveD
    · exact lor_neg_one_right _
    · simp [infGe_eq, hlower] at hmoveD
    · exact ih
    · exact ih

/-! ## The sign cases of `bor` -/

section

variable (h : Fits a b)

include h

/-- A low end of sign `'-'` of a canonical range. -/
theorem Fits.lower_minus (hs : infSign a = .minus) :
    a = .negInf ∨ ∃ n, a = .int n ∧ n < 0 ∧ |n| ≤ 2 ^ numBits := by
  cases h with
  | any | below _ => exact .inl rfl
  | above h | closed h _ _ => exact .inr ⟨_, rfl, by simpa [infSign] using hs, h⟩

/-- A low end of sign `'+'` of a canonical range is an integer. -/
theorem Fits.lower_plus (hs : infSign a = .plus) :
    ∃ n, a = .int n ∧ 0 ≤ n ∧ |n| ≤ 2 ^ numBits := by
  cases h with
  | any | below _ => simp [infSign] at hs
  | above h | closed h _ _ => exact ⟨_, rfl, by simpa [infSign] using hs, h⟩

/-- A high end of sign `'-'` of a canonical range is an integer. -/
theorem Fits.upper_minus (hs : infSign b = .minus) :
    ∃ n, b = .int n ∧ n < 0 ∧ |n| ≤ 2 ^ numBits := by
  cases h with
  | any | above _ => simp [infSign] at hs
  | below h | closed _ h _ => exact ⟨_, rfl, by simpa [infSign] using hs, h⟩

/-- A high end of sign `'+'` of a canonical range. -/
theorem Fits.upper_plus (hs : infSign b = .plus) :
    b = .posInf ∨ ∃ n, b = .int n ∧ 0 ≤ n ∧ |n| ≤ 2 ^ numBits := by
  cases h with
  | any => exact .inl rfl
  | below h | closed _ h _ => exact .inr ⟨_, rfl, by simpa [infSign] using hs, h⟩
  | above _ => exact .inl rfl

theorem Fits.upper_cases : b = .posInf ∨ ∃ n, b = .int n ∧ |n| ≤ 2 ^ numBits := by
  cases h with
  | any => exact .inl rfl
  | below h | closed _ h _ => exact .inr ⟨_, rfl, h⟩
  | above _ => exact .inl rfl

end

/-- `res` is an end, and no result of `f` on the two ranges lies below it. -/
def LowerEnd (f : ℤ → ℤ → ℤ) (a b c d : Bound) (res : Option Bound) : Prop :=
  ∃ lo, res = some lo ∧ ∀ x y, a ≤ .int x → .int x ≤ b → c ≤ .int y → .int y ≤ d →
    lo ≤ .int (f x y)

/-- No result of `f` on the two ranges lies above `hi`. -/
def UpperEnd (f : ℤ → ℤ → ℤ) (a b c d : Bound) (hi : Bound) : Prop :=
  ∀ x y, a ≤ .int x → .int x ≤ b → c ≤ .int y → .int y ≤ d → .int (f x y) ≤ hi

/-- The ends returned for two operand ranges enclose every result of `f`. -/
def Encloses (f : ℤ → ℤ → ℤ) (a b c d : Bound) (res : Option (Bound × Bound)) : Prop :=
  ∃ lo hi, res = some (lo, hi) ∧ ∀ x y, a ≤ .int x → .int x ≤ b → c ≤ .int y → .int y ≤ d →
    lo ≤ .int (f x y) ∧ .int (f x y) ≤ hi

theorem Encloses.intro {hi : Bound} {res : Option Bound} (hlo : LowerEnd f a b c d res)
    (hhi : UpperEnd f a b c d hi) : Encloses f a b c d (do let min ← res; some (min, hi)) := by
  obtain ⟨lo, rfl, hle⟩ := hlo
  exact ⟨lo, hi, rfl, fun x y hax hxb hcy hyd =>
    ⟨hle x y hax hxb hcy hyd, hhi x y hax hxb hcy hyd⟩⟩

/-- Operands may be exchanged for a commutative operator. -/
theorem Encloses.symm (hf : ∀ x y, f x y = f y x) {res : Option (Bound × Bound)}
    (h : Encloses f c d a b res) : Encloses f a b c d res := by
  obtain ⟨lo, hi, hres, hle⟩ := h
  refine ⟨lo, hi, hres, fun x y hax hxb hcy hyd => ?_⟩
  rw [hf]
  exact hle y x hcy hyd hax hxb

/-- A member of a range whose high end has sign `'-'` is negative. -/
theorem neg_of_upper_minus (hs : infSign b = .minus) (hx : .int x ≤ b) : x < 0 := by
  cases b <;> simp_all [infSign]
  omega

/-- A member of a range whose low end has sign `'+'` is non-negative. -/
theorem nonneg_of_lower_plus (hs : infSign a = .plus) (hx : a ≤ .int x) : 0 ≤ x := by
  cases a <;> simp_all [infSign]
  omega

/-- A negative left operand bounds the result from below. -/
theorem le_lor_of_neg (hax : a ≤ .int x) (hx : x < 0) (y : ℤ) : a ≤ .int (Int.lor x y) :=
  hax.trans (Bound.int_le_int.mpr (le_lor_left fun _ => hx))

/-- With a negative left range the result lies between its low end and `-1`. -/
theorem bor_encloses_neg (hsb : infSign b = .minus) :
    Encloses Int.lor a b c d (some (a, .int (-1))) := by
  refine ⟨_, _, rfl, fun x y hax hxb _ _ => ?_⟩
  have hx := neg_of_upper_minus hsb hxb
  have hneg := (lor_neg_iff x y).mpr (.inl hx)
  exact ⟨le_lor_of_neg hax hx y, Bound.int_le_int.mpr (by omega)⟩

section

variable (h1 : Fits a b) (h2 : Fits c d) (hsa : infSign a = .minus) (hsb : infSign b = .minus)

include h1 h2 hsa hsb

theorem bor_lower_neg (hsc : infSign c = .minus) (hsd : infSign d = .minus) (hac : a ≤ c) :
    LowerEnd Int.lor a b c d (minBor₄ a b c d) := by
  obtain ⟨b, rfl, hb, -⟩ := h1.upper_minus hsb
  obtain ⟨d, rfl, hd, -⟩ := h2.upper_minus hsd
  rcases h1.lower_minus hsa with rfl | ⟨a, rfl, ha, -⟩
  · rcases h2.lower_minus hsc with rfl | ⟨c, rfl, hc, -⟩
    · exact ⟨.negInf, rfl, fun _ _ _ _ _ _ => Bound.negInf_le _⟩
    · refine ⟨.int c, by simp [minBor₄, hc, minBor₅_zero hb], fun x y hax hxb hcy hyd => ?_⟩
      rw [lor_comm]
      exact le_lor_of_neg hcy (neg_of_upper_minus hsd hyd) x
  · rcases h2.lower_minus hsc with rfl | ⟨c, rfl, hc, -⟩
    · simp at hac
    · obtain ⟨lo, hlo, hle⟩ := minBor₄_same_sign (iff_of_true ha hc) (.int b) (.int d)
      exact ⟨lo, hlo, fun x y hax hxb hcy hyd => hle x y hax hxb hcy hyd
        (.inr ⟨neg_of_upper_minus hsb hxb, neg_of_upper_minus hsd hyd⟩)⟩

theorem bor_upper_neg (hsd : infSign d = .minus) (hac : a ≤ c) :
    UpperEnd Int.lor a b c d (maxBor₄ a b c d) := by
  obtain ⟨b, rfl, hb, hbcap⟩ := h1.upper_minus hsb
  obtain ⟨d, rfl, hd, hdcap⟩ := h2.upper_minus hsd
  intro x y hax hxb hcy hyd
  rw [Bound.int_le_int] at hxb hyd
  refine Bound.int_le_int.mpr (le_maxBor₆_neg hbcap hdcap hb hd hax hxb hcy hyd ?_)
  rcases h1.lower_minus hsa with rfl | ⟨a, rfl, -, hacap⟩
  · exact .inl rfl
  · have hay := hac.trans hcy
    rw [Bound.int_le_int] at hax hay
    exact .inr ⟨(cap_lt hacap).1.trans hax, (cap_lt hacap).1.trans hay⟩

end

/-- The lower end for a left range that is negative, or cut at `-1`. -/
theorem bor_lower_mixed (b' : Bound) (h1 : Fits a b) (h2 : Fits c d) (hsa : infSign a = .minus)
    (hsc : infSign c = .plus) :
    ∃ lo, minBor₄ a b' c d = some lo ∧ ∀ x y, a ≤ .int x → x < 0 → .int x ≤ b' → c ≤ .int y →
      .int y ≤ d → lo ≤ .int (Int.lor x y) := by
  obtain ⟨c, rfl, hc, hccap⟩ := h2.lower_plus hsc
  rcases h1.lower_minus hsa with rfl | ⟨a, rfl, ha, hacap⟩
  · exact ⟨.negInf, by simp [minBor₄, not_lt.mpr hc], fun _ _ _ _ _ _ _ => Bound.negInf_le _⟩
  · exact minBor₄_mixed ha hacap hc hccap h2.upper_cases b'

/-- The upper end for a non-negative right range. -/
theorem bor_upper_nonneg {a' : Bound} (h1 : Fits a' b) (h2 : Fits c d) (hsc : infSign c = .plus) :
    UpperEnd Int.lor a b c d (maxBor₄ a b c d) := by
  obtain ⟨c, rfl, hc, -⟩ := h2.lower_plus hsc
  intro x y hax hxb hcy hyd
  match b, d with
  | .negInf, _ => cases h1
  | .posInf, .posInf | .posInf, .int _ | .posInf, .negInf | .int b, .negInf =>
    exact Bound.le_posInf _
  | .int b, .int d =>
    rw [Bound.int_le_int] at hxb hyd
    refine Bound.int_le_int.mpr (le_maxBor₆_start hax hxb hcy hyd ?_)
    rw [Bound.int_le_int] at hcy
    omega
  | .int b, .posInf =>
    rw [Bound.int_le_int] at hxb hcy
    simp only [maxBor₄]
    split_ifs with hneg
    · -- the walk runs on `b` and `-1` and stays at `-1`
      have hwalk := maxBor₆_neg_one hc a b (upperBit b + 1)
      rw [land_neg_one_right] at hwalk
      rw [Bound.int_le_int]
      have : Int.lor x y < 0 := (lor_neg_iff x y).mpr (.inl (by omega))
      omega
    · exact Bound.le_posInf _

/-- Case `{'-','+','-','+'}`: a negative result is not below its negative
operand. -/
theorem bor_cross (h1 : Fits a b) (h2 : Fits c d) (hsa : infSign a = .minus)
    (hsb : infSign b = .plus) (hsd : infSign d = .plus) :
    Encloses Int.lor a b c d (some (infMin a c, maxBor₄ (.int 0) b (.int 0) d)) := by
  refine ⟨_, _, rfl, fun x y hax hxb hcy hyd => ⟨?_, ?_⟩⟩
  · rw [infMin_eq]
    by_cases hx : x < 0
    · exact min_le_of_left_le (le_lor_of_neg hax hx y)
    · by_cases hy : y < 0
      · rw [lor_comm]
        exact min_le_of_right_le (le_lor_of_neg hcy hy x)
      · refine min_le_of_left_le ?_
        have hpos : ¬ Int.lor x y < 0 := by
          rw [lor_neg_iff]
          tauto
        rcases h1.lower_minus hsa with rfl | ⟨a, rfl, ha, -⟩
        · exact Bound.negInf_le _
        · rw [Bound.int_le_int]
          omega
  · have hzero : UpperEnd Int.lor (.int 0) b (.int 0) d (maxBor₄ (.int 0) b (.int 0) d) := by
      have h2' : Fits (.int 0) d := by
        rcases h2.upper_plus hsd with rfl | ⟨d, rfl, hd, hdcap⟩
        · exact .above (by simp [numBits])
        · exact .closed (by simp [numBits]) hdcap hd
      exact bor_upper_nonneg h1 h2' rfl
    by_cases hpos : 0 ≤ x ∧ 0 ≤ y
    · exact hzero x y (by simpa using hpos.1) hxb (by simpa using hpos.2) hyd
    · -- a negative result is below the result on two non-negative ends
      have hneg : Int.lor x y < 0 := by
        rw [lor_neg_iff]
        omega
      have hmember : ∀ e : Bound, infSign e = .plus → .int 0 ≤ e := by
        intro e he
        cases e <;> simp_all [infSign]
      have h0 := hzero 0 0 le_rfl (hmember b hsb) le_rfl (hmember d hsd)
      refine le_trans (Bound.int_le_int.mpr ?_) h0
      rw [lor_self]
      omega

theorem Fits.le (h : Fits a b) : a ≤ b := by
  cases h <;> simp_all

/-- Signs are ordered like the ends. -/
theorem infSign_plus_of_le (h : a ≤ b) (hs : infSign a = .plus) : infSign b = .plus := by
  cases a <;> cases b <;> simp_all [infSign]
  omega

/-- The sign cases of `do_min_max_bor/4`, for ranges ordered by their low
ends. -/
theorem doMinMaxBor_encloses (h1 : Fits a b) (h2 : Fits c d) (hac : a ≤ c) :
    Encloses Int.lor a b c d (doMinMaxBor a b c d) := by
  unfold doMinMaxBor
  cases hsa : infSign a with
  | plus =>
    have hsb := infSign_plus_of_le h1.le hsa
    have hsc := infSign_plus_of_le hac hsa
    have hsd := infSign_plus_of_le h2.le hsc
    simp only [hsb, hsc, hsd]
    refine .intro ?_ (bor_upper_nonneg h1 h2 hsc)
    obtain ⟨a, rfl, ha, -⟩ := h1.lower_plus hsa
    obtain ⟨c, rfl, hc, -⟩ := h2.lower_plus hsc
    obtain ⟨lo, hlo, hle⟩ := minBor₄_same_sign (iff_of_false ha.not_gt hc.not_gt) b d
    exact ⟨lo, hlo, fun x y hax hxb hcy hyd => hle x y hax hxb hcy hyd (.inl ha)⟩
  | minus =>
    cases hsb : infSign b with
    | minus =>
      cases hsc : infSign c with
      | minus =>
        cases hsd : infSign d with
        | minus =>
          exact .intro (bor_lower_neg h1 h2 hsa hsb hsc hsd hac)
            (bor_upper_neg h1 h2 hsa hsb hsd hac)
        | plus => exact bor_encloses_neg hsb
      | plus =>
        have hsd := infSign_plus_of_le h2.le hsc
        simp only [hsd]
        refine .intro ?_ (bor_upper_nonneg h1 h2 hsc)
        obtain ⟨lo, hlo, hle⟩ := bor_lower_mixed b h1 h2 hsa hsc
        exact ⟨lo, hlo, fun x y hax hxb hcy hyd =>
          hle x y hax (neg_of_upper_minus hsb hxb) hxb hcy hyd⟩
    | plus =>
      cases hsc : infSign c with
      | minus =>
        cases hsd : infSign d with
        | minus => exact .symm lor_comm (bor_encloses_neg hsd)
        | plus => exact bor_cross h1 h2 hsa hsb hsd
      | plus =>
        have hsd := infSign_plus_of_le h2.le hsc
        simp only [hsd]
        refine .intro ?_ (bor_upper_nonneg h1 h2 hsc)
        -- members of the left range below zero, then those above
        obtain ⟨lo, hlo, hle⟩ := bor_lower_mixed (.int (-1)) h1 h2 hsa hsc
        refine ⟨lo, hlo, fun x y hax hxb hcy hyd => ?_⟩
        by_cases hx : x < 0
        · exact hle x y hax hx (Bound.int_le_int.mpr (by omega)) hcy hyd
        · have hminus : a ≤ .int (-1) := by
            rcases h1.lower_minus hsa with rfl | ⟨a, rfl, ha, -⟩
            · exact Bound.negInf_le _
            · rw [Bound.int_le_int]
              omega
          have hbase := hle (-1) y hminus (by norm_num) le_rfl hcy hyd
          have hpos : ¬ Int.lor x y < 0 := by
            rw [lor_neg_iff]
            have := nonneg_of_lower_plus hsc hcy
            omega
          rw [lor_neg_one_left] at hbase
          exact hbase.trans (Bound.int_le_int.mpr (by omega))

theorem minMaxBor_encloses (h1 : Fits a b) (h2 : Fits c d) :
    Encloses Int.lor a b c d (minMaxBor a b c d) := by
  unfold minMaxBor
  rw [infLe_eq]
  split_ifs with h
  · exact doMinMaxBor_encloses h1 h2 (by simpa using h)
  · refine .symm lor_comm (doMinMaxBor_encloses h2 h1 ?_)
    exact le_of_not_ge (by simpa using h)

/-! ## `band` by complement -/

theorem infBnot_le_int : infBnot a ≤ .int y ↔ .int (Int.lnot y) ≤ a := by
  cases a <;> simp [infBnot, lnot_eq]
  omega

theorem int_le_infBnot : .int y ≤ infBnot a ↔ a ≤ .int (Int.lnot y) := by
  cases a <;> simp [infBnot, lnot_eq]
  omega

theorem land_eq_lnot_lor (x y : ℤ) : Int.land x y = Int.lnot
    (Int.lor (Int.lnot x) (Int.lnot y)) := by
  apply eq_of_testBit_eq
  intro j
  simp [Int.testBit_land, Int.testBit_lor, Int.testBit_lnot]

theorem lnot_lnot (x : ℤ) : Int.lnot (Int.lnot x) = x := by
  rw [lnot_eq, lnot_eq]
  ring

theorem Canonical.infBnot {a b : Bound} (h : Canonical a b) : Fits (infBnot b) (infBnot a) := by
  have hcap : ∀ n : ℤ, |n| < 2 ^ numBits → |Int.lnot n| ≤ 2 ^ numBits := by
    intro n hn
    rw [abs_lt] at hn
    rw [abs_le, lnot_eq]
    omega
  cases h with
  | any => exact .any
  | below hb => exact .above (hcap _ hb)
  | above ha => exact .below (hcap _ ha)
  | closed ha hb hab =>
    refine .closed (hcap _ hb) (hcap _ ha) ?_
    rw [lnot_eq, lnot_eq]
    omega

theorem minMaxBand_encloses (h1 : Canonical a b) (h2 : Canonical c d) :
    Encloses Int.land a b c d (minMaxBand a b c d) := by
  obtain ⟨lo, hi, hres, hle⟩ := minMaxBor_encloses h1.infBnot h2.infBnot
  refine ⟨infBnot hi, infBnot lo, by simp [minMaxBand, hres], fun x y hax hxb hcy hyd => ?_⟩
  have hor := hle (Int.lnot x) (Int.lnot y)
    (infBnot_le_int.mpr (by rwa [lnot_lnot])) (int_le_infBnot.mpr (by rwa [lnot_lnot]))
    (infBnot_le_int.mpr (by rwa [lnot_lnot])) (int_le_infBnot.mpr (by rwa [lnot_lnot]))
  rw [land_eq_lnot_lor, infBnot_le_int, int_le_infBnot, lnot_lnot]
  exact ⟨hor.2, hor.1⟩

end Otp.Compiler.BeamBounds
