import Otp.Compiler.BeamBounds.Bitwise

/-!
# Soundness of the `bxor` ranges

The sign cases of `do_min_max_bxor/4`. The case split is the one of `bor`, but
three of the cases widen both operands to one common range first
(`looseBxor`), and ranges with an infinite end get a clause of their own.
-/

namespace Otp.Compiler.BeamBounds

open Otp.Lib.IntBits

/-! ## Lower ends -/

variable {a c d b x y : ℤ}

/-- `min_bxor/4` on non-negative low ends. -/
theorem minBxor₄_nonneg (ha : 0 ≤ a) (hc : 0 ≤ c) (b d : Bound) :
    ∃ m, minBxor₄ (.int a) b (.int c) d = some (.int m) ∧
      ∀ x y, a ≤ x → .int x ≤ b → c ≤ y → .int y ≤ d → m ≤ Int.xor x y := by
  refine ⟨_, rfl, fun x y hax hxb hcy hyd => minBxor₅_le _ hax hxb hcy hyd ?_⟩
  have hnonneg : 0 ≤ Int.lor a c := by
    by_contra hneg
    rw [not_le, lor_neg_iff] at hneg
    omega
  have hzero := ediv_upperBit hnonneg
  generalize upperBit (Int.lor a c) + 1 = k at *
  have hpos : (0 : ℤ) < 2 ^ k := by positivity
  -- both low ends lie below the starting mask
  have hA := Int.ediv_nonneg ha hpos.le
  have hC := Int.ediv_nonneg hc hpos.le
  rw [lor_ediv] at hzero
  have hAle : a / 2 ^ k ≤ Int.lor (a / 2 ^ k) (c / 2 ^ k) :=
    le_lor_left fun h => absurd h (by omega)
  have hCle : c / 2 ^ k ≤ Int.lor (c / 2 ^ k) (a / 2 ^ k) :=
    le_lor_left fun h => absurd h (by omega)
  rw [lor_comm] at hCle
  have hA0 : a / 2 ^ k = 0 := by omega
  have hC0 : c / 2 ^ k = 0 := by omega
  rw [xor_ediv a c, hA0, hC0]
  have hsign := xor_neg_iff x y
  exact Int.ediv_nonneg (by omega) hpos.le

/-- `min_bxor/4` on negative ranges. -/
theorem minBxor₄_neg (ha : a < 0) (hacap : |a| ≤ 2 ^ numBits) (hc : c < 0)
    (hccap : |c| ≤ 2 ^ numBits) (b d : Bound) :
    ∃ m, minBxor₄ (.int a) b (.int c) d = some (.int m) ∧
      ∀ x y, a ≤ x → x < 0 → .int x ≤ b → c ≤ y → y < 0 → .int y ≤ d → m ≤ Int.xor x y := by
  refine ⟨_, rfl, fun x y hax hx hxb hcy hy hyd => minBxor₅_le _ hax hxb hcy hyd ?_⟩
  rw [upperBit_neg ((lor_neg_iff a c).mpr (.inl ha)), xor_ediv a c,
    ediv_eq_neg_one ha (cap_lt hacap).1, ediv_eq_neg_one hc (cap_lt hccap).1]
  have hsign := xor_neg_iff x y
  exact Int.ediv_nonneg (by omega) (by positivity)

/-- `min_bxor/4` on a negative and a non-negative range with finite ends. -/
theorem minBxor₄_mixed (ha : a < 0) (hacap : |a| ≤ 2 ^ numBits) (hc : 0 ≤ c)
    (hdcap : |d| ≤ 2 ^ numBits) (b : Bound) :
    ∃ m, minBxor₄ (.int a) b (.int c) (.int d) = some (.int m) ∧
      ∀ x y, a ≤ x → x < 0 → .int x ≤ b → c ≤ y → y ≤ d → m ≤ Int.xor x y := by
  refine ⟨_, rfl, fun x y hax hx hxb hcy hyd =>
    minBxor₅_le _ hax hxb hcy (Bound.int_le_int.mpr hyd) ?_⟩
  have hd := (cap_lt hdcap).2
  have hax' := (cap_lt hacap).1
  rw [upperBit_neg ((lor_neg_iff a c).mpr (.inl ha)), xor_ediv, xor_ediv,
    ediv_eq_neg_one ha hax', ediv_eq_neg_one hx (hax'.trans hax),
    ediv_eq_zero hc (by omega), ediv_eq_zero (hc.trans hcy) (by omega)]

/-! ## Upper ends -/

/-- Masks above the highest common one bit make no move. -/
theorem maxBxor₅_start {k : ℕ} (h : Int.land b d / 2 ^ k = 0) (a c : Bound) (n : ℕ) :
    maxBxor₅ a b c d (k + n) = maxBxor₅ a b c d k := by
  induction n with
  | zero => rfl
  | succ n ih => rw [← Nat.add_assoc, maxBxor₅_succ, if_neg (no_common_bit h n), ih]

/-- `max_bxor/5` with its starting mask, for a right operand that is
non-negative. -/
theorem le_maxBxor₅_start {a c : Bound} (ha : a ≤ .int x) (hb : x ≤ b) (hc : c ≤ .int y)
    (hd : y ≤ d) (hy : 0 ≤ y) : Int.xor x y ≤ maxBxor₅ a b c d (upperBit (Int.land b d) + 1) := by
  obtain ⟨hnonneg, n, hY, hD⟩ := exists_start b hy hd
  rw [← maxBxor₅_start (ediv_upperBit hnonneg) a c n]
  refine le_maxBxor₅ _ ha hb hc hd ?_
  unfold HighXorPrefix
  rw [xor_ediv, xor_ediv, hY, hD, xor_zero_right, xor_zero_right]
  exact ⟨ediv_mono hb _, fun h => ⟨h, rfl⟩⟩

/-- `max_bxor/5` with its starting mask on negative operands. -/
theorem le_maxBxor₅_neg (hacap : |a| ≤ 2 ^ numBits) (hbcap : |b| ≤ 2 ^ numBits)
    (hccap : |c| ≤ 2 ^ numBits) (hdcap : |d| ≤ 2 ^ numBits) (hb₀ : b < 0) (hd₀ : d < 0) (ha : a ≤ x)
    (hb : x ≤ b) (hc : c ≤ y) (hd : y ≤ d) :
    Int.xor x y ≤ maxBxor₅ (.int a) b (.int c) d (upperBit (Int.land b d) + 1) := by
  rw [upperBit_neg ((land_neg_iff b d).mpr ⟨hb₀, hd₀⟩)]
  refine le_maxBxor₅ _ (Bound.int_le_int.mpr ha) hb (Bound.int_le_int.mpr hc) hd (.of_ediv_eq ?_ ?_)
  · rw [ediv_eq_neg_one (by omega) ((cap_lt hacap).1.trans ha),
      ediv_eq_neg_one hb₀ (cap_lt hbcap).1]
  · rw [ediv_eq_neg_one (by omega) ((cap_lt hccap).1.trans hc),
      ediv_eq_neg_one hd₀ (cap_lt hdcap).1]

/-! ## The sign cases -/

theorem xor_lnot_lnot (x y : ℤ) : Int.xor (Int.lnot x) (Int.lnot y) = Int.xor x y := by
  apply eq_of_testBit_eq
  intro j
  simp [Int.testBit_lxor, Int.testBit_lnot]

/-- The clauses marked as not tight, for two operands between `minMin` and
`maxMax`. -/
theorem looseBxor_encloses {minMin maxMax : ℤ} (hmin : minMin < 0)
    (hmincap : |minMin| ≤ 2 ^ numBits) (hmax : 0 ≤ maxMax) (hmaxcap : |maxMax| ≤ 2 ^ numBits) :
    ∃ lo hi, looseBxor minMin maxMax = some (.int lo, .int hi) ∧
      ∀ x y, minMin ≤ x → x ≤ maxMax → minMin ≤ y → y ≤ maxMax →
        lo ≤ Int.xor x y ∧ Int.xor x y ≤ hi := by
  obtain ⟨lo, hlo, hle⟩ := minBxor₄_mixed hmin hmincap le_rfl hmaxcap (.int (-1))
  have hlo' : ∀ x y, minMin ≤ x → x < 0 → 0 ≤ y → y ≤ maxMax → lo ≤ Int.xor x y :=
    fun x y hax hx hy hyd => hle x y hax hx (Bound.int_le_int.mpr (by omega)) hy hyd
  have hlow : lo < 0 := by
    have hbase := hlo' (-1) 0 (by omega) (by norm_num) le_rfl hmax
    rw [xor_zero_right] at hbase
    omega
  generalize hm : max (Int.lnot minMin) maxMax = mx
  have hmx : 0 ≤ mx := hm ▸ hmax.trans (le_max_right _ _)
  have hhi : ∀ x y, 0 ≤ x → x ≤ mx → 0 ≤ y → y ≤ mx →
      Int.xor x y ≤ maxBxor₅ (.int 0) mx (.int 0) mx (upperBit (Int.land mx mx) + 1) :=
    fun x y hx hxm hy hym => le_maxBxor₅_start (Bound.int_le_int.mpr hx) hxm
      (Bound.int_le_int.mpr hy) hym hy
  have hzero := hhi 0 0 le_rfl hmx le_rfl hmx
  rw [lxor_self] at hzero
  refine ⟨lo, maxBxor₅ (.int 0) mx (.int 0) mx (upperBit (Int.land mx mx) + 1), ?_, ?_⟩
  · simp [looseBxor, hm, hlo, maxBxor₄]
  · intro x y hax hxb hcy hyd
    have hmx1 : Int.lnot minMin ≤ mx := hm ▸ le_max_left _ _
    have hmx2 : maxMax ≤ mx := hm ▸ le_max_right _ _
    rw [lnot_eq] at hmx1
    have hsign := xor_neg_iff x y
    by_cases hx : x < 0 <;> by_cases hy : y < 0
    · -- complementing both operands makes them non-negative
      have hx' : Int.lnot x = -x - 1 := lnot_eq x
      have hy' : Int.lnot y = -y - 1 := lnot_eq y
      have hle := hhi (Int.lnot x) (Int.lnot y) (by omega) (by omega) (by omega) (by omega)
      rw [xor_lnot_lnot] at hle
      exact ⟨by omega, hle⟩
    · exact ⟨hlo' x y hax hx (not_lt.mp hy) hyd, by omega⟩
    · have hle := hlo' y x hcy hy (not_lt.mp hx) hxb
      rw [xor_comm y x] at hle
      exact ⟨hle, by omega⟩
    · exact ⟨by omega, hhi x y (not_lt.mp hx) (hxb.trans hmx2) (not_lt.mp hy) (hyd.trans hmx2)⟩

/-- The clause for four finite ends. -/
theorem doMinMaxBxor_finite (hacap : |a| ≤ 2 ^ numBits) (hbcap : |b| ≤ 2 ^ numBits)
    (hccap : |c| ≤ 2 ^ numBits) (hdcap : |d| ≤ 2 ^ numBits) (hab : a ≤ b) (hcd : c ≤ d)
    (hac : a ≤ c) :
    ∃ lo hi, doMinMaxBxor (.int a) (.int b) (.int c) (.int d) = some (.int lo, .int hi) ∧
      ∀ x y, a ≤ x → x ≤ b → c ≤ y → y ≤ d → lo ≤ Int.xor x y ∧ Int.xor x y ≤ hi := by
  have hmincap : |min a c| ≤ 2 ^ numBits := by rwa [min_eq_left hac]
  have hminus : ∀ n : ℤ, n < 0 → infSign (.int n) = .minus := fun n h => by simp [infSign, h]
  have hplus : ∀ n : ℤ, ¬ n < 0 → infSign (.int n) = .plus := fun n h => by
    simpa [infSign] using h
  -- the upper end is the same in the cases with a non-negative right range
  have hupper : 0 ≤ c → ∀ x y, a ≤ x → x ≤ b → c ≤ y → y ≤ d →
      Int.xor x y ≤ maxBxor₅ (.int a) b (.int c) d (upperBit (Int.land b d) + 1) :=
    fun hc x y hax hxb hcy hyd => le_maxBxor₅_start (Bound.int_le_int.mpr hax) hxb
      (Bound.int_le_int.mpr hcy) hyd (hc.trans hcy)
  have hloose : ∀ m, a < 0 → 0 ≤ m → |m| ≤ 2 ^ numBits → b ≤ m → d ≤ m →
      ∃ lo hi, looseBxor (min a c) m = some (.int lo, .int hi) ∧
        ∀ x y, a ≤ x → x ≤ b → c ≤ y → y ≤ d → lo ≤ Int.xor x y ∧ Int.xor x y ≤ hi := by
    intro m ha hm hmcap hbm hdm
    obtain ⟨lo, hi, hres, hle⟩ := looseBxor_encloses (by omega) hmincap hm hmcap
    exact ⟨lo, hi, hres, fun x y _ _ _ _ => hle x y (by omega) (by omega) (by omega) (by omega)⟩
  by_cases ha : a < 0
  · by_cases hb : b < 0
    · by_cases hc : c < 0
      · by_cases hd : d < 0
        · obtain ⟨lo, hlo, hle⟩ := minBxor₄_neg ha hacap hc hccap (.int b) (.int d)
          refine ⟨lo, _, by simp [doMinMaxBxor, hminus, ha, hb, hc, hd, hlo, maxBxor₄]; rfl, ?_⟩
          intro x y hax hxb hcy hyd
          exact ⟨hle x y hax (by omega) (Bound.int_le_int.mpr hxb) hcy (by omega)
              (Bound.int_le_int.mpr hyd),
            le_maxBxor₅_neg hacap hbcap hccap hdcap hb hd hax hxb hcy hyd⟩
        · simpa [doMinMaxBxor, hminus, hplus, ha, hb, hc, hd] using
            hloose d ha (not_lt.mp hd) hdcap (by omega) le_rfl
      · obtain ⟨lo, hlo, hle⟩ := minBxor₄_mixed ha hacap (not_lt.mp hc) hdcap (.int b)
        have hd : ¬ d < 0 := by omega
        refine ⟨lo, _,
          by simp [doMinMaxBxor, hminus, hplus, ha, hb, hc, hd, hlo, maxBxor₄]; rfl, ?_⟩
        intro x y hax hxb hcy hyd
        exact ⟨hle x y hax (by omega) (Bound.int_le_int.mpr hxb) hcy hyd,
          hupper (not_lt.mp hc) x y hax hxb hcy hyd⟩
    · by_cases hc : c < 0
      · by_cases hd : d < 0
        · simpa [doMinMaxBxor, hminus, hplus, ha, hb, hc, hd] using
            hloose b ha (not_lt.mp hb) hbcap le_rfl (by omega)
        · have hmaxcap : |max b d| ≤ 2 ^ numBits := by
            rcases max_choice b d with h | h <;> rwa [h]
          simpa [doMinMaxBxor, hminus, hplus, ha, hb, hc, hd] using
            hloose (max b d) ha (by omega) hmaxcap (le_max_left b d) (le_max_right b d)
      · obtain ⟨lo, hlo, hle⟩ := minBxor₄_mixed ha hacap (not_lt.mp hc) hdcap (.int (-1))
        have hd : ¬ d < 0 := by omega
        refine ⟨lo, _,
          by simp [doMinMaxBxor, hminus, hplus, ha, hb, hc, hd, hlo, maxBxor₄]; rfl, ?_⟩
        intro x y hax hxb hcy hyd
        refine ⟨?_, hupper (not_lt.mp hc) x y hax hxb hcy hyd⟩
        by_cases hx : x < 0
        · exact hle x y hax hx (Bound.int_le_int.mpr (by omega)) hcy hyd
        · -- the result is non-negative, the end is not
          have hbase := hle (-1) y (by omega) (by norm_num) le_rfl hcy hyd
          have hneg := xor_neg_iff (-1) y
          have hpos := xor_neg_iff x y
          omega
  · have hb : ¬ b < 0 := by omega
    have hc : ¬ c < 0 := by omega
    have hd : ¬ d < 0 := by omega
    obtain ⟨lo, hlo, hle⟩ := minBxor₄_nonneg (not_lt.mp ha) (not_lt.mp hc) (.int b) (.int d)
    refine ⟨lo, _, by simp [doMinMaxBxor, hplus, ha, hb, hc, hd, hlo, maxBxor₄]; rfl, ?_⟩
    intro x y hax hxb hcy hyd
    exact ⟨hle x y hax (Bound.int_le_int.mpr hxb) hcy (Bound.int_le_int.mpr hyd),
      hupper (not_lt.mp hc) x y hax hxb hcy hyd⟩

/-- All clauses of `do_min_max_bxor/4`, for ranges ordered by their low ends.
The second half is the clause for ranges with an infinite end. -/
theorem doMinMaxBxor_encloses {a b c d : Bound} (h1 : Fits a b) (h2 : Fits c d) (hac : a ≤ c) :
    Encloses Int.xor a b c d (doMinMaxBxor a b c d) := by
  unfold doMinMaxBxor
  split
  · cases h1 with
    | closed hacap hbcap hab =>
      cases h2 with
      | closed hccap hdcap hcd =>
        obtain ⟨lo, hi, hres, hle⟩ := doMinMaxBxor_finite hacap hbcap hccap hdcap hab hcd
          (Bound.int_le_int.mp hac)
        refine ⟨_, _, hres, fun x y hax hxb hcy hyd => ?_⟩
        simp only [Bound.int_le_int] at *
        exact hle x y hax hxb hcy hyd
  · split
    · rename_i hsa hsb hsc hsd
      obtain ⟨a, rfl, ha, -⟩ := h1.lower_plus hsa
      obtain ⟨c, rfl, hc, -⟩ := h2.lower_plus hsc
      obtain ⟨lo, hlo, hle⟩ := minBxor₄_nonneg ha hc b d
      refine ⟨.int lo, .posInf, by simp [hlo], fun x y hax hxb hcy hyd => ⟨?_, Bound.le_posInf _⟩⟩
      rw [Bound.int_le_int] at *
      exact hle x y hax hxb hcy hyd
    · rename_i hsa hsb hsc hsd
      obtain ⟨b, rfl, hb, -⟩ := h1.upper_minus hsb
      obtain ⟨c, rfl, hc, -⟩ := h2.lower_plus hsc
      split
      · refine ⟨_, _, rfl, fun x y hax hxb hcy hyd => ⟨Bound.negInf_le _, ?_⟩⟩
        have hy := nonneg_of_lower_plus hsc hcy
        rw [Bound.int_le_int] at hxb hyd
        exact Bound.int_le_int.mpr (le_maxBxor₅_start hax hxb hcy hyd hy)
      · refine ⟨_, _, rfl, fun x y hax hxb hcy hyd => ⟨Bound.negInf_le _, ?_⟩⟩
        have hneg := (xor_neg_iff x y).mpr fun h =>
          (nonneg_of_lower_plus hsc hcy).not_gt (h.mp (neg_of_upper_minus hsb hxb))
        exact Bound.int_le_int.mpr (by omega)
    · exact ⟨_, _, rfl, fun _ _ _ _ _ _ => ⟨Bound.negInf_le _, Bound.le_posInf _⟩⟩

theorem minMaxBxor_encloses {a b c d : Bound} (h1 : Fits a b) (h2 : Fits c d) :
    Encloses Int.xor a b c d (minMaxBxor a b c d) := by
  unfold minMaxBxor
  rw [infLe_eq]
  split_ifs with h
  · exact doMinMaxBxor_encloses h1 h2 (by simpa using h)
  · refine .symm Otp.Lib.IntBits.xor_comm (doMinMaxBxor_encloses h2 h1 ?_)
    exact le_of_not_ge (by simpa using h)

/-! ## The entry point -/

/-- Ends that enclose all results make `bounds/3` sound. -/
theorem Encloses.boundsSound {op : BinOp} {r1 r2 : Range} (h1 : r1.Valid) (h2 : r2.Valid)
    {res : Option (Bound × Bound)} (heq : bounds₃ op r1 r2 = res >>= normalize)
    (h : Encloses op.eval (canonicalArg r1).1 (canonicalArg r1).2 (canonicalArg r2).1
      (canonicalArg r2).2 res) : BoundsSound op r1 r2 := by
  obtain ⟨lo, hi, rfl, hends⟩ := h
  exact boundsSound_of_ends h1 h2 heq hends

/-- The three bitwise operators. -/
def BinOp.IsBitwise : BinOp → Prop
  | .band | .bor | .bxor => True
  | _ => False

/-- Range analysis of `band`, `bor` and `bxor` is sound, for ranges of every
shape and for ends of any size. -/
theorem bitwise_boundsSound {op : BinOp} (hop : op.IsBitwise) {r1 r2 : Range} (h1 : r1.Valid)
    (h2 : r2.Valid) : BoundsSound op r1 r2 := by
  have hc1 := (canonicalArg_spec h1).1
  have hc2 := (canonicalArg_spec h2).1
  cases op with
  | band => exact (minMaxBand_encloses hc1 hc2).boundsSound h1 h2 rfl
  | bor => exact (minMaxBor_encloses hc1.fits hc2.fits).boundsSound h1 h2 rfl
  | bxor => exact (minMaxBxor_encloses hc1.fits hc2.fits).boundsSound h1 h2 rfl
  | _ => exact absurd hop id

theorem bitwise_boundsSound_at :
    BoundsSound .bxor (.pair (.int (-5)) (.int 12)) (.pair .negInf (.int 7)) :=
  bitwise_boundsSound (show BinOp.IsBitwise .bxor from trivial) (by decide) (by decide)

end Otp.Compiler.BeamBounds
