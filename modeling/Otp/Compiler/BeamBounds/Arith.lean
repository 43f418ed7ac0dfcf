import Otp.Compiler.BeamBounds.Bounds
import Otp.Lib.IntBits

/-!
# Soundness of the arithmetic ranges

For each operator the ends handed to `normalize` enclose every result, so the
assertion in `normalize` cannot fail and the returned range is sound. The
interesting operators are `'*'`, where a product of an end and an infinity
only keeps the sign, and `'div'`, where the extremal denominators next to zero
have to be among the ones the source tries.
-/

namespace Otp.Compiler.BeamBounds

open Otp.Lib

/-! ## Addition, subtraction, minimum and maximum -/

variable {a c b d : Bound} {x y p q : ℤ} {r1 r2 r : Range}

theorem infAdd_le (ha : a ≤ .int x) (hc : c ≤ .int y) : infAdd a c ≤ .int (x + y) := by
  cases a <;> cases c <;> simp_all [infAdd]
  omega

theorem le_infAdd (hb : .int x ≤ b) (hd : .int y ≤ d) : .int (x + y) ≤ infAdd b d := by
  cases b <;> cases d <;> simp_all [infAdd]
  omega

theorem add_boundsSound (h1 : r1.Valid) (h2 : r2.Valid) : BoundsSound .add r1 r2 := by
  refine boundsSound_of_ends h1 h2 rfl ?_
  intro x y ha hb hc hd
  exact ⟨infAdd_le ha hc, le_infAdd hb hd⟩

/-- The five guarded clauses for `'-'` enclose every difference. -/
theorem subBounds_ends (h1 : Canonical a b) (h2 : Canonical c d) :
    subBounds a b c d = some .any ∨ ∃ lo hi, subBounds a b c d = normalize (lo, hi) ∧
      ∀ x y, a ≤ .int x → .int x ≤ b → c ≤ .int y → .int y ≤ d →
        lo ≤ .int (x - y) ∧ .int (x - y) ≤ hi := by
  cases h1 <;> cases h2 <;>
    first
    | exact .inl rfl
    | (refine .inr ⟨_, _, rfl, fun x y ha hb hc hd => ?_⟩
       simp only [Bound.int_le_int, Bound.negInf_le, Bound.le_posInf, true_and, and_true]
         at ha hb hc hd ⊢
       omega)

theorem sub_boundsSound (h1 : r1.Valid) (h2 : r2.Valid) : BoundsSound .sub r1 r2 := by
  rcases subBounds_ends (canonicalArg_spec h1).1 (canonicalArg_spec h2).1 with
    hany | ⟨lo, hi, heq, hends⟩
  · exact ⟨.any, hany, fun _ _ _ _ _ => trivial⟩
  · exact boundsSound_of_ends h1 h2 heq hends

theorem Bound.int_max (x y : ℤ) : Bound.int (max x y) = max (.int x) (.int y) := by
  rcases le_total x y with h | h
  · rw [max_eq_right h, max_eq_right (Bound.int_le_int.mpr h)]
  · rw [max_eq_left h, max_eq_left (Bound.int_le_int.mpr h)]

theorem Bound.int_min (x y : ℤ) : Bound.int (min x y) = min (.int x) (.int y) := by
  rcases le_total x y with h | h
  · rw [min_eq_left h, min_eq_left (Bound.int_le_int.mpr h)]
  · rw [min_eq_right h, min_eq_right (Bound.int_le_int.mpr h)]

theorem max_boundsSound (h1 : r1.Valid) (h2 : r2.Valid) : BoundsSound .max r1 r2 := by
  refine boundsSound_of_ends h1 h2 rfl ?_
  intro x y ha hb hc hd
  simp only [BinOp.eval, Bound.int_max, infMax_eq]
  exact ⟨max_le_max ha hc, max_le_max hb hd⟩

theorem min_boundsSound (h1 : r1.Valid) (h2 : r2.Valid) : BoundsSound .min r1 r2 := by
  refine boundsSound_of_ends h1 h2 rfl ?_
  intro x y ha hb hc hd
  simp only [BinOp.eval, Bound.int_min, infMin_eq]
  exact ⟨min_le_min ha hc, min_le_min hb hd⟩

/-! ## Multiplication -/

theorem infMul_comm (a b : Bound) : infMul a b = infMul b a := by
  cases a <;> cases b <;> simp only [infMul, infSign, mul_comm] <;> split_ifs <;> rfl

/-- Multiplying by a factor of sign `'+'` keeps the order, also where a
factor is an infinity. -/
theorem infMul_mono (ha : infSign a = .plus) (h : c ≤ d) : infMul a c ≤ infMul a d := by
  cases a with
  | negInf => simp [infSign] at ha
  | int a =>
    have hnneg : ¬ a < 0 := by
      intro hneg
      simp [infSign, hneg] at ha
    cases c <;> cases d <;> simp_all only [infMul, infSign, if_neg, Bound.negInf_le,
      Bound.le_posInf, Bound.int_le_int, Bound.int_le_negInf, Bound.posInf_le_int,
      Bound.posInf_le_negInf, not_false_eq_true]
    exact mul_le_mul_of_nonneg_left h (not_lt.mp hnneg)
  | posInf =>
    cases c with
    | negInf => exact Bound.negInf_le _
    | posInf =>
      cases d <;> simp_all [infMul, infSign]
    | int c =>
      cases d with
      | negInf => simp at h
      | posInf => exact Bound.le_posInf _
      | int d =>
        rw [Bound.int_le_int] at h
        by_cases hc : c < 0
        · simp [infMul, infSign, hc]
        · simp [infMul, infSign, hc, show ¬ d < 0 by omega]

theorem infMul_infNeg (a c : Bound) (ha : infSign a = .minus) :
    infMul (infNeg a) c = infNeg (infMul a c) := by
  cases a with
  | posInf => simp [infSign] at ha
  | negInf =>
    cases c <;> simp only [infMul, infSign, infNeg]
    split_ifs <;> rfl
  | int a =>
    have hneg : a < 0 := by
      by_contra hnneg
      simp [infSign, hnneg] at ha
    cases c <;> simp [infMul, infSign, infNeg, hneg, not_lt.mpr hneg.le]

/-- Multiplying by a factor of sign `'-'` reverses the order. -/
theorem infMul_anti (ha : infSign a = .minus) (h : c ≤ d) : infMul a d ≤ infMul a c := by
  have hplus : infSign (infNeg a) = .plus := by
    cases a with
    | negInf => rfl
    | posInf => simp [infSign] at ha
    | int a =>
      have hneg : a < 0 := by
        by_contra hnneg
        simp [infSign, hnneg] at ha
      simp [infNeg, infSign, hneg.le]
  have hmono := infNeg_le_infNeg (infMul_mono hplus h)
  rwa [infMul_infNeg a c ha, infMul_infNeg a d ha, infNeg_infNeg, infNeg_infNeg] at hmono

/-- With one factor fixed, a product lies between the products at the two ends
of the other factor. -/
theorem infMul_between (a : Bound) {y : Bound} (hc : c ≤ y) (hd : y ≤ d) :
    min (infMul a c) (infMul a d) ≤ infMul a y ∧
      infMul a y ≤ max (infMul a c) (infMul a d) := by
  cases ha : infSign a with
  | plus =>
    exact ⟨min_le_of_left_le (infMul_mono ha hc), le_max_of_le_right (infMul_mono ha hd)⟩
  | minus =>
    exact ⟨min_le_of_right_le (infMul_anti ha hd), le_max_of_le_left (infMul_anti ha hc)⟩

/-- The least and the greatest corner product enclose every product. -/
theorem infMul_corners (ha : a ≤ .int x) (hb : .int x ≤ b) (hc : c ≤ .int y) (hd : .int y ≤ d) :
    [infMul a c, infMul a d, infMul b c, infMul b d].foldl (fun acc z => infMin z acc) .posInf
        ≤ .int (x * y) ∧
      .int (x * y) ≤
        [infMul a c, infMul a d, infMul b c, infMul b d].foldl (fun acc z => infMax z acc)
          .negInf := by
  -- first between the ends of the left factor, then of the right one
  have hx := infMul_between (.int y) ha hb
  rw [infMul_comm _ a, infMul_comm _ b, infMul_comm _ (.int x)] at hx
  have hlow := infMul_between a hc hd
  have hhigh := infMul_between b hc hd
  have hprod : infMul (.int x) (.int y) = .int (x * y) := rfl
  simp only [List.foldl, infMin_eq, infMax_eq, ← hprod]
  constructor
  · refine le_trans ?_ hx.1
    refine le_min (le_trans ?_ hlow.1) (le_trans ?_ hhigh.1) <;> simp
  · refine le_trans hx.2 ?_
    refine max_le (hlow.2.trans (max_le ?_ ?_)) (hhigh.2.trans (max_le ?_ ?_)) <;> simp

theorem mul_boundsSound (h1 : r1.Valid) (h2 : r2.Valid) : BoundsSound .mul r1 r2 := by
  refine boundsSound_of_ends h1 h2 rfl ?_
  intro x y ha hb hc hd
  exact infMul_corners ha hb hc hd

/-! ## Division -/

/-- A non-negative numerator gives smaller quotients for larger
denominators. -/
theorem tdiv_anti {s t : ℤ} (hx : 0 ≤ x) (hs : 0 < s) (hst : s ≤ t) : x.tdiv t ≤ x.tdiv s := by
  rw [Int.tdiv_eq_ediv_of_nonneg hx, Int.tdiv_eq_ediv_of_nonneg hx, Int.le_ediv_iff_mul_le hs]
  calc x / t * s ≤ x / t * t :=
        mul_le_mul_of_nonneg_left hst (Int.ediv_nonneg hx (by omega))
    _ ≤ x := Int.ediv_mul_le x (by omega)

/-- For positive denominators a quotient lies between the quotients at the ends
of the denominator. -/
theorem tdiv_between_of_pos (hp : 0 < p) (hpy : p ≤ y) (hyq : y ≤ q) :
    min (x.tdiv p) (x.tdiv q) ≤ x.tdiv y ∧ x.tdiv y ≤ max (x.tdiv p) (x.tdiv q) := by
  rcases le_total 0 x with hx | hx
  · exact ⟨min_le_of_right_le (tdiv_anti hx (by omega) hyq),
      le_max_of_le_left (tdiv_anti hx hp hpy)⟩
  · have hneg : ∀ s t : ℤ, 0 < s → s ≤ t → x.tdiv s ≤ x.tdiv t := by
      intro s t hs hst
      have := tdiv_anti (show 0 ≤ -x by omega) hs hst
      simp only [Int.neg_tdiv] at this
      omega
    exact ⟨min_le_of_left_le (hneg p y hp hpy), le_max_of_le_right (hneg y q (by omega) hyq)⟩

/-- The four corners of a box of denominators of one sign enclose every
quotient. -/
theorem tdiv_corners {a b : ℤ} (ha : a ≤ x) (hb : x ≤ b) (hp : p ≤ y) (hq : y ≤ q)
    (hsign : 0 < p ∨ q < 0) :
    min (min (a.tdiv p) (a.tdiv q)) (min (b.tdiv p) (b.tdiv q)) ≤ x.tdiv y ∧
      x.tdiv y ≤ max (max (a.tdiv p) (a.tdiv q)) (max (b.tdiv p) (b.tdiv q)) := by
  rcases hsign with hpos | hneg
  · have hlow := tdiv_between_of_pos (x := a) hpos hp hq
    have hhigh := tdiv_between_of_pos (x := b) hpos hp hq
    have hax := Int.tdiv_le_tdiv (show 0 < y by omega) ha
    have hxb := Int.tdiv_le_tdiv (show 0 < y by omega) hb
    omega
  · -- negate the denominator: the quotients change sign
    have hlow := tdiv_between_of_pos (x := a) (show 0 < -q by omega) (neg_le_neg hq) (neg_le_neg hp)
    have hhigh := tdiv_between_of_pos (x := b) (show 0 < -q by omega) (neg_le_neg hq)
      (neg_le_neg hp)
    have hax := Int.tdiv_le_tdiv (show 0 < -y by omega) ha
    have hxb := Int.tdiv_le_tdiv (show 0 < -y by omega) hb
    simp only [Int.tdiv_neg] at hlow hhigh hax hxb
    omega

/-- Every non-zero denominator of the range lies between two denominators of
its own sign that the source tries. -/
theorem exists_denominators {c d : ℤ} (hc : c ≤ y) (hd : y ≤ d) (hy : y ≠ 0) :
    ∃ p ∈ denominators c d, ∃ q ∈ denominators c d, p ≤ y ∧ y ≤ q ∧ (0 < p ∨ q < 0) := by
  have hmin : min c d = c := min_eq_left (hc.trans hd)
  have hmax : max c d = d := max_eq_right (hc.trans hd)
  unfold denominators
  rw [hmin, hmax]
  rcases lt_or_gt_of_ne hy with hneg | hpos
  · refine ⟨c, by simp, ?_⟩
    by_cases hd0 : d < 0
    · exact ⟨d, by simp, hc, hd, .inr hd0⟩
    · refine ⟨-1, ?_, hc, by omega, .inr (by norm_num)⟩
      split_ifs <;> simp <;> omega
  · by_cases hc0 : 0 < c
    · exact ⟨c, by simp, d, by simp, hc, hd, .inl hc0⟩
    · refine ⟨1, ?_, d, by simp, by omega, hd, .inl one_pos⟩
      split_ifs <;> simp <;> omega

theorem mem_quotients {a b c d : ℤ} (hp : p ∈ denominators c d) (hne : p ≠ 0) :
    a.tdiv p ∈ quotients a b c d ∧ b.tdiv p ∈ quotients a b c d := by
  have hmem : p ∈ (denominators c d).filter (· ≠ 0) := by simpa using ⟨hp, hne⟩
  simp only [quotients, List.flatMap_cons, List.flatMap_nil, List.append_nil, List.mem_append]
  exact ⟨.inl (List.mem_map_of_mem hmem), .inr (List.mem_map_of_mem hmem)⟩

/-- `div_bounds/2` on four integers. -/
theorem divBounds_closed {a b c d : ℤ} (hab : a ≤ b) (hcd : c ≤ d) (hz : ¬ (c = 0 ∧ d = 0)) :
    ∃ r, divBounds (.int a, .int b) (.int c, .int d) = some r ∧
      ∀ x y, a ≤ x → x ≤ b → c ≤ y → y ≤ d → y ≠ 0 → x.tdiv y ∈ r := by
  have hnz : ¬ ((Bound.int c, Bound.int d) = (Bound.int 0, Bound.int 0)) := by simpa using hz
  -- some denominator is non-zero, so the list of quotients is not empty
  obtain ⟨y₀, hc₀, hd₀, hy₀⟩ : ∃ y₀, c ≤ y₀ ∧ y₀ ≤ d ∧ y₀ ≠ 0 := by
    by_cases hc : c = 0
    · exact ⟨d, hcd, le_rfl, by omega⟩
    · exact ⟨c, le_rfl, hcd, hc⟩
  obtain ⟨p₀, hp₀, q₀, -, hpy₀, hyq₀, hs₀⟩ := exists_denominators hc₀ hd₀ hy₀
  have hquot : a.tdiv p₀ ∈ quotients a b c d := (mem_quotients hp₀ (by omega)).1
  obtain ⟨lo, hlo⟩ := Option.isSome_iff_exists.mp (List.isSome_min?_of_mem hquot)
  obtain ⟨hi, hhi⟩ := Option.isSome_iff_exists.mp (List.isSome_max?_of_mem hquot)
  have hle := (List.min?_eq_some_iff.mp hlo).2
  have hge := (List.max?_eq_some_iff.mp hhi).2
  have hends : ∀ x y, a ≤ x → x ≤ b → c ≤ y → y ≤ d → y ≠ 0 → lo ≤ x.tdiv y ∧ x.tdiv y ≤ hi := by
    intro x y ha hb hc hd hy
    obtain ⟨p, hp, q, hq, hpy, hyq, hs⟩ := exists_denominators hc hd hy
    have hcorner := tdiv_corners ha hb hpy hyq hs
    obtain ⟨hap, hbp⟩ := mem_quotients (a := a) (b := b) hp (show p ≠ 0 by omega)
    obtain ⟨haq, hbq⟩ := mem_quotients (a := a) (b := b) hq (show q ≠ 0 by omega)
    have h1 := hle _ hap
    have h2 := hle _ hbp
    have h3 := hle _ haq
    have h4 := hle _ hbq
    have h5 := hge _ hap
    have h6 := hge _ hbp
    have h7 := hge _ haq
    have h8 := hge _ hbq
    omega
  obtain ⟨hlow, hhigh⟩ := hends a y₀ le_rfl hab hc₀ hd₀ hy₀
  obtain ⟨r, hr, hmem⟩ := normalize_sound (a := .int lo) (b := .int hi) hlow hhigh
  refine ⟨r, ?_, fun x y ha hb hc hd hy => ?_⟩
  · simp only [divBounds, hnz, ↓reduceIte, hlo, hhi]
    exact hr
  · obtain ⟨hlow, hhigh⟩ := hends x y ha hb hc hd hy
    exact hmem _ hlow hhigh

/-- The quotient by the far end of the denominators, `0` for an infinite end,
bounds a quotient on the side of zero. -/
theorem infDiv_between (a : ℤ) {c : ℤ} (hc : 0 < c) (hcd : .int c ≤ d) :
    ∃ q, infDiv (.int a) d = some q ∧ ∀ y, c ≤ y → .int y ≤ d →
      min (a.tdiv c) q ≤ a.tdiv y ∧ a.tdiv y ≤ max (a.tdiv c) q := by
  match d, hcd with
  | .int d, hcd =>
    rw [Bound.int_le_int] at hcd
    refine ⟨a.tdiv d, by simp [infDiv, show d ≠ 0 by omega], fun y hcy hyd => ?_⟩
    exact tdiv_between_of_pos hc hcy (Bound.int_le_int.mp hyd)
  | .posInf, _ =>
    refine ⟨0, rfl, fun y hcy _ => ?_⟩
    rcases le_total 0 a with ha | ha
    · have hnear := tdiv_anti ha hc hcy
      have hsign := Int.tdiv_nonneg ha (show 0 ≤ y by omega)
      omega
    · have hnear := tdiv_anti (show 0 ≤ -a by omega) hc hcy
      have hsign := Int.tdiv_nonneg (show 0 ≤ -a by omega) (show 0 ≤ y by omega)
      simp only [Int.neg_tdiv] at hnear hsign
      omega

/-- `div_bounds/2` on a numerator without upper end. -/
theorem divBounds_above {a c : ℤ} (hc : 0 < c) (hcd : .int c ≤ d) :
    ∃ r, divBounds (.int a, .posInf) (.int c, d) = some r ∧
      ∀ x y, a ≤ x → c ≤ y → .int y ≤ d → x.tdiv y ∈ r := by
  have hnz : ¬ ((Bound.int c, d) = (Bound.int 0, Bound.int 0)) := by
    simp [show c ≠ 0 by omega]
  obtain ⟨q, hq, hbetween⟩ := infDiv_between a hc hcd
  obtain ⟨r, hr, hmem⟩ := normalize_sound (a := .int (min (a.tdiv c) q)) (b := .posInf)
    (hbetween c le_rfl hcd).1 trivial
  refine ⟨r, ?_, fun x y ha hcy hyd => hmem _ ?_ trivial⟩
  · simp only [divBounds, hnz, hc, ↓reduceIte, hq]
    exact hr
  · exact (hbetween y hcy hyd).1.trans (Int.tdiv_le_tdiv (by omega) ha)

/-- `div_bounds/2` on a numerator without lower end. -/
theorem divBounds_below {b c : ℤ} (hc : 0 < c) (hcd : .int c ≤ d) :
    ∃ r, divBounds (.negInf, .int b) (.int c, d) = some r ∧
      ∀ x y, x ≤ b → c ≤ y → .int y ≤ d → x.tdiv y ∈ r := by
  have hnz : ¬ ((Bound.int c, d) = (Bound.int 0, Bound.int 0)) := by
    simp [show c ≠ 0 by omega]
  obtain ⟨q, hq, hbetween⟩ := infDiv_between b hc hcd
  obtain ⟨r, hr, hmem⟩ := normalize_sound (a := .negInf) (b := .int (max (b.tdiv c) q)) trivial
    (hbetween c le_rfl hcd).2
  refine ⟨r, ?_, fun x y hb hcy hyd => hmem _ trivial ?_⟩
  · simp only [divBounds, hnz, hc, ↓reduceIte, hq]
    exact hr
  · exact (Int.tdiv_le_tdiv (by omega) hb).trans (hbetween y hcy hyd).2

/-- A quotient is not larger than its numerator, whatever the denominator. -/
theorem tdiv_mem_symmetric {a b : ℤ} (ha : a ≤ x) (hb : x ≤ b) (y : ℤ) :
    x.tdiv y ∈ Range.pair (.int (-max |a| |b|)) (.int (max |a| |b|)) := by
  have hself : |x.tdiv y| ≤ |x| := by
    rw [Int.abs_eq_natAbs, Int.abs_eq_natAbs]
    exact Int.ofNat_le.mpr (Int.natAbs_tdiv_le_natAbs x y)
  rw [mem_pair, Bound.int_le_int, Bound.int_le_int, ← abs_le]
  exact hself.trans (abs_le_max_abs_abs ha hb)

/-- `div_bounds/2` returns a range that holds every defined quotient. -/
theorem divBounds_sound (h1 : Canonical a b) (h2 : Canonical c d) :
    ∃ r, divBounds (a, b) (c, d) = some r ∧
      ∀ x y, a ≤ .int x → .int x ≤ b → c ≤ .int y → .int y ≤ d → y ≠ 0 → x.tdiv y ∈ r := by
  by_cases hz : (c, d) = (.int 0, .int 0)
  · exact ⟨.any, by simp [divBounds, hz], fun _ _ _ _ _ _ _ => trivial⟩
  -- a numerator with one infinite end is treated only for denominators above zero
  have hcd : c ≤ d := by
    cases h2 <;> simp_all
  have hfall : (∃ n, c = .int n ∧ 0 < n) ∨ ¬ ∃ n, c = .int n ∧ 0 < n := em _
  cases h1 with
  | any =>
    refine ⟨.any, ?_, fun _ _ _ _ _ _ _ => trivial⟩
    cases h2 <;> simp [divBounds, hz]
  | above ha =>
    rename_i a
    rcases hfall with ⟨n, rfl, hn⟩ | hnot
    · obtain ⟨r, hr, hmem⟩ := divBounds_above (a := a) hn hcd
      exact ⟨r, hr, fun x y hx _ hy hyd _ => hmem x y (by simpa using hx) (by simpa using hy) hyd⟩
    · refine ⟨.any, ?_, fun _ _ _ _ _ _ _ => trivial⟩
      cases h2 <;> simp_all [divBounds]
  | below hb =>
    rename_i b
    rcases hfall with ⟨n, rfl, hn⟩ | hnot
    · obtain ⟨r, hr, hmem⟩ := divBounds_below (b := b) hn hcd
      exact ⟨r, hr, fun x y _ hx hy hyd _ => hmem x y (by simpa using hx) (by simpa using hy) hyd⟩
    · refine ⟨.any, ?_, fun _ _ _ _ _ _ _ => trivial⟩
      cases h2 <;> simp_all [divBounds]
  | closed ha hb hab =>
    rename_i a b
    have hsym : ∀ x y, Bound.int a ≤ .int x → Bound.int x ≤ .int b → x.tdiv y ∈
        Range.pair (.int (-max |a| |b|)) (.int (max |a| |b|)) := by
      intro x y hx hx'
      rw [Bound.int_le_int] at hx hx'
      exact tdiv_mem_symmetric hx hx' y
    cases h2 with
    | closed _ _ hcd' =>
      obtain ⟨r, hr, hmem⟩ := divBounds_closed hab hcd' (by simpa using hz)
      refine ⟨r, hr, fun x y hx hx' hy hy' hne => ?_⟩
      rw [Bound.int_le_int] at hx hx' hy hy'
      exact hmem x y hx hx' hy hy' hne
    | any | below _ => exact ⟨_, rfl, fun x y hx hx' _ _ _ => hsym x y hx hx'⟩
    | above _ => exact ⟨_, by simp [divBounds], fun x y hx hx' _ _ _ => hsym x y hx hx'⟩

theorem div_boundsSound (h1 : r1.Valid) (h2 : r2.Valid) : BoundsSound .div r1 r2 := by
  obtain ⟨r, hr, hmem⟩ := divBounds_sound (canonicalArg_spec h1).1 (canonicalArg_spec h2).1
  exact boundsSound_of_canonical h1 h2 hr hmem

/-! ## Remainder -/

/-- The bound `maxCD` of the source dominates the magnitude of every
remainder. -/
theorem tmod_le_maxCD (hc : c ≤ .int y) (hd : .int y ≤ d) (hy : y ≠ 0) :
    .int |x.tmod y| ≤ infMax (infMax (infAdd (infAbs c) (.int (-1))) (.int 0))
      (infMax (infAdd (infAbs d) (.int (-1))) (.int 0)) := by
  have hlt : |x.tmod y| ≤ |y| - 1 := by
    rw [Int.abs_eq_natAbs, Int.abs_eq_natAbs, Int.natAbs_tmod]
    have := Nat.mod_lt x.natAbs (Int.natAbs_pos.mpr hy)
    omega
  simp only [infMax_eq, le_max_iff]
  rcases le_total 0 y with hpos | hneg
  · right; left
    match d, hd with
    | .posInf, _ => exact Bound.le_posInf _
    | .int d, hd =>
      rw [Bound.int_le_int] at hd
      simp only [infAbs, infAdd, Bound.int_le_int]
      have : |y| ≤ |d| := abs_le_abs_of_nonneg hpos hd
      omega
  · left; left
    cases c with
    | negInf => exact Bound.le_posInf _
    | posInf => exact absurd hc (Bound.posInf_le_int y)
    | int c =>
      rw [Bound.int_le_int] at hc
      simp only [infAbs, infAdd, Bound.int_le_int]
      have : |y| ≤ |c| := abs_le_abs_of_nonpos hneg hc
      omega

/-- A remainder lies between zero and its left operand. -/
theorem tmod_between_zero (x y : ℤ) : min x 0 ≤ x.tmod y ∧ x.tmod y ≤ max x 0 := by
  have hle : (x.tmod y).natAbs ≤ x.natAbs := by
    rw [Int.natAbs_tmod]
    exact Nat.mod_le _ _
  rcases le_total 0 x with hx | hx
  · have := Int.tmod_nonneg y hx
    omega
  · have := Int.tmod_nonneg y (show 0 ≤ -x by omega)
    rw [Int.neg_tmod] at this
    omega

/-- The ends of `rem_bounds/2`, for `m` at least the magnitude of the value
`v`: a value between zero and a member `x` of `{A,B}` lies between the ends
chosen by the signs of `A` and `B`. -/
theorem remBounds_ends {m : Bound} {v : ℤ} (ha : a ≤ .int x) (hb : .int x ≤ b) (hm : .int |v| ≤ m)
    (hlow : min x 0 ≤ v) (hhigh : v ≤ max x 0) :
    (infSign a = .minus → infMax a (infNeg m) ≤ .int v) ∧
      (infSign b = .plus → .int v ≤ infMin b m) ∧
      (infSign a = .plus → 0 ≤ v) ∧ (infSign b = .minus → v ≤ 0) := by
  have hneg : infNeg m ≤ .int v := by
    rw [infNeg_le_int]
    exact (Bound.int_le_int.mpr (neg_le_abs v)).trans hm
  have hpos : .int v ≤ m := (Bound.int_le_int.mpr (le_abs_self v)).trans hm
  rw [infMax_eq, infMin_eq]
  refine ⟨fun hs => max_le ?_ hneg, fun hs => le_min ?_ hpos, fun hs => ?_, fun hs => ?_⟩
  · cases a <;> simp_all [infSign]
    omega
  · cases b <;> simp_all [infSign]
    omega
  · cases a <;> simp_all [infSign]
    omega
  · cases b <;> simp_all [infSign]
    omega

/-- `rem_bounds/2` returns a range that holds zero and every defined
remainder. -/
theorem remBounds_sound (h1 : Canonical a b) :
    ∃ r, remBounds (a, b) (c, d) = some r ∧
      ∀ x y, a ≤ .int x → .int x ≤ b → c ≤ .int y → .int y ≤ d → y ≠ 0 → x.tmod y ∈ r := by
  generalize hm : infMax (infMax (infAdd (infAbs c) (.int (-1))) (.int 0))
    (infMax (infAdd (infAbs d) (.int (-1))) (.int 0)) = m
  have hab : ∃ x, a ≤ .int x ∧ .int x ≤ b := by
    cases h1 with
    | any => exact ⟨0, by simp, by simp⟩
    | below _ => exact ⟨_, by simp, le_rfl⟩
    | above _ => exact ⟨_, le_rfl, by simp⟩
    | closed _ _ hab => exact ⟨_, le_rfl, by simpa using hab⟩
  have hm0 : .int 0 ≤ m := by
    rw [← hm]
    simp [infMax_eq]
  -- zero takes part so that the set of values is never empty
  let S : ℤ → Prop := fun v => ∃ x, (a ≤ .int x ∧ .int x ≤ b) ∧
    .int |v| ≤ m ∧ min x 0 ≤ v ∧ v ≤ max x 0
  have hzero : S 0 := by
    obtain ⟨x, hx⟩ := hab
    exact ⟨x, hx, by simpa using hm0, by simp, by simp⟩
  have hrem : ∀ x y, a ≤ .int x → .int x ≤ b → c ≤ .int y → .int y ≤ d → y ≠ 0 → S (x.tmod y) := by
    intro x y hx hx' hy hy' hne
    have hmag := tmod_le_maxCD (x := x) hy hy' hne
    rw [hm] at hmag
    exact ⟨x, ⟨hx, hx'⟩, hmag, tmod_between_zero x y⟩
  have hsigns : ¬ (infSign a = .plus ∧ infSign b = .minus) := by
    rintro ⟨hsa, hsb⟩
    obtain ⟨x, hx⟩ := hab
    cases a <;> cases b <;> simp_all [infSign]
    omega
  have hends : ∀ v, S v → (infSign a = .minus → (infMax a (infNeg m)).Below v) ∧
      (infSign b = .plus → (infMin b m).Above v) ∧
      (infSign a = .plus → (Bound.int 0).Below v) ∧
      (infSign b = .minus → (Bound.int 0).Above v) := by
    rintro v ⟨x, ⟨hx, hx'⟩, hmag, hlow, hhigh⟩
    obtain ⟨e1, e2, e3, e4⟩ := remBounds_ends hx hx' hmag hlow hhigh
    exact ⟨fun h => Bound.below_of_le (e1 h), fun h => Bound.above_of_le (e2 h), e3, e4⟩
  have hcase : ∃ lo hi, remBounds (a, b) (c, d) = normalize (lo, hi) ∧
      (∀ v, S v → lo.Below v) ∧ ∀ v, S v → hi.Above v := by
    cases hsa : infSign a with
    | minus =>
      cases hsb : infSign b with
      | minus =>
        exact ⟨_, _, by simp only [remBounds, hm, hsa, hsb],
          fun v hv => (hends v hv).1 hsa, fun v hv => (hends v hv).2.2.2 hsb⟩
      | plus =>
        exact ⟨_, _, by simp only [remBounds, hm, hsa, hsb],
          fun v hv => (hends v hv).1 hsa, fun v hv => (hends v hv).2.1 hsb⟩
    | plus =>
      cases hsb : infSign b with
      | minus => exact absurd ⟨hsa, hsb⟩ hsigns
      | plus =>
        exact ⟨_, _, by simp only [remBounds, hm, hsa, hsb],
          fun v hv => (hends v hv).2.2.1 hsa, fun v hv => (hends v hv).2.1 hsb⟩
  obtain ⟨lo, hi, heq, hlo, hhi⟩ := hcase
  obtain ⟨r, hr, hmem⟩ := normalize_sound (hlo 0 hzero) (hhi 0 hzero)
  refine ⟨r, by rw [heq, hr], fun x y hx hx' hy hy' hne => ?_⟩
  have hv := hrem x y hx hx' hy hy' hne
  exact hmem _ (hlo _ hv) (hhi _ hv)

theorem rem_boundsSound (h1 : r1.Valid) (h2 : r2.Valid) : BoundsSound .rem r1 r2 := by
  obtain ⟨r, hr, hmem⟩ := remBounds_sound (canonicalArg_spec h1).1
  exact boundsSound_of_canonical h1 h2 hr hmem

/-! ## The unary operators -/

/-- Ends that enclose every result of a unary operator. -/
theorem boundsSound₂_of_ends {op : UnOp} (hr : r.Valid) {lo hi : Bound}
    (heq : bounds₂ op r = normalize (lo, hi))
    (hends : ∀ x, (canonicalArg r).1 ≤ .int x → .int x ≤ (canonicalArg r).2 →
      lo ≤ .int (op.eval x) ∧ .int (op.eval x) ≤ hi) : BoundsSound₂ op r := by
  obtain ⟨x₀, hx₀⟩ := hr.exists_mem
  have hall : ∀ x ∈ r, lo.Below (op.eval x) ∧ hi.Above (op.eval x) := by
    intro x hx
    have hx' := (canonicalArg_spec hr).2 x hx
    obtain ⟨hlo, hhi⟩ := hends x hx'.1 hx'.2
    exact ⟨Bound.below_of_le hlo, Bound.above_of_le hhi⟩
  obtain ⟨res, hres, hmem⟩ := normalize_sound (hall x₀ hx₀).1 (hall x₀ hx₀).2
  exact ⟨res, by rw [heq, hres], fun x hx => hmem _ (hall x hx).1 (hall x hx).2⟩

theorem bnot_ends (ha : a ≤ .int x) (hb : .int x ≤ b) :
    infAdd (infNeg b) (.int (-1)) ≤ .int (Int.lnot x) ∧
      .int (Int.lnot x) ≤ infAdd (infNeg a) (.int (-1)) := by
  rw [IntBits.lnot_eq]
  exact ⟨infAdd_le (infNeg_le_int.mpr (by simpa using hb)) le_rfl,
    le_infAdd (int_le_infNeg.mpr (by simpa using ha)) le_rfl⟩

theorem bnot_boundsSound (hr : r.Valid) : BoundsSound₂ .bnot r := by
  refine boundsSound₂_of_ends hr rfl ?_
  intro x ha hb
  exact bnot_ends ha hb

/-- The magnitude of a member is at least that of the end on its own side of
zero and at most that of the other end. -/
theorem abs_le_ends (ha : a ≤ .int x) (hb : .int x ≤ b) :
    (0 ≤ x → .int |x| ≤ infAbs b) ∧ (x < 0 → .int |x| ≤ infAbs a) ∧
      (infSign a = .plus → infAbs a ≤ .int |x|) ∧ (infSign b = .minus → infAbs b ≤ .int |x|) := by
  refine ⟨fun hx => ?_, fun hx => ?_, fun hs => ?_, fun hs => ?_⟩
  · cases b <;> simp_all [infAbs]
    exact abs_le_abs_of_nonneg hx hb
  · cases a <;> simp_all [infAbs]
    exact abs_le_abs_of_nonpos hx.le ha
  · cases a <;> simp_all [infAbs, infSign]
    exact abs_le_abs_of_nonneg hs ha
  · cases b <;> simp_all [infAbs, infSign]
    exact abs_le_abs_of_nonpos hs.le hb

/-- The lower end for `abs` is `0` where the range crosses zero and the smaller
magnitude of the ends elsewhere. -/
theorem abs_ends (ha : a ≤ .int x) (hb : .int x ≤ b) :
    (match infSign a, infSign b with
      | .minus, .plus => Bound.int 0
      | _, _ => infMin (infAbs a) (infAbs b)) ≤ .int |x| ∧
      .int |x| ≤ infMax (infAbs a) (infAbs b) := by
  obtain ⟨hnonneg, hneg, hplus, hminus⟩ := abs_le_ends ha hb
  rw [infMin_eq, infMax_eq]
  constructor
  · cases hsa : infSign a with
    | plus => exact min_le_of_left_le (hplus hsa)
    | minus =>
      cases hsb : infSign b with
      | minus => exact min_le_of_right_le (hminus hsb)
      | plus => exact Bound.int_le_int.mpr (abs_nonneg x)
  · rcases le_or_gt 0 x with hx | hx
    · exact le_max_of_le_right (hnonneg hx)
    · exact le_max_of_le_left (hneg hx)

theorem abs_boundsSound (hr : r.Valid) : BoundsSound₂ .abs r := by
  refine boundsSound₂_of_ends hr rfl ?_
  intro x ha hb
  exact abs_ends ha hb

/-! ## All arithmetic operators -/

/-- The operators of `bounds/3` that are neither shifts nor bitwise. -/
def BinOp.IsArith : BinOp → Prop
  | .band | .bor | .bxor | .bsr | .bsl => False
  | _ => True

/-- The arithmetic ranges are sound and `bounds` never crashes on valid
ranges, whatever the size of the ends. -/
theorem arith_boundsSound {r1 r2 : Range} (h1 : r1.Valid) (h2 : r2.Valid) :
    (∀ op : BinOp, op.IsArith → BoundsSound op r1 r2) ∧ ∀ op : UnOp, BoundsSound₂ op r1 := by
  constructor
  · intro op hop
    cases op with
    | add => exact add_boundsSound h1 h2
    | sub => exact sub_boundsSound h1 h2
    | mul => exact mul_boundsSound h1 h2
    | div => exact div_boundsSound h1 h2
    | rem => exact rem_boundsSound h1 h2
    | max => exact max_boundsSound h1 h2
    | min => exact min_boundsSound h1 h2
    | band | bor | bxor | bsr | bsl => exact hop.elim
  · intro op
    cases op with
    | bnot => exact bnot_boundsSound h1
    | abs => exact abs_boundsSound h1

/-- A denominator range that crosses zero: `-12 div 1` and `12 div -1` are
both in the range computed for `{-12,12} div {-3,5}`. -/
theorem arith_boundsSound_at :
    BoundsSound .div (.pair (.int (-12)) (.int 12)) (.pair (.int (-3)) (.int 5)) ∧
      BoundsSound₂ .abs (.pair (.int (-12)) (.int 12)) := by
  have h := @arith_boundsSound (.pair (.int (-12)) (.int 12)) (.pair (.int (-3)) (.int 5))
    (by decide) (by decide)
  exact ⟨h.1 .div trivial, h.2 .abs⟩

end Otp.Compiler.BeamBounds
