import Otp.Compiler.BeamTypes.WellFormed

/-!
# Soundness of the numeric types

On ranges of integers `glb_ranges/2` intersects and `lub_ranges/2` encloses.
A range of `#t_number{}` that meets `#t_float{}` has its ends converted to
floats. No float is lost by that, but an end that is not the value of a float
can move outwards.
-/

namespace Otp.Compiler.BeamTypes

open Otp.Lib

/-! ## Ends -/

/-- A low end of a range of integers. -/
def End.IsLow (e : End) : Prop := e = .negInf ∨ ∃ m, e = .int m

/-- A high end of a range of integers. -/
def End.IsHigh (e : End) : Prop := e = .posInf ∨ ∃ m, e = .int m

theorem NumRange.Valid.ends {min max : End} (h : (NumRange.pair min max).Valid) :
    min.IsLow ∧ max.IsHigh := by
  cases min <;> cases max <;> simp_all [NumRange.Valid, End.IsLow, End.IsHigh]

variable {a b e : End} {n : ℤ} {f : Flt} {r1 r2 r : NumRange} {q : {q : ℚ // Double.IsDouble q}}
  {t : NumberType} {v : Term} {p : End → Prop}

/-- What membership of an integer and of a float in a range have in common: it
asks for a low and a high end on either side. -/
structure Reading (mem : NumRange → Prop) (low high : End → Prop) : Prop where
  any : mem .any
  pair : ∀ a b, mem (.pair a b) ↔ low a ∧ high b
  negInf : low .negInf
  posInf : high .posInf
  low_int : ∀ {m k : ℤ}, m ≤ k → low (.int k) → low (.int m)
  high_int : ∀ {m k : ℤ}, m ≤ k → high (.int m) → high (.int k)
  le : ∀ {m k : ℤ}, low (.int m) → high (.int k) → m ≤ k

theorem readsInt (n : ℤ) : Reading (·.MemInt n) (·.LeInt n) (·.GeInt n) where
  any := trivial
  pair _ _ := Iff.rfl
  negInf := trivial
  posInf := trivial
  low_int h hk := le_trans h hk
  high_int h hm := le_trans hm h
  le h1 h2 := le_trans h1 h2

theorem readsFloat (f : Flt) : Reading (·.MemFloat f) (·.LeFloat f) (·.GeFloat f) where
  any := trivial
  pair _ _ := Iff.rfl
  negInf := trivial
  posInf := trivial
  low_int h hk := le_trans (Int.cast_le.mpr h) hk
  high_int h hm := le_trans hm (Int.cast_le.mpr h)
  le h1 h2 := Int.cast_le.mp (le_trans h1 h2)

/-- Two low ends are comparable. -/
theorem infGe_total (ha : a.IsLow) (hb : b.IsLow) : infGe a b = true ∨ infGe b a = true := by
  rcases ha with rfl | ⟨m, rfl⟩ <;> rcases hb with rfl | ⟨k, rfl⟩ <;>
    simp [infGe, End.termLe, le_total]

/-! ## `glb_ranges/2` -/

/-- Ranges with a common member have a meet. -/
theorem glbRanges_pair {c d : End} (h1 : (NumRange.pair a b).Valid) (h2 : (NumRange.pair c d).Valid)
    (had : infLe a d = true) (hcb : infLe c b = true) :
    glbRanges (.pair a b) (.pair c d) = some (.pair (infMax a c) (infMin b d)) := by
  rw [glbRanges]
  rcases infGe_total h1.ends.1 h2.ends.1 with h | h <;> simp [h, had, hcb]

/-- The larger of two ends is one of them. -/
theorem infMax_ind (ha : p a) (hb : p b) : p (infMax a b) := by
  unfold infMax
  split <;> first | assumption | (split_ifs <;> assumption)

theorem infMin_ind (ha : p a) (hb : p b) : p (infMin a b) := by
  unfold infMin
  split <;> first | assumption | (split_ifs <;> assumption)

/-- Integral ends are not moved. -/
theorem integralRange_mem (ha : a.IsLow) (hb : b.IsHigh) :
    integralRange (.pair a b) = .pair a b ∨
      (integralRange (.pair a b) = .any ∧ a = .negInf ∧ b = .posInf) := by
  rcases ha with rfl | ⟨m, rfl⟩ <;> rcases hb with rfl | ⟨k, rfl⟩ <;>
    simp [integralRange, End.floor, End.ceil]

namespace Reading

variable {mem : NumRange → Prop} {low high : End → Prop} (h : Reading mem low high)

include h

theorem infMax_low (ha : a.IsLow) (hb : b.IsLow) : low (infMax a b) ↔ low a ∧ low b := by
  rcases ha with rfl | ⟨m, rfl⟩ <;> rcases hb with rfl | ⟨k, rfl⟩ <;>
    simp only [infMax, End.termLe, h.negInf, true_and, and_true, decide_eq_true_eq]
  split_ifs with hkm
  · exact ⟨fun hm => ⟨hm, h.low_int hkm hm⟩, And.left⟩
  · exact ⟨fun hk => ⟨h.low_int (not_le.mp hkm).le hk, hk⟩, And.right⟩

theorem infMin_high (ha : a.IsHigh) (hb : b.IsHigh) : high (infMin a b) ↔ high a ∧ high b := by
  rcases ha with rfl | ⟨m, rfl⟩ <;> rcases hb with rfl | ⟨k, rfl⟩ <;>
    simp only [infMin, End.termLe, h.posInf, true_and, and_true, decide_eq_true_eq, if_true,
      Bool.false_eq_true, if_false]
  split_ifs with hmk
  · exact ⟨fun hm => ⟨hm, h.high_int hmk hm⟩, And.left⟩
  · exact ⟨fun hk => ⟨h.high_int (not_le.mp hmk).le hk, hk⟩, And.right⟩

theorem infLe (ha : a.IsLow) (hb : b.IsHigh) (h1 : low a) (h2 : high b) : infLe a b = true := by
  rcases ha with rfl | ⟨m, rfl⟩ <;> rcases hb with rfl | ⟨k, rfl⟩ <;>
    simp [BeamTypes.infLe, End.termLe]
  exact h.le h1 h2

theorem integralRange (ha : a.IsLow) (hb : b.IsHigh) :
    mem (integralRange (.pair a b)) ↔ mem (.pair a b) := by
  rcases integralRange_mem ha hb with heq | ⟨heq, rfl, rfl⟩
  · rw [heq]
  · rw [heq, h.pair]
    exact ⟨fun _ => ⟨h.negInf, h.posInf⟩, fun _ => h.any⟩

/-- The meet of two ranges, made integral, is what they have in common. -/
theorem glbRanges_iff (h1 : r1.Valid) (h2 : r2.Valid) (hglb : glbRanges r1 r2 = some r) :
    mem (BeamTypes.integralRange r) ↔ mem r1 ∧ mem r2 := by
  match r1, r2 with
  | .any, .any =>
    cases hglb
    exact iff_of_true h.any ⟨h.any, h.any⟩
  | .any, .pair c d =>
    cases hglb
    rw [h.integralRange h2.ends.1 h2.ends.2, and_iff_right h.any]
  | .pair a b, .any =>
    cases hglb
    rw [h.integralRange h1.ends.1 h1.ends.2, and_iff_left h.any]
  | .pair a b, .pair c d =>
    rw [glbRanges] at hglb
    split_ifs at hglb
    cases hglb
    rw [h.integralRange (infMax_ind h1.ends.1 h2.ends.1) (infMin_ind h1.ends.2 h2.ends.2), h.pair,
      h.pair, h.pair, h.infMax_low h1.ends.1 h2.ends.1, h.infMin_high h1.ends.2 h2.ends.2]
    exact and_and_and_comm

theorem glbRanges_mem (h1 : r1.Valid) (h2 : r2.Valid) (hm1 : mem r1) (hm2 : mem r2) :
    ∃ r, glbRanges r1 r2 = some r ∧ mem (BeamTypes.integralRange r) := by
  obtain ⟨r, hr⟩ : ∃ r, glbRanges r1 r2 = some r := by
    match r1, r2 with
    | .any, .any | .any, .pair _ _ | .pair _ _, .any => exact ⟨_, rfl⟩
    | .pair a b, .pair c d =>
      rw [h.pair] at hm1 hm2
      exact ⟨_, glbRanges_pair h1 h2 (h.infLe h1.ends.1 h2.ends.2 hm1.1 hm2.2)
        (h.infLe h2.ends.1 h1.ends.2 hm2.1 hm1.2)⟩
  exact ⟨r, hr, (h.glbRanges_iff h1 h2 hr).mpr ⟨hm1, hm2⟩⟩

end Reading

/-! ## Conversion to floats -/

theorem Flt.toRat_isDouble (f : Flt) : Double.IsDouble f.toRat := by
  cases f with
  | negZero => exact Double.zero_isDouble
  | num q => exact q.2

theorem one_isDouble : Double.IsDouble 1 :=
  ⟨1, 0, by norm_num, by norm_num, by positivity, by simp⟩

/-- The low end that `glb_number/2` compares floats with. -/
def lowFloat (e : End) : End := safeFloat (if e = .int 0 then .float .negZero else e)

/-- The high end that `glb_number/2` compares floats with. -/
def highFloat (e : End) : End :=
  safeFloat (if e = .int 0 then .float (.num ⟨0, Double.zero_isDouble⟩) else e)

theorem totalLe_num :
    (Flt.num q).totalLe f = true ↔ (f = .negZero ∧ q.1 < 0) ∨ (f ≠ .negZero ∧ q.1 ≤ f.toRat) := by
  cases f <;> simp [Flt.totalLe, Flt.toRat]

theorem totalLe_num' : f.totalLe (.num q) = true ↔ f.toRat ≤ q.1 := by
  cases f <;> simp [Flt.totalLe, Flt.toRat]

theorem negZero_totalLe : Flt.negZero.totalLe f = true ↔ 0 ≤ f.toRat := by
  cases f <;> simp [Flt.totalLe, Flt.toRat]

/-- A float that is not below an integer is not below its conversion. -/
theorem lowFloat_leFloat (he : e.IsLow) (h : e.LeFloat f) : (lowFloat e).LeFloat f := by
  rcases he with rfl | ⟨n, rfl⟩
  · trivial
  by_cases hn : n = 0
  · subst hn
    simpa [lowFloat, safeFloat, End.LeFloat, negZero_totalLe] using h
  simp only [lowFloat, End.int.injEq, hn, if_false, safeFloat]
  cases hof : Double.ofInt n with
  | none =>
    have hpos := (Double.lt_of_ofInt_none hof f.toRat_isDouble).1
    have : ¬ 0 < n := fun h0 => absurd (hpos h0) (not_lt.mpr h)
    simp only [if_pos (show n < 0 by omega)]
    trivial
  | some q =>
    show (Flt.num q).totalLe f = true
    rw [totalLe_num]
    have hle := Double.ofInt_le hof f.toRat_isDouble h
    cases f with
    | num p => exact .inr ⟨by simp, hle⟩
    | negZero =>
      -- `-0.0` is above a negative integer, so above `-1`
      refine .inl ⟨rfl, ?_⟩
      have hn' : n ≤ -1 := by
        have : (n : ℚ) ≤ 0 := h
        have : n ≤ 0 := by exact_mod_cast this
        omega
      have := Double.ofInt_le hof one_isDouble.neg (by exact_mod_cast hn')
      linarith

theorem highFloat_geFloat (he : e.IsHigh) (h : e.GeFloat f) : (highFloat e).GeFloat f := by
  rcases he with rfl | ⟨n, rfl⟩
  · trivial
  by_cases hn : n = 0
  · subst hn
    simpa [highFloat, safeFloat, End.GeFloat, totalLe_num'] using h
  simp only [highFloat, End.int.injEq, hn, if_false, safeFloat]
  cases hof : Double.ofInt n with
  | none =>
    have hneg := (Double.lt_of_ofInt_none hof f.toRat_isDouble).2
    have : ¬ n < 0 := fun h0 => absurd (hneg h0) (not_lt.mpr h)
    simp only [if_neg this]
    trivial
  | some q =>
    show f.totalLe (.num q) = true
    rw [totalLe_num']
    exact Double.le_ofInt hof f.toRat_isDouble h

/-- The conversion of a low end to a float does not move it down. -/
def End.RoundsUp (e : End) : Prop :=
  ∀ n q, e = .int n → Double.ofInt n = some q → (n : ℚ) ≤ q.1

/-- The conversion of a high end to a float does not move it up. -/
def End.RoundsDown (e : End) : Prop :=
  ∀ n q, e = .int n → Double.ofInt n = some q → q.1 ≤ n

/-- The conversion of the ends to floats does not widen the range. This holds
for all integers that are the value of a float; `2 ^ 53 + 1` as a low end is
moved down to `2 ^ 53`. -/
def NumRange.RoundsInward : NumRange → Prop
  | .any => True
  | .pair min max => min.RoundsUp ∧ max.RoundsDown

theorem leFloat_of_lowFloat (he : e.IsLow) (hr : e.RoundsUp) (h : (lowFloat e).LeFloat f) :
    e.LeFloat f := by
  rcases he with rfl | ⟨n, rfl⟩
  · trivial
  by_cases hn : n = 0
  · subst hn
    simpa [lowFloat, safeFloat, End.LeFloat, negZero_totalLe] using h
  simp only [lowFloat, End.int.injEq, hn, if_false, safeFloat] at h
  cases hof : Double.ofInt n with
  | none =>
    have hneg := (Double.lt_of_ofInt_none hof f.toRat_isDouble).2
    simp only [hof] at h
    split_ifs at h with h0
    · exact (hneg h0).le
    · exact h.elim
  | some q =>
    simp only [hof] at h
    have hle := hr n q rfl hof
    rcases totalLe_num.mp h with ⟨rfl, hq⟩ | ⟨-, hq⟩
    · exact hle.trans hq.le
    · exact hle.trans hq

theorem geFloat_of_highFloat (he : e.IsHigh) (hr : e.RoundsDown) (h : (highFloat e).GeFloat f) :
    e.GeFloat f := by
  rcases he with rfl | ⟨n, rfl⟩
  · trivial
  by_cases hn : n = 0
  · subst hn
    simpa [highFloat, safeFloat, End.GeFloat, totalLe_num'] using h
  simp only [highFloat, End.int.injEq, hn, if_false, safeFloat] at h
  cases hof : Double.ofInt n with
  | none =>
    have hpos := (Double.lt_of_ofInt_none hof f.toRat_isDouble).1
    simp only [hof] at h
    split_ifs at h with h0
    · exact h.elim
    · exact (hpos (by omega)).le
  | some q =>
    simp only [hof] at h
    exact (totalLe_num'.mp h).trans (hr n q rfl hof)

/-- The range of floats in a number type. -/
theorem glbNumberFloat_any {r : NumRange} : ∃ s, glbNumberFloat r .any = some (.float s) ∧
    ∀ f, s.MemFloat f ↔ match r with
      | .any => True
      | .pair a b => (lowFloat a).LeFloat f ∧ (highFloat b).GeFloat f := by
  cases r with
  | any => exact ⟨.any, rfl, fun _ => Iff.rfl⟩
  | pair a b =>
    have heq : glbNumberFloat (.pair a b) .any =
        floatFromRange (some (numberToFloatRange (.pair a b))) := rfl
    rw [heq, numberToFloatRange, floatFromRange]
    split
    · rename_i hlow hhigh
      replace hlow : lowFloat a = .negInf := hlow
      replace hhigh : highFloat b = .posInf := hhigh
      exact ⟨_, rfl, fun f => by simp [NumRange.MemFloat, hlow, hhigh, End.LeFloat, End.GeFloat]⟩
    · exact ⟨_, rfl, fun f => Iff.rfl⟩

/-! ## Numeric types -/

theorem NumberType.mem_int : t.Mem (.int n) ↔
    ∃ r, (t = .integer r ∨ t = .number r) ∧ r.MemInt n := by
  cases t <;> simp [NumberType.Mem]

theorem NumberType.mem_float : t.Mem (.float f) ↔
    ∃ r, (t = .float r ∨ t = .number r) ∧ r.MemFloat f := by
  cases t <;> simp [NumberType.Mem]

theorem NumberType.Mem.number (h : t.Mem v) : (∃ n, v = .int n) ∨ ∃ f, v = .float f := by
  cases t <;> cases v <;> simp_all [NumberType.Mem]

section Glb

variable {num : NumRange → Prop} {a b c : NumberType} {v : Term}

/-- A common member of two numeric types is in their meet. -/
theorem glbNumber_complete (ha : a.Valid num) (hb : b.Valid num) (h1 : a.Mem v) (h2 : b.Mem v) :
    ∃ c, glbNumber a b = some c ∧ c.Mem v := by
  unfold glbNumber
  split_ifs with heq
  · exact ⟨a, rfl, h1⟩
  -- the float part of a number type meets `#t_float{}`
  have hfloat : ∀ {r : NumRange} {f : Flt}, r.Valid → r.MemFloat f →
      ∃ c, glbNumberFloat r .any = some c ∧ c.Mem (.float f) := by
    intro r f hr hf
    obtain ⟨s, hs, hmem⟩ := @glbNumberFloat_any r
    refine ⟨_, hs, (hmem f).mpr ?_⟩
    cases r with
    | any => trivial
    | pair x y => exact ⟨lowFloat_leFloat hr.ends.1 hf.1, highFloat_geFloat hr.ends.2 hf.2⟩
  have hint : ∀ {r1 r2 : NumRange} {n : ℤ}, r1.Valid → r2.Valid → r1.MemInt n → r2.MemInt n →
      ∃ c, integerFromRange (glbRanges r1 r2) = some c ∧ c.Mem (.int n) := by
    intro r1 r2 n hr1 hr2 hn1 hn2
    obtain ⟨r, hr, hmem⟩ := (readsInt n).glbRanges_mem hr1 hr2 hn1 hn2
    exact ⟨.integer (integralRange r), by rw [hr]; rfl, hmem⟩
  rcases h1.number with ⟨n, rfl⟩ | ⟨f, rfl⟩
  · obtain ⟨r1, ha', hn1⟩ := NumberType.mem_int.mp h1
    obtain ⟨r2, hb', hn2⟩ := NumberType.mem_int.mp h2
    rcases ha' with rfl | rfl <;> rcases hb' with rfl | rfl
    · exact hint ha hb hn1 hn2
    · exact hint ha hb.1 hn1 hn2
    · exact hint ha.1 hb hn1 hn2
    · obtain ⟨r, hr, hmem⟩ := (readsInt n).glbRanges_mem ha.1 hb.1 hn1 hn2
      refine ⟨.number (integralRange r), ?_, hmem⟩
      show numberFromRange (glbRanges r1 r2) = _
      rw [hr]
      rfl
  · obtain ⟨r1, ha', hf1⟩ := NumberType.mem_float.mp h1
    obtain ⟨r2, hb', hf2⟩ := NumberType.mem_float.mp h2
    rcases ha' with rfl | rfl <;> rcases hb' with rfl | rfl
    · exact absurd (by rw [show r1 = .any from ha, show r2 = .any from hb]) heq
    · obtain rfl : r1 = .any := ha
      exact hfloat hb.1 hf2
    · obtain rfl : r2 = .any := hb
      exact hfloat ha.1 hf1
    · obtain ⟨r, hr, hmem⟩ := (readsFloat f).glbRanges_mem ha.1 hb.1 hf1 hf2
      refine ⟨.number (integralRange r), ?_, hmem⟩
      show numberFromRange (glbRanges r1 r2) = _
      rw [hr]
      rfl

/-- The meet of two numeric types is within both, if ends are converted
inwards. -/
theorem glbNumber_lower (ha : a.Valid NumRange.RoundsInward) (hb : b.Valid NumRange.RoundsInward)
    (h : glbNumber a b = some c) (hv : c.Mem v) : a.Mem v ∧ b.Mem v := by
  unfold glbNumber at h
  split_ifs at h with heq
  · subst heq
    cases h
    exact ⟨hv, hv⟩
  have hfloat : ∀ {r : NumRange}, r.Valid → r.RoundsInward → glbNumberFloat r .any = some c →
      ∃ f, v = .float f ∧ r.MemFloat f := by
    intro r hr hround h
    obtain ⟨s, hs, hmem⟩ := @glbNumberFloat_any r
    rw [hs] at h
    cases h
    rcases hv.number with ⟨n, rfl⟩ | ⟨f, rfl⟩
    · exact hv.elim
    refine ⟨f, rfl, ?_⟩
    have := (hmem f).mp hv
    cases r with
    | any => trivial
    | pair x y => exact ⟨leFloat_of_lowFloat hr.ends.1 hround.1 this.1,
        geFloat_of_highFloat hr.ends.2 hround.2 this.2⟩
  have hint : ∀ {r1 r2 : NumRange}, r1.Valid → r2.Valid →
      integerFromRange (glbRanges r1 r2) = some c → ∃ n, v = .int n ∧ r1.MemInt n ∧
        r2.MemInt n := by
    intro r1 r2 hr1 hr2 h
    obtain ⟨r, hr, rfl⟩ := Option.map_eq_some_iff.mp h
    rcases hv.number with ⟨n, rfl⟩ | ⟨f, rfl⟩
    · exact ⟨n, rfl, ((readsInt n).glbRanges_iff hr1 hr2 hr).mp hv⟩
    · exact hv.elim
  match a, b with
  | .float r1, .float r2 =>
    exact absurd (by rw [show r1 = .any from ha, show r2 = .any from hb]) heq
  | .integer r1, .integer r2 =>
    obtain ⟨n, rfl, h1, h2⟩ := hint ha hb h
    exact ⟨h1, h2⟩
  | .integer r1, .number r2 =>
    obtain ⟨n, rfl, h1, h2⟩ := hint ha hb.1 h
    exact ⟨h1, h2⟩
  | .number r1, .integer r2 =>
    obtain ⟨n, rfl, h1, h2⟩ := hint ha.1 hb h
    exact ⟨h1, h2⟩
  | .number r1, .number r2 =>
    obtain ⟨r, hr, rfl⟩ := Option.map_eq_some_iff.mp h
    rcases hv.number with ⟨n, rfl⟩ | ⟨f, rfl⟩
    · exact ((readsInt n).glbRanges_iff ha.1 hb.1 hr).mp hv
    · exact ((readsFloat f).glbRanges_iff ha.1 hb.1 hr).mp hv
  | .number r1, .float r2 =>
    obtain rfl : r2 = .any := hb
    obtain ⟨f, rfl, hf⟩ := hfloat ha.1 ha.2 h
    exact ⟨hf, trivial⟩
  | .float r1, .number r2 =>
    obtain rfl : r1 = .any := ha
    obtain ⟨f, rfl, hf⟩ := hfloat hb.1 hb.2 h
    exact ⟨trivial, hf⟩
  | .integer _, .float _ | .float _, .integer _ => exact absurd h (by simp)

end Glb

theorem NumRange.Valid.eq_any (h : r.Valid) (hall : ∀ n, r.MemInt n) : r = .any := by
  cases r with
  | any => rfl
  | pair a b =>
    rcases h.ends.1 with rfl | ⟨m, rfl⟩
    · rcases h.ends.2 with rfl | ⟨m, rfl⟩
      · exact h.elim
      · exact absurd (hall (m + 1)).2 (by simp [End.GeInt])
    · exact absurd (hall (m - 1)).1 (by simp [End.LeInt])

/-! ## `lub/2` -/

namespace Reading

variable {mem : NumRange → Prop} {low high : End → Prop} (h : Reading mem low high)

include h

theorem infMin_low (ha : a.IsLow) (hb : b.IsLow) : low (infMin a b) ↔ low a ∨ low b := by
  rcases ha with rfl | ⟨m, rfl⟩ <;> rcases hb with rfl | ⟨k, rfl⟩ <;>
    simp only [infMin, End.termLe, h.negInf, true_or, or_true, decide_eq_true_eq]
  split_ifs with hmk
  · exact ⟨.inl, fun h' => h'.elim id (h.low_int hmk)⟩
  · exact ⟨.inr, fun h' => h'.elim (h.low_int (not_le.mp hmk).le) id⟩

theorem infMax_high (ha : a.IsHigh) (hb : b.IsHigh) : high (infMax a b) ↔ high a ∨ high b := by
  rcases ha with rfl | ⟨m, rfl⟩ <;> rcases hb with rfl | ⟨k, rfl⟩ <;>
    simp only [infMax, End.termLe, h.posInf, true_or, or_true, decide_eq_true_eq, if_true,
      Bool.false_eq_true, if_false]
  split_ifs with hkm
  · exact ⟨.inl, fun h' => h'.elim id (h.high_int hkm)⟩
  · exact ⟨.inr, fun h' => h'.elim (h.high_int (not_le.mp hkm).le) id⟩

theorem lubRanges_mem (h1 : r1.Valid) (h2 : r2.Valid) (hm : mem r1 ∨ mem r2) :
    mem (BeamTypes.integralRange (lubRanges r1 r2)) := by
  match r1, r2 with
  | .any, _ | .pair _ _, .any => exact h.any
  | .pair a b, .pair c d =>
    obtain ⟨ha, hb⟩ := h1.ends
    obtain ⟨hc, hd⟩ := h2.ends
    rw [h.pair, h.pair] at hm
    refine (h.integralRange (infMin_ind ha hc) (infMax_ind hb hd)).mpr ?_
    rw [h.pair, h.infMin_low ha hc, h.infMax_high hb hd]
    exact ⟨hm.imp And.left And.left, hm.imp And.right And.right⟩

end Reading

theorem integralRange_valid (ha : a.IsLow) (hb : b.IsHigh) (h1 : a.LeInt n) (h2 : b.GeInt n) :
    (integralRange (.pair a b)).Valid := by
  rcases ha with rfl | ⟨m, rfl⟩ <;> rcases hb with rfl | ⟨k, rfl⟩
  · trivial
  · trivial
  · trivial
  · exact le_trans h1 h2

theorem NumRange.Valid.exists_mem (h : r.Valid) : ∃ n, r.MemInt n := by
  cases r with
  | any => exact ⟨0, trivial⟩
  | pair a b =>
    rcases h.ends.1 with rfl | ⟨m, rfl⟩ <;> rcases h.ends.2 with rfl | ⟨k, rfl⟩
    · exact h.elim
    · exact ⟨k, trivial, le_refl k⟩
    · exact ⟨m, le_refl m, trivial⟩
    · exact ⟨m, le_refl m, h⟩

theorem lubRanges_valid (h1 : r1.Valid) (h2 : r2.Valid) :
    (integralRange (lubRanges r1 r2)).Valid := by
  match r1, r2 with
  | .any, _ => trivial
  | .pair _ _, .any => trivial
  | .pair a b, .pair c d =>
    obtain ⟨ha, hb⟩ := h1.ends
    obtain ⟨hc, hd⟩ := h2.ends
    obtain ⟨n, hn⟩ := h1.exists_mem
    exact integralRange_valid (infMin_ind ha hc) (infMax_ind hb hd)
      (((readsInt n).infMin_low ha hc).mpr (.inl hn.1))
      (((readsInt n).infMax_high hb hd).mpr (.inl hn.2))

theorem lubNumber_upper {num : NumRange → Prop} {a b : NumberType} (ha : a.Valid num)
    (hb : b.Valid num) (h : a.Mem v ∨ b.Mem v) : (lubNumber a b).Mem v := by
  unfold lubNumber
  split_ifs with heq
  · subst heq
    exact h.elim id id
  have hnum : (∃ n, v = .int n) ∨ ∃ f, v = .float f := h.elim (·.number) (·.number)
  match a, b with
  | .float r1, .float r2 =>
    exact absurd (by rw [show r1 = .any from ha, show r2 = .any from hb]) heq
  | .float r1, .integer r2 | .float r1, .number r2 =>
    obtain rfl : r1 = .any := ha
    rcases hnum with ⟨n, rfl⟩ | ⟨f, rfl⟩ <;> trivial
  | .integer r1, .float r2 | .number r1, .float r2 =>
    obtain rfl : r2 = .any := hb
    rcases hnum with ⟨n, rfl⟩ | ⟨f, rfl⟩ <;> cases r1 <;> trivial
  | .integer r1, .integer r2 =>
    rcases hnum with ⟨n, rfl⟩ | ⟨f, rfl⟩
    · exact (readsInt n).lubRanges_mem ha hb h
    · exact (h.elim id id).elim
  | .integer r1, .number r2 =>
    rcases hnum with ⟨n, rfl⟩ | ⟨f, rfl⟩
    · exact (readsInt n).lubRanges_mem ha hb.1 h
    · exact (readsFloat f).lubRanges_mem ha hb.1 (h.imp False.elim id)
  | .number r1, .number r2 =>
    rcases hnum with ⟨n, rfl⟩ | ⟨f, rfl⟩
    · exact (readsInt n).lubRanges_mem ha.1 hb.1 h
    · exact (readsFloat f).lubRanges_mem ha.1 hb.1 h
  | .number r1, .integer r2 =>
    rcases hnum with ⟨n, rfl⟩ | ⟨f, rfl⟩
    · exact (readsInt n).lubRanges_mem ha.1 hb h
    · exact (readsFloat f).lubRanges_mem ha.1 hb (h.imp id False.elim)

end Otp.Compiler.BeamTypes
