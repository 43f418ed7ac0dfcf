import Otp.Compiler.BeamBounds.Bounds
import Otp.Lib.IntBits

/-!
# Comparisons of ranges (`relop/3`, `infer_relop_types/3`, `is_masking_redundant/2`)

A comparison of two ranges is decided from the ends alone, and a comparison
that is known to succeed narrows both of its operands. All three results are
used to delete code, so what matters is that they hold for every pair of
members, infinite ends and capped ends included.
-/

namespace Otp.Compiler.BeamBounds

/-- The operators of `relop/3`. -/
inductive RelOp where
  | lt | le | ge | gt
  deriving DecidableEq, Repr

/-- Erlang's meaning of the comparisons on integers. -/
def RelOp.Holds : RelOp → ℤ → ℤ → Prop
  | .lt, x, y => x < y
  | .le, x, y => x ≤ y
  | .ge, x, y => y ≤ x
  | .gt, x, y => y < x

/-- The type `bool_result()`. -/
inductive BoolResult where
  | bool (b : Bool)
  | maybe
  deriving DecidableEq, Repr

/-- The results of `infer_relop_types/3`. -/
inductive Inferred where
  | any
  | none
  | types (l r : Range)
  deriving DecidableEq

def infGt (a b : Bound) : Bool := infLt b a

/-- The comparison of ends in the clause of `relop/3` for each operator. -/
def RelOp.test : RelOp → Bound → Bound → Bool
  | .lt => infLt
  | .le => infLe
  | .ge => infGe
  | .gt => infGt

def relop (op : RelOp) : Range → Range → BoolResult
  | .pair a b, .pair c d =>
    if op.test b c = op.test a d then .bool (op.test a d) else .maybe
  | _, _ => .maybe

def clamp (v a b : Bound) : Bound := infMin (infMax v a) b

/-- `infer_relop_types_1/3`. -/
def inferRelopTypes₁ (op : RelOp) (a b c d : Bound) : Option Inferred :=
  match op with
  | .lt => do
      let left ← normalize (a, clamp (infAdd d (.int (-1))) a b)
      let right ← normalize (clamp (infAdd a (.int 1)) c d, d)
      some (.types left right)
  | .le => do
      let left ← normalize (a, clamp d a b)
      let right ← normalize (clamp a c d, d)
      some (.types left right)
  | .ge => do
      let left ← normalize (clamp c a b, b)
      let right ← normalize (c, clamp b c d)
      some (.types left right)
  | .gt => do
      let left ← normalize (clamp (infAdd c (.int 1)) a b, b)
      let right ← normalize (c, clamp (infAdd b (.int (-1))) c d)
      some (.types left right)

/-- `infer_relop_types/3`; `none` is the failed assertion of `normalize`. -/
def inferRelopTypes (op : RelOp) (r1 r2 : Range) : Option Inferred :=
  match r1, r2 with
  | .pair a b, .pair c d =>
    match relop op r1 r2 with
    | .maybe => inferRelopTypes₁ op a b c d
    | .bool true => some .any
    | .bool false => some .none
  | .pair a b, .any =>
    match op with
    | .lt => (normalize (infAdd a (.int 1), .posInf)).map (.types r1)
    | .le => (normalize (a, .posInf)).map (.types r1)
    | .ge => (normalize (.negInf, b)).map (.types r1)
    | .gt => (normalize (.negInf, infAdd b (.int (-1)))).map (.types r1)
  | .any, .pair c d =>
    match op with
    | .lt => (normalize (.negInf, infAdd d (.int (-1)))).map (.types · r2)
    | .le => (normalize (.negInf, d)).map (.types · r2)
    | .ge => (normalize (c, .posInf)).map (.types · r2)
    | .gt => (normalize (infAdd c (.int 1), .posInf)).map (.types · r2)
  | .any, .any => some .any

/-- `is_masking_redundant/2`. The guard `B band M =:= B` fails for an infinite
`B`. -/
def isMaskingRedundant (r : Range) (m : ℤ) : Bool :=
  if m = -1 then true
  else
    match r with
    | .pair (.int a) (.int b) =>
      decide (Int.land m (m + 1) = 0 ∧ 0 < m ∧ 0 ≤ a ∧ Int.land b m = b)
    | _ => false

variable {a b c d v : Bound} {x y n m : ℤ} {op : RelOp} {r r1 r2 : Range}

/-! ## `relop` -/

/-- `inf_lt/2` decides the order of the extended integers. -/
theorem infLt_eq (a b : Bound) : infLt a b = decide (a < b) := by
  have hnot : decide (a < b) = !decide (b ≤ a) := by
    rw [← decide_not]
    simp only [not_le]
  rw [hnot]
  cases a <;> cases b <;> simp [infLt, termLt, termLe]

section

variable (hx : x ∈ Range.pair a b) (hy : y ∈ Range.pair c d)

include hx hy

theorem holds_of_infLt (heq : infLt b c = infLt a d) : x < y ↔ infLt a d = true := by
  simp only [infLt_eq, decide_eq_decide] at heq
  rw [infLt_eq, decide_eq_true_eq]
  constructor
  · intro h
    by_contra had
    have hyx := Bound.int_le_int.mp (hy.2.trans ((not_lt.mp had).trans hx.1))
    omega
  · intro had
    by_contra hxy
    have hyx := Bound.int_le_int.mpr (not_lt.mp hxy)
    exact absurd (hy.1.trans (hyx.trans hx.2)) (not_le.mpr (heq.mpr had))

theorem holds_of_infLe (heq : infLe b c = infLe a d) : x ≤ y ↔ infLe a d = true := by
  simp only [infLe_eq, decide_eq_decide] at heq
  rw [infLe_eq, decide_eq_true_eq]
  constructor
  · intro h
    exact hx.1.trans ((Bound.int_le_int.mpr h).trans hy.2)
  · intro had
    exact Bound.int_le_int.mp (hx.2.trans ((heq.mpr had).trans hy.1))

/-- A test that gives one answer at the near ends and at the far ends gives it
for all members. -/
theorem RelOp.holds_of_test (heq : op.test b c = op.test a d) :
    op.Holds x y ↔ op.test a d = true := by
  cases op with
  | lt => exact holds_of_infLt hx hy heq
  | le => exact holds_of_infLe hx hy heq
  | ge =>
    rw [← heq]
    exact holds_of_infLe hy hx heq.symm
  | gt =>
    rw [← heq]
    exact holds_of_infLt hy hx heq.symm

end

theorem relop_sound {res : Bool} (h : relop op r1 r2 = .bool res) (hx : x ∈ r1) (hy : y ∈ r2) :
    op.Holds x y ↔ res = true := by
  unfold relop at h
  split at h
  · split_ifs at h with heq
    cases h
    exact RelOp.holds_of_test hx hy heq
  · cases h

/-! ## `infer_relop_types` -/

theorem mem_of_normalize (h : normalize (a, b) = some r) (ha : a ≤ .int x) (hb : .int x ≤ b) :
    x ∈ r := by
  obtain ⟨r', hr', hmem⟩ := normalize_sound (Bound.below_of_le ha) (Bound.above_of_le hb)
  obtain rfl := Option.some.inj (h.symm.trans hr')
  exact hmem x (Bound.below_of_le ha) (Bound.above_of_le hb)

theorem int_le_clamp (hv : .int x ≤ v) (hb : .int x ≤ b) : .int x ≤ clamp v a b := by
  rw [clamp, infMin_eq, infMax_eq]
  exact le_min (hv.trans (le_max_left _ _)) hb

theorem clamp_le_int (hv : v ≤ .int x) (ha : a ≤ .int x) : clamp v a b ≤ .int x := by
  rw [clamp, infMin_eq, infMax_eq]
  exact (min_le_left _ _).trans (max_le hv ha)

theorem int_le_pred (hd : .int y ≤ d) (h : x < y) : .int x ≤ infAdd d (.int (-1)) := by
  cases d <;> simp_all [infAdd]
  omega

theorem succ_le_int (ha : a ≤ .int x) (h : x < y) : infAdd a (.int 1) ≤ .int y := by
  cases a <;> simp_all [infAdd]
  omega

/-- The two ranges of `infer_relop_types_1/3` keep every pair of members for
which the comparison holds. -/
theorem inferRelopTypes₁_sound {l r : Range}
    (h : inferRelopTypes₁ op a b c d = some (.types l r)) (hx : x ∈ Range.pair a b)
    (hy : y ∈ Range.pair c d) (hop : op.Holds x y) : x ∈ l ∧ y ∈ r := by
  have hle : ∀ {m n : ℤ}, m ≤ n → Bound.int m ≤ .int n := Bound.int_le_int.mpr
  cases op <;>
    simp only [inferRelopTypes₁, Option.bind_eq_bind, Option.bind_eq_some_iff, Option.some.injEq,
      Inferred.types.injEq] at h <;>
    obtain ⟨l', hl, r', hr, rfl, rfl⟩ := h
  · exact ⟨mem_of_normalize hl hx.1 (int_le_clamp (int_le_pred hy.2 hop) hx.2),
      mem_of_normalize hr (clamp_le_int (succ_le_int hx.1 hop) hy.1) hy.2⟩
  · exact ⟨mem_of_normalize hl hx.1 (int_le_clamp ((hle hop).trans hy.2) hx.2),
      mem_of_normalize hr (clamp_le_int (hx.1.trans (hle hop)) hy.1) hy.2⟩
  · exact ⟨mem_of_normalize hl (clamp_le_int (hy.1.trans (hle hop)) hx.1) hx.2,
      mem_of_normalize hr hy.1 (int_le_clamp ((hle hop).trans hx.2) hy.2)⟩
  · exact ⟨mem_of_normalize hl (clamp_le_int (succ_le_int hy.1 hop) hx.1) hx.2,
      mem_of_normalize hr hy.1 (int_le_clamp (int_le_pred hx.2 hop) hy.2)⟩

theorem inferRelopTypes_types {l r : Range} (h : inferRelopTypes op r1 r2 = some (.types l r))
    (hx : x ∈ r1) (hy : y ∈ r2) (hop : op.Holds x y) : x ∈ l ∧ y ∈ r := by
  have hle : ∀ {m n : ℤ}, m ≤ n → Bound.int m ≤ .int n := Bound.int_le_int.mpr
  cases r1 <;> cases r2
  · simp [inferRelopTypes] at h
  · cases op <;>
      simp only [inferRelopTypes, Option.map_eq_some_iff, Inferred.types.injEq] at h <;>
      obtain ⟨l', hl, rfl, rfl⟩ := h
    · exact ⟨mem_of_normalize hl (Bound.negInf_le _) (int_le_pred hy.2 hop), hy⟩
    · exact ⟨mem_of_normalize hl (Bound.negInf_le _) ((hle hop).trans hy.2), hy⟩
    · exact ⟨mem_of_normalize hl (hy.1.trans (hle hop)) (Bound.le_posInf _), hy⟩
    · exact ⟨mem_of_normalize hl (succ_le_int hy.1 hop) (Bound.le_posInf _), hy⟩
  · cases op <;>
      simp only [inferRelopTypes, Option.map_eq_some_iff, Inferred.types.injEq] at h <;>
      obtain ⟨r', hr, rfl, rfl⟩ := h
    · exact ⟨hx, mem_of_normalize hr (succ_le_int hx.1 hop) (Bound.le_posInf _)⟩
    · exact ⟨hx, mem_of_normalize hr (hx.1.trans (hle hop)) (Bound.le_posInf _)⟩
    · exact ⟨hx, mem_of_normalize hr (Bound.negInf_le _) ((hle hop).trans hx.2)⟩
    · exact ⟨hx, mem_of_normalize hr (Bound.negInf_le _) (int_le_pred hx.2 hop)⟩
  · simp only [inferRelopTypes] at h
    split at h
    · exact inferRelopTypes₁_sound h hx hy hop
    · cases h
    · cases h

/-- `none` is returned only for a comparison that is false on the ends. -/
theorem relop_of_inferRelopTypes_none (h : inferRelopTypes op r1 r2 = some .none) :
    relop op r1 r2 = .bool false := by
  cases r1 <;> cases r2
  · simp [inferRelopTypes] at h
  · cases op <;> simp [inferRelopTypes] at h
  · cases op <;> simp [inferRelopTypes] at h
  · simp only [inferRelopTypes] at h
    split at h
    · cases op <;> simp [inferRelopTypes₁, Option.bind_eq_some_iff] at h
    · cases h
    · assumption

/-! ## `infer_relop_types` returns -/

/-- The assertion of `normalize` holds for ordered ends. -/
theorem normalize_isSome (h : a ≤ b) : ∃ r, normalize (a, b) = some r := by
  have hcap := infCap_mono h
  unfold normalize normalize₂
  split
  · exact ⟨_, rfl⟩
  · exact ⟨_, rfl⟩
  · exact ⟨_, rfl⟩
  · rw [infGe_eq, if_pos (by simpa using hcap)]
    exact ⟨_, rfl⟩

/-- On ranges of the type `range()` the assertion of `normalize` never
fails. -/
theorem inferRelopTypes_isSome (op : RelOp) (h1 : r1.Valid) (h2 : r2.Valid) :
    ∃ res, inferRelopTypes op r1 r2 = some res := by
  have hlo : ∀ {v a b : Bound}, a ≤ b → a ≤ clamp v a b := fun hab => by
    rw [clamp, infMin_eq, infMax_eq]
    exact le_min (le_max_right _ _) hab
  have hhi : ∀ {v a b : Bound}, clamp v a b ≤ b := by
    intro v a b
    rw [clamp, infMin_eq]
    exact min_le_right _ _
  have hmap : ∀ {a b : Bound} (g : Range → Inferred), a ≤ b →
      ∃ res, (normalize (a, b)).map g = some res := fun g hab => by
    obtain ⟨r, hr⟩ := normalize_isSome hab
    exact ⟨g r, by rw [hr]; rfl⟩
  match r1, r2 with
  | .any, .any => exact ⟨_, rfl⟩
  | .any, .pair c d | .pair a b, .any =>
    cases op <;> exact hmap _ (by simp)
  | .pair a b, .pair c d =>
    have hab : a ≤ b := h1.le
    have hcd : c ≤ d := h2.le
    simp only [inferRelopTypes]
    split
    · cases op <;> simp only [inferRelopTypes₁]
      all_goals
        first
        | obtain ⟨l, hl⟩ := normalize_isSome (hlo hab)
          obtain ⟨r, hr⟩ := normalize_isSome (hhi (b := d))
          exact ⟨.types l r, by rw [hl, hr]; rfl⟩
        | obtain ⟨l, hl⟩ := normalize_isSome (hhi (b := b))
          obtain ⟨r, hr⟩ := normalize_isSome (hlo hcd)
          exact ⟨.types l r, by rw [hl, hr]; rfl⟩
    · exact ⟨_, rfl⟩
    · exact ⟨_, rfl⟩

/-! ## Masks -/

/-- A mask that passes the guard covers every number up to one it covers. -/
theorem land_eq_self_of_le (hm : Int.land m (m + 1) = 0) (hpos : 0 < m) (hx : 0 ≤ x) (hxn : x ≤ n)
    (hn : Int.land n m = n) : Int.land x m = x := by
  lift m to ℕ using hpos.le
  lift n to ℕ using hx.trans hxn
  lift x to ℕ using hx
  have hpow : (m + 1) &&& m = 0 := by
    rw [Nat.land_comm]
    exact Int.ofNat.inj hm
  obtain ⟨k, hk⟩ := (Nat.and_sub_one_eq_zero_iff_isPowerOfTwo (by omega : m + 1 ≠ 0)).mp hpow
  obtain rfl : m = 2 ^ k - 1 := by omega
  have hmod : n % 2 ^ k = n := by
    rw [← Nat.and_two_pow_sub_one_eq_mod]
    exact Int.ofNat.inj hn
  have hself : x &&& (2 ^ k - 1) = x := by
    rw [Nat.and_two_pow_sub_one_eq_mod]
    exact Nat.mod_eq_of_lt (by omega)
  exact congrArg Int.ofNat hself

theorem land_eq_of_isMaskingRedundant (h : isMaskingRedundant r m = true) (hx : x ∈ r) :
    Int.land x m = x := by
  unfold isMaskingRedundant at h
  split_ifs at h with hm
  · rw [hm]
    exact Otp.Lib.IntBits.land_neg_one_right x
  · split at h
    · obtain ⟨hpow, hpos, ha, hb⟩ := of_decide_eq_true h
      simp only [mem_pair, Bound.int_le_int] at hx
      exact land_eq_self_of_le hpow hpos (ha.trans hx.1) hx.2 hb
    · cases h

/-- What range comparison and masking conclude holds for all members of the
ranges; on ranges of the type `range()` the inference returns. -/
theorem relop_inference_sound (op : RelOp) (r1 r2 : Range) :
    (∀ res, relop op r1 r2 = .bool res → ∀ x ∈ r1, ∀ y ∈ r2, (op.Holds x y ↔ res = true)) ∧
      (inferRelopTypes op r1 r2 = some .none → ∀ x ∈ r1, ∀ y ∈ r2, ¬ op.Holds x y) ∧
      (∀ l r, inferRelopTypes op r1 r2 = some (.types l r) →
        ∀ x ∈ r1, ∀ y ∈ r2, op.Holds x y → x ∈ l ∧ y ∈ r) ∧
      (∀ m, isMaskingRedundant r1 m = true → ∀ x ∈ r1, Int.land x m = x) ∧
      (r1.Valid → r2.Valid → ∃ res, inferRelopTypes op r1 r2 = some res) := by
  refine ⟨?_, ?_, ?_, ?_, ?_⟩
  · intro res h x hx y hy
    exact relop_sound h hx hy
  · intro h x hx y hy hop
    have hfalse := (relop_sound (relop_of_inferRelopTypes_none h) hx hy).mp hop
    cases hfalse
  · intro l r h x hx y hy hop
    exact inferRelopTypes_types h hx hy hop
  · intro m h x hx
    exact land_eq_of_isMaskingRedundant h hx
  · exact inferRelopTypes_isSome op

theorem relop_inference_sound_at :
    inferRelopTypes .lt (.pair (.int 0) (.int 15)) (.pair .negInf (.int 5)) =
        some (.types (.pair (.int 0) (.int 4)) (.pair (.int 1) (.int 5))) ∧
      (4 ∈ Range.pair (.int 0) (.int 4) ∧ 5 ∈ Range.pair (.int 1) (.int 5)) ∧
      Int.land 9 15 = 9 := by
  have hres : inferRelopTypes .lt (.pair (.int 0) (.int 15)) (.pair .negInf (.int 5)) =
      some (.types (.pair (.int 0) (.int 4)) (.pair (.int 1) (.int 5))) := by decide +kernel
  obtain ⟨-, -, htypes, hmask, -⟩ :=
    relop_inference_sound .lt (.pair (.int 0) (.int 15)) (.pair .negInf (.int 5))
  exact ⟨hres, htypes _ _ hres 4 (by simp) 5 (by simp) (show (4 : ℤ) < 5 by omega),
    hmask 15 (by decide +kernel) 9 (by simp)⟩

end Otp.Compiler.BeamBounds
