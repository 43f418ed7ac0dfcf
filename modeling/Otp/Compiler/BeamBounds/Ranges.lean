import Mathlib

/-!
# Integer ranges of the compiler (`beam_bounds.erl`, handling of ranges)

A range is `any` or a pair of ends, each end an integer or one of the atoms
`'-inf'` and `'+inf'`. The helpers of the source compare ends with Erlang's
term order, where every atom is greater than every integer; `termLe` is that
order, and the first group of lemmas shows that the `inf_*` helpers built on
it are the lattice operations of the extended integers.

A function that can fail in the source (a clause that does not match, an
arithmetic operation on an atom, the assertion in `normalize`) returns
`Option`, with `none` for the crash.
-/

namespace Otp.Compiler.BeamBounds

/-- One end of a range: `'-inf'`, an integer, or `'+inf'`. -/
inductive Bound where
  | negInf
  | int (n : ℤ)
  | posInf
  deriving DecidableEq, Repr

/-- The ranges of the source: `any` or a pair `{A,B}` of ends. -/
inductive Range where
  | any
  | pair (a b : Bound)
  deriving DecidableEq, Repr

/-- The sign `'-'` or `'+'` returned by `inf_sign/1`. -/
inductive Sign where
  | minus
  | plus
  deriving DecidableEq, Repr

/-- `?NUM_BITS`: ends of more bits than this are widened to an infinity. -/
def numBits : ℕ := 128

/-! ## Term order and the `inf_*` helpers -/

/-- Erlang's `=<` on ends: integers by value, below all atoms; the atom
`'+inf'` comes before `'-inf'`. -/
def termLe : Bound → Bound → Bool
  | .int a, .int b => decide (a ≤ b)
  | .int _, _ => true
  | _, .int _ => false
  | .negInf, .posInf => false
  | _, _ => true

/-- Erlang's `<` on ends. -/
def termLt (a b : Bound) : Bool := !termLe b a

def infMin (a b : Bound) : Bound :=
  if a = .negInf ∨ b = .negInf then .negInf
  else if termLe a b then a
  else b

def infMax : Bound → Bound → Bound
  | .negInf, b => b
  | a, .negInf => a
  | a, b => if termLe b a then a else b

def infNeg : Bound → Bound
  | .negInf => .posInf
  | .posInf => .negInf
  | .int n => .int (-n)

def infAdd : Bound → Bound → Bound
  | .int a, .int b => .int (a + b)
  | .int _, b => b
  | a, _ => a

def infAbs : Bound → Bound
  | .negInf => .posInf
  | .posInf => .posInf
  | .int n => .int |n|

def infLt (a b : Bound) : Bool :=
  if b = .negInf then false
  else if a = .negInf then true
  else termLt a b

def infGe (a b : Bound) : Bool :=
  if b = .negInf then true
  else if a = .negInf then false
  else termLe b a

def infLe (a b : Bound) : Bool := infGe b a

def infSign : Bound → Sign
  | .negInf => .minus
  | .posInf => .plus
  | .int n => if n < 0 then .minus else .plus

/-- An integer whose magnitude needs more than `numBits` bits becomes an
infinity. -/
def infCap : Bound → Bound
  | .int n =>
    if |n| / 2 ^ numBits ≠ 0 then
      if infLt (.int n) (.int 0) then .negInf else .posInf
    else .int n
  | b => b

def infBnot : Bound → Bound
  | .negInf => .posInf
  | .posInf => .negInf
  | .int n => .int (Int.lnot n)

def infMul : Bound → Bound → Bound
  | .int a, .int b => .int (a * b)
  | a, b =>
    match infSign a, infSign b with
    | .minus, .minus => .posInf
    | .plus, .plus => .posInf
    | _, _ => .negInf

/-- `inf_div/2` has clauses for two integers and for a denominator `'+inf'`
only; `div` by zero fails as well. -/
def infDiv : Bound → Bound → Option ℤ
  | .int a, .int b => if b = 0 then none else some (a.tdiv b)
  | .int _, .posInf => some 0
  | _, _ => none

/-- Erlang's `bsl` on integers of any size: a negative count shifts the other
way, rounding towards minus infinity. -/
def bsl (n s : ℤ) : ℤ :=
  if s < 0 then n / 2 ^ s.natAbs else n * 2 ^ s.natAbs

/-- Erlang's `bsr` on integers of any size. -/
def bsr (n s : ℤ) : ℤ := bsl n (-s)

def infBsr : Bound → Bound → Bound
  | .negInf, _ => .negInf
  | .posInf, _ => .posInf
  | .int n, .posInf => if n < 0 then .int (-1) else .int 0
  | .int n, .negInf => if n < 0 then .negInf else .posInf
  | .int n, .int s =>
    if s < 0 then
      if (numBits : ℤ) ≤ -s then
        if n < 0 then .negInf else .posInf
      else .int (bsl n (-s))
    else .int (bsr n s)

def infBsl (n s : Bound) : Bound := infBsr n (infNeg s)

/-! ## Ranges -/

def expand : Range → Bound × Bound
  | .any => (.negInf, .posInf)
  | .pair a b => (a, b)

def canonicalArg (r : Range) : Bound × Bound :=
  let (a, b) := expand r
  match infCap a, infCap b with
  | .negInf, .negInf => (.negInf, .int (-1))
  | .posInf, .posInf => (.int 0, .posInf)
  | a, b => (a, b)

/-- `normalize/2` on capped ends. The last clause asserts that the ends are
ordered. -/
def normalize₂ (a b : Bound) : Option Range :=
  match a, b with
  | .negInf, .negInf => some (.pair .negInf (.int (bsl (-1) numBits + 1)))
  | .negInf, .posInf => some .any
  | .posInf, .posInf => some (.pair (.int (bsl 1 numBits - 1)) .posInf)
  | a, b => if infGe b a then some (.pair a b) else none

/-- `normalize/1`. -/
def normalize (r : Bound × Bound) : Option Range :=
  normalize₂ (infCap r.1) (infCap r.2)

/-! ## Ends as extended integers -/

/-- The extended integer an end stands for. -/
def Bound.toExt : Bound → WithBot (WithTop ℤ)
  | .negInf => ⊥
  | .int n => ((n : WithTop ℤ) : WithBot (WithTop ℤ))
  | .posInf => ((⊤ : WithTop ℤ) : WithBot (WithTop ℤ))

theorem Bound.toExt_injective : Function.Injective Bound.toExt := by
  intro a b h
  cases a <;> cases b <;> simp_all [Bound.toExt]

instance : LinearOrder Bound := LinearOrder.lift' Bound.toExt Bound.toExt_injective

theorem Bound.le_def (a b : Bound) : a ≤ b ↔ a.toExt ≤ b.toExt := Iff.rfl

@[simp] theorem Bound.negInf_le (b : Bound) : Bound.negInf ≤ b := by
  simp [Bound.le_def, Bound.toExt]

@[simp] theorem Bound.le_posInf (a : Bound) : a ≤ Bound.posInf := by
  cases a <;> simp [Bound.le_def, Bound.toExt]

@[simp] theorem Bound.int_le_int {m n : ℤ} : Bound.int m ≤ Bound.int n ↔ m ≤ n := by
  simp [Bound.le_def, Bound.toExt]

@[simp] theorem Bound.int_le_negInf (n : ℤ) : ¬ Bound.int n ≤ Bound.negInf := by
  simp [Bound.le_def, Bound.toExt]

@[simp] theorem Bound.posInf_le_int (n : ℤ) : ¬ Bound.posInf ≤ Bound.int n := by
  simp [Bound.le_def, Bound.toExt]

@[simp] theorem Bound.posInf_le_negInf : ¬ Bound.posInf ≤ Bound.negInf := by
  simp [Bound.le_def, Bound.toExt]

variable {a b : Bound} {y n v : ℤ} {r : Range}

/-- On two ends that are not `'-inf'` the term order is the order of the
extended integers. -/
theorem termLe_eq (ha : a ≠ .negInf) (hb : b ≠ .negInf) : termLe a b = decide (a ≤ b) := by
  cases a <;> cases b <;> simp_all [termLe]

/-- `inf_min/2` is the minimum of the extended integers. -/
theorem infMin_eq (a b : Bound) : infMin a b = min a b := by
  unfold infMin
  split
  · rename_i h
    rcases h with rfl | rfl
    · exact (min_eq_left (Bound.negInf_le b)).symm
    · exact (min_eq_right (Bound.negInf_le a)).symm
  · rename_i h
    rw [not_or] at h
    rw [termLe_eq h.1 h.2, min_def]
    simp

/-- `inf_max/2` is the maximum of the extended integers. -/
theorem infMax_eq (a b : Bound) : infMax a b = max a b := by
  unfold infMax
  split
  · exact (max_eq_right (Bound.negInf_le _)).symm
  · exact (max_eq_left (Bound.negInf_le _)).symm
  · rename_i ha hb
    rw [termLe_eq hb ha, max_comm, max_def]
    simp

/-- `inf_ge/2` decides the order of the extended integers. -/
theorem infGe_eq (a b : Bound) : infGe a b = decide (b ≤ a) := by
  cases a <;> cases b <;> simp [infGe, termLe]

/-- `inf_le/2` decides the order of the extended integers. -/
theorem infLe_eq (a b : Bound) : infLe a b = decide (a ≤ b) := infGe_eq b a

@[simp] theorem infNeg_infNeg (a : Bound) : infNeg (infNeg a) = a := by
  cases a <;> simp [infNeg]

theorem infNeg_le_infNeg (h : a ≤ b) : infNeg b ≤ infNeg a := by
  cases a <;> cases b <;> simp_all [infNeg]

theorem infNeg_le_int : infNeg a ≤ .int y ↔ .int (-y) ≤ a := by
  cases a <;> simp [infNeg, neg_le]

theorem int_le_infNeg : .int y ≤ infNeg a ↔ a ≤ .int (-y) := by
  cases a <;> simp [infNeg, le_neg]

/-! ## Members of a range -/

/-- The integers a range stands for. -/
def Range.Mem (r : Range) (x : ℤ) : Prop :=
  match r with
  | .any => True
  | .pair a b => a ≤ .int x ∧ .int x ≤ b

instance : Membership ℤ Range := ⟨Range.Mem⟩

@[simp] theorem mem_pair (a b : Bound) (x : ℤ) :
    x ∈ Range.pair a b ↔ a ≤ .int x ∧ .int x ≤ b := Iff.rfl

/-- The type `range()` of the source: `any`, `{A,B}` with integers `A =< B`,
`{'-inf',B}` or `{A,'+inf'}`. -/
def Range.Valid : Range → Prop
  | .any => True
  | .pair (.int a) (.int b) => a ≤ b
  | .pair .negInf (.int _) => True
  | .pair (.int _) .posInf => True
  | .pair _ _ => False

instance : DecidablePred Range.Valid
  | .any => isTrue trivial
  | .pair (.int a) (.int b) => inferInstanceAs (Decidable (a ≤ b))
  | .pair .negInf (.int _) => isTrue trivial
  | .pair (.int _) .posInf => isTrue trivial
  | .pair .negInf .negInf => isFalse id
  | .pair .negInf .posInf => isFalse id
  | .pair (.int _) .negInf => isFalse id
  | .pair .posInf _ => isFalse id

/-- The ends handed to the operations once `canonical_arg/1` has run. -/
inductive Canonical : Bound → Bound → Prop where
  | any : Canonical .negInf .posInf
  | below {b : ℤ} : |b| < 2 ^ numBits → Canonical .negInf (.int b)
  | above {a : ℤ} : |a| < 2 ^ numBits → Canonical (.int a) .posInf
  | closed {a b : ℤ} : |a| < 2 ^ numBits → |b| < 2 ^ numBits → a ≤ b →
      Canonical (.int a) (.int b)

/-- `inf_cap/1` as a test on the magnitude. -/
theorem infCap_int (n : ℤ) :
    infCap (.int n) = if |n| < 2 ^ numBits then .int n
      else if n < 0 then .negInf else .posInf := by
  have hpos : (0 : ℤ) < 2 ^ numBits := by positivity
  simp only [infCap, infLt, termLt, termLe]
  by_cases h : |n| < 2 ^ numBits
  · rw [if_neg, if_pos h]
    exact not_not.mpr (Int.ediv_eq_zero_of_lt (abs_nonneg n) h)
  · have hdiv : |n| / 2 ^ numBits ≠ 0 := by
      have hone : 1 ≤ |n| / 2 ^ numBits := (Int.le_ediv_iff_mul_le hpos).mpr (by omega)
      omega
    rw [if_pos hdiv, if_neg h]
    simp

@[simp] theorem infCap_negInf : infCap .negInf = .negInf := rfl

@[simp] theorem infCap_posInf : infCap .posInf = .posInf := rfl

/-- `canonical_arg/1` keeps every member of a valid range and returns one of
the four canonical shapes. -/
theorem canonicalArg_spec (hr : r.Valid) :
    Canonical (canonicalArg r).1 (canonicalArg r).2 ∧
      ∀ x ∈ r, (canonicalArg r).1 ≤ .int x ∧ .int x ≤ (canonicalArg r).2 := by
  match r, hr with
  | .any, _ => exact ⟨.any, fun x _ => ⟨Bound.negInf_le _, Bound.le_posInf _⟩⟩
  | .pair .negInf (.int b), _ =>
    simp only [canonicalArg, expand, infCap_int, infCap_negInf, mem_pair]
    split_ifs with hb hneg
    · exact ⟨.below hb, fun x hx => hx⟩
    · refine ⟨.below (by simp [numBits]), fun x hx => ⟨Bound.negInf_le _, ?_⟩⟩
      have := hx.2
      simp only [Bound.int_le_int] at this ⊢
      omega
    · exact ⟨.any, fun x _ => ⟨Bound.negInf_le _, Bound.le_posInf _⟩⟩
  | .pair (.int a) .posInf, _ =>
    simp only [canonicalArg, expand, infCap_int, infCap_posInf, mem_pair]
    split_ifs with ha hneg
    · exact ⟨.above ha, fun x hx => hx⟩
    · exact ⟨.any, fun x _ => ⟨Bound.negInf_le _, Bound.le_posInf _⟩⟩
    · refine ⟨.above (by simp [numBits]), fun x hx => ⟨?_, Bound.le_posInf _⟩⟩
      have := hx.1
      simp only [Bound.int_le_int] at this ⊢
      omega
  | .pair (.int a) (.int b), (hab : a ≤ b) =>
    simp only [canonicalArg, expand, infCap_int, mem_pair, Bound.int_le_int, abs_lt]
    split_ifs with ha hb hbneg haneg hb hbneg hb hbneg
    · exact ⟨.closed (abs_lt.mpr ha) (abs_lt.mpr hb) hab, fun x hx => by simpa using hx⟩
    · omega
    · exact ⟨.above (abs_lt.mpr ha), fun x hx => by simpa using hx.1⟩
    · exact ⟨.below (abs_lt.mpr hb), fun x hx => by simpa using hx.2⟩
    · refine ⟨.below (by simp [numBits]), fun x hx => ⟨Bound.negInf_le _, ?_⟩⟩
      simp only [Bound.int_le_int]
      omega
    · exact ⟨.any, fun x _ => ⟨Bound.negInf_le _, Bound.le_posInf _⟩⟩
    · omega
    · omega
    · refine ⟨.above (by simp [numBits]), fun x hx => ⟨?_, Bound.le_posInf _⟩⟩
      simp only [Bound.int_le_int]
      omega

/-- The two ends `canonical_arg/1` returns are the capped ends of the range,
unless both are capped to the same infinity. -/
theorem canonicalArg_cases (r : Range) :
    canonicalArg r = (infCap (expand r).1, infCap (expand r).2) ∨
      (infCap (expand r).2 = .negInf ∧ canonicalArg r = (.negInf, .int (-1))) ∨
      (infCap (expand r).1 = .posInf ∧ canonicalArg r = (.int 0, .posInf)) := by
  unfold canonicalArg
  simp only
  split
  · rename_i h1 h2
    exact .inr (.inl ⟨h2, rfl⟩)
  · rename_i h1 h2
    exact .inr (.inr ⟨h1, rfl⟩)
  · exact .inl rfl

/-- A valid range has a member. -/
theorem Range.Valid.exists_mem (hr : r.Valid) : ∃ x, x ∈ r := by
  match r, hr with
  | .any, _ => exact ⟨0, trivial⟩
  | .pair .negInf (.int b), _ => exact ⟨b, by simp⟩
  | .pair (.int a) .posInf, _ => exact ⟨a, by simp⟩
  | .pair (.int a) (.int b), (hab : a ≤ b) => exact ⟨a, by simpa using hab⟩

/-- An integer that `inf_cap/1` returns is its argument. -/
theorem eq_of_infCap_eq_int (h : infCap a = .int n) : a = .int n := by
  cases a with
  | negInf | posInf => simp at h
  | int m =>
    rw [infCap_int] at h
    split_ifs at h with hm
    cases h
    rfl

/-- `inf_cap/1` keeps an integer below the cap. -/
theorem infCap_of_lt (h : |n| < 2 ^ numBits) : infCap (.int n) = .int n := by
  rw [infCap_int, if_pos h]

/-- `inf_cap/1` keeps the order. -/
theorem infCap_mono (h : a ≤ b) : infCap a ≤ infCap b := by
  match a, b with
  | .negInf, _ | _, .posInf => simp
  | .int _, .negInf | .posInf, .negInf | .posInf, .int _ => simp at h
  | .int m, .int n =>
    rw [Bound.int_le_int] at h
    simp only [infCap_int, abs_lt]
    split_ifs <;> simp only [Bound.negInf_le, Bound.le_posInf, Bound.int_le_int,
      Bound.int_le_negInf, Bound.posInf_le_int, Bound.posInf_le_negInf] <;> omega

/-- The ends of a valid range are ordered. -/
theorem Range.Valid.le (h : r.Valid) : (expand r).1 ≤ (expand r).2 := by
  match r, h with
  | .any, _ | .pair .negInf (.int b), _ => exact Bound.negInf_le _
  | .pair (.int a) .posInf, _ => exact Bound.le_posInf _
  | .pair (.int a) (.int b), (hab : a ≤ b) => exact Bound.int_le_int.mpr hab

/-- An integer end below the cap keeps `canonical_arg/1` from replacing an
end. -/
theorem canonicalArg_of_int (hr : r.Valid) (h : (expand r).1 = .int n ∨ (expand r).2 = .int n)
    (hn : |n| < 2 ^ numBits) : canonicalArg r = (infCap (expand r).1, infCap (expand r).2) := by
  have hle := infCap_mono hr.le
  rcases canonicalArg_cases r with hc | ⟨hinf, -⟩ | ⟨hinf, -⟩
  · exact hc
  · rcases h with h | h <;> simp [h, hinf, infCap_of_lt hn] at hle hinf
  · rcases h with h | h <;> simp [h, hinf, infCap_of_lt hn] at hle hinf

/-! ## Soundness of `normalize`

The operations may hand `normalize` a lower end `'+inf'` (or an upper end
`'-inf'`) for a value that `inf_cap` would have widened. Such an end says that
the value is at least `2 ^ numBits` in that direction, and `normalize` keeps
it. -/

/-- `a` is a sound lower end for the value `v`. -/
def Bound.Below : Bound → ℤ → Prop
  | .negInf, _ => True
  | .int a, v => a ≤ v
  | .posInf, v => 2 ^ numBits ≤ v

/-- `b` is a sound upper end for the value `v`. -/
def Bound.Above : Bound → ℤ → Prop
  | .posInf, _ => True
  | .int b, v => v ≤ b
  | .negInf, v => v ≤ -2 ^ numBits

theorem Bound.below_of_le (h : a ≤ .int v) : a.Below v := by
  cases a with
  | negInf => trivial
  | int a => exact Bound.int_le_int.mp h
  | posInf => exact absurd h (Bound.posInf_le_int v)

theorem Bound.above_of_le (h : .int v ≤ b) : b.Above v := by
  cases b with
  | negInf => exact absurd h (Bound.int_le_negInf v)
  | int b => exact Bound.int_le_int.mp h
  | posInf => trivial

theorem Bound.below_infCap (h : a.Below v) : (infCap a).Below v := by
  cases a with
  | negInf => trivial
  | posInf => exact h
  | int a =>
    rw [infCap_int]
    simp only [Bound.Below] at h
    split_ifs with hcap hneg
    · exact h
    · trivial
    · rw [abs_lt] at hcap
      simp only [Bound.Below]
      omega

theorem Bound.above_infCap (h : b.Above v) : (infCap b).Above v := by
  cases b with
  | negInf => exact h
  | posInf => trivial
  | int b =>
    rw [infCap_int]
    simp only [Bound.Above] at h
    split_ifs with hcap hneg
    · exact h
    · rw [abs_lt] at hcap
      simp only [Bound.Above]
      omega
    · trivial

/-- What `inf_cap/1` can return. -/
theorem infCap_cases (a : Bound) :
    infCap a = .negInf ∨ infCap a = .posInf ∨ ∃ n, infCap a = .int n ∧ |n| < 2 ^ numBits := by
  cases a with
  | negInf => exact .inl rfl
  | posInf => exact .inr (.inl rfl)
  | int n =>
    rw [infCap_int]
    split_ifs with hcap hneg
    · exact .inr (.inr ⟨n, rfl, hcap⟩)
    · exact .inl rfl
    · exact .inr (.inl rfl)

/-- Ends that are sound for some value never trip the assertion of `normalize`, and the range
it returns keeps all values they are sound for. -/
theorem normalize_sound (ha : a.Below v) (hb : b.Above v) :
    ∃ r, normalize (a, b) = some r ∧ ∀ w, a.Below w → b.Above w → w ∈ r := by
  suffices h : ∃ r, normalize₂ (infCap a) (infCap b) = some r ∧
      ∀ w, (infCap a).Below w → (infCap b).Above w → w ∈ r by
    obtain ⟨r, hr, hmem⟩ := h
    exact ⟨r, hr, fun w ha hb => hmem w (Bound.below_infCap ha) (Bound.above_infCap hb)⟩
  have hlo := Bound.below_infCap ha
  have hhi := Bound.above_infCap hb
  have hmax : bsl 1 numBits = 2 ^ numBits := by decide
  have hmin : bsl (-1) numBits = -2 ^ numBits := by decide
  rcases infCap_cases a with h | h | ⟨m, h, hm⟩ <;>
    rcases infCap_cases b with h' | h' | ⟨n, h', hn⟩ <;>
    rw [h] at hlo ⊢ <;> rw [h'] at hhi ⊢ <;> simp only [Bound.Below, Bound.Above] at hlo hhi ⊢
  · refine ⟨_, rfl, fun w _ hw => ⟨Bound.negInf_le _, ?_⟩⟩
    rw [Bound.int_le_int]
    omega
  · exact ⟨_, rfl, fun _ _ _ => trivial⟩
  · exact ⟨.pair .negInf (.int n), by simp [normalize₂, infGe_eq], fun w _ hw => by simpa using hw⟩
  · have : (0 : ℤ) < 2 ^ numBits := by positivity
    omega
  · refine ⟨_, rfl, fun w hw _ => ⟨?_, Bound.le_posInf _⟩⟩
    rw [Bound.int_le_int]
    omega
  · rw [abs_lt] at hn
    omega
  · rw [abs_lt] at hm
    omega
  · exact ⟨.pair (.int m) .posInf, by simp [normalize₂, infGe_eq], fun w hw _ => by simpa using hw⟩
  · exact ⟨.pair (.int m) (.int n), by simp [normalize₂, infGe_eq, hlo.trans hhi],
      fun w hw hw' => by simpa using ⟨hw, hw'⟩⟩

end Otp.Compiler.BeamBounds
