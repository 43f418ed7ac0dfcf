import Otp.Compiler.BeamBounds.Ranges

/-!
# Range arithmetic (`beam_bounds.erl`, `bounds/2` and `bounds/3`)

The functions are translated clause by clause; a subscript is the arity of the
source function where one name has several. The bit-walk loops of the source
carry a mask `M` that is zero or a power of two and is halved until it is
zero. Here the mask is held as a number: `0` is the mask zero and `k + 1` is
the mask `2 ^ k`.
-/

namespace Otp.Compiler.BeamBounds

/-- The unary operators of `bounds/2`. -/
inductive UnOp where
  | bnot
  | abs
  deriving DecidableEq, Repr

/-- The binary operators of `bounds/3`. -/
inductive BinOp where
  | add | sub | mul | div | rem
  | band | bor | bxor
  | bsr | bsl
  | max | min
  deriving DecidableEq, Repr

/-- Erlang's meaning of the unary operators. -/
def UnOp.eval : UnOp → ℤ → ℤ
  | .bnot, x => Int.lnot x
  | .abs, x => |x|

/-- Erlang's meaning of the binary operators: truncating division, a
remainder with the sign of the left operand, and two's complement of unbounded
width for the bitwise ones. -/
def BinOp.eval : BinOp → ℤ → ℤ → ℤ
  | .add, x, y => x + y
  | .sub, x, y => x - y
  | .mul, x, y => x * y
  | .div, x, y => x.tdiv y
  | .rem, x, y => x.tmod y
  | .band, x, y => Int.land x y
  | .bor, x, y => Int.lor x y
  | .bxor, x, y => Int.xor x y
  | .bsr, x, y => BeamBounds.bsr x y
  | .bsl, x, y => BeamBounds.bsl x y
  | .max, x, y => Max.max x y
  | .min, x, y => Min.min x y

/-- `X div Y` and `X rem Y` raise for `Y = 0`; every other application is
defined. -/
def BinOp.Defined : BinOp → ℤ → Prop
  | .div, y => y ≠ 0
  | .rem, y => y ≠ 0
  | _, _ => True

/-! ## Division and remainder -/

/-- The denominators at which a quotient can be extremal: the two ends and,
where the range touches or crosses zero, the neighbours of zero. -/
def denominators (c d : ℤ) : List ℤ :=
  [min c d, max c d] ++
    if c < 0 ∧ 0 < d then [-1, 1]
    else if c = 0 then [1]
    else if d = 0 then [-1]
    else []

/-- All quotients `X div Y` of the ends and the non-zero denominators. -/
def quotients (a b c d : ℤ) : List ℤ :=
  [a, b].flatMap fun x => ((denominators c d).filter (· ≠ 0)).map fun y => x.tdiv y

def divBounds (r1 r2 : Bound × Bound) : Option Range :=
  if r2 = (.int 0, .int 0) then
    -- division by zero, nothing clever is tried
    some .any
  else
    match r1, r2 with
    | (.int a, .int b), (.int c, .int d) => do
        let min ← (quotients a b c d).min?
        let max ← (quotients a b c d).max?
        normalize (.int min, .int max)
    | (.int a, .posInf), (.int c, d) =>
      if 0 < c then do
        let q ← infDiv (.int a) d
        normalize (.int (min (a.tdiv c) q), .posInf)
      else some .any
    | (.negInf, .int b), (.int c, d) =>
      if 0 < c then do
        let q ← infDiv (.int b) d
        normalize (.negInf, .int (max (b.tdiv c) q))
      else some .any
    | (.int a, .int b), _ =>
      -- returned without a call to `normalize`
      some (.pair (.int (-max |a| |b|)) (.int (max |a| |b|)))
    | _, _ => some .any

def remBounds (r1 r2 : Bound × Bound) : Option Range :=
  let (a, b) := r1
  let (c, d) := r2
  let maxC := infMax (infAdd (infAbs c) (.int (-1))) (.int 0)
  let maxD := infMax (infAdd (infAbs d) (.int (-1))) (.int 0)
  let maxCD := infMax maxC maxD
  let min := infMax a (infNeg maxCD)
  let max := infMin b maxCD
  match infSign a, infSign b with
  | .minus, .minus => normalize (min, .int 0)
  | .minus, .plus => normalize (min, max)
  | .plus, .plus => normalize (.int 0, max)
  | .plus, .minus => none

/-! ## The bitwise operators -/

/-- `upper_bit_1/2`: the index of the highest one bit, counted from `n`. -/
def upperBit₁ (val n : ℕ) : ℕ :=
  if val / 2 = 0 then n else upperBit₁ (val / 2) (n + 1)
termination_by val
decreasing_by omega

def upperBit (val : ℤ) : ℕ :=
  if val < 0 then numBits + 1 else upperBit₁ val.toNat 0

/-- `min_bor/5`. -/
def minBor₅ (a : ℤ) (b : Bound) (c : ℤ) (d : Bound) : ℕ → ℤ
  | 0 => Int.lor a c
  | k + 1 =>
    let m : ℤ := 2 ^ k
    if Int.land (Int.land (Int.lnot a) c) m ≠ 0 then
      let newA := Int.land (Int.lor a m) (-m)
      if termLe (.int newA) b then
        -- the source continues with the mask zero, which stops the walk
        Int.lor newA c
      else minBor₅ a b c d k
    else if Int.land (Int.land a (Int.lnot c)) m ≠ 0 then
      let newC := Int.land (Int.lor c m) (-m)
      if termLe (.int newC) d then Int.lor a newC
      else minBor₅ a b c d k
    else minBor₅ a b c d k

/-- `min_bor/4`. -/
def minBor₄ (a b c d : Bound) : Option Bound :=
  match a, c with
  | .negInf, .int c =>
    if c < 0 then some (.int (minBor₅ 0 b c d (upperBit c + 1)))
    else some .negInf
  | .int a, .int c => some (.int (minBor₅ a b c d (upperBit (Int.xor a c) + 1)))
  | a, c => if infMin a c = .negInf then some .negInf else none

/-- `max_bor/6`. -/
def maxBor₆ (intersection : ℤ) (a : Bound) (b : ℤ) (c : Bound) (d : ℤ) : ℕ → ℤ
  | 0 => Int.lor b d
  | k + 1 =>
    let m : ℤ := 2 ^ k
    if Int.land intersection m ≠ 0 then
      let newM := m - 1
      let newB := Int.lor (b - m) newM
      if infGe (.int newB) a then Int.lor newB d
      else
        let newD := Int.lor (d - m) newM
        if infGe (.int newD) c then Int.lor b newD
        else maxBor₆ intersection a b c d k
    else maxBor₆ intersection a b c d k

/-- `max_bor/4`. -/
def maxBor₄ (a b₀ c d₀ : Bound) : Bound :=
  match b₀, d₀ with
  | .int b, .posInf =>
    if b < 0 then .int (maxBor₆ b a b c (-1) (upperBit b + 1))
    else .posInf
  | .int b, .int d =>
    .int (maxBor₆ (Int.land b d) a b c d (upperBit (Int.land b d) + 1))
  | _, _ => .posInf

def doMinMaxBor (a b c d : Bound) : Option (Bound × Bound) :=
  match infSign a, infSign b, infSign c, infSign d with
  | .minus, .minus, .minus, .minus => do
      let min ← minBor₄ a b c d
      some (min, maxBor₄ a b c d)
  | .minus, .minus, .minus, .plus => some (a, .int (-1))
  | .minus, .minus, .plus, .plus => do
      let min ← minBor₄ a b c d
      some (min, maxBor₄ a b c d)
  | .minus, .plus, .minus, .minus => some (c, .int (-1))
  | .minus, .plus, .minus, .plus => some (infMin a c, maxBor₄ (.int 0) b (.int 0) d)
  | .minus, .plus, .plus, .plus => do
      let min ← minBor₄ a (.int (-1)) c d
      some (min, maxBor₄ a b c d)
  | .plus, .plus, .plus, .plus => do
      let min ← minBor₄ a b c d
      some (min, maxBor₄ a b c d)
  | _, _, _, _ => none

def minMaxBor (a b c d : Bound) : Option (Bound × Bound) :=
  if infLe a c then doMinMaxBor a b c d else doMinMaxBor c d a b

def minMaxBand (a b c d : Bound) : Option (Bound × Bound) := do
  let (min, max) ← minMaxBor (infBnot b) (infBnot a) (infBnot d) (infBnot c)
  some (infBnot max, infBnot min)

/-- `min_bxor/5`. -/
def minBxor₅ (a : ℤ) (b : Bound) (c : ℤ) (d : Bound) : ℕ → ℤ
  | 0 => Int.xor a c
  | k + 1 =>
    let m : ℤ := 2 ^ k
    if Int.land (Int.land (Int.lnot a) c) m ≠ 0 then
      let newA := Int.land (Int.lor a m) (-m)
      if termLe (.int newA) b then minBxor₅ newA b c d k
      else minBxor₅ a b c d k
    else if Int.land (Int.land a (Int.lnot c)) m ≠ 0 then
      let newC := Int.land (Int.lor c m) (-m)
      if termLe (.int newC) d then minBxor₅ a b newC d k
      else minBxor₅ a b c d k
    else minBxor₅ a b c d k

/-- `min_bxor/4`; `A bor C` fails on an infinite end. -/
def minBxor₄ (a b c d : Bound) : Option Bound :=
  match a, c with
  | .int a, .int c => some (.int (minBxor₅ a b c d (upperBit (Int.lor a c) + 1)))
  | _, _ => none

/-- `max_bxor/5`. -/
def maxBxor₅ (a : Bound) (b : ℤ) (c : Bound) (d : ℤ) : ℕ → ℤ
  | 0 => Int.xor b d
  | k + 1 =>
    let m : ℤ := 2 ^ k
    if Int.land (Int.land b d) m ≠ 0 then
      let newB := Int.lor (b - m) (m - 1)
      if infGe (.int newB) a then maxBxor₅ a newB c d k
      else
        let newD := Int.lor (d - m) (m - 1)
        if infGe (.int newD) c then maxBxor₅ a b c newD k
        else maxBxor₅ a b c d k
    else maxBxor₅ a b c d k

/-- `max_bxor/4`; `B band D` fails on an infinite end. -/
def maxBxor₄ (a b c d : Bound) : Option Bound :=
  match b, d with
  | .int b, .int d => some (.int (maxBxor₅ a b c d (upperBit (Int.land b d) + 1)))
  | _, _ => none

/-- The bounds returned by the three clauses of `do_min_max_bxor/4` that are
marked as not tight: `minMin` is the least left end and `maxMax` the greatest
non-negative right end. -/
def looseBxor (minMin maxMax : ℤ) : Option (Bound × Bound) := do
  let max := max (Int.lnot minMin) maxMax
  let lo ← minBxor₄ (.int minMin) (.int (-1)) (.int 0) (.int maxMax)
  let hi ← maxBxor₄ (.int 0) (.int max) (.int 0) (.int max)
  some (lo, hi)

def doMinMaxBxor (a b c d : Bound) : Option (Bound × Bound) :=
  match a, b, c, d with
  | .int a', .int b', .int c', .int d' =>
    match infSign a, infSign b, infSign c, infSign d with
    | .minus, .minus, .minus, .minus => do
        some (← minBxor₄ a b c d, ← maxBxor₄ a b c d)
    | .minus, .minus, .minus, .plus => looseBxor (min a' c') d'
    | .minus, .minus, .plus, .plus => do
        some (← minBxor₄ a b c d, ← maxBxor₄ a b c d)
    | .minus, .plus, .minus, .minus => looseBxor (min a' c') b'
    | .minus, .plus, .minus, .plus => looseBxor (min a' c') (max b' d')
    | .minus, .plus, .plus, .plus => do
        some (← minBxor₄ a (.int (-1)) c d, ← maxBxor₄ a b c d)
    | .plus, .plus, .plus, .plus => do
        some (← minBxor₄ a b c d, ← maxBxor₄ a b c d)
    | _, _, _, _ => none
  | a, b, c, d =>
    match infSign a, infSign b, infSign c, infSign d with
    | .plus, .plus, .plus, .plus => do some (← minBxor₄ a b c d, .posInf)
    | .minus, .minus, .plus, .plus =>
      match d with
      | .int d' => do some (.negInf, ← maxBxor₄ a b c (.int d'))
      | _ => some (.negInf, .int (-1))
    | _, _, _, _ => some (.negInf, .posInf)

def minMaxBxor (a b c d : Bound) : Option (Bound × Bound) :=
  if infLe a c then doMinMaxBxor a b c d else doMinMaxBxor c d a b

/-! ## The entry points -/

/-- `bounds/2`. -/
def bounds₂ (op : UnOp) (r : Range) : Option Range :=
  let (a, b) := canonicalArg r
  match op with
  | .bnot => normalize (infAdd (infNeg b) (.int (-1)), infAdd (infNeg a) (.int (-1)))
  | .abs =>
    let absA := infAbs a
    let absB := infAbs b
    let min :=
      match infSign a, infSign b with
      | .minus, .plus => .int 0
      | _, _ => infMin absA absB
    normalize (min, infMax absA absB)

/-- The clause of `bounds/3` for `'-'`, on canonical arguments. -/
def subBounds : Bound → Bound → Bound → Bound → Option Range
  | .int a, .int b, .int c, .int d => normalize (.int (a - d), .int (b - c))
  | .int a, .posInf, _, .int d => normalize (.int (a - d), .posInf)
  | _, .int b, .int c, .posInf => normalize (.negInf, .int (b - c))
  | .negInf, .int b, .int c, _ => normalize (.negInf, .int (b - c))
  | .int a, _, .negInf, .int d => normalize (.int (a - d), .posInf)
  | _, _, _, _ => some .any

/-- `bounds/3`. -/
def bounds₃ (op : BinOp) (r1 r2 : Range) : Option Range :=
  let (a, b) := canonicalArg r1
  let (c, d) := canonicalArg r2
  match op with
  | .add => normalize (infAdd a c, infAdd b d)
  | .sub => subBounds a b c d
  | .mul =>
    let all := [infMul a c, infMul a d, infMul b c, infMul b d]
    normalize (all.foldl (fun acc x => infMin x acc) .posInf,
      all.foldl (fun acc x => infMax x acc) .negInf)
  | .div => divBounds (a, b) (c, d)
  | .rem => remBounds (a, b) (c, d)
  | .band => minMaxBand a b c d >>= normalize
  | .bor => minMaxBor a b c d >>= normalize
  | .bxor => minMaxBxor a b c d >>= normalize
  | .bsr =>
    normalize (infMin (infBsr a c) (infBsr a d), infMax (infBsr b c) (infBsr b d))
  | .bsl =>
    normalize (infMin (infBsl a c) (infBsl a d), infMax (infBsl b c) (infBsl b d))
  | .max => normalize (infMax a c, infMax b d)
  | .min => normalize (infMin a c, infMin b d)

/-! ## What soundness means -/

/-- `bounds/2` returns a range, and the range holds every result of the
operator on members of the argument range. -/
def BoundsSound₂ (op : UnOp) (r : Range) : Prop :=
  ∃ res, bounds₂ op r = some res ∧ ∀ x ∈ r, op.eval x ∈ res

/-- `bounds/3` returns a range, and the range holds every result of the
operator on members of the two argument ranges. -/
def BoundsSound (op : BinOp) (r1 r2 : Range) : Prop :=
  ∃ r, bounds₃ op r1 r2 = some r ∧
    ∀ x ∈ r1, ∀ y ∈ r2, op.Defined y → op.eval x y ∈ r

variable {op : BinOp} {r1 r2 r : Range}

/-- The range may be checked on the canonical arguments. -/
theorem boundsSound_of_canonical (h1 : r1.Valid) (h2 : r2.Valid) (heq : bounds₃ op r1 r2 = some r)
    (hmem : ∀ x y, (canonicalArg r1).1 ≤ .int x → .int x ≤ (canonicalArg r1).2 →
      (canonicalArg r2).1 ≤ .int y → .int y ≤ (canonicalArg r2).2 → op.Defined y →
        op.eval x y ∈ r) :
    BoundsSound op r1 r2 := by
  refine ⟨r, heq, fun x hx y hy hdef => ?_⟩
  have hx' := (canonicalArg_spec h1).2 x hx
  have hy' := (canonicalArg_spec h2).2 y hy
  exact hmem x y hx'.1 hx'.2 hy'.1 hy'.2 hdef

/-- Ends that enclose every result, for an operator that hands them to
`normalize`. -/
theorem boundsSound_of_ends (h1 : r1.Valid) (h2 : r2.Valid) {lo hi : Bound}
    (heq : bounds₃ op r1 r2 = normalize (lo, hi))
    (hends : ∀ x y, (canonicalArg r1).1 ≤ .int x → .int x ≤ (canonicalArg r1).2 →
      (canonicalArg r2).1 ≤ .int y → .int y ≤ (canonicalArg r2).2 →
      lo ≤ .int (op.eval x y) ∧ .int (op.eval x y) ≤ hi) : BoundsSound op r1 r2 := by
  obtain ⟨x₀, hx₀⟩ := h1.exists_mem
  obtain ⟨y₀, hy₀⟩ := h2.exists_mem
  have hx := (canonicalArg_spec h1).2 x₀ hx₀
  have hy := (canonicalArg_spec h2).2 y₀ hy₀
  obtain ⟨hlo, hhi⟩ := hends x₀ y₀ hx.1 hx.2 hy.1 hy.2
  obtain ⟨r, hr, hmem⟩ := normalize_sound (Bound.below_of_le hlo) (Bound.above_of_le hhi)
  refine boundsSound_of_canonical h1 h2 (heq.trans hr) fun x y ha hb hc hd _ => ?_
  obtain ⟨hlo, hhi⟩ := hends x y ha hb hc hd
  exact hmem _ (Bound.below_of_le hlo) (Bound.above_of_le hhi)

end Otp.Compiler.BeamBounds
