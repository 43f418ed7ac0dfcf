import Otp.Compiler.BeamTypes.Types

/-!
# Ranges of numeric types (`beam_types.erl`)

The ends of a range are compared with Erlang's term order, in which numbers
are smaller than atoms and `'+inf'` is a smaller atom than `'-inf'`; the
functions below treat `'-inf'` by clauses of their own. Two floats are compared
by `erts_internal:cmp_term/2`, which tells `-0.0` from `+0.0`.
-/

namespace Otp.Compiler.BeamTypes

open Otp.Lib

/-! ## Comparison -/

def Flt.toRat : Flt → ℚ
  | .negZero => 0
  | .num q => q.1

/-- `cmp_term(A, B) =< 0` on floats. -/
def Flt.totalLe : Flt → Flt → Bool
  | .negZero, .num q => decide (0 ≤ q.1)
  | .num q, .negZero => decide (q.1 < 0)
  | .negZero, .negZero => true
  | .num p, .num q => decide (p.1 ≤ q.1)

/-- `A =< B` in the order of terms. -/
def End.termLe : End → End → Bool
  | .int m, .int n => decide (m ≤ n)
  | .int m, .float g => decide ((m : ℚ) ≤ g.toRat)
  | .float f, .int n => decide (f.toRat ≤ n)
  | .float f, .float g => decide (f.toRat ≤ g.toRat)
  | .int _, _ | .float _, _ => true
  | _, .int _ | _, .float _ => false
  | .negInf, .posInf => false
  | .posInf, _ | .negInf, .negInf => true

def infLe : End → End → Bool
  | .negInf, _ => true
  | .float f, .float g => f.totalLe g
  | a, b => a.termLe b

def infGe : End → End → Bool
  | _, .negInf => true
  | .negInf, _ => false
  | .float f, .float g => g.totalLe f
  | a, b => b.termLe a

def infMin : End → End → End
  | .negInf, _ | _, .negInf => .negInf
  | .float f, .float g => if f.totalLe g then .float f else .float g
  | a, b => if a.termLe b then a else b

def infMax : End → End → End
  | .negInf, b => b
  | a, .negInf => a
  | .float f, .float g => if g.totalLe f then .float f else .float g
  | a, b => if b.termLe a then a else b

/-! ## Ranges -/

/-- `glb_ranges/2`; the absent result is `none`. Its assertions hold for
well-formed ranges. -/
def glbRanges : NumRange → NumRange → Option NumRange
  | .pair minA maxA, .pair minB maxB =>
    if (infGe minA minB && infLe minA maxB) || (infGe minB minA && infLe minB maxA) then
      some (.pair (infMax minA minB) (infMin maxA maxB))
    else none
  | .pair minA maxA, .any => some (.pair minA maxA)
  | .any, .pair minB maxB => some (.pair minB maxB)
  | .any, .any => some .any

def lubRanges : NumRange → NumRange → NumRange
  | .pair minA maxA, .pair minB maxB => .pair (infMin minA minB) (infMax maxA maxB)
  | _, _ => .any

/-- Expands integer `0` to `-0.0 .. +0.0`. -/
def numberToFloatRange : NumRange → NumRange
  | .pair min max =>
    let max' := if max = .int 0 then .float (.num ⟨0, Double.zero_isDouble⟩) else max
    let min' := if min = .int 0 then .float .negZero else min
    .pair min' max'
  | .any => .any

/-- The guard expression `float(A)`; absent where it raises. -/
def toFloat : End → Option Flt
  | .int n => (Double.ofInt n).map .num
  | .float f => some f
  | _ => none

/-- `safe_float/1`. -/
def safeFloat : End → End
  | .int n =>
    match Double.ofInt n with
    | some q => .float (.num q)
    | none => if n < 0 then .negInf else .posInf
  | e => e

def floatFromRange : Option NumRange → Option NumberType
  | none => none
  | some .any => some (.float .any)
  | some (.pair min max) =>
    match safeFloat min, safeFloat max with
    | .negInf, .posInf => some (.float .any)
    | a, b => some (.float (.pair a b))

/-- `floor/1` on a number; no infinity gets here. -/
def End.floor : End → End
  | .float f => .int ⌊f.toRat⌋
  | e => e

/-- `ceil/1` on a number; no infinity gets here. -/
def End.ceil : End → End
  | .float f => .int ⌈f.toRat⌉
  | e => e

/-- The range that `integer_from_range/1` and `number_from_range/1` put into
their result. -/
def integralRange : NumRange → NumRange
  | .any | .pair .negInf .posInf => .any
  | .pair .negInf max => .pair .negInf max.ceil
  | .pair min .posInf => .pair min.floor .posInf
  | .pair min max => .pair min.floor max.ceil

def integerFromRange (r : Option NumRange) : Option NumberType :=
  r.map fun r => .integer (integralRange r)

def numberFromRange (r : Option NumRange) : Option NumberType :=
  r.map fun r => .number (integralRange r)

/-- The clause of `glb_number/2` for a number and a float. -/
def glbNumberFloat (ra₀ rb : NumRange) : Option NumberType :=
  let ra := numberToFloatRange ra₀
  match ra, rb with
  | .pair a b, .pair (.float c) d =>
    -- `C..C` stands for all numbers that round to `C`
    if d = .float c ∧ toFloat a = some c ∧ toFloat b = some c then some (.float rb)
    else floatFromRange (glbRanges ra rb)
  | _, _ => floatFromRange (glbRanges ra rb)

/-- The clauses of `glb/2` for numeric types. -/
def glbNumber (a b : NumberType) : Option NumberType :=
  if a = b then some a
  else
    match a, b with
    | .float r1, .float r2 => floatFromRange (glbRanges r1 r2)
    | .integer r1, .integer r2 | .integer r1, .number r2 | .number r1, .integer r2 =>
      integerFromRange (glbRanges r1 r2)
    | .number r1, .number r2 => numberFromRange (glbRanges r1 r2)
    | .number r1, .float r2 | .float r2, .number r1 => glbNumberFloat r1 r2
    | .integer _, .float _ | .float _, .integer _ => none

/-- The clauses of `lub/2` for numeric types. -/
def lubNumber (a b : NumberType) : NumberType :=
  if a = b then a
  else
    match a, b with
    | .float r1, .float r2 =>
      -- a range is never absent, so the result is a type
      (floatFromRange (some (lubRanges r1 r2))).getD (.float .any)
    | .integer r1, .integer r2 => .integer (integralRange (lubRanges r1 r2))
    | .float r1, .integer r2 | .float r1, .number r2 | .integer r1, .float r2
    | .integer r1, .number r2 | .number r1, .number r2 | .number r1, .integer r2
    | .number r1, .float r2 => .number (integralRange (lubRanges r1 r2))

end Otp.Compiler.BeamTypes
