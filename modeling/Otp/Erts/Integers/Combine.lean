import Otp.Erts.Integers.Segments

/-!
# Combining the segments

The segments are combined in pairs, with the radix squared each time.  What comes out is the
value of the segments; the only failure is a number that is too large, and there is none as
long as the segments and the radix stay below the limit (`combine_eq_ok`).
-/

namespace Otp.Erts.Integers

open Otp.Lib.Positional

variable {ws : WordSize} {n : ℤ} {e : Reason} {l : List ℤ}

theorem checked_eq_ok (h : |n| < limit ws) : checked ws n = .ok n := by
  rw [checked, if_pos]
  rw [Int.abs_eq_natAbs] at h
  exact_mod_cast h

theorem combinePairs_eq_ok {radix : ℤ} (hr : 1 ≤ radix) (hsize : size radix l < limit ws) :
    combinePairs ws radix l = .ok (pairs radix l) := by
  induction l using pairs.induct with
  | case1 a b l ih =>
    rw [size_cons, size_cons] at hsize
    have hnonneg : 0 ≤ size radix l := size_nonneg (by omega) l
    have hgrow : size radix l ≤ radix * (radix * size radix l) := by
      have hone := le_mul_of_one_le_left hnonneg hr
      exact hone.trans (le_mul_of_one_le_left (hnonneg.trans hone) hr)
    have hb : 0 ≤ radix * |b| := by positivity
    have hproduct : |b * radix| = radix * |b| := by
      rw [abs_mul, abs_of_nonneg (by omega : 0 ≤ radix), mul_comm]
    have hsum : |b * radix + a| ≤ radix * |b| + |a| := by
      rw [← hproduct]
      exact abs_add_le _ _
    have ha := abs_nonneg a
    rw [mul_add] at hsize
    rw [combinePairs, checked_eq_ok (by omega)]
    simp only [bind, Except.bind]
    rw [checked_eq_ok (by omega)]
    simp only [ih (by omega), pairs]
  | case2 l hl =>
    rcases l with _ | ⟨a, _ | ⟨b, pairs⟩⟩
    · rfl
    · rfl
    · exact absurd rfl (hl a b pairs)

/-! ## All rounds -/

/-- What one round leaves to the next. -/
theorem combine_eq (l : List ℤ) (radix : ℤ) :
    combine ws l radix =
      match combinePairs ws radix l with
      | .error e => .error e
      | .ok [result] => .ok result
      | .ok [] => .error .badarg
      | .ok (a :: b :: l') =>
        match checked ws (radix * radix) with
        | .error e => .error e
        | .ok radix' => combine ws (a :: b :: l') radix' := by
  rw [combine]
  cases combinePairs ws radix l with
  | error e => rfl
  | ok l' =>
    match l' with
    | [] => rfl
    | [a] => rfl
    | a :: b :: l' =>
      cases checked ws (radix * radix) <;> rfl

/-- The value of `combine` on a list with segments is the number, and the only error is that a
value does not fit. -/
theorem combine_cases (ws : WordSize) {l : List ℤ} (hne : l ≠ []) (radix : ℤ) :
    combine ws l radix = .ok (eval radix l) ∨ combine ws l radix = .error .systemLimit := by
  induction hlen : l.length using Nat.strongRecOn generalizing l radix with
  | _ n ih =>
    have hlength := length_pairs radix l
    have hpos := List.length_pos_iff.2 hne
    rw [combine_eq, ← eval_pairs]
    rcases combinePairs_cases ws radix l with hpairs | hpairs
    · rw [hpairs]
      generalize pairs radix l = l' at hlength
      match l' with
      | [] =>
        rw [List.length_nil] at hlength
        omega
      | [a] => exact .inl (by simp [eval])
      | a :: b :: l' =>
        rcases checked_cases ws (radix * radix) with hsquare | hsquare
        · simp only [List.length_cons] at hlength
          rw [hsquare]
          exact ih _ (by simp only [List.length_cons]; omega) (List.cons_ne_nil _ _)
            (radix * radix) rfl
        · exact .inr (by rw [hsquare])
    · exact .inr (by rw [hpairs])

/-- Nothing is too large if the segments are not, and the radix to the power of the
position of the last segment is not. -/
theorem combine_eq_ok {radix : ℤ} (hne : l ≠ []) (hr : 1 ≤ radix) (hsize : size radix l < limit ws)
    (hpow : radix ^ (l.length - 1) < limit ws) : combine ws l radix = .ok (eval radix l) := by
  induction hlen : l.length using Nat.strongRecOn generalizing l radix with
  | _ n ih =>
    have hpos := List.length_pos_iff.2 hne
    have hlength := length_pairs radix l
    rw [combine_eq, combinePairs_eq_ok hr hsize, ← eval_pairs]
    generalize hl' : pairs radix l = l'
    rw [hl'] at hlength
    match l' with
    | [] =>
      rw [List.length_nil] at hlength
      omega
    | [a] => simp [eval]
    | a :: b :: l' =>
      simp only [List.length_cons] at hlength
      have hpow_le : (radix * radix) ^ (l'.length + 1) ≤ radix ^ (l.length - 1) := by
        rw [← sq, ← pow_mul]
        exact pow_le_pow_right₀ hr (by omega)
      have hsquare_le : radix * radix ≤ (radix * radix) ^ (l'.length + 1) :=
        le_self_pow₀ (by nlinarith) (by omega)
      have hsquare : |radix * radix| < limit ws := by
        rw [abs_of_nonneg (by positivity)]
        exact (hsquare_le.trans hpow_le).trans_lt hpow
      have hsize' := (size_pairs_le (by omega : 0 ≤ radix) l).trans_lt hsize
      rw [hl'] at hsize'
      simp only [checked_eq_ok hsquare]
      exact ih _ (by simp only [List.length_cons]; omega) (List.cons_ne_nil _ _) (by nlinarith)
        hsize' (hpow_le.trans_lt hpow) rfl

end Otp.Erts.Integers
