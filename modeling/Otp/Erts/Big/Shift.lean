import Mathlib

/-!
# Shifting bignums

A bignum of `big.c` is a sign and an array of digits of `D_EXP = w` bits, the least
significant one first.  `I_lshift` moves the bits of the array to either side, whole digits
first and the rest in a loop that carries the bits that leave one digit into its neighbour.
A negative number that loses a bit on the right is rounded away from zero, which makes the
shift the floor of the signed value times a power of two (`iLshift_floor`).
-/

namespace Otp.Erts.Big

open List

variable {w sw n : ℕ} {x r : List (BitVec w)}

/-! ## Digit arrays -/

def magnitude (x : List (BitVec w)) : ℕ := Nat.ofDigits (2 ^ w) (x.map BitVec.toNat)

def signed (sign : Bool) (x : List (BitVec w)) : ℤ := if sign then -magnitude x else magnitude x

/-- The topmost digit is not zero. -/
abbrev Topped (x : List (BitVec w)) : Prop := ∃ d ∈ x.getLast?, d ≠ 0

/-- No superfluous digit on top; the number zero has one digit. -/
abbrev Normalized (x : List (BitVec w)) : Prop := x = [0] ∨ Topped x

theorem magnitude_cons (d : BitVec w) (x : List (BitVec w)) :
    magnitude (d :: x) = d.toNat + 2 ^ w * magnitude x := rfl

theorem magnitude_append (x y : List (BitVec w)) :
    magnitude (x ++ y) = magnitude x + (2 ^ w) ^ x.length * magnitude y := by
  simp [magnitude, Nat.ofDigits_append]

@[simp] theorem magnitude_singleton (d : BitVec w) : magnitude [d] = d.toNat := by
  simp [magnitude]

theorem magnitude_eq_zero : magnitude x = 0 ↔ ∀ d ∈ x, d = 0 := by
  induction x with
  | nil => simp [magnitude]
  | cons d x ih =>
    rw [magnitude_cons, forall_mem_cons, ← ih]
    simp [BitVec.toNat_eq]

theorem magnitude_ne_zero (h : Topped x) : magnitude x ≠ 0 := by
  obtain ⟨d, hd, h0⟩ := h
  exact fun h => h0 (magnitude_eq_zero.1 h d (mem_of_getLast? hd))

theorem topped_append (h : Topped x) : Topped (r ++ x) := by
  obtain ⟨d, hd, h0⟩ := h
  exact ⟨d, by simp_all [getLast?_append], h0⟩

theorem topped_concat {d : BitVec w} : Topped (x ++ [d]) ↔ d ≠ 0 := by simp [Topped]

/-! ## The loops -/

/-- A loop over digits that are shifted by a part of their width: each digit keeps some of
its bits, takes in those that the digit before it moved over, and moves the others on. -/
def shiftLoop (keep move : BitVec w → BitVec w) :
    BitVec w → List (BitVec w) → List (BitVec w) × BitVec w
  | a, [] => ([], a)
  | a, d :: x =>
    let (r, b) := shiftLoop keep move (move d) x
    ((keep d ||| a) :: r, b)

/-- From the lowest digit upwards; the second component is `a1` after the loop. -/
def shiftLeft (sw : ℕ) (x : List (BitVec w)) : List (BitVec w) × BitVec w :=
  if sw = 0 then (x, 0) else shiftLoop (· <<< sw) (· >>> (w - sw)) 0 x

/-- From the topmost digit, the first one here, downwards; the second component is `a0`. -/
def shiftRight (sw : ℕ) (x : List (BitVec w)) : List (BitVec w) × BitVec w :=
  if sw = 0 then (x, 0) else shiftLoop (· >>> sw) (· <<< (w - sw)) 0 x

/-- Addition of a digit: a carry out of the topmost digit makes a new one. -/
def dAdd : List (BitVec w) → BitVec w → List (BitVec w)
  | [], c => if c = 0 then [] else [1]
  | d :: x, c => (d + c) :: dAdd x (if d + c < c then 1 else 0)

/-- A zero on top is left out. -/
def trim (r : List (BitVec w)) : List (BitVec w) := if r.head? = some 0 then r.tail else r

/-- The digits that `I_lshift` leaves in `r` up to the length it returns. The absolute value
of `y` is an unsigned word, so the least count has one too. -/
def iLshift (x : List (BitVec w)) (y : ℤ) (sign : Bool) : List (BitVec w) :=
  if y = 0 then x
  else if x = [0] then [0]
  else
    let bw := y.natAbs / w
    let sw := y.natAbs % w
    if 0 < y then
      let (r, a1) := shiftLeft sw x
      replicate bw 0 ++ r ++ if a1 = 0 then [] else [a1]
    else if x.length ≤ bw then [if sign then 1 else 0]
    else
      let (r, a0) := shiftRight sw (x.drop bw).reverse
      let addOne := sign && ((x.take bw).any (· ≠ 0) || a0 ≠ 0)
      if r = [0] then [if sign then 1 else 0]
      else
        let r := (trim r).reverse
        if addOne then dAdd r 1 else r

theorem shiftLoop_left (hs : sw ≤ w) {a : BitVec w} (ha : a.toNat < 2 ^ sw) (x : List (BitVec w)) :
    let (r, b) := shiftLoop (· <<< sw) (· >>> (w - sw)) a x
    r.length = x.length ∧
      b.toNat * (2 ^ w) ^ x.length + magnitude r = magnitude x * 2 ^ sw + a.toNat := by
  induction x generalizing a with
  | nil => simp [shiftLoop, magnitude]
  | cons d x ih =>
    have hw : 2 ^ w = 2 ^ sw * 2 ^ (w - sw) := by rw [← pow_add, Nat.add_sub_cancel' hs]
    have hmove : (d >>> (w - sw)).toNat = d.toNat / 2 ^ (w - sw) := by
      simp [Nat.shiftRight_eq_div_pow]
    have hkeep : (d <<< sw ||| a).toNat = 2 ^ sw * (d.toNat % 2 ^ (w - sw)) + a.toNat := by
      rw [BitVec.toNat_or, BitVec.toNat_shiftLeft, Nat.shiftLeft_eq, mul_comm, hw,
        Nat.mul_mod_mul_left, Nat.two_pow_add_eq_or_of_lt ha]
    obtain ⟨hlen, hval⟩ := ih (a := d >>> (w - sw)) (by
      rw [hmove, Nat.div_lt_iff_lt_mul (by simp), ← hw]
      exact d.isLt)
    refine ⟨by simp [hlen], ?_⟩
    have hd := Nat.div_add_mod d.toNat (2 ^ (w - sw))
    simp only [magnitude_cons, hkeep, length_cons, pow_succ]
    rw [hmove] at hval
    linear_combination 2 ^ w * hval + 2 ^ sw * hd + d.toNat / 2 ^ (w - sw) * hw

theorem shiftLoop_id {keep move : BitVec w → BitVec w} (hk : ∀ d, keep d = d)
    (hm : ∀ d, move d = 0) (x : List (BitVec w)) : shiftLoop keep move 0 x = (x, 0) := by
  induction x with
  | nil => rfl
  | cons d x ih =>
    rw [shiftLoop, hm, ih, hk]
    simp

/-- On words, unlike in C, the loop would copy the digits. -/
theorem shiftLeft_eq (sw : ℕ) (x : List (BitVec w)) :
    shiftLeft sw x = shiftLoop (· <<< sw) (· >>> (w - sw)) 0 x := by
  unfold shiftLeft
  split_ifs with h
  · rw [shiftLoop_id] <;> simp [h, BitVec.ushiftRight_eq_zero]
  · rfl

theorem shiftRight_eq (sw : ℕ) (x : List (BitVec w)) :
    shiftRight sw x = shiftLoop (· >>> sw) (· <<< (w - sw)) 0 x := by
  unfold shiftRight
  split_ifs with h
  · rw [shiftLoop_id] <;> simp [h]
  · rfl

theorem shiftLoop_concat (keep move : BitVec w → BitVec w) (a d : BitVec w) (x : List (BitVec w)) :
    shiftLoop keep move a (x ++ [d]) =
      ((shiftLoop keep move a x).1 ++ [keep d ||| (shiftLoop keep move a x).2], move d) := by
  induction x generalizing a with
  | nil => rfl
  | cons e x ih => rw [cons_append, shiftLoop, ih]; rfl

/-- From the other end, the loop writes the digits of the loop that keeps what it moves. -/
theorem shiftLoop_reverse (keep move : BitVec w → BitVec w) (a : BitVec w) (x : List (BitVec w)) :
    let (r, b) := shiftLoop keep move a x
    let (s, c) := shiftLoop move keep 0 x.reverse
    b :: r.reverse = s ++ [c ||| a] := by
  induction x generalizing a with
  | nil => simp [shiftLoop]
  | cons d x ih =>
    have := ih (move d)
    simp only [reverse_cons, shiftLoop_concat, shiftLoop]
    rw [← cons_append, this, BitVec.or_comm]

/-- Of a topmost digit that is not zero, a bit stays in its place or moves over. -/
theorem topped_shiftLoop (hs : sw ≤ w) (h : Topped x)
    (h0 : (shiftLoop (· <<< sw) (· >>> (w - sw)) 0 x).2 = 0) :
    Topped (shiftLoop (· <<< sw) (· >>> (w - sw)) 0 x).1 := by
  obtain ⟨d, hd, hd0⟩ := h
  obtain ⟨l, rfl⟩ := getLast?_eq_some_iff.1 hd
  rw [shiftLoop_concat] at h0 ⊢
  refine topped_concat.2 fun hor => hd0 (BitVec.eq_of_toNat_eq ?_)
  have hkeep : d <<< sw = 0 := (BitVec.or_eq_zero_iff.1 hor).1
  have hmove : d >>> (w - sw) = 0 := h0
  have hval := (shiftLoop_left hs (a := 0) (by simp) [d]).2
  simp only [hkeep, hmove] at hval
  simpa using hval

theorem shiftRight_spec (hs : sw ≤ w) (x : List (BitVec w)) :
    let (r, a0) := shiftRight sw x
    (∃ l < 2 ^ sw, (l ≠ 0 ↔ a0 ≠ 0) ∧ magnitude x.reverse = magnitude r.reverse * 2 ^ sw + l) ∧
      (Topped x.reverse → r ≠ [0] → Topped (trim r).reverse) := by
  have hleft := shiftLoop_left (Nat.sub_le w sw) (a := 0) (by simp) x.reverse
  have htop := topped_shiftLoop (x := x.reverse) (Nat.sub_le w sw)
  have hrev := shiftLoop_reverse (· >>> sw) (· <<< (w - sw)) 0 x
  rw [Nat.sub_sub_self hs] at hleft htop
  rw [shiftRight_eq]
  generalize shiftLoop (· >>> sw) (· <<< (w - sw)) 0 x = p at hrev ⊢
  generalize shiftLoop (· <<< (w - sw)) (· >>> sw) 0 x.reverse = q at hleft htop hrev
  obtain ⟨⟨r, a0⟩, s, c⟩ := p, q
  obtain ⟨hlen, hval⟩ := hleft
  have hrev : a0 :: r.reverse = s ++ [c] := by simpa using hrev
  have hval : a0.toNat + 2 ^ w * magnitude r.reverse = magnitude x.reverse * 2 ^ (w - sw) := by
    rw [← magnitude_cons, hrev, magnitude_append, hlen, add_comm, mul_comm]
    simpa using hval
  have hw : 2 ^ w = 2 ^ sw * 2 ^ (w - sw) := by rw [← pow_add, Nat.add_sub_cancel' hs]
  have hpos : 0 < 2 ^ (w - sw) := by simp
  obtain ⟨l, hl⟩ : ∃ l, magnitude x.reverse = magnitude r.reverse * 2 ^ sw + l := by
    refine Nat.exists_eq_add_of_le (Nat.le_of_mul_le_mul_right ?_ hpos)
    rw [← hval, hw, mul_assoc, mul_comm]
    exact Nat.le_add_left ..
  have ha0 : a0.toNat = l * 2 ^ (w - sw) := by
    rw [hl, hw] at hval
    linarith
  have hrl : r.length = x.length := by simpa [hlen] using congrArg length hrev
  refine ⟨⟨l, ?_, ?_, hl⟩, fun hx h0 => ?_⟩
  · refine Nat.lt_of_mul_lt_mul_right (a := 2 ^ (w - sw)) ?_
    rw [← ha0, ← hw]
    exact a0.isLt
  · rw [Ne, Ne, BitVec.toNat_eq, ha0]
    simp
  · match r with
    | [] => simp [Topped, length_eq_zero_iff.1 hrl.symm] at hx
    | top :: r =>
      rw [reverse_cons, ← cons_append] at hrev
      obtain ⟨rfl, hc⟩ := append_inj' hrev rfl
      obtain rfl : top = c := by simpa using hc
      by_cases ht : top = 0
      · match r with
        | [] => exact absurd (by rw [ht]) h0
        | e :: r =>
          have h := htop hx ht
          rw [reverse_cons, ← cons_append, topped_concat] at h
          simpa [trim, ht, Topped] using h
      · rw [trim, if_neg (by simpa using ht), reverse_cons]
        exact topped_concat.2 ht

theorem toNat_add_carry (d c : BitVec w) :
    (d + c).toNat + (if d + c < c then 2 ^ w else 0) = d.toNat + c.toNat := by
  simp only [BitVec.lt_def, BitVec.toNat_add]
  rcases Nat.lt_or_ge (d.toNat + c.toNat) (2 ^ w) with h | h
  · rw [Nat.mod_eq_of_lt h, if_neg (by omega), add_zero]
  · rw [Nat.mod_eq_sub_mod h, Nat.mod_eq_of_lt (by omega), if_pos (by omega)]
    omega

theorem magnitude_trim (r : List (BitVec w)) :
    magnitude (trim r).reverse = magnitude r.reverse := by
  unfold trim
  split_ifs with h
  · obtain ⟨l, rfl⟩ := head?_eq_some_iff.1 h
    simp [magnitude_append]
  · rfl

theorem two_pow_split (n : ℕ) : (2 ^ w) ^ (n / w) * 2 ^ (n % w) = 2 ^ n := by
  rw [← pow_mul, ← pow_add, Nat.div_add_mod]

section

variable (hw : 0 < w)
include hw

theorem magnitude_lt (x : List (BitVec w)) : magnitude x < (2 ^ w) ^ x.length := by
  have hx : ∀ d ∈ x.map BitVec.toNat, d < 2 ^ w := by simp [BitVec.isLt]
  simpa [magnitude] using Nat.ofDigits_lt_base_pow_length (Nat.one_lt_two_pow hw.ne') hx

theorem toNat_one : (1 : BitVec w).toNat = 1 := by
  simp [Nat.mod_eq_of_lt (Nat.one_lt_two_pow hw.ne')]

theorem magnitude_dAdd (x : List (BitVec w)) {c : BitVec w} (hc : c.toNat ≤ 1) :
    magnitude (dAdd x c) = magnitude x + c.toNat := by
  induction x generalizing c with
  | nil =>
    rw [dAdd]
    split
    · next h => simp [h]
    · next h =>
      have h0 : c.toNat ≠ 0 := fun h0 => h (BitVec.eq_of_toNat_eq h0)
      rw [magnitude_singleton, toNat_one hw, magnitude_eq_zero.2 (by simp)]
      omega
  | cons d x ih =>
    rw [dAdd, magnitude_cons, magnitude_cons, add_right_comm, ← toNat_add_carry d c]
    split
    · rw [ih (toNat_one hw).le, toNat_one hw]
      ring
    · simp [ih]

theorem topped_dAdd (h : Topped x) (c : BitVec w) : Topped (dAdd x c) := by
  induction x generalizing c with
  | nil => simp [Topped] at h
  | cons d x ih =>
    cases x with
    | cons e x => simpa [dAdd, Topped] using ih (by simpa [Topped] using h) _
    | nil =>
      have hd : d ≠ 0 := by simpa [Topped] using h
      have hcarry := toNat_add_carry d c
      by_cases hlt : d + c < c
      · simp [dAdd, hlt, hw.ne', Topped]
      · rw [if_neg hlt] at hcarry
        refine ⟨d + c, by simp [dAdd, hlt], fun h0 => hd ?_⟩
        rw [h0] at hcarry
        exact BitVec.eq_of_toNat_eq (Nat.eq_zero_of_add_eq_zero_right hcarry.symm)

/-! ## Both directions -/

theorem iLshift_left (hx : Topped x) (hx0 : x ≠ [0]) (hn : 0 < n) (sign : Bool) :
    Topped (iLshift x n sign) ∧ magnitude (iLshift x n sign) = magnitude x * 2 ^ n := by
  have hsplit := two_pow_split (w := w) n
  have hzero : magnitude (replicate (n / w) (0 : BitVec w)) = 0 :=
    magnitude_eq_zero.2 fun d hd => eq_of_mem_replicate hd
  have hspec := shiftLoop_left (Nat.mod_lt n hw).le (a := 0) (by simp) x
  have htop := topped_shiftLoop (Nat.mod_lt n hw).le hx
  simp only [iLshift, Nat.cast_eq_zero, hn.ne', hx0, Int.natAbs_natCast, Nat.cast_pos, hn,
    if_true, if_false, shiftLeft_eq]
  generalize shiftLoop (· <<< (n % w)) (· >>> (w - n % w)) 0 x = p at hspec htop ⊢
  obtain ⟨r, a1⟩ := p
  obtain ⟨hlen, hval⟩ := hspec
  have hmag : magnitude (replicate (n / w) 0 ++ r) = (2 ^ w) ^ (n / w) * magnitude r := by
    rw [magnitude_append, hzero, length_replicate, zero_add]
  rw [show (0 : BitVec w).toNat = 0 from rfl] at hval
  by_cases h0 : a1 = 0
  · have hval : magnitude r = magnitude x * 2 ^ (n % w) := by simpa [h0] using hval
    simp only [h0, if_true, append_nil, hmag]
    refine ⟨topped_append (htop h0), ?_⟩
    rw [hval, ← hsplit]
    ring
  · simp only [h0, if_false]
    refine ⟨topped_concat.2 h0, ?_⟩
    rw [magnitude_append, magnitude_singleton, hmag, ← hsplit, length_append,
      length_replicate, hlen]
    linear_combination (2 ^ w) ^ (n / w) * hval

/-- The number that is left when all bits are shifted out. -/
theorem iLshift_out (hx : magnitude x ≠ 0) (hlt : magnitude x < 2 ^ n) (sign : Bool) :
    Normalized [if sign then (1 : BitVec w) else 0] ∧
      magnitude [if sign then (1 : BitVec w) else 0] =
        magnitude x / 2 ^ n + if sign ∧ magnitude x % 2 ^ n ≠ 0 then 1 else 0 := by
  rw [Nat.div_eq_of_lt hlt, Nat.mod_eq_of_lt hlt]
  cases sign <;> simp [Normalized, Topped, hx, hw.ne', hw]

theorem iLshift_right (hx : Topped x) (hx0 : x ≠ [0]) (hn : 0 < n) (sign : Bool) :
    Normalized (iLshift x (-n) sign) ∧ magnitude (iLshift x (-n) sign) =
      magnitude x / 2 ^ n + if sign ∧ magnitude x % 2 ^ n ≠ 0 then 1 else 0 := by
  have hsplit := two_pow_split (w := w) n
  have hpos := magnitude_ne_zero hx
  have hneg : ¬(0 : ℤ) < -n := by omega
  simp only [iLshift, neg_eq_zero, Nat.cast_eq_zero, hn.ne', hx0, Int.natAbs_neg,
    Int.natAbs_natCast, hneg, if_false]
  split
  · next hlen =>
    refine iLshift_out hw hpos ((magnitude_lt hw x).trans_le ?_) sign
    rw [← hsplit]
    exact (Nat.pow_le_pow_right (by simp) hlen).trans (Nat.le_mul_of_pos_right _ (by simp))
  next hlen =>
  have hspec := shiftRight_spec (Nat.mod_lt n hw).le (x.drop (n / w)).reverse
  generalize shiftRight (n % w) (x.drop (n / w)).reverse = p at hspec ⊢
  obtain ⟨r, a0⟩ := p
  obtain ⟨⟨l, hl, hl0, hval⟩, htop⟩ := hspec
  rw [reverse_reverse] at hval htop
  have htop := htop (by simpa [Topped, getLast?_drop, hlen] using hx)
  have hx := magnitude_append (x.take (n / w)) (x.drop (n / w))
  have hlo := magnitude_lt hw (x.take (n / w))
  rw [length_take_of_le (by omega)] at hx hlo
  rw [take_append_drop] at hx
  obtain ⟨hdiv, hmod⟩ : magnitude x / 2 ^ n = magnitude r.reverse ∧
      magnitude x % 2 ^ n = l * (2 ^ w) ^ (n / w) + magnitude (x.take (n / w)) := by
    rw [Nat.div_mod_unique (by simp), hx, hval, ← hsplit]
    constructor
    · ring
    · nlinarith [Nat.mul_le_mul_left ((2 ^ w) ^ (n / w)) hl]
  have hadd : (sign && ((x.take (n / w)).any (· ≠ 0) || a0 ≠ 0)) =
      decide (sign ∧ magnitude x % 2 ^ n ≠ 0) := by
    have hany : (x.take (n / w)).any (· ≠ 0) ↔ magnitude (x.take (n / w)) ≠ 0 := by
      rw [Ne, magnitude_eq_zero]
      simp
    rw [Bool.eq_iff_iff, Bool.and_eq_true, Bool.or_eq_true, hany, decide_eq_true_iff,
      decide_eq_true_iff, ← hl0, hmod]
    simp only [ne_eq, Nat.add_eq_zero_iff, mul_eq_zero, pow_eq_zero_iff', OfNat.ofNat_ne_zero,
      false_and, or_false]
    tauto
  have hlt := Nat.lt_div_mul_add (a := magnitude x) (b := 2 ^ n) (by simp)
  rw [hdiv] at hlt
  by_cases h0 : r = [0]
  · simp only [h0, if_true]
    exact iLshift_out hw hpos (by simpa [h0] using hlt) sign
  have hmag := magnitude_trim r
  simp only [h0, if_false, hadd, hdiv, decide_eq_true_iff]
  split
  · rw [magnitude_dAdd hw _ (toNat_one hw).le, toNat_one hw, hmag]
    exact ⟨.inr (topped_dAdd hw (htop h0) 1), rfl⟩
  · exact ⟨.inr (htop h0), hmag⟩

/-- Shifting by `y` bits is multiplication with `2 ^ y`, rounded towards minus infinity, and
leaves no superfluous digit. -/
theorem iLshift_floor (hx : Normalized x) (y : ℤ) (sign : Bool) :
    Normalized (iLshift x y sign) ∧
      signed sign (iLshift x y sign) = ⌊(signed sign x : ℚ) * 2 ^ y⌋ := by
  by_cases hx0 : x = [0]
  · have h : iLshift x y sign = x := by simp [iLshift, hx0]
    have h0 : signed sign x = 0 := by simp [hx0, signed]
    rw [h]
    exact ⟨hx, by simp [h0]⟩
  have htop := hx.resolve_left hx0
  rcases lt_trichotomy y 0 with hy | rfl | hy
  · obtain ⟨n, rfl⟩ : ∃ n : ℕ, y = -n := ⟨y.natAbs, by omega⟩
    obtain ⟨hnorm, hmag⟩ := iLshift_right hw htop hx0 (n := n) (by omega) sign
    have hdiv : (signed sign x : ℚ) * 2 ^ (-n : ℤ) = signed sign x / (2 ^ n : ℕ) := by
      simp [div_eq_mul_inv]
    refine ⟨hnorm, ?_⟩
    rw [hdiv, Rat.floor_intCast_div_natCast, signed, signed, hmag]
    cases sign with
    | false => simp
    | true =>
      have hsign : ((2 ^ n : ℕ) : ℤ).sign = 1 := Int.sign_eq_one_of_pos (by simp)
      simp only [if_true, Int.neg_ediv, Int.natCast_dvd_natCast, Nat.dvd_iff_mod_eq_zero, hsign]
      split_ifs <;> simp_all
      ring
  · simpa [iLshift] using hx
  · obtain ⟨n, rfl⟩ := Int.eq_ofNat_of_zero_le hy.le
    obtain ⟨hnorm, hmag⟩ := iLshift_left hw htop hx0 (n := n) (by omega) sign
    have hmul : (signed sign x : ℚ) * 2 ^ (n : ℤ) = (signed sign x * 2 ^ n : ℤ) := by simp
    refine ⟨.inr hnorm, ?_⟩
    rw [hmul, Int.floor_intCast, signed, signed, hmag]
    cases sign <;> simp

end

/-- The lowest bit of `-(2 ^ 64 + 1)` is shifted out. -/
theorem iLshift_floor_rounds : let x : List (BitVec 64) := [1, 1]
    Normalized (iLshift x (-1) true) ∧
      signed true (iLshift x (-1) true) = ⌊(signed true x : ℚ) * 2 ^ (-1 : ℤ)⌋ :=
  iLshift_floor (by decide) (.inr ⟨1, rfl, by decide⟩) (-1) true

end Otp.Erts.Big
