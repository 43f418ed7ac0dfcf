import Otp.Erts.Integers.Numerals

/-!
# Long numerals

A long string of digits is cut into segments, from the right.  Each segment is read as a
numeral of its own, sign included, and the integers are combined.  For a string of digits
the result is the number that it denotes (`combine_segments`), unless that number or one on
the way is too large.
-/

namespace Otp.Erts.Integers

open Otp.Lib.Positional List

/-! ## Cutting -/

/-- Segments of `n` bytes. -/
def fullSegments (n : ℕ) (bin : List UInt8) : List (List UInt8) :=
  if 0 < n ∧ n ≤ bin.length then bin.take n :: fullSegments n (bin.drop n) else []
termination_by bin.length
decreasing_by simp only [length_drop]; omega

/-- Segments of `n` bytes after one with the bytes left over, if there are any. -/
def segments (n : ℕ) (bin : List UInt8) : List (List UInt8) :=
  if bin.length % n = 0 then fullSegments n bin
  else bin.take (bin.length % n) :: fullSegments n (bin.drop (bin.length % n))

theorem fullSegments_nil (n : ℕ) : fullSegments n [] = [] := by
  rw [fullSegments, if_neg]
  rintro ⟨hn, hle⟩
  rw [length_nil] at hle
  omega

variable {n : ℕ} {bin seg s : List UInt8} {ds : List ℕ} {v : ℤ} {l : List ℤ}

theorem fullSegments_of_le (hn : 0 < n) (h : n ≤ bin.length) :
    fullSegments n bin = bin.take n :: fullSegments n (bin.drop n) := by
  rw [fullSegments, if_pos ⟨hn, h⟩]

/-- Induction over the full segments of a string. -/
@[elab_as_elim]
theorem segment_induction (hn : 0 < n) {motive : List UInt8 → Prop} (nil : motive [])
    (step : ∀ seg rest, seg.length = n → rest.length % n = 0 → motive rest →
      motive (seg ++ rest)) (bin : List UInt8) (hmod : bin.length % n = 0) : motive bin := by
  induction hlen : bin.length using Nat.strongRecOn generalizing bin with
  | _ k ih =>
    by_cases hnil : bin = []
    · rw [hnil]
      exact nil
    · have hpos : 0 < bin.length := length_pos_iff.2 hnil
      have hle : n ≤ bin.length := Nat.le_of_dvd hpos (Nat.dvd_of_mod_eq_zero hmod)
      have hdrop : (bin.drop n).length % n = 0 := by
        rw [length_drop, ← Nat.mod_eq_sub_mod hle, hmod]
      have hrest := ih (bin.drop n).length (by rw [length_drop]; omega) _ hdrop rfl
      rw [← take_append_drop n bin]
      exact step _ _ (by rw [length_take]; omega) hdrop hrest

theorem fullSegments_append (hn : 0 < n) (rest : List UInt8) (hseg : seg.length = n) :
    fullSegments n (seg ++ rest) = seg :: fullSegments n rest := by
  rw [fullSegments_of_le hn (by rw [length_append]; omega), take_left' hseg, drop_left' hseg]

/-! ## Reading the segments -/

variable {ws : WordSize} {base : ℕ}

section

variable (hb : 2 ≤ base ∧ base ≤ 36)

include hb

theorem binaryToInteger_segment (hlen : seg.length ≤ digitsPerSmall ws base) :
    ertsInternalBinaryToInteger ws seg base =
      match denotes base seg with
      | some n => .int n
      | none => .badarg := by
  have hskip : ∀ s : List UInt8, (skipZeroes s).length ≤ s.length := by
    intro s
    induction s with
    | nil => exact le_rfl
    | cons c s ih =>
      rw [skipZeroes]
      split
      · rw [length_cons]
        omega
      · exact le_rfl
  have hsign : (readSign seg).2.length ≤ seg.length := by
    cases seg with
    | nil => exact le_rfl
    | cons c s =>
      rw [readSign]
      split_ifs <;> simp
  have hshort : (significant seg).length ≤ digitsPerSmall ws base :=
    (hskip _).trans (hsign.trans hlen)
  have hread := charsToInteger_short ws hb hshort
  rw [ertsInternalBinaryToInteger, if_neg (by omega)]
  cases hdenotes : denotes base seg <;> simp only [hread, hdenotes]

theorem segmentize1_eq (bin : List UInt8) (acc : List ℤ)
    (hmod : bin.length % digitsPerSmall ws base = 0) :
    segmentize1 ws (digitsPerSmall ws base) base bin acc =
      match (fullSegments (digitsPerSmall ws base) bin).mapM (denotes base) with
      | some l => .ok (l.reverse ++ acc)
      | none => .error .badarg := by
  obtain ⟨-, hpos, -⟩ := radix_eq ws hb
  revert acc
  refine segment_induction hpos ?_ ?_ bin hmod
  · intro acc
    rw [segmentize1, fullSegments_nil]
    rfl
  · intro seg rest hseg _ ih acc
    have hne : seg ++ rest ≠ [] := by
      intro hnil
      have := congrArg List.length hnil
      rw [length_append, length_nil] at this
      omega
    rw [segmentize1, if_neg hne, if_pos ⟨hpos, by rw [length_append]; omega⟩,
      take_left' hseg, drop_left' hseg, binaryToInteger_segment hb hseg.le,
      fullSegments_append hpos rest hseg, mapM_cons]
    cases denotes base seg with
    | none => rfl
    | some n =>
      simp only [ih]
      cases (fullSegments (digitsPerSmall ws base) rest).mapM (denotes base) with
      | none => rfl
      | some l => simp

/-- The segments are read one by one; the least significant one comes first in the result. -/
theorem segmentize_eq (bin : List UInt8) :
    segmentize ws bin bin.length base (digitsPerSmall ws base) =
      match (segments (digitsPerSmall ws base) bin).mapM (denotes base) with
      | some l => .ok l.reverse
      | none => .error .badarg := by
  obtain ⟨-, hpos, -⟩ := radix_eq ws hb
  have hlt := Nat.mod_lt bin.length hpos
  rw [segmentize, segments]
  split
  · next hmod =>
    rw [segmentize1_eq hb _ _ hmod]
    simp only [append_nil]
  · have hmod : (bin.drop (bin.length % digitsPerSmall ws base)).length %
        digitsPerSmall ws base = 0 := by
      rw [length_drop]
      exact Nat.sub_mod_eq_zero_of_mod_eq (Nat.mod_mod _ _).symm
    rw [binaryToInteger_segment hb (by rw [length_take]; omega), mapM_cons]
    cases denotes base (bin.take (bin.length % digitsPerSmall ws base)) with
    | none => rfl
    | some n =>
      simp only [segmentize1_eq hb _ _ hmod]
      cases (fullSegments (digitsPerSmall ws base)
          (bin.drop (bin.length % digitsPerSmall ws base))).mapM (denotes base) with
      | none => rfl
      | some l => simp

end

/-! ## The value of the segments -/

/-- Digits alone denote their value: none of them is a sign. -/
theorem denotes_digits (hs : s ≠ []) (h : digits base s = some ds) :
    denotes base s = some (value base ds : ℤ) := by
  cases s with
  | nil => exact absurd rfl hs
  | cons c s =>
    have hsign : ∀ sign : UInt8, digitValue sign = none → c ≠ sign := by
      intro sign hnone hc
      rw [digits_cons, digit, hc, hnone] at h
      cases h
    rw [denotes, if_neg (hsign minus rfl), if_neg (hsign plus rfl), unsignedValue, h]
    rfl

theorem denotes_lt (hb : 2 ≤ base) (h : denotes base s = some v) : |v| < (base : ℤ) ^ s.length := by
  have hsign : (readSign s).2.length ≤ s.length := by
    cases s with
    | nil => exact le_rfl
    | cons c s =>
      rw [readSign]
      split_ifs <;> simp
  rw [denotes_eq] at h
  obtain ⟨n, hvalue, rfl⟩ := Option.map_eq_some_iff.mp h
  have hn : n < base ^ (readSign s).2.length := by
    rw [unsignedValue] at hvalue
    split at hvalue
    · cases hvalue
    · obtain ⟨ds, hdigits, rfl⟩ := Option.map_eq_some_iff.mp hvalue
      rw [← length_digits hdigits]
      exact value_lt (digits_lt hdigits)
  have hle : base ^ (readSign s).2.length ≤ base ^ s.length := Nat.pow_le_pow_right (by omega) hsign
  have habs : |if (readSign s).1 then -(n : ℤ) else n| = n := by
    split <;> simp
  rw [habs]
  exact_mod_cast hn.trans_le hle

theorem mapM_cons_some {f : List UInt8 → Option ℤ} {segs : List (List UInt8)}
    (h : (seg :: segs).mapM f = some l) :
    ∃ v l', f seg = some v ∧ segs.mapM f = some l' ∧ l = v :: l' := by
  rw [mapM_cons] at h
  obtain ⟨v, hv, h⟩ := Option.bind_eq_some_iff.mp h
  obtain ⟨l', hl, h⟩ := Option.bind_eq_some_iff.mp h
  exact ⟨v, l', hv, hl, (Option.some.inj h).symm⟩

/-- A further segment in front of `rest` digits. -/
theorem size_snoc_lt {k : ℕ} {rest : ℕ} (hlen : n * l.length = rest)
    (hsize : size ((base : ℤ) ^ n) l.reverse < (base : ℤ) ^ rest) (hv : |v| < (base : ℤ) ^ k) :
    size ((base : ℤ) ^ n) (v :: l).reverse < (base : ℤ) ^ (k + rest) := by
  have hrest : (0 : ℤ) ≤ (base : ℤ) ^ rest := by positivity
  have hstep := mul_le_mul_of_nonneg_left (Int.le_sub_one_of_lt hv) hrest
  rw [reverse_cons, size_append, length_reverse, ← pow_mul, hlen, size_cons, pow_add]
  have hnil : size ((base : ℤ) ^ n) [] = 0 := rfl
  rw [hnil]
  linarith [mul_comm ((base : ℤ) ^ k) ((base : ℤ) ^ rest)]

theorem size_fullSegments (hb : 2 ≤ base) (hn : 0 < n) (bin : List UInt8)
    (hmod : bin.length % n = 0) (l : List ℤ)
      (h : (fullSegments n bin).mapM (denotes base) = some l) :
    n * l.length = bin.length ∧
      size ((base : ℤ) ^ n) l.reverse < (base : ℤ) ^ bin.length := by
  revert l
  refine segment_induction hn ?_ ?_ bin hmod
  · intro l h
    rw [fullSegments_nil] at h
    cases h
    simp [size, eval]
  · intro seg rest hseg _ ih l h
    rw [fullSegments_append hn rest hseg] at h
    obtain ⟨v, l', hv, hl', rfl⟩ := mapM_cons_some h
    obtain ⟨hlen, hsize⟩ := ih l' hl'
    refine ⟨by rw [length_cons, length_append, Nat.mul_add]; omega, ?_⟩
    rw [length_append]
    exact size_snoc_lt hlen hsize (denotes_lt hb hv)

/-- Segments that are numerals stay below the bound for their number of characters. -/
theorem size_segments (hb : 2 ≤ base) (hn : 0 < n) (hne : bin ≠ [])
    (h : (segments n bin).mapM (denotes base) = some l) :
    n * (l.length - 1) < bin.length ∧ bin.length ≤ n * l.length ∧
      size ((base : ℤ) ^ n) l.reverse < (base : ℤ) ^ bin.length := by
  have hlt := Nat.mod_lt bin.length hn
  have hle := Nat.mod_le bin.length n
  have hpos := length_pos_iff.2 hne
  rw [segments] at h
  split at h
  · next hmod =>
    obtain ⟨hlen, hsize⟩ := size_fullSegments hb hn bin hmod l h
    refine ⟨?_, hlen.ge, hsize⟩
    rw [Nat.mul_sub]
    omega
  · have hmod : (bin.drop (bin.length % n)).length % n = 0 := by
      rw [length_drop]
      exact Nat.sub_mod_eq_zero_of_mod_eq (Nat.mod_mod _ _).symm
    obtain ⟨v, l', hv, hl', rfl⟩ := mapM_cons_some h
    obtain ⟨hlen, hsize⟩ := size_fullSegments hb hn _ hmod l' hl'
    have hbound := size_snoc_lt hlen hsize (denotes_lt hb hv)
    rw [length_take, length_drop, min_eq_left hle, Nat.add_sub_cancel' hle] at hbound
    rw [length_drop] at hlen
    refine ⟨?_, ?_, hbound⟩
    · rw [length_cons, Nat.add_sub_cancel]
      omega
    · rw [length_cons, Nat.mul_add]
      omega

theorem eval_snoc {es : List ℕ} (hlen : n * l.length = es.length)
    (heval : eval ((base : ℤ) ^ n) l.reverse = value base es) :
    eval ((base : ℤ) ^ n) ((value base ds : ℤ) :: l).reverse = value base (ds ++ es) := by
  rw [reverse_cons, eval_append, length_reverse, ← pow_mul, hlen, heval, value_append, eval, eval]
  push_cast
  ring

theorem digits_append_some {t : List UInt8} (h : digits base (s ++ t) = some ds) :
    ∃ es fs, digits base s = some es ∧ digits base t = some fs ∧ ds = es ++ fs := by
  rw [digits_append] at h
  obtain ⟨es, hes, h⟩ := Option.bind_eq_some_iff.mp h
  obtain ⟨fs, hfs, rfl⟩ := Option.map_eq_some_iff.mp h
  exact ⟨es, fs, hes, hfs, rfl⟩

theorem eval_fullSegments (hb : 2 ≤ base) (hn : 0 < n) (bin : List UInt8)
    (hmod : bin.length % n = 0) (ds : List ℕ) (h : digits base bin = some ds) :
    ∃ l, (fullSegments n bin).mapM (denotes base) = some l ∧
      eval ((base : ℤ) ^ n) l.reverse = value base ds := by
  revert ds
  refine segment_induction hn ?_ ?_ bin hmod
  · intro ds h
    cases h
    rw [fullSegments_nil]
    exact ⟨[], rfl, rfl⟩
  · intro seg rest hseg hrest ih ds h
    obtain ⟨es, fs, hes, hfs, rfl⟩ := digits_append_some h
    obtain ⟨l, hl, heval⟩ := ih fs hfs
    have hseg_ne : seg ≠ [] := length_pos_iff.1 (by omega)
    obtain ⟨hlen, -⟩ := size_fullSegments hb hn rest hrest l hl
    refine ⟨value base es :: l, ?_, eval_snoc ?_ heval⟩
    · rw [fullSegments_append hn rest hseg, mapM_cons, denotes_digits hseg_ne hes, hl]
      rfl
    · rw [hlen, length_digits hfs]

/-- The segments of a string of digits are numerals, and together they have its value. -/
theorem eval_segments (hb : 2 ≤ base) (hn : 0 < n) (h : digits base bin = some ds) :
    ∃ l, (segments n bin).mapM (denotes base) = some l ∧
      eval ((base : ℤ) ^ n) l.reverse = value base ds := by
  rw [segments]
  split
  · next hmod => exact eval_fullSegments hb hn bin hmod ds h
  · next hmod =>
    have hle := Nat.mod_le bin.length n
    have hrest : (bin.drop (bin.length % n)).length % n = 0 := by
      rw [length_drop]
      exact Nat.sub_mod_eq_zero_of_mod_eq (Nat.mod_mod _ _).symm
    rw [← take_append_drop (bin.length % n) bin] at h
    obtain ⟨es, fs, hes, hfs, rfl⟩ := digits_append_some h
    obtain ⟨l, hl, heval⟩ := eval_fullSegments hb hn _ hrest fs hfs
    have hfirst : bin.take (bin.length % n) ≠ [] :=
      length_pos_iff.1 (by rw [length_take]; omega)
    obtain ⟨hlen, -⟩ := size_fullSegments hb hn _ hrest l hl
    refine ⟨value base es :: l, ?_, eval_snoc ?_ heval⟩
    · rw [mapM_cons, denotes_digits hfirst hes, hl]
      rfl
    · rw [hlen, length_digits hfs]

end Otp.Erts.Integers
