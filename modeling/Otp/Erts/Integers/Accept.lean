import Otp.Erts.Integers.Combine

/-!
# What is accepted as an integer

The two ways of reading a binary are put together: a short one is read as what it denotes,
a long one by its segments.  A segment may have a sign of its own, so a long string with
signs in the middle can be read as an integer though it denotes none, and a string that is too
long is given up before its characters are looked at (`Misread`); apart from that,
`binary_to_integer/2` accepts the integer numerals and nothing else.
-/

namespace Otp.Erts.Integers

open Otp.Lib.Positional

/-- The answer for a string that denotes `denoted`, or nothing. Only numerals may be given up. -/
def Parses (result : Except Reason ℤ) (denoted : Option ℤ) (overLong : Prop) : Prop :=
  result = (match denoted with
    | some n => .ok n
    | none => .error .badarg) ∨
  (overLong ∧ denoted ≠ none ∧ result = .error .systemLimit)

/-- The characters are too many for `big_binary_to_int/2`. -/
def TooMany (base : ℕ) (s : List UInt8) : Prop :=
  (significant s).length > 4194304 ∨ ((significant s).length > 1262611 ∧ base ≥ 10)

/-- So many significant characters that the number may be too large. -/
def OverLong (ws : WordSize) (base : ℕ) (s : List UInt8) : Prop :=
  TooMany base s ∨ limit ws < base ^ (significant s).length

/-- No string of digits, but long, and too long to be looked at or a numeral in each segment. -/
def Misread (ws : WordSize) (base : ℕ) (s : List UInt8) : Prop :=
  digitsPerSmall ws base < (significant s).length ∧
  digits base (significant s) = none ∧
  (TooMany base s ∨
    ∀ seg ∈ segments (digitsPerSmall ws base) (significant s), denotes base seg ≠ none)

variable {ws : WordSize} {base : ℕ} {s : List UInt8} {l : List ℤ}

theorem bigBinaryToInt_eq (hb : 2 ≤ base ∧ base ≤ 36) (h : ¬TooMany base s) :
    bigBinaryToInt ws s base =
      match (segments (digitsPerSmall ws base) (significant s)).mapM (denotes base) with
      | none => .error .badarg
      | some l =>
        match combine ws l.reverse ((base : ℤ) ^ digitsPerSmall ws base) with
        | .error e => .error e
        | .ok x => checked ws ((if (readSign s).1 then -1 else 1) * x) := by
  obtain ⟨hradix, -, -⟩ := radix_eq ws hb
  rw [TooMany, not_or] at h
  have hcast : ((radix ws base : ℕ) : ℤ) = (base : ℤ) ^ digitsPerSmall ws base := by
    rw [hradix]
    rfl
  rw [bigBinaryToInt, getSign_eq]
  dsimp only
  rw [trimZeroes_eq, ← significant, if_neg h.1, if_neg h.2, segmentize_eq hb, hcast]
  cases (segments (digitsPerSmall ws base) (significant s)).mapM (denotes base) with
  | none => rfl
  | some l =>
    simp only [bind, Except.bind]
    cases combine ws l.reverse ((base : ℤ) ^ digitsPerSmall ws base) <;> rfl

theorem bigBinaryToInt_systemLimit (h : TooMany base s) :
    bigBinaryToInt ws s base = .error .systemLimit := by
  rw [bigBinaryToInt, getSign_eq]
  dsimp only
  rw [trimZeroes_eq, ← significant]
  by_cases hfirst : (significant s).length > 4194304
  · rw [if_pos hfirst]
  · rw [if_neg hfirst, if_pos (h.resolve_left hfirst)]

/-- Segments that are numerals are combined without a failure unless the string is too long. -/
theorem combine_segments (hb : 2 ≤ base ∧ base ≤ 36)
    (hlong : digitsPerSmall ws base < (significant s).length) (hover : ¬OverLong ws base s)
    (hl : (segments (digitsPerSmall ws base) (significant s)).mapM (denotes base) = some l) :
    combine ws l.reverse ((base : ℤ) ^ digitsPerSmall ws base) =
        .ok (eval ((base : ℤ) ^ digitsPerSmall ws base) l.reverse) ∧
      |eval ((base : ℤ) ^ digitsPerSmall ws base) l.reverse| < limit ws := by
  obtain ⟨-, hpos, -⟩ := radix_eq ws hb
  have hne : significant s ≠ [] := List.length_pos_iff.1 (by omega)
  obtain ⟨hlen, hlen', hsize⟩ := size_segments hb.1 hpos hne hl
  have hlimit : (base : ℤ) ^ (significant s).length ≤ limit ws := by
    rw [OverLong, not_or] at hover
    exact_mod_cast not_lt.1 hover.2
  have hbase : (1 : ℤ) ≤ (base : ℤ) ^ digitsPerSmall ws base := one_le_pow₀ (by omega)
  have hl_ne : l.reverse ≠ [] := by
    intro hnil
    rw [List.reverse_eq_nil_iff.1 hnil, List.length_nil] at hlen'
    omega
  refine ⟨combine_eq_ok hl_ne hbase (hsize.trans_le hlimit) ?_, ?_⟩
  · rw [List.length_reverse, ← pow_mul]
    exact (pow_lt_pow_right₀ (by omega) hlen).trans_le hlimit
  · exact (abs_eval_le (by omega) _).trans_lt (hsize.trans_le hlimit)

theorem mapM_eq_none_iff {segs : List (List UInt8)} {f : List UInt8 → Option ℤ} :
    segs.mapM f = none ↔ ¬∀ seg ∈ segs, f seg ≠ none := by
  induction segs with
  | nil => simp
  | cons seg segs ih =>
    rw [List.mapM_cons, List.forall_mem_cons, not_and_or, ← ih]
    cases f seg <;> cases segs.mapM f <;> simp

theorem readSign_ne_nil (h : 0 < (significant s).length) : (readSign s).2 ≠ [] := by
  intro hnil
  rw [significant, hnil] at h
  exact Nat.lt_irrefl 0 h

theorem denotes_significant (hb : 2 ≤ base) (hsign : (readSign s).2 ≠ []) :
    denotes base s = (digits base (significant s)).map
      fun ds => (if (readSign s).1 then -1 else 1) * (value base ds : ℤ) := by
  rw [denotes_eq, unsignedValue_skipZeroes hb hsign, ← significant]
  cases digits base (significant s) with
  | none => rfl
  | some ds =>
    split <;> simp

theorem abs_sign_mul (neg : Bool) (x : ℤ) : |(if neg then -1 else 1) * x| = |x| := by
  cases neg <;> simp

/-! ## Long strings -/

section

variable (hb : 2 ≤ base ∧ base ≤ 36)

include hb

section

variable (hlong : digitsPerSmall ws base < (significant s).length)

include hlong

theorem reverse_segments_ne
    (hl : (segments (digitsPerSmall ws base) (significant s)).mapM (denotes base) = some l) :
    l.reverse ≠ [] := by
  intro hnil
  obtain ⟨-, hpos, -⟩ := radix_eq ws hb
  obtain ⟨-, hlen, -⟩ := size_segments hb.1 hpos (List.length_pos_iff.1 (by omega)) hl
  rw [List.reverse_eq_nil_iff.1 hnil, List.length_nil] at hlen
  omega

/-- A long string is read as what it denotes, or rejected, unless it is misread. -/
theorem bigBinaryToInt_parses (h : ¬Misread ws base s) :
    Parses (bigBinaryToInt ws s base) (denotes base s) (OverLong ws base s) := by
  obtain ⟨-, hpos, -⟩ := radix_eq ws hb
  rw [denotes_significant hb.1 (readSign_ne_nil (by omega))]
  cases hds : digits base (significant s) with
  | none =>
    have hfew : ¬TooMany base s := fun hmany => h ⟨hlong, hds, .inl hmany⟩
    have hnone : (segments (digitsPerSmall ws base) (significant s)).mapM (denotes base) = none :=
      mapM_eq_none_iff.2 fun hall => h ⟨hlong, hds, .inr hall⟩
    rw [bigBinaryToInt_eq hb hfew, hnone]
    exact .inl rfl
  | some ds =>
    by_cases hmany : TooMany base s
    · exact .inr ⟨.inl hmany, Option.some_ne_none _, bigBinaryToInt_systemLimit hmany⟩
    · obtain ⟨l, hl, heval⟩ := eval_segments hb.1 hpos hds
      rw [bigBinaryToInt_eq hb hmany, hl, Option.map_some, ← heval]
      by_cases hover : OverLong ws base s
      · -- either some arithmetic fails, or the number is the right one
        dsimp only
        rcases combine_cases ws (reverse_segments_ne hb hlong hl) _ with heq | heq
        · rw [heq]
          exact (checked_cases ws _).imp id fun hlimit => ⟨hover, Option.some_ne_none _, hlimit⟩
        · exact .inr ⟨hover, Option.some_ne_none _, by rw [heq]⟩
      · obtain ⟨hcombine, habs⟩ := combine_segments hb hlong hover hl
        dsimp only
        rw [hcombine]
        dsimp only
        rw [checked_eq_ok (by rw [abs_sign_mul]; exact habs)]
        exact .inl rfl

/-- Only over-long strings are given up. -/
theorem bigBinaryToInt_ne_systemLimit (hover : ¬OverLong ws base s) :
    bigBinaryToInt ws s base ≠ .error .systemLimit := by
  rw [bigBinaryToInt_eq hb fun hmany => hover (.inl hmany)]
  cases hl : (segments (digitsPerSmall ws base) (significant s)).mapM (denotes base) with
  | none => simp
  | some l =>
    obtain ⟨hcombine, habs⟩ := combine_segments hb hlong hover hl
    dsimp only
    rw [hcombine]
    dsimp only
    rw [checked_eq_ok (by rw [abs_sign_mul]; exact habs)]
    simp

omit hlong in
/-- A misread string denotes nothing, and is not rejected. -/
theorem bigBinaryToInt_misread (h : Misread ws base s) :
    denotes base s = none ∧ bigBinaryToInt ws s base ≠ .error .badarg := by
  obtain ⟨hlong, hdigits, hcases⟩ := h
  refine ⟨by rw [denotes_significant hb.1 (readSign_ne_nil (by omega)), hdigits]; rfl, ?_⟩
  by_cases hmany : TooMany base s
  · rw [bigBinaryToInt_systemLimit hmany]
    simp
  rw [bigBinaryToInt_eq hb hmany]
  cases hl : (segments (digitsPerSmall ws base) (significant s)).mapM (denotes base) with
  | none => exact absurd (hcases.resolve_left hmany) (mapM_eq_none_iff.1 hl)
  | some l =>
    dsimp only
    rcases combine_cases ws (reverse_segments_ne hb hlong hl)
      ((base : ℤ) ^ digitsPerSmall ws base) with heq | heq
    · rw [heq]
      dsimp only
      rcases checked_cases ws ((if (readSign s).1 then -1 else 1) *
        eval ((base : ℤ) ^ digitsPerSmall ws base) l.reverse) with h | h
      · rw [h]
        simp
      · rw [h]
        simp
    · simp [heq]

/-! ## Binaries -/

theorem binaryToInteger_long :
    binaryToInteger ws s base = bigBinaryToInt ws s base := by
  rw [binaryToInteger, ertsInternalBinaryToInteger, if_neg (by omega), charsToInteger_long ws hlong]

end

theorem binaryToInteger_short (hshort : (significant s).length ≤ digitsPerSmall ws base) :
    binaryToInteger ws s base =
      match denotes base s with
      | some n => .ok n
      | none => .error .badarg := by
  rw [binaryToInteger, ertsInternalBinaryToInteger, if_neg (by omega),
    charsToInteger_short ws hb hshort]
  cases denotes base s <;> rfl

end

theorem not_parses {result : Except Reason ℤ} {overLong : Prop} (h : result ≠ .error .badarg) :
    ¬Parses result none overLong := by
  rintro (heq | ⟨-, hnone, -⟩)
  · exact h heq
  · exact hnone rfl

theorem binaryToInteger_ne_systemLimit (hb : 2 ≤ base ∧ base ≤ 36) (hover : ¬OverLong ws base s) :
    binaryToInteger ws s base ≠ .error .systemLimit := by
  by_cases hlong : digitsPerSmall ws base < (significant s).length
  · rw [binaryToInteger_long hb hlong]
    exact bigBinaryToInt_ne_systemLimit hb hlong hover
  · rw [binaryToInteger_short hb (not_lt.1 hlong)]
    cases denotes base s <;> simp

theorem binaryToInteger_parses_iff (hb : 2 ≤ base ∧ base ≤ 36) (s : List UInt8) :
    Parses (binaryToInteger ws s base) (denotes base s) (OverLong ws base s) ↔
      ¬Misread ws base s := by
  constructor
  · intro hparses hmisread
    rw [binaryToInteger_long hb hmisread.1] at hparses
    obtain ⟨hnone, hne⟩ := bigBinaryToInt_misread hb hmisread
    rw [hnone] at hparses
    exact not_parses hne hparses
  · intro hmisread
    by_cases hlong : digitsPerSmall ws base < (significant s).length
    · rw [binaryToInteger_long hb hlong]
      exact bigBinaryToInt_parses hb hlong hmisread
    · rw [binaryToInteger_short hb (not_lt.1 hlong)]
      exact .inl rfl

end Otp.Erts.Integers
