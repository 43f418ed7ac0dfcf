import Otp.Erts.Integers.Parse

/-!
# Numerals

What a string denotes: an optional sign and one or more digits of the base, letters in
either case.  A numeral whose digits, without leading zeroes, fit in a small integer is
read by the run-time system alone, and read right (`charsToInteger_short`).
-/

namespace Otp.Erts.Integers

open Otp.Lib.Positional

/-! ## What a string denotes -/

/-- The value of a digit or letter. -/
def digitValue (c : UInt8) : Option ℕ :=
  if 48 ≤ c.toNat ∧ c.toNat ≤ 57 then some (c.toNat - 48)
  else if 65 ≤ c.toNat ∧ c.toNat ≤ 90 then some (c.toNat - 55)
  else if 97 ≤ c.toNat ∧ c.toNat ≤ 122 then some (c.toNat - 87)
  else none

/-- The value of a digit of the base. -/
def digit (base : ℕ) (c : UInt8) : Option ℕ := (digitValue c).filter fun d => decide (d < base)

/-- The values of the digits of a string. -/
def digits (base : ℕ) (s : List UInt8) : Option (List ℕ) := s.mapM (digit base)

/-- The number that one or more digits denote. -/
def unsignedValue (base : ℕ) (s : List UInt8) : Option ℕ :=
  if s = [] then none else (digits base s).map (value base)

/-- The integer that a string denotes. -/
def denotes (base : ℕ) (s : List UInt8) : Option ℤ :=
  match s with
  | [] => none
  | c :: ds =>
    if c = minus then (unsignedValue base ds).map fun n : ℕ => -(n : ℤ)
    else if c = plus then (unsignedValue base ds).map fun n : ℕ => (n : ℤ)
    else (unsignedValue base (c :: ds)).map fun n : ℕ => (n : ℤ)

/-! ## Digits -/

variable {base d n i : ℕ} {s : List UInt8} {ds : List ℕ} {ws : WordSize}

theorem digit_lt {c : UInt8} (h : digit base c = some d) : d < base := by
  rw [digit, Option.filter_eq_some_iff] at h
  exact of_decide_eq_true h.2

section

variable (hb : 2 ≤ base ∧ base ≤ 36) (c : UInt8)

include hb c

theorem isValidChar_iff :
    isValidChar c base = true ↔ digit base c = some (digitFromBase c) := by
  rw [digit, Option.filter_eq_some_iff, digitValue, isValidChar, digitFromBase]
  split_ifs <;> simp <;> omega

theorem digit_eq_none_iff :
    digit base c = none ↔ isValidChar c base = false := by
  rw [digit, digitValue, isValidChar]
  split_ifs <;> simp <;> omega

theorem digit_eq :
    digit base c = if isValidChar c base then some (digitFromBase c) else none := by
  split
  · next h => exact (isValidChar_iff hb c).1 h
  · next h => exact (digit_eq_none_iff hb c).2 (by simpa using h)

end

theorem digit_zero (hb : 2 ≤ base) : digit base zero = some 0 := by
  have hpos : 0 < base := by omega
  simp [digit, digitValue, zero, Option.filter, hpos]

theorem digits_nil (base : ℕ) : digits base [] = some [] := rfl

theorem digits_cons (base : ℕ) (c : UInt8) (s : List UInt8) :
    digits base (c :: s) = (digit base c).bind fun d => (digits base s).map (d :: ·) := by
  rw [digits, List.mapM_cons]
  cases digit base c with
  | none => rfl
  | some d =>
    rw [digits]
    cases List.mapM (digit base) s <;> rfl

theorem digits_append (base : ℕ) (s t : List UInt8) :
    digits base (s ++ t) = (digits base s).bind fun ds => (digits base t).map (ds ++ ·) := by
  induction s with
  | nil =>
    rw [List.nil_append]
    cases digits base t <;> rfl
  | cons c s ih =>
    rw [List.cons_append, digits_cons, digits_cons, ih]
    cases digit base c with
    | none => rfl
    | some d =>
      cases digits base s with
      | none => rfl
      | some ds => cases digits base t <;> rfl

theorem length_digits (h : digits base s = some ds) : ds.length = s.length := by
  induction s generalizing ds with
  | nil =>
    cases h
    rfl
  | cons c s ih =>
    rw [digits_cons] at h
    obtain ⟨d, hd, h⟩ := Option.bind_eq_some_iff.1 h
    obtain ⟨ds', hds, rfl⟩ := Option.map_eq_some_iff.1 h
    rw [List.length_cons, List.length_cons, ih hds]

theorem digits_lt (h : digits base s = some ds) : ∀ d ∈ ds, d < base := by
  induction s generalizing ds with
  | nil =>
    cases h
    simp
  | cons c s ih =>
    rw [digits_cons] at h
    obtain ⟨d, hd, h⟩ := Option.bind_eq_some_iff.1 h
    obtain ⟨ds', hds, rfl⟩ := Option.map_eq_some_iff.1 h
    exact List.forall_mem_cons.2 ⟨digit_lt hd, ih hds⟩

/-! ## Tables -/

theorem getDigitsPerSmall_eq (ws : WordSize) (base : ℕ) :
    getDigitsPerSmall ws base = digitsPerSmall ws base := by
  cases ws <;> rfl

/-- The radix of segments belongs to their length, and segments are small integers. -/
theorem radix_eq (ws : WordSize) (hb : 2 ≤ base ∧ base ≤ 36) :
    radix ws base = base ^ digitsPerSmall ws base ∧ 0 < digitsPerSmall ws base ∧
      base ^ digitsPerSmall ws base ≤ 2 ^ (ws.smallBits - 1) := by
  have hall : ∀ ws : WordSize, ∀ k < 35, radix ws (k + 2) = (k + 2) ^ digitsPerSmall ws (k + 2) ∧
      0 < digitsPerSmall ws (k + 2) ∧
      (k + 2) ^ digitsPerSmall ws (k + 2) ≤ 2 ^ (ws.smallBits - 1) := by
    intro ws
    cases ws <;> decide
  have hk := hall ws (base - 2) (by omega)
  rwa [Nat.sub_add_cancel hb.1] at hk

/-! ## Sign and leading zeroes -/

theorem denotes_eq (base : ℕ) (s : List UInt8) :
    denotes base s = (unsignedValue base (readSign s).2).map
      fun n : ℕ => if (readSign s).1 then -(n : ℤ) else n := by
  cases s with
  | nil => rfl
  | cons c ds =>
    rw [denotes, readSign]
    by_cases hm : c = minus
    · simp [hm]
    · simp only [hm, if_false]
      by_cases hp : c = plus <;> simp [hp]

theorem getSign_eq (s : List UInt8) :
    getSign s = ((readSign s).2, if (readSign s).1 then -1 else 1) := by
  cases s with
  | nil => rfl
  | cons c ds =>
    rw [getSign, readSign]
    by_cases hm : c = minus
    · simp [hm]
    · simp only [hm, if_false]
      by_cases hp : c = plus <;> simp [hp]

theorem trimZeroes_eq (s : List UInt8) : trimZeroes s = skipZeroes s := by
  induction s with
  | nil => rfl
  | cons c s ih => rw [trimZeroes, skipZeroes, ih]

/-- Leading zeroes do not count. -/
theorem digits_skipZeroes (hb : 2 ≤ base) (s : List UInt8) :
    (digits base (skipZeroes s)).map (value base) = (digits base s).map (value base) := by
  induction s with
  | nil => rfl
  | cons c s ih =>
    rw [skipZeroes]
    split
    · next h =>
      subst h
      rw [ih, digits_cons, digit_zero hb, Option.bind_some, Option.map_map]
      congr 1
      funext ds
      exact (value_zero_cons ds).symm
    · rfl

/-! ## Short numerals -/

/-- The digit of a base up to ten, as it is computed on unsigned words. -/
theorem lowDigit (ws : WordSize) (hb : 2 ≤ base ∧ base ≤ 10) (c : UInt8) :
    (if uint ws (c.toNat + 2 ^ ws.bits - 48) ≥ base then none
      else some (uint ws (c.toNat + 2 ^ ws.bits - 48))) = digit base c := by
  have hlt : c.toNat < 256 := c.toNat_lt
  have hbits : 2 ^ 32 ≤ 2 ^ ws.bits := by cases ws <;> decide
  have hword : uint ws (c.toNat + 2 ^ ws.bits - 48) =
      if 48 ≤ c.toNat then c.toNat - 48 else c.toNat + 2 ^ ws.bits - 48 := by
    rw [uint]
    split
    · next h =>
      rw [show c.toNat + 2 ^ ws.bits - 48 = c.toNat - 48 + 2 ^ ws.bits by omega,
        Nat.add_mod_right, Nat.mod_eq_of_lt (by omega)]
    · rw [Nat.mod_eq_of_lt (by omega)]
  rw [hword, digit_eq ⟨hb.1, by omega⟩, isValidChar, if_pos hb.2, digitFromBase]
  simp only [decide_eq_true_eq]
  split_ifs <;> first | rfl | omega

theorem uint_eq (h : n < 2 ^ ws.bits) : uint ws n = n := Nat.mod_eq_of_lt h

/-- Reading one more digit stays below the bound for the digits left. -/
theorem readFrom_step_le {k m : ℕ} (hd : d < base) (h : n * base ^ (k + 1) + base ^ (k + 1) ≤ m) :
    (n * base + d) * base ^ k + base ^ k ≤ m ∧ n * base + d < m := by
  have hstep : (n * base + d) * base ^ k + base ^ k ≤ n * base ^ (k + 1) + base ^ (k + 1) := by
    calc (n * base + d) * base ^ k + base ^ k = (n * base + d + 1) * base ^ k := by ring
      _ ≤ (n * base + base) * base ^ k := Nat.mul_le_mul_right _ (by omega)
      _ = n * base ^ (k + 1) + base ^ (k + 1) := by ring
  have hpos : 0 < base ^ k := Nat.pow_pos (by omega)
  refine ⟨hstep.trans h, ?_⟩
  have hmul : n * base + d ≤ (n * base + d) * base ^ k := Nat.le_mul_of_pos_right _ hpos
  omega

theorem readHigh_eq (hb : 2 ≤ base ∧ base ≤ 36) (s : List UInt8)
    (hfit : i * base ^ s.length + base ^ s.length ≤ 2 ^ ws.bits) :
    readHigh ws base s i = (digits base s).map (readFrom base i) := by
  induction s generalizing i with
  | nil => rfl
  | cons c s ih =>
    rw [readHigh, digits_cons, digit_eq hb]
    split
    · next hc =>
      obtain ⟨hfit', hlt⟩ := readFrom_step_le (digit_lt ((isValidChar_iff hb c).1 hc)) hfit
      rw [uint_eq hlt, ih hfit', Option.bind_some, Option.map_map]
      rfl
    · rfl

theorem readLow_eq (hb : 2 ≤ base ∧ base ≤ 10) (s : List UInt8)
    (hfit : i * base ^ s.length + base ^ s.length ≤ 2 ^ ws.bits) :
    readLow ws base s i = (digits base s).map (readFrom base i) := by
  induction s generalizing i with
  | nil => rfl
  | cons c s ih =>
    have hdigit := lowDigit ws hb c
    rw [readLow, digits_cons, ← hdigit]
    split
    · rfl
    · next hc =>
      rw [if_neg hc] at hdigit
      obtain ⟨hfit', hlt⟩ := readFrom_step_le (digit_lt hdigit.symm) hfit
      rw [uint_eq hlt, ih hfit', Option.bind_some, Option.map_map]
      rfl

theorem sint_eq (h : n < 2 ^ (ws.smallBits - 1)) : sint ws n = n := by
  have hle : 2 ^ (ws.smallBits - 1) ≤ 2 ^ ws.bits / 2 := by cases ws <;> decide
  rw [sint, Int.bmod_eq_of_le]
  all_goals
    omega

theorem makeSmall_eq {n : ℤ} (h : n.natAbs < 2 ^ (ws.smallBits - 1)) : makeSmall ws n = n := by
  have heq : 2 ^ ws.smallBits = 2 * 2 ^ (ws.smallBits - 1) := by cases ws <;> decide
  rw [makeSmall, Int.bmod_eq_of_le]
  all_goals
    omega

/-- The digits of a string without sign and leading zeroes. -/
def significant (s : List UInt8) : List UInt8 := skipZeroes (readSign s).2

theorem unsignedValue_skipZeroes (hb : 2 ≤ base) (hs : s ≠ []) :
    unsignedValue base s = (digits base (skipZeroes s)).map (value base) := by
  rw [unsignedValue, if_neg hs, digits_skipZeroes hb]

/-- What is read of a short string is what it denotes. -/
theorem charsToInteger_short (ws : WordSize) (hb : 2 ≤ base ∧ base ≤ 36)
    (hshort : (significant s).length ≤ digitsPerSmall ws base) :
    charsToInteger ws s base =
      match denotes base s with
      | some n => .int n
      | none => .badarg := by
  obtain ⟨-, -, hsmall⟩ := radix_eq ws hb
  rw [denotes_eq, charsToInteger]
  simp only
  by_cases hempty : (readSign s).2 = []
  · rw [hempty]
    rfl
  · rw [if_neg hempty, unsignedValue_skipZeroes hb.1 hempty]
    rw [significant] at hshort
    cases hskip : skipZeroes (readSign s).2 with
    | nil =>
      have hzero : makeSmall ws 0 = 0 := makeSmall_eq (by positivity)
      simp [digits_nil, value, readFrom, hzero]
    | cons c t =>
      rw [hskip] at hshort
      have hpow : base ^ (c :: t).length ≤ 2 ^ (ws.smallBits - 1) :=
        (Nat.pow_le_pow_right (by omega) hshort).trans hsmall
      have hbits : 2 ^ (ws.smallBits - 1) ≤ 2 ^ ws.bits := by cases ws <;> decide
      have hfit : 0 * base ^ (c :: t).length + base ^ (c :: t).length ≤ 2 ^ ws.bits := by omega
      have hread : (if base ≤ 10 then readLow ws base (c :: t) 0 else readHigh ws base (c :: t) 0) =
          (digits base (c :: t)).map (value base) := by
        split
        · next hlow => exact readLow_eq ⟨hb.1, hlow⟩ _ hfit
        · exact readHigh_eq hb _ hfit
      simp only
      rw [getDigitsPerSmall_eq, if_neg (by omega), hread]
      cases hd : digits base (c :: t) with
      | none => rfl
      | some ds =>
        have hlt : value base ds < 2 ^ (ws.smallBits - 1) := by
          have hv := value_lt (digits_lt hd)
          rw [length_digits hd] at hv
          omega
        have hneg : (-(value base ds : ℤ)).natAbs < 2 ^ (ws.smallBits - 1) := by omega
        have hpos : ((value base ds : ℕ) : ℤ).natAbs < 2 ^ (ws.smallBits - 1) := by omega
        simp only [Option.map_some, sint_eq hlt]
        split
        · rw [makeSmall_eq hneg]
        · rw [makeSmall_eq hpos]

theorem charsToInteger_long (ws : WordSize)
    (hlong : digitsPerSmall ws base < (significant s).length) :
    charsToInteger ws s base = .big := by
  rw [charsToInteger]
  simp only
  rw [significant] at hlong
  have hne : (readSign s).2 ≠ [] := by
    intro hnil
    rw [hnil] at hlong
    simp [skipZeroes] at hlong
  rw [if_neg hne]
  cases hskip : skipZeroes (readSign s).2 with
  | nil =>
    rw [hskip] at hlong
    simp at hlong
  | cons c t =>
    rw [hskip] at hlong
    simp only
    rw [getDigitsPerSmall_eq, if_pos hlong]

end Otp.Erts.Integers
