import Otp.Erts.Integers.Accept

/-!
# Integers in lists

`list_to_integer/2` reads short numerals from the elements of the list.  It looks at the
lowest byte of an element only, so that an element above 255 may be taken for a digit
(`Narrowed`).  Long numerals are converted to a binary and read as such.
-/

namespace Otp.Erts.Integers

open Otp.Lib.Positional List

/-- All elements are bytes. -/
def IsBytes (string : List ℤ) : Prop := ∀ x ∈ string, 0 ≤ x ∧ x ≤ 255

instance (string : List ℤ) : Decidable (IsBytes string) := by
  unfold IsBytes
  infer_instance

/-- The integer that a list of characters denotes. -/
def listDenotes (base : ℕ) (string : List ℤ) : Option ℤ :=
  if IsBytes string then denotes base (string.map lowByte) else none

def ListOverLong (ws : WordSize) (base : ℕ) (string : List ℤ) : Prop :=
  IsBytes string ∧ OverLong ws base (string.map lowByte)

/-- The sign is cut off, as in `erts_internal:list_to_integer/2`. -/
def listSign (string : List ℤ) : Bool × List ℤ :=
  match string with
  | [] => (false, [])
  | x :: rest => if x = 45 then (true, rest) else if x = 43 then (false, rest) else (false, string)

/-- A short numeral in the lowest bytes of small integers, not all of them bytes. -/
def Narrowed (ws : WordSize) (base : ℕ) (string : List ℤ) : Prop :=
  ¬IsBytes string ∧ (listSign string).2 ≠ [] ∧ (∀ x ∈ (listSign string).2, isSmall ws x = true) ∧
  digits base ((listSign string).2.map lowByte) ≠ none ∧
  (skipZeroes ((listSign string).2.map lowByte)).length ≤ digitsPerSmall ws base

/-- The list denotes nothing, and is not rejected. -/
def ListMisread (ws : WordSize) (base : ℕ) (string : List ℤ) : Prop :=
  Narrowed ws base string ∨
  (IsBytes string ∧ Misread ws base (string.map lowByte) ∧
    digits base ((significant (string.map lowByte)).take (digitsPerSmall ws base + 1)) ≠ none)

/-! ## The loops -/

variable {ws : WordSize} {base : ℕ} {list string : List ℤ} {x : ℤ}

/-- Is the element taken for a digit? -/
def isDigit (ws : WordSize) (base : ℕ) (x : ℤ) : Bool :=
  isSmall ws x && isValidChar (lowByte x) base

def isZero (ws : WordSize) (x : ℤ) : Bool := isSmall ws x && decide (lowByte x = zero)

theorem skipZeroDigits_eq (list : List ℤ) (n : ℕ) :
    skipZeroDigits ws base list n =
      (list.dropWhile (isZero ws), n + (list.takeWhile (isZero ws)).length,
        match list.dropWhile (isZero ws) with
        | [] => true
        | x :: _ => !isSmall ws x || isValidChar (lowByte x) base) := by
  induction list generalizing n with
  | nil => rfl
  | cons x list ih =>
    rw [skipZeroDigits, dropWhile_cons, takeWhile_cons, isZero]
    cases hsmall : isSmall ws x with
    | false => simp [hsmall]
    | true =>
      by_cases hzero : lowByte x = zero
      · simp only [hzero, ih, ne_eq, not_true_eq_false, if_false, Bool.not_true,
          Bool.false_eq_true, decide_true, Bool.and_self, if_true, length_cons,
          Prod.mk.injEq, true_and, and_true]
        omega
      · simp [hzero, hsmall]

/-- The elements that are read. -/
def readable (ws : WordSize) (base : ℕ) (list : List ℤ) (n : ℕ) : List ℤ :=
  (list.takeWhile (isDigit ws base)).take (digitsPerSmall ws base + 1 - n)

theorem readDigits_eq (list : List ℤ) (ui n : ℕ) (hn : n ≤ digitsPerSmall ws base + 1) :
    some (readDigits ws base list ui n).1 =
        readHigh ws base ((readable ws base list n).map lowByte) ui ∧
      (readDigits ws base list ui n).2.1 = n + (readable ws base list n).length ∧
      readable ws base list n ++ (readDigits ws base list ui n).2.2 = list := by
  induction list generalizing ui n with
  | nil => simp [readDigits, readable, readHigh]
  | cons x list ih =>
    rw [readDigits, getDigitsPerSmall_eq]
    by_cases hcond : n ≤ digitsPerSmall ws base ∧ isSmall ws x = true ∧
        isValidChar (lowByte x) base = true
    · have hread : readable ws base (x :: list) n = x :: readable ws base list (n + 1) := by
        have hdigit : isDigit ws base x = true := by rw [isDigit, hcond.2.1, hcond.2.2]; rfl
        have hsucc : digitsPerSmall ws base + 1 - n = digitsPerSmall ws base + 1 - (n + 1) + 1 := by
          omega
        rw [readable, readable, takeWhile_cons, if_pos hdigit, hsucc, take_succ_cons]
      obtain ⟨hvalue, hcount, hrest⟩ :=
        ih (uint ws (ui * base + digitFromBase (lowByte x))) (n + 1) (by omega)
      rw [if_pos hcond, hread]
      refine ⟨?_, ?_, ?_⟩
      · rw [hvalue, map_cons, readHigh, if_pos hcond.2.2]
      · rw [length_cons]
        omega
      · rw [cons_append, hrest]
    · have hread : readable ws base (x :: list) n = [] := by
        rw [readable, takeWhile_cons]
        split
        · next hdigit =>
          rw [isDigit, Bool.and_eq_true] at hdigit
          have hfull : digitsPerSmall ws base + 1 - n = 0 := by
            by_contra hpos
            exact hcond ⟨by omega, hdigit⟩
          rw [hfull, take_zero]
        · exact take_nil
      rw [if_neg hcond, hread]
      simp [readHigh]

/-! ## What is answered -/

theorem makeSmall_signed {n : ℕ} (h : n < 2 ^ (ws.smallBits - 1)) (neg : Bool) :
    makeSmall ws (if neg then -sint ws n else sint ws n) = (if neg then -1 else 1) * (n : ℤ) := by
  rw [sint_eq h]
  cases neg with
  | false =>
    rw [if_neg Bool.false_ne_true, if_neg Bool.false_ne_true, one_mul]
    exact makeSmall_eq (by omega)
  | true =>
    rw [if_pos rfl, if_pos rfl, neg_one_mul]
    exact makeSmall_eq (by omega)

/-- The significant elements, those after the sign and the zeroes. -/
def listSignificant (ws : WordSize) (string : List ℤ) : List ℤ :=
  (listSign string).2.dropWhile (isZero ws)

/-- The value of the elements read, if they are few. -/
theorem readDigits_value (hb : 2 ≤ base ∧ base ≤ 36)
    (hshort : (readable ws base list 0).length ≤ digitsPerSmall ws base) :
    ∃ ds, digits base ((readable ws base list 0).map lowByte) = some ds ∧
      (readDigits ws base list 0 0).1 = value base ds ∧
      value base ds < 2 ^ (ws.smallBits - 1) := by
  obtain ⟨-, -, hsmall⟩ := radix_eq ws hb
  obtain ⟨hvalue, -, -⟩ := @readDigits_eq ws base list 0 0 (by omega)
  have hpow : base ^ ((readable ws base list 0).map lowByte).length ≤ 2 ^ (ws.smallBits - 1) := by
    rw [length_map]
    exact (Nat.pow_le_pow_right (by omega) hshort).trans hsmall
  have hbits : 2 ^ (ws.smallBits - 1) ≤ 2 ^ ws.bits := by cases ws <;> decide
  rw [readHigh_eq hb _ (by omega)] at hvalue
  obtain ⟨ds, hds, hvalue⟩ := Option.map_eq_some_iff.mp hvalue.symm
  refine ⟨ds, hds, hvalue.symm, ?_⟩
  have hlt := value_lt (digits_lt hds)
  rw [length_digits hds] at hlt
  omega

/-- The answer for the elements after the sign. -/
theorem ertsInternalListToInteger_eq (hb : 2 ≤ base ∧ base ≤ 36) (hne : string ≠ []) :
    ertsInternalListToInteger ws string base =
      let (list, n, valid) := skipZeroDigits ws base (listSign string).2 0
      if !valid ∨ list = [] then
        if n = 0 then .noInteger else .int (makeSmall ws 0) list
      else
        let (ui, n, list) := readDigits ws base list 0 0
        if n = 0 then .noInteger
        else if n > getDigitsPerSmall ws base then .big
        else .int (makeSmall ws (if (listSign string).1 then -sint ws ui
          else sint ws ui)) list := by
  obtain ⟨x, rest, rfl⟩ := exists_cons_of_ne_nil hne
  rw [ertsInternalListToInteger, if_neg (by omega)]
  rfl

theorem readable_nil : readable ws base [] 0 = [] := by
  rw [readable, takeWhile_nil, take_nil]

theorem readable_cons_ne_nil : readable ws base (x :: list) 0 ≠ [] ↔ isDigit ws base x = true := by
  rw [readable, takeWhile_cons]
  split <;> simp_all

/-- The answer where some digit is read. -/
theorem answer_of_read (hb : 2 ≤ base ∧ base ≤ 36)
    (hread : readable ws base (listSignificant ws string) 0 ≠ []) :
    ertsInternalListToInteger ws string base =
      if digitsPerSmall ws base < (readable ws base (listSignificant ws string) 0).length then .big
      else
        let (ui, _, list) := readDigits ws base (listSignificant ws string) 0 0
        .int (makeSmall ws (if (listSign string).1 then -sint ws ui else sint ws ui)) list := by
  obtain ⟨-, hcount, -⟩ := @readDigits_eq ws base (listSignificant ws string) 0 0 (by omega)
  have hstring : string ≠ [] := by
    rintro rfl
    exact hread readable_nil
  rw [ertsInternalListToInteger_eq hb hstring, skipZeroDigits_eq, getDigitsPerSmall_eq,
    ← listSignificant]
  dsimp only
  rw [if_neg, hcount, Nat.zero_add, if_neg (mt length_eq_zero_iff.1 hread)]
  cases hsig : listSignificant ws string with
  | nil =>
    rw [hsig] at hread
    exact absurd readable_nil hread
  | cons y ys =>
    rw [hsig, readable_cons_ne_nil, isDigit, Bool.and_eq_true] at hread
    simp [hread.2]

/-- The answer where no digit is read: the zeroes before, if there are any. -/
theorem answer_of_not_read (hb : 2 ≤ base ∧ base ≤ 36)
    (hread : readable ws base (listSignificant ws string) 0 = []) :
    (ertsInternalListToInteger ws string base = .noInteger ∧
        (listSignificant ws string = [] → (listSign string).2 = [])) ∨
      (ertsInternalListToInteger ws string base = .int 0 (listSignificant ws string) ∧
        (listSign string).2 ≠ []) := by
  by_cases hstring : string = []
  · subst hstring
    exact .inl ⟨rfl, fun _ => rfl⟩
  obtain ⟨-, hcount, -⟩ := @readDigits_eq ws base (listSignificant ws string) 0 0 (by omega)
  have hbody : (listSign string).2.takeWhile (isZero ws) ++ listSignificant ws string =
      (listSign string).2 := takeWhile_append_dropWhile
  have hzero : makeSmall ws 0 = 0 := makeSmall_eq (by positivity)
  rw [hread, length_nil] at hcount
  rw [ertsInternalListToInteger_eq hb hstring, skipZeroDigits_eq, ← listSignificant, hzero,
    Nat.zero_add]
  dsimp only
  split_ifs with hstop hnone
  · refine .inl ⟨rfl, fun hsig => ?_⟩
    rw [← hbody, hsig, length_eq_zero_iff.1 hnone]
    rfl
  · refine .inr ⟨rfl, fun hnil => hnone ?_⟩
    rw [hnil]
    rfl
  · exact .inl ⟨rfl, fun hsig => absurd (.inr hsig) hstop⟩

/-! ## Lists of bytes -/

theorem isSmall_of_byte (h : 0 ≤ x ∧ x ≤ 255) : isSmall ws x = true := by
  rw [isSmall, decide_eq_true_eq, minSmall, maxSmall]
  have hmin : (256 : ℤ) ≤ 2 ^ (ws.smallBits - 1) := by cases ws <;> decide
  omega

theorem toNat_lowByte (h : 0 ≤ x ∧ x ≤ 255) : ((lowByte x).toNat : ℤ) = x := by
  have hmod : x % 256 = x := Int.emod_eq_of_lt h.1 (by omega)
  have hnat : (lowByte x).toNat = x.toNat := by
    rw [lowByte, UInt8.toNat_ofNat']
    omega
  rw [hnat, Int.toNat_of_nonneg h.1]

theorem readSign_lowByte (h : IsBytes string) :
    readSign (string.map lowByte) = ((listSign string).1, (listSign string).2.map lowByte) := by
  cases string with
  | nil => rfl
  | cons x rest =>
    have hx := h x mem_cons_self
    have hchar : ∀ c : UInt8, lowByte x = c ↔ x = (c.toNat : ℤ) := by
      intro c
      rw [← UInt8.toNat_inj, ← Nat.cast_inj (R := ℤ), toNat_lowByte hx]
    have hminus : lowByte x = minus ↔ x = 45 := hchar minus
    have hplus : lowByte x = plus ↔ x = 43 := hchar plus
    rw [map_cons, readSign, listSign]
    by_cases hm : x = 45
    · rw [if_pos (hminus.2 hm), if_pos hm]
    · by_cases hp : x = 43
      · rw [if_neg (mt hminus.1 hm), if_neg hm, if_pos (hplus.2 hp), if_pos hp]
      · rw [if_neg (mt hminus.1 hm), if_neg hm, if_neg (mt hplus.1 hp), if_neg hp, map_cons]

theorem skipZeroes_lowByte (h : ∀ x ∈ list, isSmall ws x = true) :
    skipZeroes (list.map lowByte) = (list.dropWhile (isZero ws)).map lowByte := by
  induction list with
  | nil => rfl
  | cons x list ih =>
    obtain ⟨hx, hlist⟩ := forall_mem_cons.1 h
    rw [map_cons, skipZeroes, dropWhile_cons, isZero, hx, Bool.true_and]
    by_cases hzero : lowByte x = zero
    · rw [if_pos hzero, ih hlist, if_pos (decide_eq_true hzero)]
    · rw [if_neg hzero, if_neg (by simpa using hzero), map_cons]

theorem digits_isSome_iff (hb : 2 ≤ base ∧ base ≤ 36) (s : List UInt8) :
    digits base s ≠ none ↔ ∀ c ∈ s, isValidChar c base = true := by
  induction s with
  | nil => simp [digits_nil]
  | cons c s ih =>
    rw [digits_cons, digit_eq hb, forall_mem_cons, ← ih]
    cases isValidChar c base with
    | false => simp
    | true => cases digits base s <;> simp

theorem skipZeroes_subset {s : List UInt8} {c : UInt8} (h : c ∈ skipZeroes s) : c ∈ s := by
  induction s with
  | nil => exact h
  | cons c' s ih =>
    rw [skipZeroes] at h
    split at h
    · exact mem_cons_of_mem _ (ih h)
    · exact h

theorem listSign_subset (h : x ∈ (listSign string).2) : x ∈ string := by
  cases string with
  | nil => exact h
  | cons y rest =>
    rw [listSign] at h
    split_ifs at h
    · exact mem_cons_of_mem _ h
    · exact mem_cons_of_mem _ h
    · exact h

/-! ## The three outcomes -/

/-- More digits than a small integer holds. -/
def Long (ws : WordSize) (base : ℕ) (string : List ℤ) : Prop :=
  digitsPerSmall ws base < (readable ws base (listSignificant ws string) 0).length

/-- All elements are read. -/
def Short (ws : WordSize) (base : ℕ) (string : List ℤ) : Prop :=
  ¬Long ws base string ∧ (listSign string).2 ≠ [] ∧
    readable ws base (listSignificant ws string) 0 = listSignificant ws string

theorem short_iff (hb : 2 ≤ base ∧ base ≤ 36) (string : List ℤ) :
    Short ws base string ↔ (listSign string).2 ≠ [] ∧
      (∀ x ∈ (listSign string).2, isSmall ws x = true) ∧
      digits base ((listSign string).2.map lowByte) ≠ none ∧
      (skipZeroes ((listSign string).2.map lowByte)).length ≤ digitsPerSmall ws base := by
  have hzero : isValidChar zero base = true :=
    (digits_isSome_iff hb [zero]).1 (by simp [digits_cons, digit_zero hb.1, digits_nil]) zero
      (mem_singleton_self _)
  rw [Short, Long]
  constructor
  · rintro ⟨hlong, hne, hall⟩
    have hdigit : ∀ x ∈ (listSign string).2, isDigit ws base x = true := by
      intro x hx
      rw [← @takeWhile_append_dropWhile _ (isZero ws) (listSign string).2, mem_append] at hx
      rcases hx with hx | hx
      · have hx' := mem_takeWhile_imp hx
        rw [isZero, Bool.and_eq_true, decide_eq_true_eq] at hx'
        rw [isDigit, hx'.1, hx'.2, hzero]
        rfl
      · have hx' : x ∈ readable ws base (listSignificant ws string) 0 := by
          rw [hall]
          exact hx
        exact mem_takeWhile_imp (mem_of_mem_take hx')
    have hsmall : ∀ x ∈ (listSign string).2, isSmall ws x = true := by
      intro x hx
      exact (Bool.and_eq_true_iff.1 (hdigit x hx)).1
    refine ⟨hne, hsmall, (digits_isSome_iff hb _).2 ?_, ?_⟩
    · intro c hc
      obtain ⟨x, hx, rfl⟩ := mem_map.1 hc
      exact (Bool.and_eq_true_iff.1 (hdigit x hx)).2
    · rw [skipZeroes_lowByte hsmall, length_map, ← listSignificant, ← hall]
      exact not_lt.1 hlong
  · rintro ⟨hne, hsmall, hdigits, hlen⟩
    rw [skipZeroes_lowByte hsmall, length_map, ← listSignificant] at hlen
    rw [digits_isSome_iff hb] at hdigits
    have hdigit : ∀ x ∈ listSignificant ws string, isDigit ws base x = true := by
      intro x hx
      have hx' := (dropWhile_suffix _).subset hx
      rw [isDigit, hsmall x hx', hdigits _ (mem_map_of_mem hx')]
      rfl
    have hall : readable ws base (listSignificant ws string) 0 = listSignificant ws string := by
      rw [readable, takeWhile_eq_self_iff.2 hdigit, take_of_length_le (by omega)]
    refine ⟨?_, hne, hall⟩
    rw [hall]
    omega

theorem narrowed_iff (hb : 2 ≤ base ∧ base ≤ 36) (string : List ℤ) :
    Narrowed ws base string ↔ ¬IsBytes string ∧ Short ws base string := by
  rw [Narrowed, short_iff hb]

theorem significant_lowByte {string : List ℤ} (h : IsBytes string) :
    significant (string.map lowByte) = (listSignificant ws string).map lowByte := by
  rw [significant, readSign_lowByte h]
  exact skipZeroes_lowByte fun x hx => isSmall_of_byte (h x (listSign_subset hx))

section

variable (hb : 2 ≤ base ∧ base ≤ 36)

include hb

/-- For bytes, being long is seen from the first digits. -/
theorem long_iff (h : IsBytes string) :
    Long ws base string ↔
      digitsPerSmall ws base < (significant (string.map lowByte)).length ∧
      digits base ((significant (string.map lowByte)).take
        (digitsPerSmall ws base + 1)) ≠ none := by
  have hsmall : ∀ x ∈ listSignificant ws string, isSmall ws x = true := by
    intro x hx
    exact isSmall_of_byte (h x (listSign_subset ((dropWhile_suffix _).subset hx)))
  rw [@significant_lowByte ws _ h, digits_isSome_iff hb, Long, readable, length_take,
    length_map, ← map_take]
  generalize listSignificant ws string = sig at hsmall
  generalize digitsPerSmall ws base = k
  constructor
  · intro hlong
    have hle : (sig.takeWhile (isDigit ws base)).length ≤ sig.length :=
      (takeWhile_sublist _).length_le
    refine ⟨by omega, ?_⟩
    intro c hc
    obtain ⟨x, hx, rfl⟩ := mem_map.1 hc
    have htake : sig.take (k + 1) = (sig.takeWhile (isDigit ws base)).take (k + 1) := by
      rw [← @takeWhile_append_dropWhile _ (isDigit ws base) sig, take_append_of_le_length,
        takeWhile_append_dropWhile]
      omega
    rw [htake] at hx
    have hdigit := mem_takeWhile_imp (mem_of_mem_take hx)
    exact (Bool.and_eq_true_iff.1 hdigit).2
  · rintro ⟨hlen, hvalid⟩
    have hdigit : ∀ x ∈ sig.take (k + 1), isDigit ws base x = true := by
      intro x hx
      rw [isDigit, hsmall x (mem_of_mem_take hx), hvalid _ (mem_map_of_mem hx)]
      rfl
    have htake : sig.takeWhile (isDigit ws base) =
        sig.take (k + 1) ++ (sig.drop (k + 1)).takeWhile (isDigit ws base) := by
      conv_lhs => rw [← take_append_drop (k + 1) sig]
      exact takeWhile_append_of_pos hdigit
    rw [htake, length_append, length_take]
    omega

theorem listToInteger_long (h : Long ws base string) :
    listToInteger ws string base =
      if IsBytes string then bigBinaryToInt ws (string.map lowByte) base else .error .badarg := by
  rw [Long] at h
  rw [listToInteger, answer_of_read hb (ne_nil_of_length_pos (Nat.zero_lt_of_lt h)), if_pos h]
  by_cases hbytes : IsBytes string
  · rw [if_pos hbytes]
    dsimp only [IsBytes] at hbytes
    rw [listToBinary, if_pos hbytes]
    rfl
  · rw [if_neg hbytes]
    dsimp only [IsBytes] at hbytes
    rw [listToBinary, if_neg hbytes]
    rfl

/-- The answer where all elements are read. -/
theorem answer_of_short (h : Short ws base string) :
    ∃ ds, digits base ((listSignificant ws string).map lowByte) = some ds ∧
      ertsInternalListToInteger ws string base =
        .int ((if (listSign string).1 then -1 else 1) * (value base ds : ℤ)) [] := by
  obtain ⟨hlong, hne, hall⟩ := h
  rw [Long] at hlong
  obtain ⟨-, -, hrest⟩ := @readDigits_eq ws base (listSignificant ws string) 0 0 (by omega)
  obtain ⟨ds, hds, hui, hlt⟩ := readDigits_value hb (not_lt.1 hlong)
  by_cases hread : readable ws base (listSignificant ws string) 0 = []
  · have hsig := hall.symm.trans hread
    rcases answer_of_not_read hb hread with ⟨-, hnil⟩ | ⟨heq, -⟩
    · exact absurd (hnil hsig) hne
    · rw [heq, hsig]
      exact ⟨[], digits_nil _, by simp [value, readFrom]⟩
  · rw [hall] at hds hrest
    refine ⟨ds, hds, ?_⟩
    rw [answer_of_read hb hread, if_neg hlong]
    dsimp only
    rw [hui, makeSmall_signed hlt, append_right_eq_self.1 hrest]

theorem listToInteger_short (h : Short ws base string) :
    ∃ n, listToInteger ws string base = .ok n ∧
      (IsBytes string → denotes base (string.map lowByte) = some n) := by
  obtain ⟨ds, hds, hanswer⟩ := answer_of_short hb h
  refine ⟨_, by rw [listToInteger, hanswer], fun hbytes => ?_⟩
  have hsign : (readSign (string.map lowByte)).2 ≠ [] := by
    rw [readSign_lowByte hbytes]
    simpa using h.2.1
  rw [denotes_significant hb.1 hsign, @significant_lowByte ws _ hbytes, hds,
    readSign_lowByte hbytes]
  rfl

theorem listToInteger_rejected (hlong : ¬Long ws base string) (hshort : ¬Short ws base string) :
    listToInteger ws string base = .error .badarg := by
  obtain ⟨-, -, hrest⟩ := @readDigits_eq ws base (listSignificant ws string) 0 0 (by omega)
  by_cases hread : readable ws base (listSignificant ws string) 0 = []
  · rcases answer_of_not_read hb hread with ⟨heq, -⟩ | ⟨heq, hne⟩
    · rw [listToInteger, heq]
    · obtain ⟨y, ys, hsig⟩ := exists_cons_of_ne_nil fun hsig : listSignificant ws string = [] =>
        hshort ⟨hlong, hne, hread.trans hsig.symm⟩
      rw [listToInteger, heq, hsig]
  · have hne : (listSign string).2 ≠ [] := by
      intro hnil
      rw [listSignificant, hnil] at hread
      exact hread readable_nil
    obtain ⟨y, ys, hleft⟩ := exists_cons_of_ne_nil
      fun hnil : (readDigits ws base (listSignificant ws string) 0 0).2.2 = [] =>
        hshort ⟨hlong, hne, by rwa [hnil, append_nil] at hrest⟩
    rw [Long] at hlong
    rw [listToInteger, answer_of_read hb hread, if_neg hlong]
    dsimp only
    rw [hleft]

theorem listDenotes_rejected (hlong : ¬Long ws base string) (hshort : ¬Short ws base string) :
    listDenotes base string = none := by
  rw [listDenotes]
  split
  · next hbytes =>
    rw [short_iff hb] at hshort
    rw [long_iff hb hbytes] at hlong
    have hsmall : ∀ x ∈ (listSign string).2, isSmall ws x = true := fun x hx =>
      isSmall_of_byte (hbytes x (listSign_subset hx))
    rw [denotes_eq, readSign_lowByte hbytes]
    by_cases hne : (listSign string).2 = []
    · rw [hne]
      rfl
    · cases hds : digits base ((listSign string).2.map lowByte) with
      | none =>
        rw [unsignedValue, hds, if_neg (by simpa using hne)]
        rfl
      | some ds =>
        -- all characters are digits, so the list is long or short
        have hsig : significant (string.map lowByte) =
          skipZeroes ((listSign string).2.map lowByte) := by
          rw [significant, readSign_lowByte hbytes]
        have hsome : digits base ((listSign string).2.map lowByte) ≠ none := by
          rw [hds]
          simp
        have hlen : digitsPerSmall ws base < (significant (string.map lowByte)).length := by
          by_contra hle
          exact hshort ⟨hne, hsmall, hsome, hsig ▸ not_lt.1 hle⟩
        rw [digits_isSome_iff hb] at hsome
        refine absurd ⟨hlen, (digits_isSome_iff hb _).2 ?_⟩ hlong
        intro c hc
        have hc' := mem_of_mem_take hc
        rw [hsig] at hc'
        exact hsome c (skipZeroes_subset hc')
  · rfl

/-! ## Results -/

theorem listToInteger_ne_systemLimit (hover : ¬ListOverLong ws base string) :
    listToInteger ws string base ≠ .error .systemLimit := by
  by_cases hlong : Long ws base string
  · rw [listToInteger_long hb hlong]
    by_cases hbytes : IsBytes string
    · rw [if_pos hbytes]
      exact bigBinaryToInt_ne_systemLimit hb ((long_iff hb hbytes).1 hlong).1
        fun h => hover ⟨hbytes, h⟩
    · rw [if_neg hbytes]
      simp
  · by_cases hshort : Short ws base string
    · obtain ⟨n, hn, -⟩ := listToInteger_short hb hshort
      rw [hn]
      simp
    · rw [listToInteger_rejected hb hlong hshort]
      simp

/-- A list that is neither long nor taken for a numeral by narrowing is not misread. -/
theorem long_of_listMisread (hbytes : IsBytes string) (h : ListMisread ws base string) :
    Long ws base string ∧ Misread ws base (string.map lowByte) := by
  rcases h with hnarrowed | ⟨-, hmisread, hdigits⟩
  · exact absurd hbytes hnarrowed.1
  · exact ⟨(long_iff hb hbytes).2 ⟨hmisread.1, hdigits⟩, hmisread⟩

theorem listToInteger_parses_iff (string : List ℤ) :
    Parses (listToInteger ws string base) (listDenotes base string) (ListOverLong ws base string) ↔
      ¬ListMisread ws base string := by
  by_cases hbytes : IsBytes string
  · by_cases hlong : Long ws base string
    · have hlong' := (long_iff hb hbytes).1 hlong
      have hmisread : ListMisread ws base string ↔ Misread ws base (string.map lowByte) :=
        ⟨fun h => (long_of_listMisread hb hbytes h).2, fun h => .inr ⟨hbytes, h, hlong'.2⟩⟩
      have hover : ListOverLong ws base string = OverLong ws base (string.map lowByte) :=
        propext (and_iff_right hbytes)
      have hbinary := @binaryToInteger_parses_iff ws base hb (string.map lowByte)
      rw [binaryToInteger_long hb hlong'.1] at hbinary
      rw [listToInteger_long hb hlong, if_pos hbytes, listDenotes, if_pos hbytes, hmisread, hover]
      exact hbinary
    · have hright : ¬ListMisread ws base string :=
        fun h => hlong (long_of_listMisread hb hbytes h).1
      refine iff_of_true (.inl ?_) hright
      by_cases hshort : Short ws base string
      · obtain ⟨n, hn, hdenotes⟩ := listToInteger_short hb hshort
        rw [hn, listDenotes, if_pos hbytes, hdenotes hbytes]
      · rw [listToInteger_rejected hb hlong hshort, listDenotes_rejected hb hlong hshort]
  · have hnone : listDenotes base string = none := if_neg hbytes
    have hmisread : ListMisread ws base string ↔ Short ws base string := by
      rw [ListMisread, narrowed_iff hb]
      exact ⟨fun h => h.elim And.right fun h => absurd h.1 hbytes, fun h => .inl ⟨hbytes, h⟩⟩
    rw [hnone, hmisread]
    by_cases hshort : Short ws base string
    · obtain ⟨n, hn, -⟩ := listToInteger_short hb hshort
      refine iff_of_false (not_parses ?_) fun h => h hshort
      rw [hn]
      simp
    · refine iff_of_true (.inl ?_) hshort
      by_cases hlong : Long ws base string
      · rw [listToInteger_long hb hlong, if_neg hbytes]
      · exact listToInteger_rejected hb hlong hshort

end

/-- Integer parsing accepts the integer numerals and nothing else, except where segments with
signs of their own or narrowed list elements are misread, or a string that is no numeral is given
up for its length. -/
theorem integer_syntax_iff (ws : WordSize) {base : ℕ} (hb : 2 ≤ base ∧ base ≤ 36) :
    (∀ s : List UInt8,
      (Parses (binaryToInteger ws s base) (denotes base s) (OverLong ws base s) ↔
        ¬Misread ws base s) ∧
      (¬OverLong ws base s → binaryToInteger ws s base ≠ .error .systemLimit)) ∧
    (∀ string : List ℤ,
      (Parses (listToInteger ws string base) (listDenotes base string)
          (ListOverLong ws base string) ↔ ¬ListMisread ws base string) ∧
      (¬ListOverLong ws base string → listToInteger ws string base ≠ .error .systemLimit)) :=
  ⟨fun s => ⟨binaryToInteger_parses_iff hb s, binaryToInteger_ne_systemLimit hb⟩,
    fun string => ⟨listToInteger_parses_iff hb string, listToInteger_ne_systemLimit hb⟩⟩

/-- The characters of `--12345678901234567890`. -/
def twoSigns : List UInt8 :=
  [45, 45, 49, 50, 51, 52, 53, 54, 55, 56, 57, 48, 49, 50, 51, 52, 53, 54, 55, 56, 57, 48]

/-- The theorem at a decimal numeral with a sign too many. -/
theorem integer_syntax_iff_twoSigns :
    (2 ≤ 10 ∧ 10 ≤ 36) ∧
      (Parses (binaryToInteger .eight twoSigns 10) (denotes 10 twoSigns)
          (OverLong .eight 10 twoSigns) ↔ ¬Misread .eight 10 twoSigns) :=
  ⟨by decide, ((integer_syntax_iff .eight (by decide)).1 twoSigns).1⟩

/-- A second sign and an element above 255 are accepted. -/
theorem second_sign_and_wide_element_accepted :
    (denotes 10 twoSigns = none ∧ binaryToInteger .eight twoSigns 10 = .ok 12254321098765432110) ∧
    (listDenotes 10 [305] = none ∧ listToInteger .eight [305] 10 = .ok 1) := by
  decide +kernel

end Otp.Erts.Integers
