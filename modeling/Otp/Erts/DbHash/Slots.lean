import Otp.Erts.DbHash.Table

/-!
# Slots

Where a hash value goes in a table of linear hashing, and the order in which a
traversal visits the slots. With `2 ^ m` just enough for the active slots, a
hash value goes to its lowest `m` bits, or to its lowest `m - 1` bits if that
slot is not active. A traversal goes by the number of locks, a power of two: all
slots of the first lock, then all of the second, and so on.
-/

namespace Otp.Erts.DbHash

open List

/-! ## The slot of a hash value -/

/-- The slot of a hash value among `n` active ones, with a mask of `m` bits. -/
def slotOf (m n h : ℕ) : ℕ := if n ≤ h % 2 ^ m then h % 2 ^ (m - 1) else h % 2 ^ m

/-- The mask fits the number of active slots. -/
structure MaskFits (m n : ℕ) : Prop where
  pos : 0 < m
  low : 2 ^ m < 2 * n
  high : n ≤ 2 ^ m

variable {m n r q : ℕ}

theorem two_pow_pred (h : 0 < m) : 2 ^ m = 2 * 2 ^ (m - 1) := by
  obtain ⟨k, rfl⟩ := Nat.exists_eq_succ_of_ne_zero (Nat.pos_iff_ne_zero.mp h)
  rw [Nat.succ_sub_one, pow_succ, Nat.mul_comm]

theorem MaskFits.slotOf_lt (h : MaskFits m n) (hval : ℕ) : slotOf m n hval < n := by
  have hpow := two_pow_pred h.pos
  have hlow := h.low
  unfold slotOf
  split_ifs <;> omega

/-- A residue modulo `2 ^ m` is the lower one or `2 ^ (m - 1)` more. -/
theorem mod_two_pow_cases (hm : 0 < m) (h : ℕ) :
    h % 2 ^ m = h % 2 ^ (m - 1) ∨ h % 2 ^ m = h % 2 ^ (m - 1) + 2 ^ (m - 1) := by
  have hpow := two_pow_pred hm
  have hmm : h % 2 ^ m % 2 ^ (m - 1) = h % 2 ^ (m - 1) := by
    rw [hpow, Nat.mul_comm, Nat.mod_mul_right_mod]
  obtain hl | hl := Nat.lt_or_ge (h % 2 ^ m) (2 ^ (m - 1))
  · left
    rw [← hmm, Nat.mod_eq_of_lt hl]
  · right
    have hsub : h % 2 ^ m % 2 ^ (m - 1) = h % 2 ^ m - 2 ^ (m - 1) := by
      rw [Nat.mod_eq_sub_mod hl]
      exact Nat.mod_eq_of_lt (by omega)
    omega

/-- With as many slots as the mask allows, one more bit changes nothing. -/
theorem slotOf_succ_of_full (m h : ℕ) : slotOf (m + 1) (2 ^ m) h = slotOf m (2 ^ m) h := by
  have hc := mod_two_pow_cases (Nat.zero_lt_succ m) h
  simp only [Nat.succ_eq_add_one, Nat.add_sub_cancel] at hc
  unfold slotOf
  rw [Nat.add_sub_cancel]
  split_ifs <;> omega

/-- One more slot: the hash values of the new slot leave its lower half for it. -/
theorem slotOf_succ (hlow : 2 ^ (m - 1) ≤ n) (h : ℕ) :
    slotOf m (n + 1) h = if h % 2 ^ m = n then n else slotOf m n h := by
  unfold slotOf
  split_ifs <;> omega

/-- The hash values of the old half of a split go to one of the two slots. -/
theorem mod_eq_of_slotOf (hm : 0 < m) (hlow : 2 ^ (m - 1) ≤ n) (hn : n < 2 ^ m) {h : ℕ} :
    slotOf m n h = n % 2 ^ (m - 1) ↔ h % 2 ^ m = n % 2 ^ (m - 1) ∨ h % 2 ^ m = n := by
  have hpow := two_pow_pred hm
  have hc := mod_two_pow_cases hm h
  have hmn : n % 2 ^ (m - 1) = n - 2 ^ (m - 1) := by
    rw [Nat.mod_eq_sub_mod hlow, Nat.mod_eq_of_lt (by omega)]
  unfold slotOf
  split_ifs <;> omega

variable {ω : Type*} {tb : DbTableHash ω}

/-- The mask is a number of ones that fits the active slots. -/
def DbTableHash.Masked (tb : DbTableHash ω) (m : ℕ) : Prop :=
  tb.szm = 2 ^ m - 1 ∧ MaskFits m tb.nactive

theorem shiftRight_one_mask (m : ℕ) : (2 ^ m - 1) >>> 1 = 2 ^ (m - 1) - 1 := by
  cases m with
  | zero => rfl
  | succ m =>
    rw [Nat.succ_sub_one]
    omega

theorem DbTableHash.Masked.hashToIx_eq (h : tb.Masked m) (hval : ℕ) :
    tb.hashToIx hval = slotOf m tb.nactive hval := by
  unfold DbTableHash.hashToIx slotOf
  dsimp only
  rw [h.1, shiftRight_one_mask, Nat.and_two_pow_sub_one_eq_mod, Nat.and_two_pow_sub_one_eq_mod]
  have hmm : hval % 2 ^ m % 2 ^ (m - 1) = hval % 2 ^ (m - 1) := by
    rw [two_pow_pred h.2.pos, Nat.mul_comm, Nat.mod_mul_right_mod]
  rw [hmm]

theorem DbTableHash.Masked.hashToIx_lt (h : tb.Masked m) (hval : ℕ) :
    tb.hashToIx hval < tb.nactive := by
  rw [h.hashToIx_eq]
  exact h.2.slotOf_lt hval

/-! ## The order of a traversal -/

/-- The slots of one lock from the `q`-th on. -/
def lockSlots (nlocks nactive r q : ℕ) : List ℕ :=
  (List.range' q ((nactive - 1 - r) / nlocks + 1 - q)).map (r + nlocks * ·)

/-- The slots from the `q`-th of a lock on, in the order of a traversal. -/
def orderFrom (nlocks nactive r q : ℕ) : List ℕ :=
  lockSlots nlocks nactive r q ++
    (List.range' (r + 1) (nlocks - 1 - r)).flatMap (lockSlots nlocks nactive · 0)

/-- All slots in the order of a traversal. -/
def slotOrder (nlocks nactive : ℕ) : List ℕ :=
  (List.range nlocks).flatMap (lockSlots nlocks nactive · 0)

section Order

variable {nlocks nactive : ℕ} {r q : ℕ}

theorem slotOrder_eq (h : 0 < nlocks) : slotOrder nlocks nactive =
    orderFrom nlocks nactive 0 0 := by
  obtain ⟨n, rfl⟩ := Nat.exists_eq_succ_of_ne_zero (Nat.pos_iff_ne_zero.mp h)
  unfold slotOrder orderFrom
  rw [range_eq_range', List.range'_succ]
  rfl

theorem orderFrom_ne_nil (hq : q ≤ (nactive - 1 - r) / nlocks) :
    orderFrom nlocks nactive r q ≠ [] := by
  obtain ⟨n, hn⟩ : ∃ n, (nactive - 1 - r) / nlocks + 1 - q = n + 1 :=
    ⟨(nactive - 1 - r) / nlocks - q, by omega⟩
  simp [orderFrom, lockSlots, hn, List.range'_succ]

theorem orderFrom_of_lt (hq : q < (nactive - 1 - r) / nlocks) :
    orderFrom nlocks nactive r q = (r + nlocks * q) :: orderFrom nlocks nactive r (q + 1) := by
  obtain ⟨n, hn⟩ : ∃ n, (nactive - 1 - r) / nlocks + 1 - q = n + 1 :=
    ⟨(nactive - 1 - r) / nlocks - q, by omega⟩
  have hn' : (nactive - 1 - r) / nlocks + 1 - (q + 1) = n := by omega
  simp [orderFrom, lockSlots, hn, hn', List.range'_succ]

section

variable (hq : q = (nactive - 1 - r) / nlocks)

include hq

theorem lockSlots_last : lockSlots nlocks nactive r q = [r + nlocks * q] := by
  have hn : (nactive - 1 - r) / nlocks + 1 - q = 1 := by omega
  simp [lockSlots, hn]

theorem orderFrom_last (hr : r + 1 < nlocks) :
    orderFrom nlocks nactive r q = (r + nlocks * q) :: orderFrom nlocks nactive (r + 1) 0 := by
  obtain ⟨n, hn⟩ : ∃ n, nlocks - 1 - r = n + 1 := ⟨nlocks - 2 - r, by omega⟩
  have hn' : nlocks - 1 - (r + 1) = n := by omega
  unfold orderFrom
  rw [lockSlots_last hq, hn, hn', List.range'_succ]
  rfl

theorem orderFrom_end (hr : r + 1 = nlocks) : orderFrom nlocks nactive r q = [r + nlocks * q] := by
  unfold orderFrom
  rw [lockSlots_last hq, show nlocks - 1 - r = 0 by omega]
  rfl

end

theorem mem_slotOrder (h : 0 < nlocks) (hle : nlocks ≤ nactive) {ix : ℕ} :
    ix ∈ slotOrder nlocks nactive ↔ ix < nactive := by
  simp only [slotOrder, lockSlots, mem_flatMap, mem_range, mem_map, mem_range',
    Nat.sub_zero, Nat.zero_add, Nat.one_mul]
  constructor
  · rintro ⟨r, hr, i, hi, rfl⟩
    have hmul : nlocks * i ≤ nactive - 1 - r := by
      calc nlocks * i ≤ nlocks * ((nactive - 1 - r) / nlocks) := Nat.mul_le_mul_left _ (by omega)
        _ ≤ nactive - 1 - r := Nat.mul_div_le _ _
    omega
  · intro hix
    have hmod := Nat.mod_lt ix h
    have hdiv := Nat.mod_add_div ix nlocks
    refine ⟨ix % nlocks, hmod, ix / nlocks, ⟨ix / nlocks, ?_, rfl⟩, hdiv⟩
    have : ix / nlocks ≤ (nactive - 1 - ix % nlocks) / nlocks := by
      rw [Nat.le_div_iff_mul_le h, Nat.mul_comm]
      omega
    omega

theorem nodup_slotOrder (h : 0 < nlocks) : (slotOrder nlocks nactive).Nodup := by
  unfold slotOrder
  rw [nodup_flatMap]
  constructor
  · intro r _
    refine List.Nodup.map ?_ (nodup_range' ..)
    intro a b hab
    exact Nat.eq_of_mul_eq_mul_left h (Nat.add_left_cancel hab)
  · refine List.Pairwise.imp_of_mem ?_ nodup_range
    intro r r' hr hr' hne x hx hx'
    simp only [lockSlots, mem_map] at hx hx'
    obtain ⟨q, -, rfl⟩ := hx
    obtain ⟨q', -, heq⟩ := hx'
    -- the slots of a lock leave its number as remainder
    have hmod := congrArg (· % nlocks) heq
    simp only [Nat.add_mul_mod_self_left, Nat.mod_eq_of_lt (mem_range.mp hr),
      Nat.mod_eq_of_lt (mem_range.mp hr')] at hmod
    exact hne hmod.symm

theorem length_slotOrder (h : 0 < nlocks) (hle : nlocks ≤ nactive) :
    (slotOrder nlocks nactive).length = nactive := by
  have hperm : (slotOrder nlocks nactive).Perm (List.range nactive) := by
    rw [perm_ext_iff_of_nodup (nodup_slotOrder h) nodup_range]
    intro ix
    rw [mem_slotOrder h hle, mem_range]
  simpa using hperm.length_eq

end Order

/-- The number of locks is a power of two and there is an active slot for each. -/
def DbTableHash.Locked (tb : DbTableHash ω) : Prop :=
  (∃ l, tb.nlocks = 2 ^ l) ∧ tb.nlocks ≤ tb.nactive

theorem DbTableHash.Locked.pos (h : tb.Locked) : 0 < tb.nlocks := by
  obtain ⟨⟨l, hl⟩, -⟩ := h
  rw [hl]
  exact Nat.two_pow_pos l

theorem nextSlot_of_lt (h : 0 < tb.nlocks) (hr : r < tb.nactive)
    (hq : q < (tb.nactive - 1 - r) / tb.nlocks) :
    nextSlot tb (r + tb.nlocks * q) = r + tb.nlocks * (q + 1) := by
  have hmul : tb.nlocks * (q + 1) ≤ tb.nactive - 1 - r := by
    have := (Nat.le_div_iff_mul_le h).mp (Nat.succ_le_of_lt hq)
    rwa [Nat.mul_comm] at this
  rw [nextSlot, if_pos (by rw [Nat.mul_succ] at hmul; omega), Nat.mul_succ]
  omega

theorem nextSlot_last (h : tb.Locked) (hr : r < tb.nlocks)
    (hq : q = (tb.nactive - 1 - r) / tb.nlocks) :
    nextSlot tb (r + tb.nlocks * q) = (r + 1) % tb.nlocks := by
  obtain ⟨⟨l, hl⟩, hle⟩ := h
  have hlt : tb.nactive - 1 - r < tb.nlocks * (q + 1) := by
    rw [hq, Nat.mul_comm]
    exact Nat.lt_mul_of_div_lt (Nat.lt_succ_self _) (by omega)
  rw [nextSlot, if_neg (by rw [Nat.mul_succ] at hlt; omega)]
  conv_lhs => rw [hl, Nat.and_two_pow_sub_one_eq_mod, ← hl]
  rw [show r + tb.nlocks * q + tb.nlocks + 1 = r + 1 + tb.nlocks * (q + 1) by
    rw [Nat.mul_succ]; omega, Nat.add_mul_mod_self_left]

/-- Slot by slot, a traversal follows the order. -/
theorem slotsFrom_eq (h : tb.Locked) : ∀ (fuel : ℕ) {r q : ℕ},
    r < tb.nlocks → q ≤ (tb.nactive - 1 - r) / tb.nlocks →
      (orderFrom tb.nlocks tb.nactive r q).length ≤ fuel →
        slotsFrom tb fuel (r + tb.nlocks * q) = orderFrom tb.nlocks tb.nactive r q := by
  intro fuel
  induction fuel with
  | zero =>
    intro r q _ hq hlen
    exact absurd (length_eq_zero_iff.mp (Nat.le_zero.mp hlen)) (orderFrom_ne_nil hq)
  | succ fuel ih =>
    intro r q hr hq hlen
    have hpos := h.pos
    have hle := h.2
    rw [slotsFrom]
    obtain hlt | heq := Nat.lt_or_eq_of_le hq
    · -- a further slot of the same lock
      rw [nextSlot_of_lt hpos (by omega) hlt, orderFrom_of_lt hlt]
      rw [orderFrom_of_lt hlt] at hlen
      rw [if_neg (by rw [Nat.mul_succ]; omega),
        ih hr (Nat.succ_le_of_lt hlt) (Nat.le_of_succ_le_succ hlen)]
    · rw [nextSlot_last h hr heq]
      obtain hr' | hr' := Nat.lt_or_eq_of_le (Nat.succ_le_of_lt hr)
      · -- the first slot of the next lock
        rw [Nat.mod_eq_of_lt hr', if_neg (Nat.succ_ne_zero r), orderFrom_last heq hr']
        rw [orderFrom_last heq hr'] at hlen
        have := ih hr' (Nat.zero_le _) (Nat.le_of_succ_le_succ hlen)
        rw [Nat.mul_zero] at this
        rw [this]
      · have hz : (r + 1) % tb.nlocks = 0 := by rw [← hr']; exact Nat.mod_self _
        rw [hz, if_pos rfl, orderFrom_end heq hr']

/-- A traversal from slot zero visits the slots in this order. -/
theorem slotsFrom_zero (h : tb.Locked) :
    slotsFrom tb tb.nactive 0 = slotOrder tb.nlocks tb.nactive := by
  have hlen := length_slotOrder h.pos h.2
  rw [slotOrder_eq h.pos] at hlen ⊢
  exact slotsFrom_eq h tb.nactive h.pos (Nat.zero_le _) (Nat.le_of_eq hlen)

end Otp.Erts.DbHash
