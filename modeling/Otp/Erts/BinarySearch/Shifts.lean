import Otp.Erts.BinarySearch.BoyerMoore

/-!
# The tables of shifts

The table of suffixes is the length of the longest common suffix of the pattern and each of
its prefixes (`IsSuffix`).  From it the table of good shifts has, for every place of a
mismatch, no more than any shift that agrees with what has been compared (`Compatible`).  Both
hold for patterns of up to `2 ^ 31` bytes; for a longer one the `int`s of `compute_suffixes`
do not reach the end of the table.
-/

namespace Otp.Erts.BinarySearch

open List

/-! ## Arrays -/

section Arrays

variable {β : Type*} {l : List β} {i k : ℤ} {v : β}

theorem readAt_natCast (l : List β) (n : ℕ) : readAt l (n : ℤ) = l[n]? := by
  rw [readAt, if_neg (by omega), Int.toNat_natCast]

theorem readAt_eq_some_of_lt (h0 : 0 ≤ i) (hi : i < l.length) : ∃ v, readAt l i = some v := by
  rw [readAt, if_neg (by omega)]
  exact ⟨_, getElem?_eq_getElem (by omega)⟩

theorem readAt_set_self (h0 : 0 ≤ i) (hi : i < l.length) : readAt (l.set i.toNat v) i = some v := by
  rw [readAt, if_neg (by omega), getElem?_set_self (by omega)]

theorem readAt_set_ne (h0 : 0 ≤ i) (hne : k ≠ i) : readAt (l.set i.toNat v) k = readAt l k := by
  rw [readAt, readAt]
  split_ifs with hk
  · rfl
  · rw [getElem?_set_ne (by omega)]

end Arrays

variable {x : List Byte} {m f g i : ℤ} {s v : ℤ} {suffixes : List (Option ℤ)} {goodshift : List ℤ}
  {j n : ℕ} {i : ℤ}

/-! ## Suffixes -/

/-- The last `s` bytes up to the place `i` are the last `s` bytes of the pattern, and no more
are. -/
structure IsSuffix (x : List Byte) (i s : ℤ) : Prop where
  nonneg : 0 ≤ s
  le : s ≤ i + 1
  agree : ∀ l, 0 ≤ l → l < s → readAt x (i - l) = readAt x (x.length - 1 - l)
  differ : s ≤ i → readAt x (i - s) ≠ readAt x (x.length - 1 - s)

theorem IsSuffix.unique {s' : ℤ} (h : IsSuffix x i s) (h' : IsSuffix x i s') : s = s' := by
  have hle := h.le
  have hle' := h'.le
  rcases Int.lt_trichotomy s s' with hlt | heq | hgt
  · exact absurd (h'.agree s h.nonneg hlt) (h.differ (by omega))
  · exact heq
  · exact absurd (h.agree s' h'.nonneg hgt) (h'.differ (by omega))

theorem matchBack_spec (hf : f < x.length) (hlow : -1 ≤ g) (hg : g ≤ f) :
    ∃ g', matchBack x x.length f g = some g' ∧ -1 ≤ g' ∧ g' ≤ g ∧
      (∀ k, g' < k → k ≤ g → readAt x k = readAt x (k + x.length - 1 - f)) ∧
      (0 ≤ g' → readAt x g' ≠ readAt x (g' + x.length - 1 - f)) := by
  induction hn : (g + 1).toNat generalizing g with
  | zero =>
    rw [matchBack, if_neg (by omega)]
    exact ⟨g, rfl, hlow, (Int.le_refl _), by intro k h1 h2; omega, by intro h; omega⟩
  | succ n ih =>
    have h0 : 0 ≤ g := by omega
    obtain ⟨a, ha⟩ := readAt_eq_some_of_lt (l := x) h0 (by omega)
    obtain ⟨b, hb⟩ := readAt_eq_some_of_lt (l := x) (i := g + x.length - 1 - f)
      (by omega) (by omega)
    rw [matchBack, if_pos h0, ha, hb]
    dsimp only
    split_ifs with hab
    · obtain ⟨g', heq, hlow', hle, hagree, hdiffer⟩ := ih (g := g - 1) (by omega) (by omega)
        (by omega)
      refine ⟨g', heq, hlow', by omega, ?_, hdiffer⟩
      intro k h1 h2
      by_cases hk : k = g
      · rw [hk, ha, hb, hab]
      · exact hagree k h1 (by omega)
    · refine ⟨g, rfl, hlow, (Int.le_refl _), by intro k h1 h2; omega, ?_⟩
      intro _ heq
      rw [ha, hb] at heq
      exact hab (Option.some.inj heq)

/-- Before the turn for `i`: the values above `i` are right, and where `g` is below `i` the
bytes between `g` and `f` are those at the end of the pattern. -/
structure SuffixInv (x : List Byte) (f g i : ℤ) (suffixes : List (Option ℤ)) : Prop where
  length : suffixes.length = x.length
  above : ∀ k, i < k → k < x.length →
    ∃ s, readAt suffixes k = some (some s) ∧ IsSuffix x k s
  low : -1 ≤ g
  window : g < i → i < f ∧ f ≤ x.length - 2 ∧
    ∀ k, g < k → k ≤ f → readAt x k = readAt x (k + x.length - 1 - f)

section

variable (h : SuffixInv x f g i suffixes)

include h

theorem SuffixInv.write (hi : 0 ≤ i) (hlast : i ≤ x.length - 2)
    {f' g' : ℤ} (hs : IsSuffix x i s) (hlow : -1 ≤ g')
    (hwindow : g' < i - 1 → i - 1 < f' ∧ f' ≤ x.length - 2 ∧
      ∀ k, g' < k → k ≤ f' → readAt x k = readAt x (k + x.length - 1 - f')) :
    SuffixInv x f' g' (i - 1) (suffixes.set i.toNat (some s)) where
  length := by rw [length_set, h.length]
  above := by
    intro k hk hlt
    by_cases hki : k = i
    · subst hki
      exact ⟨s, readAt_set_self hi (by rw [h.length]; omega), hs⟩
    · rw [readAt_set_ne hi hki]
      exact h.above k (by omega) hlt
  low := hlow
  window := hwindow

/-- A value that an earlier one gives is right. -/
theorem SuffixInv.isSuffix_reused (hgi : g < i)
    (hs : IsSuffix x (i + x.length - 1 - f) s) (hlt : s < i - g) : IsSuffix x i s := by
  obtain ⟨hif, hfm, hwin⟩ := h.window hgi
  have hcopy : ∀ l, 0 ≤ l → l ≤ s → readAt x (i - l) = readAt x (i + x.length - 1 - f - l) := by
    intro l h0 hl
    rw [hwin (i - l) (by omega) (by omega)]
    congr 1
    omega
  have hlow := h.low
  refine ⟨hs.nonneg, by omega, ?_, ?_⟩
  · intro l h0 hl
    rw [hcopy l h0 (by omega)]
    exact hs.agree l h0 hl
  · intro hle
    rw [hcopy s hs.nonneg (Int.le_refl _)]
    exact hs.differ (by omega)

/-- The bytes from `i` back to `g` need not be compared again. -/
theorem SuffixInv.agree_reused (hgi : g < i)
    (hs : IsSuffix x (i + x.length - 1 - f) s) (hge : ¬ s < i - g) :
    ∀ k, g < k → k ≤ i → readAt x k = readAt x (k + x.length - 1 - i) := by
  obtain ⟨hif, hfm, hwin⟩ := h.window hgi
  intro k hgk hki
  have hagree := hs.agree (i - k) (by omega) (by omega)
  rw [hwin k hgk (by omega)]
  rw [show i + x.length - 1 - f - (i - k) = k + x.length - 1 - f by omega,
    show (x.length : ℤ) - 1 - (i - k) = k + x.length - 1 - i by omega] at hagree
  exact hagree

/-- A turn that compares bytes. -/
theorem SuffixInv.extend (hi : 0 ≤ i) (hlast : i ≤ x.length - 2)
    (hagree : ∀ k, g < k → k ≤ i → readAt x k = readAt x (k + x.length - 1 - i)) :
    ∃ g', matchBack x x.length i (if i < g then i else g) = some g' ∧
      SuffixInv x i g' (i - 1) (suffixes.set i.toNat (some (i - g'))) := by
  have hlow := h.low
  obtain ⟨g', heq, hlow', hle, hagree', hdiffer⟩ :=
    matchBack_spec (x := x) (f := i) (g := if i < g then i else g) (by omega)
      (by split_ifs <;> omega) (by split_ifs <;> omega)
  have hall : ∀ k, g' < k → k ≤ i → readAt x k = readAt x (k + x.length - 1 - i) := by
    intro k h1 h2
    by_cases hk : k ≤ if i < g then i else g
    · exact hagree' k h1 hk
    · exact hagree k (by split_ifs at hk <;> omega) h2
  refine ⟨g', heq, h.write hi hlast ⟨?_, ?_, ?_, ?_⟩ hlow' ?_⟩
  · split_ifs at hle <;> omega
  · omega
  · intro l h0 hl
    rw [hall (i - l) (by omega) (by omega)]
    congr 1
    omega
  · intro hsi
    rw [show i - (i - g') = g' by omega,
      show (x.length : ℤ) - 1 - (i - g') = g' + x.length - 1 - i by omega]
    exact hdiffer (by omega)
  · intro _
    exact ⟨by omega, hlast, hall⟩

theorem suffixesLoop_spec (hlow : -1 ≤ i) (hlast : i ≤ x.length - 2) :
    ∃ suffixes', suffixesLoop x x.length f g i suffixes = some suffixes' ∧
      suffixes'.length = x.length ∧
      ∀ k : ℤ, 0 ≤ k → k < x.length → ∃ s, readAt suffixes' k = some (some s) ∧ IsSuffix x k s := by
  induction hn : (i + 1).toNat generalizing f g i suffixes with
  | zero =>
    rw [suffixesLoop, if_neg (by omega)]
    exact ⟨suffixes, rfl, h.length, fun k h0 hk => h.above k (by omega) hk⟩
  | succ n ih =>
    have h0 : 0 ≤ i := by omega
    have hextend : (∀ k, g < k → k ≤ i → readAt x k = readAt x (k + x.length - 1 - i)) →
        reused x.length f g i suffixes = some none →
        ∃ suffixes', suffixesLoop x x.length f g i suffixes = some suffixes' ∧
          suffixes'.length = x.length ∧
          ∀ k : ℤ, 0 ≤ k → k < x.length →
            ∃ s, readAt suffixes' k = some (some s) ∧ IsSuffix x k s := by
      intro hagree hreused
      obtain ⟨g', heq, hinv⟩ := h.extend h0 hlast hagree
      rw [suffixesLoop, if_pos h0, hreused]
      rw [heq]
      exact ih hinv (by omega) (by omega) (by omega)
    by_cases hgi : i > g
    · obtain ⟨hif, hfm, hwin⟩ := h.window hgi
      obtain ⟨s, hread, hs⟩ := h.above (i + x.length - 1 - f) (by omega) (by omega)
      have hreused : reused x.length f g i suffixes =
          some (if s < i - g then some s else none) := by
        rw [reused, if_pos hgi, hread]
        rfl
      by_cases hlt : s < i - g
      · rw [if_pos hlt] at hreused
        rw [suffixesLoop, if_pos h0, hreused]
        have hinv : SuffixInv x f g (i - 1) _ :=
          h.write h0 hlast (h.isSuffix_reused hgi hs hlt) h.low fun hg' => ⟨by omega, hfm, hwin⟩
        exact ih hinv (by omega) (by omega) (by omega)
      · rw [if_neg hlt] at hreused
        exact hextend (h.agree_reused hgi hs hlt) hreused
    · refine hextend (fun k h1 h2 => by omega) ?_
      rw [reused, if_neg hgi]

end

theorem toInt_of_lt {n : ℤ} (hlow : -2 ^ 31 ≤ n) (hlt : n < 2 ^ 31) : toInt n = n := by
  rw [toInt, Int.bmod_eq_of_le (by omega) (by omega)]

theorem computeSuffixes_spec (hx : x ≠ []) (hlen : x.length ≤ 2 ^ 31) :
    ∃ suffixes, computeSuffixes x = some suffixes ∧ suffixes.length = x.length ∧
      ∀ k : ℤ, 0 ≤ k → k < x.length → ∃ s, readAt suffixes k = some (some s) ∧ IsSuffix x k s := by
  have hpos : 0 < x.length := length_pos_iff.2 hx
  rw [computeSuffixes]
  rw [toInt_of_lt (by omega) (by omega), toInt_of_lt (by omega) (by omega)]
  refine suffixesLoop_spec ⟨?_, ?_, by omega, fun hlt => by omega⟩ (by omega) (Int.le_refl _)
  · rw [length_set, length_replicate]
  · intro k hk hlt
    have hlast : k = (x.length - 1 : ℕ) := by omega
    refine ⟨x.length, ?_, by omega, by omega, ?_, by intro h; omega⟩
    · rw [hlast, readAt_natCast, getElem?_set_self (by rw [length_replicate]; omega)]
    · intro l _ _
      congr 1
      omega

/-! ### Patterns that are too long -/

/-- The loop writes no element above its first one. -/
theorem suffixesLoop_frame {suffixes' : List (Option ℤ)} {k : ℤ} (hk : i < k)
    (h : suffixesLoop x m f g i suffixes = some suffixes') :
    readAt suffixes' k = readAt suffixes k := by
  induction hn : (i + 1).toNat generalizing f g i suffixes with
  | zero =>
    rw [suffixesLoop, if_neg (by omega)] at h
    rw [Option.some.inj h]
  | succ n ih =>
    have h0 : 0 ≤ i := by omega
    rw [suffixesLoop, if_pos h0] at h
    split at h
    · cases h
    · rw [ih (by omega) h (by omega), readAt_set_ne h0 (by omega)]
    · split at h
      · cases h
      · rw [ih (by omega) h (by omega), readAt_set_ne h0 (by omega)]

/-- The last element but one is not written. -/
theorem computeSuffixes_long (hlen : 2 ^ 31 < x.length) (h : computeSuffixes x = some suffixes) :
    suffixes[x.length - 2]?.join = none := by
  rw [computeSuffixes] at h
  have hle : toInt (x.length - 2) < 2 ^ 31 := Int.bmod_lt (by decide)
  by_cases heq : toInt (x.length - 2) = x.length - 2
  · -- here the first read is outside the array
    have hm : (x.length : ℤ) = 2 ^ 31 + 1 := by omega
    rw [suffixesLoop, if_pos (by omega), reused, if_pos, readAt, if_neg (by omega),
      getElem?_eq_none] at h
    · cases h
    · rw [length_set, length_replicate]
      omega
    · rw [hm]
      decide
  · have hframe := suffixesLoop_frame (k := x.length - 2) (by omega) h
    rw [show ((x.length : ℤ) - 2) = (x.length - 2 : ℕ) by omega, readAt_natCast, readAt_natCast,
      getElem?_set_ne (by omega), getElem?_replicate] at hframe
    rw [hframe]
    split_ifs <;> rfl

/-! ## Good shifts -/

/-- The pattern agrees with itself moved by `s`. -/
def Border (x : List Byte) (s : ℤ) : Prop :=
  ∀ k, s ≤ k → k < x.length → readAt x (k - s) = readAt x k

/-- Moved by `s`, the pattern has the bytes that have been compared behind a mismatch at `i`,
and another byte at the mismatch itself. -/
structure Compatible (x : List Byte) (i s : ℤ) : Prop where
  agree : ∀ k, i < k → k < x.length → s ≤ k → readAt x (k - s) = readAt x k
  differ : s ≤ i → readAt x (i - s) ≠ readAt x i

theorem IsSuffix.of_border (hv : IsSuffix x i v) (hs : i = x.length - 1 - s)
    (hborder : Border x s) : v = i + 1 := by
  have hle := hv.le
  by_contra hne
  refine hv.differ (by omega) ?_
  rw [← hborder (x.length - 1 - v) (by omega) (by have := hv.nonneg; omega)]
  congr 1
  omega

theorem IsSuffix.of_compatible (hv : IsSuffix x (x.length - 1 - s) v) (hs : s ≤ i)
    (hi : i < x.length) (hc : Compatible x i s) : v = x.length - 1 - i := by
  have hnonneg := hv.nonneg
  rcases Int.lt_trichotomy v (x.length - 1 - i) with hlt | heq | hgt
  · -- the bytes at `v` agree, so `v` is not the longest
    refine absurd ?_ (hv.differ (by omega))
    rw [← hc.agree (x.length - 1 - v) (by omega) (by omega) (by omega)]
    congr 1
    omega
  · exact heq
  · refine absurd ?_ (hc.differ hs)
    have hagree := hv.agree (x.length - 1 - i) (by omega) hgt
    rw [show (x.length : ℤ) - 1 - s - (x.length - 1 - i) = i - s by omega,
      show (x.length : ℤ) - 1 - (x.length - 1 - i) = i by omega] at hagree
    exact hagree

theorem fillLoop_spec (hlow : -1 ≤ i) (hm : goodshift.length = m) :
    ∃ j' goodshift', fillLoop m i j goodshift = some (j', goodshift') ∧
      goodshift'.length = goodshift.length ∧ (j' : ℤ) = max (j : ℤ) (m - 1 - i) ∧
      ∀ k : ℕ, goodshift'[k]? =
        if j ≤ k ∧ k < m - 1 - i ∧ goodshift[k]? = some m then some (m - 1 - i)
        else goodshift[k]? := by
  induction hn : (m - 1 - i - j).toNat generalizing j goodshift with
  | zero =>
    rw [fillLoop, if_neg (by omega)]
    refine ⟨j, goodshift, rfl, rfl, by omega, fun k => ?_⟩
    rw [if_neg (by omega)]
  | succ n ih =>
    have hj : j < goodshift.length := by omega
    rw [fillLoop, if_pos (by omega), getElem?_eq_getElem hj]
    dsimp only
    generalize hg : (if goodshift[j] = m then goodshift.set j (m - 1 - i) else goodshift) = g1
    have hlen : g1.length = goodshift.length := by
      rw [← hg]
      split_ifs
      · exact length_set
      · rfl
    obtain ⟨j', goodshift', heq, hlen', hj', hall⟩ := ih (j := j + 1) (hlen ▸ hm) (by omega)
    refine ⟨j', goodshift', heq, hlen'.trans hlen, by omega, fun k => ?_⟩
    rw [hall k, ← hg]
    by_cases hk : j = k
    · subst hk
      rw [if_neg (by omega)]
      split_ifs with h1 h2 h2
      · exact getElem?_set_self hj
      · exact absurd ⟨Nat.le_refl _, by omega, by rw [getElem?_eq_getElem hj, h1]⟩ h2
      · rw [getElem?_eq_getElem hj] at h2
        exact absurd (Option.some.inj h2.2.2) h1
      · rfl
    · have hset : (if goodshift[j] = m then goodshift.set j (m - 1 - i) else goodshift)[k]? =
          goodshift[k]? := by
        split_ifs
        · exact getElem?_set_ne hk
        · rfl
      rw [hset]
      congr 1
      rw [eq_iff_iff]
      constructor
      · intro h
        exact ⟨by omega, h.2⟩
      · intro h
        exact ⟨by omega, h.2⟩

/-- The table after the turns down to `i = n` of the first loop. -/
structure BorderInv (x : List Byte) (n j : ℕ) (goodshift : List ℤ) : Prop where
  length : goodshift.length = x.length
  le : j ≤ x.length - n
  borders : ∀ s : ℤ, s ≤ x.length - 1 - n → Border x s → s ≤ j
  values : ∀ k, k < x.length → ∃ v, goodshift[k]? = some v ∧ 1 ≤ v ∧ v ≤ x.length ∧
    (k < j → v ≤ j) ∧ (j ≤ k → v = x.length) ∧
    ∀ s : ℤ, s ≤ x.length - 1 - n → Border x s → k < s → v ≤ s

/-- A turn for a border. -/
theorem BorderInv.fill {j' : ℕ} {goodshift' : List ℤ} (h : BorderInv x (n + 1) j goodshift)
    (hn : n < x.length) (hlen : goodshift'.length = goodshift.length)
    (hj' : (j' : ℤ) = max (j : ℤ) (x.length - 1 - n)) (hall : ∀ k : ℕ, goodshift'[k]? =
      if j ≤ k ∧ k < (x.length : ℤ) - 1 - n ∧ goodshift[k]? = some (x.length : ℤ) then
        some ((x.length : ℤ) - 1 - n) else goodshift[k]?) : BorderInv x n j' goodshift' := by
  have hle := h.le
  refine ⟨hlen.trans h.length, by omega, fun s hs _ => by omega, fun k hk => ?_⟩
  obtain ⟨v, hv, h1, hm, hbelow, habove, hborders⟩ := h.values k hk
  rw [hall k, hv]
  by_cases hkj : k < j
  · rw [if_neg (by omega)]
    refine ⟨v, rfl, h1, hm, fun _ => by have := hbelow hkj; omega, fun hge => by omega, ?_⟩
    intro s hs hborder hks
    by_cases hsn : s ≤ x.length - 1 - (n + 1 : ℕ)
    · exact hborders s hsn hborder hks
    · omega
  · have hvm := habove (by omega)
    by_cases hkn : (k : ℤ) < x.length - 1 - n
    · rw [if_pos ⟨by omega, hkn, by rw [hvm]⟩]
      refine ⟨_, rfl, by omega, by omega, fun _ => by omega, fun hge => by omega, ?_⟩
      intro s hs hborder hks
      by_cases hsn : s ≤ x.length - 1 - (n + 1 : ℕ)
      · have := h.borders s hsn hborder
        omega
      · omega
    · rw [if_neg (by omega)]
      refine ⟨v, rfl, h1, hm, fun _ => by omega, fun _ => hvm, fun s hs _ hks => by omega⟩

/-- A turn for a place without a border. -/
theorem BorderInv.skip (h : BorderInv x (n + 1) j goodshift) (hn : ¬ Border x (x.length - 1 - n)) :
    BorderInv x n j goodshift := by
  have hle := h.le
  have hold : ∀ s : ℤ, s ≤ x.length - 1 - n → Border x s → s ≤ x.length - 1 - (n + 1 : ℕ) := by
    intro s hs hborder
    by_contra hgt
    have heq : s = x.length - 1 - n := by omega
    exact hn (heq ▸ hborder)
  refine ⟨h.length, by omega, fun s hs hb => h.borders s (hold s hs hb) hb, fun k hk => ?_⟩
  obtain ⟨v, hv, h1, hm, hbelow, habove, hborders⟩ := h.values k hk
  exact ⟨v, hv, h1, hm, hbelow, habove, fun s hs hb => hborders s (hold s hs hb) hb⟩

/-- A right table of suffixes. -/
def SuffixTable (x : List Byte) (suffixes : List (Option ℤ)) : Prop :=
  ∀ k : ℕ, k < x.length → ∃ s, suffixes[k]? = some (some s) ∧ IsSuffix x k s

theorem borderLoop_spec (hsuf : SuffixTable x suffixes) (hn : n ≤ x.length)
    (h : BorderInv x n j goodshift) :
    ∃ goodshift', borderLoop x.length suffixes n j goodshift = some goodshift' ∧
      goodshift'.length = x.length ∧
      ∀ k : ℕ, k < x.length → ∃ v, goodshift'[k]? = some v ∧ 1 ≤ v ∧
        ∀ s, Border x s → k < s → v ≤ s := by
  induction n generalizing j goodshift with
  | zero =>
    obtain ⟨j', goodshift', heq, hlen, -, hall⟩ :=
      fillLoop_spec (m := x.length) (i := -1) (j := j) (by omega) (by rw [h.length])
    refine ⟨goodshift', ?_, hlen.trans h.length, fun k hk => ?_⟩
    · rw [borderLoop, heq]
      rfl
    · obtain ⟨v, hv, h1, hm, -, -, hborders⟩ := h.values k hk
      -- the last turn writes the length again
      have hsame : goodshift'[k]? = some v := by
        rw [hall k, hv]
        split_ifs with hcond
        · rw [hcond.2.2]
          congr 1
          omega
        · rfl
      refine ⟨v, hsame, h1, fun s hb hks => ?_⟩
      by_cases hs : s ≤ x.length - 1 - (0 : ℕ)
      · exact hborders s hs hb hks
      · omega
  | succ n ih =>
    obtain ⟨s, hs, hsuffix⟩ := hsuf n (by omega)
    rw [borderLoop, hs]
    simp only [Option.join_some]
    split_ifs with heq
    · obtain ⟨j', goodshift', hfill, hlen, hj', hall⟩ :=
        fillLoop_spec (m := x.length) (i := n) (j := j) (by omega) (by rw [h.length])
      rw [hfill]
      exact ih (by omega) (h.fill (by omega) hlen hj' hall)
    · refine ih (by omega) (h.skip fun hborder => heq ?_)
      exact hsuffix.of_border (by omega) hborder

/-- The second loop: a place that is written again gets a smaller shift. -/
theorem innerLoop_spec (hsuf : SuffixTable x suffixes) (hlen : goodshift.length = x.length)
    (hvalues : ∀ k : ℕ, k < x.length → ∃ v, goodshift[k]? = some v ∧ 1 ≤ v ∧
      (∀ s, Border x s → k < s → v ≤ s) ∧
      ∀ i : ℕ, i < n → i ≤ (x.length : ℤ) - 2 → IsSuffix x i (x.length - 1 - k) →
        v ≤ x.length - 1 - i) :
    ∃ goodshift', innerLoop x.length suffixes n goodshift = some goodshift' ∧
      ∀ k : ℕ, k < x.length → ∃ v, goodshift'[k]? = some v ∧ 1 ≤ v ∧
        (∀ s, Border x s → k < s → v ≤ s) ∧
        ∀ i : ℕ, i ≤ (x.length : ℤ) - 2 → IsSuffix x i (x.length - 1 - k) →
          v ≤ x.length - 1 - i := by
  induction hn : ((x.length : ℤ) - 1 - n).toNat generalizing n goodshift with
  | zero =>
    rw [innerLoop, if_neg (by omega)]
    refine ⟨goodshift, rfl, fun k hk => ?_⟩
    obtain ⟨v, hv, h1, hborders, hinner⟩ := hvalues k hk
    exact ⟨v, hv, h1, hborders, fun i hi => hinner i (by omega) hi⟩
  | succ d ih =>
    obtain ⟨s, hs, hsuffix⟩ := hsuf n (by omega)
    have hnonneg := hsuffix.nonneg
    have hle := hsuffix.le
    rw [innerLoop, if_pos (by omega), hs]
    simp only [Option.join_some]
    rw [writeAt, if_neg (by omega)]
    refine ih (by rw [length_set, hlen]) (fun k hk => ?_) (by omega)
    obtain ⟨v, hv, h1, hborders, hinner⟩ := hvalues k hk
    by_cases hks : ((x.length : ℤ) - 1 - s).toNat = k
    · rw [hks, getElem?_set_self (by omega)]
      refine ⟨_, rfl, by omega, fun s' _ hlt => by omega, fun i hi _ _ => by omega⟩
    · rw [getElem?_set_ne hks]
      refine ⟨v, hv, h1, hborders, fun i hi hi' hsuf' => ?_⟩
      by_cases hin : i = n
      · -- the value for `n` was written elsewhere
        subst hin
        exact absurd (hsuf'.unique hsuffix) (by omega)
      · exact hinner i (by omega) hi' hsuf'

/-- For every place of a mismatch there is a positive shift, and no smaller one agrees with
what has been compared. -/
theorem computeGoodshifts_spec (hx : x ≠ []) (hlen : x.length ≤ 2 ^ 31) :
    ∃ goodshift, computeGoodshifts x = some goodshift ∧
      ∀ i : ℕ, i < x.length → ∃ v, goodshift[i]? = some v ∧ 1 ≤ v ∧
        ∀ s, 0 < s → Compatible x i s → v ≤ s := by
  obtain ⟨suffixes, hsuffixes, hlen', hread⟩ := computeSuffixes_spec hx hlen
  have hsuf : SuffixTable x suffixes := by
    intro k hk
    obtain ⟨s, hs, hsuffix⟩ := hread k (by omega) (by omega)
    exact ⟨s, by rw [← hs, readAt_natCast], hsuffix⟩
  have hstart : BorderInv x x.length 0 (replicate x.length (x.length : ℤ)) := by
    refine ⟨length_replicate, by omega, fun s hs _ => by omega, fun k hk => ?_⟩
    refine ⟨x.length, ?_, by omega, by omega, fun h => by omega, fun _ => rfl,
      fun s hs _ h => by omega⟩
    rw [getElem?_replicate, if_pos hk]
  obtain ⟨g1, hg1, hlen1, hvalues1⟩ := borderLoop_spec hsuf (Nat.le_refl _) hstart
  obtain ⟨g2, hg2, hvalues2⟩ := innerLoop_spec hsuf (n := 0) hlen1 (by
    intro k hk
    obtain ⟨v, hv, h1, hborders⟩ := hvalues1 k hk
    exact ⟨v, hv, h1, hborders, fun i hi => by omega⟩)
  refine ⟨g2, by rw [computeGoodshifts, hsuffixes]; dsimp only; rw [hg1]; exact hg2, ?_⟩
  intro i hi
  obtain ⟨v, hv, h1, hborders, hinner⟩ := hvalues2 i hi
  refine ⟨v, hv, h1, fun s hs hc => ?_⟩
  by_cases hsi : s ≤ i
  · -- the shift is that of an inner place with the same suffix
    obtain ⟨s', -, hsuffix⟩ := hsuf (x.length - 1 - s).toNat (by omega)
    rw [show (((x.length : ℤ) - 1 - s).toNat : ℤ) = x.length - 1 - s by omega] at hsuffix
    have heq := hsuffix.of_compatible hsi (by omega) hc
    have := hinner ((x.length : ℤ) - 1 - s).toNat (by omega)
      (by rw [show (((x.length : ℤ) - 1 - s).toNat : ℤ) = x.length - 1 - s by omega, ← heq]
          exact hsuffix)
    omega
  · exact hborders s (fun k h1 h2 => hc.agree k (by omega) h2 h1) (by omega)

theorem borderLoop_none {k : ℕ} (hk : suffixes[k]?.join = none) (hkn : k < n) (j : ℕ)
    (goodshift : List ℤ) : borderLoop m suffixes n j goodshift = none := by
  induction n generalizing j goodshift with
  | zero => omega
  | succ n ih =>
    rw [borderLoop]
    by_cases hkn' : k = n
    · rw [← hkn', hk]
    · split
      · rfl
      · split_ifs
        · split
          · rfl
          · exact ih (by omega) _ _
        · exact ih (by omega) _ _

theorem computeGoodshifts_long (hlen : 2 ^ 31 < x.length) : computeGoodshifts x = none := by
  rw [computeGoodshifts]
  cases h : computeSuffixes x with
  | none => rfl
  | some suffixes =>
    dsimp only
    rw [borderLoop_none (computeSuffixes_long hlen h) (by omega)]

/-! ## Bad shifts -/

theorem badshift_foldl (c : Byte) (l : List Byte) (n : ℕ) (badshift : List ℤ)
    (hv : badshift[c.toNat]? = some v) (hn : m - n - 1 ≤ v) :
    ∃ v', ((l.zipIdx n).foldl (fun badshift xi => badshift.set xi.1.toNat (m - xi.2 - 1))
        badshift)[c.toNat]? = some v' ∧ v' ≤ v ∧
      ∀ p : ℕ, l[p]? = some c → v' ≤ m - (n + p : ℕ) - 1 := by
  induction l generalizing n badshift v with
  | nil => exact ⟨v, hv, Int.le_refl _, fun p hp => by cases hp⟩
  | cons b l ih =>
    by_cases hbc : b = c
    · subst hbc
      have hlt : b.toNat < badshift.length := (List.getElem?_eq_some_iff.1 hv).1
      obtain ⟨v', hv', hle, hall⟩ := ih (n + 1) (badshift.set b.toNat (m - n - 1))
        (List.getElem?_set_self hlt) (by omega)
      refine ⟨v', hv', by omega, fun p hp => ?_⟩
      cases p with
      | zero => exact hle
      | succ p =>
        have := hall p hp
        omega
    · have hne : b.toNat ≠ c.toNat := fun h => hbc (UInt8.toNat.inj h)
      obtain ⟨v', hv', hle, hall⟩ := ih (n + 1) (badshift.set b.toNat (m - n - 1))
        (by rw [getElem?_set_ne hne, hv]) (by omega)
      refine ⟨v', hv', hle, fun p hp => ?_⟩
      cases p with
      | zero => exact absurd (Option.some.inj hp) hbc
      | succ p =>
        have := hall p hp
        omega

theorem computeBadshifts_spec (x : List Byte) (c : Byte) :
    ∃ v, (computeBadshifts x)[c.toNat]? = some v ∧ v ≤ x.length ∧
      ∀ p : ℕ, p + 1 < x.length → x[p]? = some c → v ≤ x.length - p - 1 := by
  have hlt : c.toNat < alphabetSize := c.toNat_lt
  obtain ⟨v, hv, hle, hall⟩ := badshift_foldl (m := x.length) c x.dropLast 0
    (replicate alphabetSize (x.length : ℤ)) (v := x.length)
    (by rw [getElem?_replicate, if_pos hlt]) (by omega)
  refine ⟨v, hv, hle, fun p hp hpc => ?_⟩
  have := hall p (by rw [getElem?_dropLast, if_pos (by omega), hpc])
  omega

end Otp.Erts.BinarySearch
