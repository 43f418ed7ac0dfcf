import Otp.Erts.DbHash.Chains
import Otp.Erts.DbHash.Slots
import Otp.Erts.DbHash.Split

/-!
# Growing and shrinking

What holds of a table between two operations: its numbers fit together, every
term stands in the chain of the slot of its hash value, and pseudo deleted terms
are found only in a fixed table, in slots that are recorded for the purge. A new
bucket takes its terms from one other bucket, and a bucket that goes gives them
back to that one; no key changes its objects by it.
-/

namespace Otp.Erts.DbHash

open Otp.Lib List Function

variable {κ ω : Type*} {K : Keying κ ω} {tb : DbTableHash ω} {m n h : ℕ}

/-! ## The invariant of a table -/

/-- The numbers of a table fit together. -/
structure Sized (tb : DbTableHash ω) : Prop where
  mask : ∃ m, tb.Masked m
  slots : tb.nactive ≤ tb.nslots ∧ tb.nslots < tb.nactive + extSegsz
  locked : tb.Locked
  limit : tb.shrinkLimit ≠ 0 →
    tb.nlocks + extSegsz ≤ tb.nslots ∧ firstSegsz + 2 * extSegsz ≤ tb.nslots

/-- The terms of a table stand where they belong. -/
structure Stored (K : Keying κ ω) (tb : DbTableHash ω) : Prop where
  chains : ∀ ix < tb.nactive, ChainOk K tb.type (tb.bucket ix)
  placed : ∀ ix < tb.nactive, ∀ t ∈ tb.bucket ix, tb.hashToIx t.hvalue = ix
  pseudo : ∀ ix < tb.nactive, ∀ t ∈ tb.bucket ix, t.pseudoDeleted = true →
    tb.isFixed = true ∧ ∃ d ∈ tb.fixdel, ix ∈ d.slots

/-- A table between two operations. -/
structure TableOk (K : Keying κ ω) (tb : DbTableHash ω) : Prop where
  sized : Sized tb
  stored : Stored K tb

theorem Sized.hashToIx_lt (h : Sized tb) (hval : ℕ) : tb.hashToIx hval < tb.nactive := by
  obtain ⟨m, hm⟩ := h.mask
  exact hm.hashToIx_lt hval

/-- The live objects of a key in the table. -/
def objectsOf [DecidableEq κ] (K : Keying κ ω) (tb : DbTableHash ω) (k : κ) : List ω :=
  liveObjects K k (tb.bucket (tb.hashToIx (K.makeHash k)))

/-- A table in order, with the type and the objects of `tb`. -/
structure Keeps [DecidableEq κ] (K : Keying κ ω) (tb tb' : DbTableHash ω) : Prop where
  ok : TableOk K tb'
  type : tb'.type = tb.type
  objects : ∀ k, objectsOf K tb' k = objectsOf K tb k

theorem TableOk.keeps [DecidableEq κ] (h : TableOk K tb) : Keeps K tb tb := ⟨h, rfl, fun _ => rfl⟩

theorem Keeps.trans [DecidableEq κ] {tb₁ tb₂ : DbTableHash ω} (h : Keeps K tb tb₁)
    (h' : Keeps K tb₁ tb₂) : Keeps K tb tb₂ :=
  ⟨h'.ok, h'.type.trans h.type, fun k => (h'.objects k).trans (h.objects k)⟩

theorem Stored.live_of_not_fixed (h : Stored K tb) (hf : tb.isFixed = false) {ix : ℕ}
    (hix : ix < tb.nactive) {t : HashDbTerm ω} (ht : t ∈ tb.bucket ix) :
    t.pseudoDeleted = false := by
  by_contra hpd
  have := (h.pseudo ix hix t ht (by simpa using hpd)).1
  rw [hf] at this
  cases this

section Chains

variable [DecidableEq κ] {chain : List (HashDbTerm ω)} {k : κ}

/-- Terms of other keys do not count. -/
theorem liveObjects_filter {p : HashDbTerm ω → Bool}
    (h : ∀ t ∈ chain, K.key t.obj = k → p t = true) :
    liveObjects K k (chain.filter p) = liveObjects K k chain := by
  unfold liveObjects
  rw [filter_filter]
  congr 1
  refine filter_congr ?_
  intro t ht
  by_cases hk : K.key t.obj = k
  · simp [hk, h t ht hk]
  · simp [hk]

theorem liveObjects_eq_nil (h : ∀ t ∈ chain, K.key t.obj ≠ k) : liveObjects K k chain = [] := by
  unfold liveObjects
  rw [filter_eq_nil_iff.mpr (by simpa using h)]
  rfl

theorem liveObjects_append (C D : List (HashDbTerm ω)) :
    liveObjects K k (C ++ D) = liveObjects K k D ++ liveObjects K k C := by
  simp [liveObjects, buildTermList]

end Chains

/-! ## Growing -/

theorem shiftLeft_or_one_mask (m : ℕ) : ((2 ^ m - 1) <<< 1) ||| 1 = 2 ^ (m + 1) - 1 := by
  have hpos := Nat.two_pow_pos m
  rw [← Nat.shiftLeft_add_eq_or_of_lt (by norm_num), Nat.shiftLeft_eq]
  omega

/-- The number of bits that hold one more slot. -/
def growBits (m n : ℕ) : ℕ := if n < 2 ^ m then m else m + 1

section GrowBits

variable {m n : ℕ}

theorem MaskFits.growBits_low (h : MaskFits m n) : 2 ^ (growBits m n - 1) ≤ n := by
  have hpow := two_pow_pred h.pos
  have hlow := h.low
  unfold growBits
  split_ifs with hn
  · omega
  · rw [Nat.add_sub_cancel]
    omega

theorem MaskFits.growBits_high (h : MaskFits m n) : n < 2 ^ growBits m n := by
  have hhigh := h.high
  have hpos := Nat.two_pow_pos m
  unfold growBits
  split_ifs with hn
  · exact hn
  · omega

theorem MaskFits.growBits_pos (h : MaskFits m n) : 0 < growBits m n := by
  have := h.pos
  unfold growBits
  split_ifs <;> omega

theorem MaskFits.grow (h : MaskFits m n) : MaskFits (growBits m n) (n + 1) := by
  have hlow := h.growBits_low
  have hpow := two_pow_pred h.growBits_pos
  have hhigh := h.growBits_high
  exact ⟨h.growBits_pos, by omega, by omega⟩

theorem MaskFits.slotOf_growBits (h : MaskFits m n) (hval : ℕ) :
    slotOf (growBits m n) n hval = slotOf m n hval := by
  unfold growBits
  split_ifs with hn
  · rfl
  · obtain rfl : n = 2 ^ m := by
      have := h.high
      omega
    exact slotOf_succ_of_full m hval

end GrowBits

/-- The table after its slots suffice for one more bucket. -/
def withSlot (tb : DbTableHash ω) : DbTableHash ω :=
  if tb.nactive = tb.nslots then tb.allocSeg false else tb

theorem withSlot_eq (tb : DbTableHash ω) :
    (withSlot tb).type = tb.type ∧ (withSlot tb).szm = tb.szm ∧
      (withSlot tb).nactive = tb.nactive ∧ (withSlot tb).nlocks = tb.nlocks ∧
      (withSlot tb).bucket = tb.bucket := by
  unfold withSlot
  split_ifs <;> exact ⟨rfl, rfl, rfl, rfl, rfl⟩

theorem calcShrinkLimit_limit (tb : DbTableHash ω) (h : tb.calcShrinkLimit.shrinkLimit ≠ 0) :
    tb.nlocks + extSegsz ≤ tb.nslots ∧ firstSegsz + 2 * extSegsz ≤ tb.nslots := by
  unfold DbTableHash.calcShrinkLimit at h
  dsimp only at h
  split_ifs at h with hc
  · exact ⟨(Nat.max_le.mp hc.2).1, (Nat.max_le.mp hc.2).2⟩
  · exact absurd rfl h

theorem withSlot_slots (h : Sized tb) :
    tb.nactive < (withSlot tb).nslots ∧ (withSlot tb).nslots ≤ tb.nactive + extSegsz ∧
      ((withSlot tb).shrinkLimit ≠ 0 → tb.nlocks + extSegsz ≤ (withSlot tb).nslots ∧
        firstSegsz + 2 * extSegsz ≤ (withSlot tb).nslots) := by
  obtain ⟨hle, hlt⟩ := h.slots
  unfold withSlot
  split_ifs with heq
  · refine ⟨?_, ?_, ?_⟩
    · show tb.nactive < tb.nslots + extSegsz
      omega
    · show tb.nslots + extSegsz ≤ tb.nactive + extSegsz
      omega
    · intro hl
      exact calcShrinkLimit_limit { tb with nslots := tb.nslots + extSegsz } hl
  · exact ⟨by omega, by omega, h.limit⟩

/-- The bucket a new one takes its terms from. -/
def growFrom (m n : ℕ) : ℕ := n % 2 ^ (growBits m n - 1)

theorem MaskFits.growFrom_eq (h : MaskFits m n) : growFrom m n = n - 2 ^ (growBits m n - 1) := by
  have hpow := two_pow_pred h.growBits_pos
  have hhigh := h.growBits_high
  unfold growFrom
  rw [Nat.mod_eq_sub_mod h.growBits_low, Nat.mod_eq_of_lt (by omega)]

theorem MaskFits.growFrom_lt (h : MaskFits m n) : growFrom m n < n := by
  have hpos := Nat.two_pow_pos (growBits m n - 1)
  have hlow := h.growBits_low
  rw [h.growFrom_eq]
  omega

/-- A new bucket in terms of the mask. -/
theorem growStep_eq (hm : tb.Masked m) :
    growStep tb =
      let bits := growBits m tb.nactive
      let chains := splitChain (tb.bucket (growFrom m tb.nactive)) (2 ^ bits - 1)
        (growFrom m tb.nactive)
      { withSlot tb with
        nactive := tb.nactive + 1
        szm := 2 ^ bits - 1
        bucket := update
          (update tb.bucket (growFrom m tb.nactive) chains.1) tb.nactive chains.2 } := by
  obtain ⟨hszm, hfit⟩ := hm
  obtain ⟨-, hs, hn, -, hb⟩ := withSlot_eq tb
  have hpos := Nat.two_pow_pos m
  have hfrom : (if (withSlot tb).nactive ≤ (withSlot tb).szm then
      (withSlot tb).nactive &&& ((withSlot tb).szm >>> 1) else 0) = growFrom m tb.nactive := by
    rw [hn, hs, hszm, shiftRight_one_mask, Nat.and_two_pow_sub_one_eq_mod]
    unfold growFrom growBits
    split_ifs with h₁ h₂ h₂
    · rfl
    · omega
    · omega
    · obtain heq : tb.nactive = 2 ^ m := by
        have := hfit.high
        omega
      rw [heq, Nat.add_sub_cancel, Nat.mod_self]
  have hbits : (if (withSlot tb).nactive ≤ (withSlot tb).szm then (withSlot tb).szm
      else ((withSlot tb).szm <<< 1) ||| 1) = 2 ^ growBits m tb.nactive - 1 := by
    rw [hs, hszm, shiftLeft_or_one_mask]
    unfold growBits
    split_ifs <;> first | rfl | omega
  have hnew : (if growFrom m tb.nactive = 0 then 2 ^ growBits m tb.nactive - 1
      else (withSlot tb).szm) = 2 ^ growBits m tb.nactive - 1 := by
    split_ifs with h
    · rfl
    · -- only a power of two needs a wider mask, and it takes from the first bucket
      have hlt : tb.nactive < 2 ^ m := by
        by_contra hge
        apply h
        have heq : tb.nactive = 2 ^ m := by
          have := hfit.high
          omega
        unfold growFrom growBits
        rw [if_neg hge, heq, Nat.add_sub_cancel, Nat.mod_self]
      rw [hs, hszm, growBits, if_pos hlt]
  have hslot : (if tb.nactive = tb.nslots then tb.allocSeg false else tb) = withSlot tb := rfl
  unfold growStep
  dsimp only [DbTableHash.setBucket]
  rw [hslot, hfrom, hbits, hnew, hn, hb]

section

variable (hm : tb.Masked m)

include hm

/-- The slot of a hash value in the table with one bucket more. -/
theorem hashToIx_growStep (h : ℕ) :
    (growStep tb).hashToIx h =
      if h % 2 ^ growBits m tb.nactive = tb.nactive then tb.nactive else tb.hashToIx h := by
  have hmask : (growStep tb).Masked (growBits m tb.nactive) := by
    rw [growStep_eq hm]
    exact ⟨rfl, hm.2.grow⟩
  have hn : (growStep tb).nactive = tb.nactive + 1 := by rw [growStep_eq hm]
  rw [hmask.hashToIx_eq, hn, slotOf_succ hm.2.growBits_low, hm.2.slotOf_growBits, hm.hashToIx_eq]

/-- The hash values of the split bucket go to one of the two buckets. -/
theorem mod_of_hashToIx_eq :
    tb.hashToIx h = growFrom m tb.nactive ↔
      h % 2 ^ growBits m tb.nactive = growFrom m tb.nactive ∨
        h % 2 ^ growBits m tb.nactive = tb.nactive := by
  rw [hm.hashToIx_eq, ← hm.2.slotOf_growBits]
  exact mod_eq_of_slotOf hm.2.growBits_pos hm.2.growBits_low hm.2.growBits_high

omit hm in
theorem Sized.growStep (h : Sized tb) : Sized (growStep tb) := by
  obtain ⟨m, hm⟩ := h.mask
  obtain ⟨-, -, -, hl, -⟩ := withSlot_eq tb
  obtain ⟨hlt, hle, hlim⟩ := withSlot_slots h
  rw [growStep_eq hm]
  refine ⟨⟨growBits m tb.nactive, rfl, hm.2.grow⟩, ⟨hlt, ?_⟩, ⟨?_, ?_⟩, ?_⟩
  · show (withSlot tb).nslots < tb.nactive + 1 + extSegsz
    omega
  · show ∃ l, (withSlot tb).nlocks = 2 ^ l
    rw [hl]
    exact h.locked.1
  · show (withSlot tb).nlocks ≤ tb.nactive + 1
    rw [hl]
    exact Nat.le_succ_of_le h.locked.2
  · show (withSlot tb).shrinkLimit ≠ 0 → (withSlot tb).nlocks + extSegsz ≤ (withSlot tb).nslots ∧ _
    rw [hl]
    exact hlim

/-- The chains of a table with one bucket more. -/
theorem bucket_growStep (hs : Stored K tb) (ix : ℕ) :
    (growStep tb).bucket ix =
      if ix = tb.nactive then
        (tb.bucket (growFrom m tb.nactive)).filter fun t =>
          !t.pseudoDeleted && (t.hvalue % 2 ^ growBits m tb.nactive == tb.nactive)
      else if ix = growFrom m tb.nactive then
        (tb.bucket (growFrom m tb.nactive)).filter fun t =>
          !t.pseudoDeleted && (t.hvalue % 2 ^ growBits m tb.nactive == growFrom m tb.nactive)
      else tb.bucket ix := by
  have hlt := hm.2.growFrom_lt
  have hslots : ∀ t ∈ tb.bucket (growFrom m tb.nactive),
      t.hvalue &&& (2 ^ growBits m tb.nactive - 1) = growFrom m tb.nactive ∨
        t.hvalue &&& (2 ^ growBits m tb.nactive - 1) = tb.nactive := by
    intro t ht
    rw [Nat.and_two_pow_sub_one_eq_mod]
    exact (mod_of_hashToIx_eq hm).mp (hs.placed _ hlt t ht)
  have hsplit := splitChain_eq (Nat.ne_of_lt hlt) hslots
  simp only [Nat.and_two_pow_sub_one_eq_mod] at hsplit
  rw [growStep_eq hm]
  dsimp only
  rw [hsplit]
  by_cases h₁ : ix = tb.nactive
  · rw [h₁, update_self, if_pos rfl]
  · rw [update_of_ne h₁, if_neg h₁]
    by_cases h₂ : ix = growFrom m tb.nactive
    · rw [h₂, update_self, if_pos rfl]
    · rw [update_of_ne h₂, if_neg h₂]

theorem growStep_type : (growStep tb).type = tb.type := by
  rw [growStep_eq hm]
  exact (withSlot_eq tb).1

theorem growStep_nactive : (growStep tb).nactive = tb.nactive + 1 := by
  rw [growStep_eq hm]

end

/-- **A new bucket.** The table stays in order and no key changes its objects. -/
theorem TableOk.growStep [DecidableEq κ] (h : TableOk K tb) (hf : tb.isFixed = false) :
    Keeps K tb (growStep tb) := by
  obtain ⟨m, hm⟩ := h.sized.mask
  have hlt := hm.2.growFrom_lt
  have hbucket := bucket_growStep hm h.stored
  -- every term of a new chain was a term of an old one
  have hold : ∀ ix < tb.nactive + 1, ∃ ix' < tb.nactive,
      ((DbHash.growStep tb).bucket ix).Sublist (tb.bucket ix') := by
    intro ix hix
    rw [hbucket]
    split_ifs with h₁ h₂
    · exact ⟨_, hlt, filter_sublist⟩
    · exact ⟨_, hlt, filter_sublist⟩
    · exact ⟨ix, by omega, List.Sublist.refl _⟩
  refine ⟨⟨h.sized.growStep, ?_, ?_, ?_⟩, growStep_type hm, ?_⟩
  · intro ix hix
    rw [growStep_nactive hm] at hix
    obtain ⟨ix', hix', hsub⟩ := hold ix hix
    rw [growStep_type hm]
    exact (h.stored.chains ix' hix').sublist hsub
  · intro ix hix t ht
    rw [growStep_nactive hm] at hix
    rw [hashToIx_growStep hm]
    rw [hbucket] at ht
    split_ifs at ht with h₁ h₂
    · have := (mem_filter.mp ht).2
      simp only [Bool.and_eq_true, beq_iff_eq] at this
      rw [if_pos this.2, h₁]
    · obtain ⟨ht, hp⟩ := mem_filter.mp ht
      simp only [Bool.and_eq_true, beq_iff_eq] at hp
      rw [if_neg (by omega), h.stored.placed _ hlt t ht, h₂]
    · have hp := h.stored.placed ix (by omega) t ht
      rw [if_neg, hp]
      intro hmod
      exact h₂ (hp.symm.trans ((mod_of_hashToIx_eq hm).mpr (.inr hmod)))
  · intro ix hix t ht hpd
    rw [growStep_nactive hm] at hix
    obtain ⟨ix', hix', hsub⟩ := hold ix hix
    have := h.stored.live_of_not_fixed hf hix' (hsub.subset ht)
    rw [hpd] at this
    cases this
  · intro k
    unfold objectsOf
    rw [hashToIx_growStep hm, hbucket]
    -- the terms of the key stand in the split bucket, or not at all
    have hkey : ∀ t ∈ tb.bucket (growFrom m tb.nactive), K.key t.obj = k →
        t.hvalue = K.makeHash k ∧ t.pseudoDeleted = false := by
      intro t ht hk
      refine ⟨?_, h.stored.live_of_not_fixed hf hlt ht⟩
      rw [(h.stored.chains _ hlt).hashed t ht, hk]
    by_cases h₁ : K.makeHash k % 2 ^ growBits m tb.nactive = tb.nactive
    · rw [if_pos h₁, if_pos rfl, (mod_of_hashToIx_eq hm).mpr (.inr h₁), liveObjects_filter]
      intro t ht hk
      simp [hkey t ht hk, h₁]
    · rw [if_neg h₁, if_neg (Nat.ne_of_lt (hm.hashToIx_lt _))]
      by_cases h₂ : tb.hashToIx (K.makeHash k) = growFrom m tb.nactive
      · have hmod := ((mod_of_hashToIx_eq hm).mp h₂).resolve_right h₁
        rw [if_pos h₂, h₂, liveObjects_filter]
        intro t ht hk
        simp [hkey t ht hk, hmod]
      · rw [if_neg h₂]

/-! ## Shrinking -/

theorem joinChains_eq (C D : List (HashDbTerm ω)) :
    joinChains C D = C.filter (fun t => !t.pseudoDeleted) ++ D := by
  induction C with
  | nil => rfl
  | cons b C ih =>
    unfold joinChains
    cases hb : b.pseudoDeleted <;> simp [ih, hb]

/-- The number of bits once the last slot is gone. -/
def shrinkBits (m n : ℕ) : ℕ := if n = 2 ^ (m - 1) then m - 1 else m

section ShrinkBits

variable {m n : ℕ}

theorem MaskFits.shrink (h : MaskFits m (n + 1)) (hn : 1 < n) : MaskFits (shrinkBits m n) n := by
  have hpow := two_pow_pred h.pos
  have hlow := h.low
  have hhigh := h.high
  unfold shrinkBits
  split_ifs with heq
  · refine ⟨?_, by omega, by omega⟩
    by_contra hm
    rw [Nat.eq_zero_of_not_pos hm] at heq
    omega
  · exact ⟨h.pos, by omega, by omega⟩

theorem MaskFits.growBits_shrinkBits (h : MaskFits m (n + 1)) :
    growBits (shrinkBits m n) n = m := by
  have hpos := h.pos
  have hhigh := h.high
  unfold growBits shrinkBits
  split_ifs <;> omega

/-- The slot that takes the terms of the last one is the one it once was split from. -/
theorem MaskFits.growFrom_shrinkBits (h : MaskFits m (n + 1)) :
    growFrom (shrinkBits m n) n = n % 2 ^ (m - 1) := by
  unfold growFrom
  rw [h.growBits_shrinkBits]

theorem MaskFits.slotOf_shrink (h : MaskFits m (n + 1)) (hn : 1 < n) (hval : ℕ) :
    slotOf m (n + 1) hval = if hval % 2 ^ m = n then n else slotOf (shrinkBits m n) n hval := by
  have hpow := two_pow_pred h.pos
  have hlow := h.low
  rw [slotOf_succ (by omega), ← (h.shrink hn).slotOf_growBits, h.growBits_shrinkBits]

end ShrinkBits

/-- The table with the slots that one bucket less needs. -/
def withoutSlot (tb : DbTableHash ω) : DbTableHash ω :=
  if extSegsz ≤ tb.nslots - (tb.nactive - 1) then
    { tb with nslots := tb.nslots - extSegsz }.calcShrinkLimit
  else tb

theorem withoutSlot_eq (tb : DbTableHash ω) :
    (withoutSlot tb).type = tb.type ∧ (withoutSlot tb).nlocks = tb.nlocks := by
  unfold withoutSlot
  split_ifs <;> simp [DbTableHash.calcShrinkLimit]

theorem withoutSlot_slots (h : Sized tb) :
    tb.nactive - 1 ≤ (withoutSlot tb).nslots ∧
      (withoutSlot tb).nslots < tb.nactive - 1 + extSegsz ∧
      ((withoutSlot tb).shrinkLimit ≠ 0 → tb.nlocks + extSegsz ≤ (withoutSlot tb).nslots ∧
        firstSegsz + 2 * extSegsz ≤ (withoutSlot tb).nslots) := by
  obtain ⟨hle, hlt⟩ := h.slots
  unfold withoutSlot
  split_ifs with hext'
  · refine ⟨?_, ?_, ?_⟩
    · show tb.nactive - 1 ≤ tb.nslots - extSegsz
      omega
    · show tb.nslots - extSegsz < tb.nactive - 1 + extSegsz
      omega
    · intro hl'
      exact calcShrinkLimit_limit { tb with nslots := tb.nslots - extSegsz } hl'
  · exact ⟨by omega, by omega, h.limit⟩

/-- A table that may shrink has more slots than it started with. -/
theorem Sized.nactive_of_shrinkLimit (h : Sized tb) (hl : tb.shrinkLimit ≠ 0) :
    tb.nlocks < tb.nactive ∧ 2 < tb.nactive := by
  have hlim := h.limit hl
  have hslots := h.slots.2
  have hfirst : 2 < firstSegsz := by simp [firstSegsz]
  omega

/-- One bucket less in terms of the mask. -/
theorem shrinkStep_eq (hm : tb.Masked m) (hn : tb.nactive = n + 1) :
    shrinkStep tb =
      { withoutSlot tb with
        nactive := n
        szm := 2 ^ shrinkBits m n - 1
        bucket := update tb.bucket (n % 2 ^ (m - 1))
          ((tb.bucket n).filter (fun t => !t.pseudoDeleted) ++ tb.bucket (n % 2 ^ (m - 1))) } := by
  obtain ⟨hszm, hfit⟩ := hm
  have hdst : tb.nactive - 1 &&& tb.szm >>> 1 = n % 2 ^ (m - 1) := by
    rw [hn, hszm, shiftRight_one_mask, Nat.and_two_pow_sub_one_eq_mod, Nat.add_sub_cancel]
  have hmask : (if n % 2 ^ (m - 1) = 0 then tb.szm >>> 1 else tb.szm) = 2 ^ shrinkBits m n - 1 := by
    have hpow := two_pow_pred hfit.pos
    have hlow := hfit.low
    have hhigh := hfit.high
    have hmod : n % 2 ^ (m - 1) = n - 2 ^ (m - 1) := by
      rw [Nat.mod_eq_sub_mod (by omega), Nat.mod_eq_of_lt (by omega)]
    unfold shrinkBits
    split_ifs <;> first | rfl | omega
  unfold shrinkStep
  dsimp only [DbTableHash.setBucket]
  rw [hdst, hmask, hn]
  unfold withoutSlot
  rw [hn, Nat.add_sub_cancel]
  split_ifs with hext
  · rw [joinChains_eq]
    rfl
  · rw [joinChains_eq]

section ShrinkStep

variable {m n : ℕ} (hm : tb.Masked m) (hn : tb.nactive = n + 1) (hn₁ : 1 < n)

include hm hn

theorem shrinkStep_type : (shrinkStep tb).type = tb.type := by
  rw [shrinkStep_eq hm hn]
  exact (withoutSlot_eq tb).1

theorem shrinkStep_nactive : (shrinkStep tb).nactive = n := by
  rw [shrinkStep_eq hm hn]

theorem bucket_shrinkStep (ix : ℕ) :
    (shrinkStep tb).bucket ix =
      if ix = n % 2 ^ (m - 1) then
        (tb.bucket n).filter (fun t => !t.pseudoDeleted) ++ tb.bucket ix
      else tb.bucket ix := by
  rw [shrinkStep_eq hm hn]
  dsimp only
  by_cases h : ix = n % 2 ^ (m - 1)
  · rw [if_pos h, h, update_self]
  · rw [if_neg h, update_of_ne h]

include hn₁

theorem shrinkStep_masked : (shrinkStep tb).Masked (shrinkBits m n) := by
  have hfit := hm.2
  rw [hn] at hfit
  rw [shrinkStep_eq hm hn]
  exact ⟨rfl, hfit.shrink hn₁⟩

/-- The slot of a hash value before the last bucket goes. -/
theorem hashToIx_shrinkStep (h : ℕ) :
    tb.hashToIx h = if h % 2 ^ m = n then n else (shrinkStep tb).hashToIx h := by
  have hfit := hm.2
  rw [hn] at hfit
  rw [hm.hashToIx_eq, hn, hfit.slotOf_shrink hn₁, (shrinkStep_masked hm hn hn₁).hashToIx_eq,
    shrinkStep_nactive hm hn]

/-- The hash values of the last bucket go to the one it once was split from. -/
theorem hashToIx_shrinkStep_of_mod (hmod : h % 2 ^ m = n) :
    (shrinkStep tb).hashToIx h = n % 2 ^ (m - 1) := by
  have hfit := hm.2
  rw [hn] at hfit
  have hmask := shrinkStep_masked hm hn hn₁
  have hna := shrinkStep_nactive hm hn
  have hbits : growBits (shrinkBits m n) (shrinkStep tb).nactive = m := by
    rw [hna, hfit.growBits_shrinkBits]
  have := (mod_of_hashToIx_eq hmask (h := h)).mpr (.inr (by rw [hbits, hna, hmod]))
  rw [this, hna, hfit.growFrom_shrinkBits]

end ShrinkStep

theorem Sized.shrinkStep (h : Sized tb) (hl : tb.shrinkLimit ≠ 0) : Sized (shrinkStep tb) := by
  obtain ⟨m, hm⟩ := h.mask
  obtain ⟨hlocks, htwo⟩ := h.nactive_of_shrinkLimit hl
  obtain ⟨n, hn⟩ : ∃ n, tb.nactive = n + 1 := ⟨tb.nactive - 1, by omega⟩
  have hmask := shrinkStep_masked hm hn (by omega)
  obtain ⟨-, hlk⟩ := withoutSlot_eq tb
  obtain ⟨hlow, hhigh, hlim⟩ := withoutSlot_slots h
  refine ⟨⟨_, hmask⟩, ?_, ?_, ?_⟩
  all_goals rw [shrinkStep_eq hm hn]
  · show n ≤ (withoutSlot tb).nslots ∧ (withoutSlot tb).nslots < n + extSegsz
    rw [hn] at hlow hhigh
    exact ⟨hlow, hhigh⟩
  · refine ⟨?_, ?_⟩
    · show ∃ l, (withoutSlot tb).nlocks = 2 ^ l
      rw [hlk]
      exact h.locked.1
    · show (withoutSlot tb).nlocks ≤ n
      rw [hlk]
      omega
  · show (withoutSlot tb).shrinkLimit ≠ 0 →
      (withoutSlot tb).nlocks + extSegsz ≤ (withoutSlot tb).nslots ∧ _
    rw [hlk]
    exact hlim

/-- **One bucket less.** The table stays in order and no key changes its objects. -/
theorem TableOk.shrinkStep [DecidableEq κ] (h : TableOk K tb) (hf : tb.isFixed = false)
    (hl : tb.shrinkLimit ≠ 0) :
    Keeps K tb (shrinkStep tb) := by
  obtain ⟨m, hm⟩ := h.sized.mask
  obtain ⟨hlocks, htwo⟩ := h.sized.nactive_of_shrinkLimit hl
  obtain ⟨n, hn⟩ : ∃ n, tb.nactive = n + 1 := ⟨tb.nactive - 1, by omega⟩
  have hn₁ : 1 < n := by omega
  have hsized := h.sized.shrinkStep hl
  have hna := shrinkStep_nactive hm hn
  have hlt : ∀ hval, (DbHash.shrinkStep tb).hashToIx hval < n := by
    intro hval
    have := hsized.hashToIx_lt hval
    rwa [hna] at this
  have hix := hashToIx_shrinkStep hm hn hn₁
  -- in an unfixed table the whole last chain is moved
  have hbucket : ∀ ix, (DbHash.shrinkStep tb).bucket ix =
      if ix = n % 2 ^ (m - 1) then tb.bucket n ++ tb.bucket ix else tb.bucket ix := by
    intro ix
    rw [bucket_shrinkStep hm hn, filter_eq_self.mpr]
    intro t ht
    rw [h.stored.live_of_not_fixed hf (by omega) ht]
    rfl
  have hlast : ∀ t ∈ tb.bucket n, t.hvalue % 2 ^ m = n := by
    intro t ht
    by_contra hmod
    have hp := h.stored.placed n (by omega) t ht
    rw [hix, if_neg hmod] at hp
    exact absurd hp (Nat.ne_of_lt (hlt _))
  have hplaced : ∀ ix < n, ∀ t ∈ tb.bucket ix, (DbHash.shrinkStep tb).hashToIx t.hvalue = ix := by
    intro ix hixn t ht
    have hp := h.stored.placed ix (by omega) t ht
    rw [hix] at hp
    split_ifs at hp with hmod
    · omega
    · exact hp
  have hdisjoint : ∀ ix < n, ∀ c ∈ tb.bucket n, ∀ d ∈ tb.bucket ix, K.key c.obj ≠ K.key d.obj := by
    intro ix hixn c hc d hd hk
    have hh : c.hvalue = d.hvalue := by
      rw [(h.stored.chains n (by omega)).hashed c hc,
        (h.stored.chains ix (by omega)).hashed d hd, hk]
    have hp := h.stored.placed n (by omega) c hc
    rw [hh, h.stored.placed ix (by omega) d hd] at hp
    omega
  refine ⟨⟨hsized, ?_, ?_, ?_⟩, shrinkStep_type hm hn, ?_⟩
  · intro ix hixn
    rw [hna] at hixn
    rw [hbucket, shrinkStep_type hm hn]
    have hc := h.stored.chains ix (by omega)
    split_ifs with heq
    · exact (h.stored.chains n (by omega)).append hc (hdisjoint ix hixn)
    · exact hc
  · intro ix hixn t ht
    rw [hna] at hixn
    rw [hbucket] at ht
    split_ifs at ht with heq
    · obtain ht | ht := mem_append.mp ht
      · rw [hashToIx_shrinkStep_of_mod hm hn hn₁ (hlast t ht), heq]
      · exact hplaced ix hixn t ht
    · exact hplaced ix hixn t ht
  · intro ix hixn t ht hpd
    rw [hna] at hixn
    rw [hbucket] at ht
    have hlive : t.pseudoDeleted = false := by
      split_ifs at ht with heq
      · obtain ht | ht := mem_append.mp ht
        · exact h.stored.live_of_not_fixed hf (by omega) ht
        · exact h.stored.live_of_not_fixed hf (by omega) ht
      · exact h.stored.live_of_not_fixed hf (by omega) ht
    rw [hpd] at hlive
    cases hlive
  · intro k
    unfold objectsOf
    rw [hbucket, hix]
    by_cases hmod : K.makeHash k % 2 ^ m = n
    · have hto := hashToIx_shrinkStep_of_mod hm hn hn₁ hmod
      rw [if_pos hto, if_pos hmod, liveObjects_append, liveObjects_eq_nil, nil_append]
      intro t ht hk
      have hh := (h.stored.chains _ (by have := hlt (K.makeHash k); omega)).hashed t ht
      have hp' := h.stored.placed _ (by have := hlt (K.makeHash k); omega) t ht
      rw [hh, hk, hix, if_pos hmod] at hp'
      exact absurd hp' (Nat.ne_of_gt (hlt _))
    · rw [if_neg hmod]
      split_ifs with heq
      · have hnil : liveObjects K k (tb.bucket n) = [] := by
          apply liveObjects_eq_nil
          intro t ht hk
          apply hmod
          rw [← hk, ← (h.stored.chains n (by omega)).hashed t ht]
          exact hlast t ht
        rw [liveObjects_append, hnil, append_nil]
      · rfl

/-! ## The loops -/

section Loops

variable [DecidableEq κ]

theorem TableOk.grow (nitems limit : ℕ) (h : TableOk K tb) : Keeps K tb (grow nitems limit tb) := by
  induction limit generalizing tb with
  | zero => exact h.keeps
  | succ limit ih =>
    unfold DbHash.grow
    split_ifs with hstop
    · exact h.keeps
    · have hstep := h.growStep (by simpa using (not_or.mp hstop).2)
      exact hstep.trans (ih hstep.ok)

theorem TableOk.shrink (nitems limit : ℕ) (h : TableOk K tb) :
    Keeps K tb (shrink nitems limit tb) := by
  induction limit generalizing tb with
  | zero => exact h.keeps
  | succ limit ih =>
    unfold DbHash.shrink
    split_ifs with hstop
    · exact h.keeps
    · obtain ⟨hlim, hf⟩ := not_or.mp hstop
      have hstep := h.shrinkStep (by simpa using hf) (by omega)
      exact hstep.trans (ih hstep.ok)

theorem TableOk.tryShrink (nitems : ℤ) (h : TableOk K tb) : Keeps K tb (tryShrink tb nitems) := by
  unfold DbHash.tryShrink
  split_ifs
  · exact h.shrink _ _
  · exact h.keeps

end Loops

end Otp.Erts.DbHash
