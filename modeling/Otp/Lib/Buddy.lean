import Mathlib

/-!
# Buddy systems

A block of level `k` is one of the intervals `[i * 2 ^ k, (i + 1) * 2 ^ k)`.  Two
blocks are nested or disjoint; the two halves of a block are each other's buddies.
A buddy system of height `n` cuts `[0, 2 ^ n)` into free and held blocks and never
keeps two free buddies apart.

* `Tiling.take`, `Tiling.split`, `Tiling.release`, `Tiling.merge`: the four moves
  of an allocator keep a tiling;
* `Tiling.exists_container`: where everything in a block is free, the block lies in
  one free block;
* `Tiling.free_eq_root`: with nothing held the whole interval is one free block.
-/

namespace Otp.Lib.Buddy

/-- The block `[index * 2 ^ level, (index + 1) * 2 ^ level)`. -/
@[ext]
structure Block where
  level : ℕ
  index : ℤ
deriving DecidableEq

namespace Block

/-- The integers of a block are those with its index as prefix. -/
def Covers (b : Block) (x : ℤ) : Prop := x / 2 ^ b.level = b.index

/-- The first integer of a block. -/
def start (b : Block) : ℤ := b.index * 2 ^ b.level

/-- The other half of the block that `b` is a half of. -/
def buddy (b : Block) : Block := ⟨b.level, if b.index % 2 = 0 then b.index + 1 else b.index - 1⟩

/-- The block that `b` is a half of. -/
def parent (b : Block) : Block := ⟨b.level + 1, b.index / 2⟩

/-- The block `d` levels up that `b` lies in. -/
def ancestor (b : Block) (d : ℕ) : Block := ⟨b.level + d, b.index / 2 ^ d⟩

variable {b c : Block} {x : ℤ}

theorem covers_iff : b.Covers x ↔ b.start ≤ x ∧ x < b.start + 2 ^ b.level := by
  have hpos : (0 : ℤ) < 2 ^ b.level := by positivity
  rw [Covers, start, ← add_one_mul, ← Int.le_ediv_iff_mul_le hpos, ← Int.ediv_lt_iff_lt_mul hpos]
  omega

theorem covers_start (b : Block) : b.Covers b.start := by
  have hpos : (0 : ℤ) < 2 ^ b.level := by positivity
  exact covers_iff.2 ⟨le_rfl, by omega⟩

/-- Two blocks of one level that share an integer are equal. -/
theorem eq_of_covers (hl : b.level = c.level) (hb : b.Covers x) (hc : c.Covers x) : b = c := by
  ext
  · exact hl
  · rw [← hb, ← hc, hl]

section

variable (b : Block)

@[simp]
theorem level_buddy : b.buddy.level = b.level := rfl

@[simp]
theorem level_parent : b.parent.level = b.level + 1 := rfl

theorem index_buddy :
    b.buddy.index = if b.index % 2 = 0 then b.index + 1 else b.index - 1 := rfl

theorem buddy_ne : b.buddy ≠ b := by
  intro h
  have hi := congrArg index h
  rw [index_buddy] at hi
  split at hi <;> omega

@[simp]
theorem buddy_buddy : b.buddy.buddy = b := by
  ext
  · rfl
  · rw [index_buddy, index_buddy]
    split_ifs <;> omega

@[simp]
theorem parent_buddy : b.buddy.parent = b.parent := by
  ext
  · rfl
  · show b.buddy.index / 2 = b.index / 2
    rw [index_buddy]
    split_ifs <;> omega

theorem start_buddy :
    b.buddy.start = if b.index % 2 = 0 then b.start + 2 ^ b.level else b.start - 2 ^ b.level := by
  rw [start, start, index_buddy, level_buddy]
  split_ifs <;> ring

theorem start_parent :
    b.parent.start = if b.index % 2 = 0 then b.start else b.start - 2 ^ b.level := by
  have hdouble : b.parent.start = 2 * (b.index / 2) * 2 ^ b.level := by
    rw [start, level_parent, parent]
    ring
  rw [hdouble, start]
  split_ifs with heven
  · rw [Int.mul_ediv_cancel' (by omega)]
  · have hodd : 2 * (b.index / 2) = b.index - 1 := by omega
    rw [hodd]
    ring

end

/-- A block is made of its two halves. -/
theorem covers_parent_iff : b.parent.Covers x ↔ b.Covers x ∨ b.buddy.Covers x := by
  simp only [Covers, level_parent, level_buddy, index_buddy]
  rw [pow_succ, ← Int.ediv_ediv_of_nonneg (by positivity)]
  show _ / 2 = b.index / 2 ↔ _
  split_ifs <;> omega

theorem not_covers_buddy (hb : b.Covers x) : ¬ b.buddy.Covers x :=
  fun h => b.buddy_ne (eq_of_covers (level_buddy b) h hb)

@[simp]
theorem ancestor_zero (b : Block) : b.ancestor 0 = b := by
  ext
  · rfl
  · simp [ancestor]

theorem ancestor_succ (b : Block) (d : ℕ) : b.ancestor (d + 1) = b.parent.ancestor d := by
  ext
  · simp only [ancestor, level_parent]
    omega
  · simp only [ancestor, parent]
    rw [pow_succ', ← Int.ediv_ediv_of_nonneg (by norm_num)]

theorem covers_ancestor (d : ℕ) (h : b.Covers x) : (b.ancestor d).Covers x := by
  rw [Covers] at h ⊢
  simp only [ancestor]
  rw [pow_add, ← Int.ediv_ediv_of_nonneg (by positivity), h]

/-- A block that shares an integer with a block of a lower level contains it. -/
theorem eq_ancestor_of_covers (hl : b.level ≤ c.level) (hb : b.Covers x) (hc : c.Covers x) :
    c = b.ancestor (c.level - b.level) := by
  refine eq_of_covers ?_ hc (covers_ancestor _ hb)
  simp only [ancestor]
  omega

end Block

/-- The whole interval `[0, 2 ^ n)`. -/
def root (n : ℕ) : Block := ⟨n, 0⟩

/-- A set of blocks that holds every integer of `[0, 2 ^ n)` exactly once. -/
structure Cut (n : ℕ) (blocks : Set Block) : Prop where
  apart : ∀ {b c x}, b ∈ blocks → c ∈ blocks → b.Covers x → c.Covers x → b = c
  cover : ∀ x, (root n).Covers x ↔ ∃ b ∈ blocks, b.Covers x

namespace Cut

open Block

variable {n : ℕ} {blocks : Set Block} {b : Block}

section

variable (h : Cut n blocks)

include h

section

variable (hb : b ∈ blocks)

include hb

theorem inside {x : ℤ} (hx : b.Covers x) :
    (root n).Covers x := (h.cover x).2 ⟨b, hb, hx⟩

/-- Blocks of a cut lie at or below the root. -/
theorem level_le : b.level ≤ n := by
  by_contra hlt
  have hpow : (2 : ℤ) ^ n < 2 ^ b.level := pow_lt_pow_right₀ (by norm_num) (by omega)
  have hroot : (0 : ℤ) < 2 ^ n := by positivity
  have hlow := h.inside hb b.covers_start
  have hhigh := h.inside hb (x := b.start + 2 ^ n) (covers_iff.2 ⟨by omega, by omega⟩)
  rw [covers_iff] at hlow hhigh
  simp only [root, start, zero_mul] at hlow hhigh
  omega

/-- No block of a cut lies in another one. -/
theorem eq_of_ancestor {d : ℕ} (ha : b.ancestor d ∈ blocks) : b = b.ancestor d :=
  h.apart hb ha b.covers_start (covers_ancestor d b.covers_start)

theorem parent_not_mem : b.parent ∉ blocks := by
  intro hp
  have heq := h.apart hb hp b.covers_start (covers_parent_iff.2 (.inl b.covers_start))
  have hl := congrArg level heq
  rw [level_parent] at hl
  omega

end

theorem half_not_mem (hp : b.parent ∈ blocks) : b ∉ blocks :=
  fun hb => h.parent_not_mem hb hp

/-- A block is replaced by its halves. -/
theorem halve (hp : b.parent ∈ blocks) :
    Cut n (insert b (insert b.buddy (blocks \ {b.parent}))) := by
  -- what is left of the cut shares no integer with the block taken out
  have hrest : ∀ {c x}, c ∈ blocks \ {b.parent} → c.Covers x → ¬ b.parent.Covers x :=
    fun hc hx hx' => hc.2 (h.apart hc.1 hp hx hx')
  constructor
  · rintro c d x (rfl | rfl | hc) (rfl | rfl | hd) hcx hdx
    · rfl
    · exact absurd hdx (not_covers_buddy hcx)
    · exact absurd (covers_parent_iff.2 (.inl hcx)) (hrest hd hdx)
    · exact absurd hcx (not_covers_buddy hdx)
    · rfl
    · exact absurd (covers_parent_iff.2 (.inr hcx)) (hrest hd hdx)
    · exact absurd (covers_parent_iff.2 (.inl hdx)) (hrest hc hcx)
    · exact absurd (covers_parent_iff.2 (.inr hdx)) (hrest hc hcx)
    · exact h.apart hc.1 hd.1 hcx hdx
  · intro x
    rw [h.cover]
    constructor
    · rintro ⟨c, hc, hx⟩
      by_cases hcp : c = b.parent
      · subst hcp
        rcases covers_parent_iff.1 hx with hx | hx
        · exact ⟨b, .inl rfl, hx⟩
        · exact ⟨b.buddy, .inr (.inl rfl), hx⟩
      · exact ⟨c, .inr (.inr ⟨hc, hcp⟩), hx⟩
    · rintro ⟨c, rfl | rfl | hc, hx⟩
      · exact ⟨_, hp, covers_parent_iff.2 (.inl hx)⟩
      · exact ⟨_, hp, covers_parent_iff.2 (.inr hx)⟩
      · exact ⟨c, hc.1, hx⟩

/-- Two halves are replaced by the whole. -/
theorem join (hb : b ∈ blocks) (hb' : b.buddy ∈ blocks) :
    Cut n (insert b.parent (blocks \ {b, b.buddy})) := by
  have hrest : ∀ {c x}, c ∈ blocks \ {b, b.buddy} → c.Covers x → ¬ b.parent.Covers x := by
    intro c x hc hx hx'
    rcases covers_parent_iff.1 hx' with hx' | hx'
    · exact hc.2 (.inl (h.apart hc.1 hb hx hx'))
    · exact hc.2 (.inr (h.apart hc.1 hb' hx hx'))
  constructor
  · rintro c d x (rfl | hc) (rfl | hd) hcx hdx
    · rfl
    · exact absurd hcx (hrest hd hdx)
    · exact absurd hdx (hrest hc hcx)
    · exact h.apart hc.1 hd.1 hcx hdx
  · intro x
    rw [h.cover]
    constructor
    · rintro ⟨c, hc, hx⟩
      by_cases hcb : c ∈ ({b, b.buddy} : Set Block)
      · refine ⟨_, .inl rfl, covers_parent_iff.2 ?_⟩
        rcases hcb with rfl | rfl
        · exact .inl hx
        · exact .inr hx
      · exact ⟨c, .inr ⟨hc, hcb⟩, hx⟩
    · rintro ⟨c, rfl | hc, hx⟩
      · rcases covers_parent_iff.1 hx with hx | hx
        · exact ⟨b, hb, hx⟩
        · exact ⟨_, hb', hx⟩
      · exact ⟨c, hc.1, hx⟩

end

end Cut

/-- A cut of `[0, 2 ^ n)` into free and held blocks without a pair of free buddies. -/
structure Tiling (n : ℕ) (free held : Set Block) : Prop where
  cut : Cut n (free ∪ held)
  apart : Disjoint free held
  merged : ∀ b ∈ free, b.buddy ∉ free

namespace Tiling

open Block

variable {n : ℕ} {free held : Set Block} {b : Block}

theorem root_free (n : ℕ) : Tiling n {root n} ∅ where
  cut := by
    constructor
    · rintro b c x (rfl | h) (rfl | h') - -
      · rfl
      all_goals simp_all
    · simp
  apart := Set.disjoint_empty _
  merged := by
    rintro b rfl h
    exact buddy_ne _ h

section

variable (h : Tiling n free held)

include h

theorem not_held (hb : b ∈ free) : b ∉ held :=
  Set.disjoint_left.1 h.apart hb

theorem not_free (hb : b ∈ held) : b ∉ free :=
  Set.disjoint_right.1 h.apart hb

/-- A block inside a free one is not held. -/
theorem not_held_of_ancestor {d : ℕ} (hb : b.ancestor d ∈ free) : b ∉ held := by
  intro hh
  have heq := h.cut.eq_of_ancestor (.inr hh) (.inl hb)
  exact h.not_held hb (heq ▸ hh)

/-! ## The moves of an allocator -/

/-- A free block is taken. -/
theorem take (hb : b ∈ free) :
    Tiling n (free \ {b}) (insert b held) where
  cut := by
    have hall : free \ {b} ∪ insert b held = free ∪ held := by
      rw [Set.union_insert, ← Set.insert_union, Set.insert_sdiff_singleton, Set.insert_eq_of_mem hb]
    rw [hall]
    exact h.cut
  apart := by
    rw [Set.disjoint_insert_right]
    exact ⟨by simp, h.apart.mono_left Set.sdiff_subset⟩
  merged c hc hc' := h.merged c hc.1 hc'.1

/-- A held block without a free buddy becomes free. -/
theorem release (hb : b ∈ held) (hf : b.buddy ∉ free) :
    Tiling n (insert b free) (held \ {b}) where
  cut := by
    have hall : insert b free ∪ held \ {b} = free ∪ held := by
      rw [Set.insert_union, ← Set.union_insert, Set.insert_sdiff_singleton, Set.insert_eq_of_mem hb]
    rw [hall]
    exact h.cut
  apart := by
    rw [Set.disjoint_insert_left]
    exact ⟨by simp, h.apart.mono_right Set.sdiff_subset⟩
  merged := by
    rintro c (rfl | hc) (hc' | hc')
    · exact buddy_ne _ hc'
    · exact hf hc'
    · rw [← hc', buddy_buddy] at hf
      exact hf hc
    · exact h.merged c hc hc'

/-- A held block is halved: one half stays held and the other becomes free. -/
theorem split (hb : b.parent ∈ held) :
    Tiling n (insert b.buddy free) (insert b (held \ {b.parent})) where
  cut := by
    have hall : insert b.buddy free ∪ insert b (held \ {b.parent}) =
        insert b (insert b.buddy ((free ∪ held) \ {b.parent})) := by
      rw [Set.union_sdiff_distrib, Set.sdiff_singleton_eq_self (h.not_free hb), Set.insert_union,
        Set.union_insert, Set.insert_comm]
    rw [hall]
    exact h.cut.halve (.inr hb)
  apart := by
    have hnew : b ∉ free ∪ held := h.cut.half_not_mem (.inr hb)
    have hnew' : b.buddy ∉ free ∪ held :=
      h.cut.half_not_mem (by rw [parent_buddy]; exact .inr hb)
    rw [Set.disjoint_insert_left, Set.disjoint_insert_right]
    refine ⟨?_, fun hf => hnew (.inl hf), h.apart.mono_right Set.sdiff_subset⟩
    rintro (heq | hh)
    · exact buddy_ne _ heq
    · exact hnew' (.inr hh.1)
  merged := by
    have hnew : b ∉ free := fun hf => h.cut.half_not_mem (.inr hb) (.inl hf)
    rintro c (rfl | hc) (hc' | hc')
    · exact buddy_ne _ hc'
    · rw [buddy_buddy] at hc'
      exact hnew hc'
    · have : c = b := by rw [← buddy_buddy c, hc', buddy_buddy]
      exact hnew (this ▸ hc)
    · exact h.merged c hc hc'

/-- A held block is joined with its free buddy. -/
theorem merge (hb : b ∈ held) (hf : b.buddy ∈ free) :
    Tiling n (free \ {b.buddy}) (insert b.parent (held \ {b})) where
  cut := by
    have hall : free \ {b.buddy} ∪ insert b.parent (held \ {b}) =
        insert b.parent ((free ∪ held) \ {b, b.buddy}) := by
      have hdiff : (free ∪ held) \ {b, b.buddy} = free \ {b.buddy} ∪ held \ {b} := by
        ext c
        have h1 : c ∈ free → c ≠ b := fun hc heq => h.not_free hb (heq ▸ hc)
        have h2 : c ∈ held → c ≠ b.buddy := fun hc heq => h.not_held hf (heq ▸ hc)
        simp only [Set.mem_sdiff, Set.mem_union, Set.mem_insert_iff, Set.mem_singleton_iff]
        tauto
      rw [hdiff, Set.union_insert]
    rw [hall]
    exact h.cut.join (.inr hb) (.inl hf)
  apart := by
    have hnew : b.parent ∉ free ∪ held := h.cut.parent_not_mem (.inr hb)
    rw [Set.disjoint_insert_right]
    exact ⟨fun hp => hnew (.inl hp.1), h.apart.mono Set.sdiff_subset Set.sdiff_subset⟩
  merged c hc hc' := h.merged c hc.1 hc'.1

/-! ## Merged blocks -/

/-- Where everything in a block is free, the block lies in one free block. -/
theorem exists_container (k : ℕ) (i : ℤ)
    (hcov : ∀ x, (Block.mk k i).Covers x → ∃ c ∈ free, c.Covers x) :
    ∃ d, (Block.mk k i).ancestor d ∈ free := by
  induction k generalizing i with
  | zero =>
    obtain ⟨c, hc, hx⟩ := hcov _ (covers_start _)
    exact ⟨_, eq_ancestor_of_covers (Nat.zero_le _) (covers_start _) hx ▸ hc⟩
  | succ k ih =>
    -- the halves lie in free blocks, and these cannot both be the halves themselves
    have hlow : (Block.mk k (2 * i)).parent = ⟨k + 1, i⟩ := by
      simp [parent]
    have hhigh : (Block.mk k (2 * i)).buddy = ⟨k, 2 * i + 1⟩ := by
      simp [buddy]
    have hup : ∀ b : Block, b.parent = ⟨k + 1, i⟩ → (∃ d, b.ancestor d ∈ free) →
        b ∈ free ∨ ∃ d, (Block.mk (k + 1) i).ancestor d ∈ free := by
      rintro b hb ⟨d, hd⟩
      cases d with
      | zero => exact .inl (by rwa [ancestor_zero] at hd)
      | succ d =>
        rw [ancestor_succ, hb] at hd
        exact .inr ⟨d, hd⟩
    have h0 := ih (2 * i) fun x hx => hcov x (hlow ▸ covers_parent_iff.2 (.inl hx))
    have h1 := ih (2 * i + 1) fun x hx => hcov x (hlow ▸ covers_parent_iff.2 (.inr (hhigh ▸ hx)))
    rcases hup _ hlow h0 with h0 | h0
    · rcases hup _ (by rw [← hhigh, parent_buddy, hlow]) h1 with h1 | h1
      · exact absurd (hhigh ▸ h1) (h.merged _ h0)
      · exact h1
    · exact h0

/-- What a second allocator on the same interval regards as free lies in a free block,
if it holds all that is held here. -/
theorem exists_container_of_subset {free' held' : Set Block}
    (h' : Tiling n free' held') (hsub : held ⊆ held') (hb : b ∈ free') :
    ∃ d, b.ancestor d ∈ free := by
  refine h.exists_container b.level b.index fun x hx => ?_
  obtain ⟨c, hc | hc, hcx⟩ := (h.cut.cover x).1 (h'.cut.inside (.inl hb) hx)
  · exact ⟨c, hc, hcx⟩
  · have heq : c = b := h'.cut.apart (.inr (hsub hc)) (.inl hb) hcx hx
    exact absurd (heq ▸ hsub hc) (h'.not_held hb)

end

/-- With nothing held the whole interval is one free block. -/
theorem free_eq_root (h : Tiling n free ∅) : free = {root n} := by
  obtain ⟨d, hd⟩ := h.exists_container n 0 fun x hx => by
    simpa using (h.cut.cover x).1 hx
  have hle := h.cut.level_le (.inl hd)
  obtain rfl : d = 0 := by
    simp only [ancestor] at hle
    omega
  refine Set.eq_singleton_iff_unique_mem.2 ⟨hd, fun b hb => ?_⟩
  have hin := h.cut.inside (.inl hb) b.covers_start
  exact h.cut.apart (.inl hb) (.inl hd) b.covers_start hin

end Tiling

end Otp.Lib.Buddy
