import Otp.Lib.IntBits
import Otp.Lib.Buddy
import Otp.Stdlib.Dets.Alloc

/-!
# Free tables as buddy systems

A free table represents a set of free blocks of a buddy system of height 31, counted
from the base of the file.  Each function of the allocator carries out moves of that
system: `moveDown` halves a held block again and again, `undoFree` takes the free
block that the wanted one lies in and halves it along the way, `freeInPos` merges a
held block with its buddies as long as they are free and releases the result.
-/

namespace Otp.Stdlib.Dets

open Otp.Lib.Buddy FreeTable

/-! ## Elements of a free table -/

/-- The block at `addr` of position `pos` is in the free table. -/
def FreeTable.Free (ftab : FreeTable) (pos : ℕ) (addr : ℤ) : Prop :=
  ∃ t, element pos ftab = .ok t ∧ addr ∈ t

theorem element_eq (ftab : FreeTable) {pos : ℕ} (h : 1 ≤ pos ∧ pos ≤ maxBud) :
    ∃ t, element pos ftab = .ok t := by
  rw [element, dif_pos h]
  exact ⟨_, rfl⟩

variable {ftab ftab' : FreeTable} {t : Tree} {pos pos' pos0 n : ℕ} {addr' base : ℤ} {b : Block}
  {held : Set Block} {addr : ℤ}

theorem position_of_element (h : element pos ftab = .ok t) : 1 ≤ pos ∧ pos ≤ maxBud := by
  rw [element] at h
  split at h
  · assumption
  · cases h

theorem element_setelement (h : 1 ≤ pos ∧ pos ≤ maxBud) :
    element pos (setelement pos' ftab t) =
      if pos - 1 = pos' - 1 then .ok t else element pos ftab := by
  rw [element, element, dif_pos h, dif_pos h]
  simp only [setelement, Vector.get_eq_getElem, Vector.getElem_setIfInBounds, eq_comm]
  split <;> rfl

theorem free_iff (h : element pos ftab = .ok t) :
    ftab.Free pos addr ↔ addr ∈ t := by
  simp [FreeTable.Free, h]

/-- Two free tables with the same free blocks are equal. -/
theorem eq_of_free_iff (h : ∀ pos addr, ftab.Free pos addr ↔ ftab'.Free pos addr) :
    ftab = ftab' := by
  obtain ⟨elements⟩ := ftab
  obtain ⟨elements'⟩ := ftab'
  congr 1
  refine Vector.ext fun i hi => Finset.ext fun addr => ?_
  have hpos : 1 ≤ i + 1 ∧ i + 1 ≤ maxBud := by omega
  have helem : ∀ v : Vector Tree maxBud, element (i + 1) ⟨v⟩ = .ok v[i] := fun v => by
    rw [element, dif_pos hpos]
    rfl
  have hi := h (i + 1) addr
  rwa [free_iff (helem elements), free_iff (helem elements')] at hi

/-- The free addresses after the tree at one position is replaced. -/
theorem free_setelement (h : element pos ftab = .ok t) (t' : Tree) :
    (setelement pos ftab t').Free pos' addr' ↔
      if pos' = pos then addr' ∈ t' else ftab.Free pos' addr' := by
  have hpos := position_of_element h
  by_cases hpos' : 1 ≤ pos' ∧ pos' ≤ maxBud
  · have hiff : pos' - 1 = pos - 1 ↔ pos' = pos := by omega
    rw [FreeTable.Free, element_setelement hpos']
    simp only [hiff]
    split_ifs
    · simp
    · rfl
  · have hno : ∀ ftab : FreeTable, ¬ ftab.Free pos' addr' :=
      fun _ ⟨_, h', _⟩ => hpos' (position_of_element h')
    have hne : pos' ≠ pos := fun heq => hpos' (heq ▸ hpos)
    rw [if_neg hne]
    exact iff_of_false (hno _) (hno _)

theorem free_insert (h : element pos ftab = .ok t) :
    (setelement pos ftab (bplusInsert t addr)).Free pos' addr' ↔
      (pos' = pos ∧ addr' = addr) ∨ ftab.Free pos' addr' := by
  rw [free_setelement h]
  split_ifs with heq
  · subst heq
    simp [free_iff h, bplusInsert]
  · simp [heq]

theorem free_delete (h : element pos ftab = .ok t) :
    (setelement pos ftab (bplusDelete t addr)).Free pos' addr' ↔
      ¬ (pos' = pos ∧ addr' = addr) ∧ ftab.Free pos' addr' := by
  rw [free_setelement h]
  split_ifs with heq
  · subst heq
    simp [free_iff h, bplusDelete]
  · simp [heq]

/-! ## Blocks of the file -/

/-- The position of a block in a free table. -/
def posOf (b : Block) : ℕ := b.level + 1

theorem posOf_bounds (h : b.level ≤ 31) : 1 ≤ posOf b ∧ posOf b ≤ maxBud := by
  simp only [posOf, maxBud]
  omega

/-- The address of a block, counted from the base of the file. -/
def addrOf (base : ℤ) (b : Block) : ℤ := base + b.start

theorem eq_of_place {c : Block} (hp : posOf b = posOf c) (ha : addrOf base b = addrOf base c) :
    b = c := by
  have hlevel : b.level = c.level := by
    simp only [posOf] at hp
    omega
  refine Block.ext hlevel ?_
  have hstart : b.start = c.start := by
    simp only [addrOf] at ha
    omega
  rw [Block.start, hlevel] at hstart
  exact Int.eq_of_mul_eq_mul_right (by positivity) hstart

theorem myBuddy_addrOf (base : ℤ) (b : Block) :
    myBuddy (addrOf base b) (pow b.level) base = (addrOf base b.buddy, addrOf base b.parent) := by
  have hpow : (2 : ℤ) ^ b.level ≠ 0 := by positivity
  have hsub : addrOf base b - base = b.start := by
    simp only [addrOf]
    omega
  have hbit : Int.land b.start (2 ^ b.level) = 0 ↔ b.index % 2 = 0 := by
    have h := Otp.Lib.IntBits.land_two_pow_ne_zero b.start b.level
    rw [Otp.Lib.IntBits.testBit_eq, Block.start, Int.mul_ediv_cancel _ hpow, decide_eq_true_eq] at h
    rw [← not_iff_not]
    exact h.trans ⟨fun h1 h2 => by omega, fun h1 => by omega⟩
  rw [myBuddy, hsub, pow, addrOf, addrOf, addrOf, Block.start_buddy, Block.start_parent]
  by_cases heven : b.index % 2 = 0
  · rw [if_pos (hbit.2 heven), if_pos heven, if_pos heven, add_assoc]
  · rw [if_neg (mt hbit.1 heven), if_neg heven, if_neg heven, add_sub_assoc]

/-- The free table holds exactly the blocks of `blocks`. -/
def FreeTable.Represents (ftab : FreeTable) (base : ℤ) (blocks : Set Block) : Prop :=
  ∀ pos addr, ftab.Free pos addr ↔ ∃ b ∈ blocks, pos = posOf b ∧ addr = addrOf base b

namespace FreeTable.Represents

variable {ftab : FreeTable} {base : ℤ} {blocks : Set Block} {b : Block} {t : Tree}

section

variable (h : ftab.Represents base blocks)

include h

theorem free : ftab.Free (posOf b) (addrOf base b) ↔ b ∈ blocks := by
  rw [h]
  constructor
  · rintro ⟨c, hc, hp, ha⟩
    rwa [eq_of_place hp ha]
  · exact fun hb => ⟨b, hb, rfl, rfl⟩

section

variable (he : element (posOf b) ftab = .ok t)

include he

theorem mem : addrOf base b ∈ t ↔ b ∈ blocks := by
  rw [← free_iff he, h.free]

theorem insert :
    (setelement (posOf b) ftab (bplusInsert t (addrOf base b))).Represents base
      (Insert.insert b blocks) := by
  intro pos addr
  rw [free_insert he, h]
  constructor
  · rintro (⟨rfl, rfl⟩ | ⟨c, hc, hplace⟩)
    · exact ⟨b, .inl rfl, rfl, rfl⟩
    · exact ⟨c, .inr hc, hplace⟩
  · rintro ⟨c, rfl | hc, hplace⟩
    · exact .inl hplace
    · exact .inr ⟨c, hc, hplace⟩

theorem delete :
    (setelement (posOf b) ftab (bplusDelete t (addrOf base b))).Represents base
      (blocks \ {b}) := by
  intro pos addr
  rw [free_delete he, h]
  constructor
  · rintro ⟨hne, c, hc, rfl, rfl⟩
    refine ⟨c, ⟨hc, ?_⟩, rfl, rfl⟩
    rintro rfl
    exact hne ⟨rfl, rfl⟩
  · rintro ⟨c, ⟨hc, hne⟩, rfl, rfl⟩
    exact ⟨fun ⟨hp, ha⟩ => hne (eq_of_place hp ha), c, hc, rfl, rfl⟩

end

theorem unique (h' : ftab'.Represents base blocks) : ftab = ftab' :=
  eq_of_free_iff fun pos addr => (h pos addr).trans (h' pos addr).symm

end

end FreeTable.Represents

theorem not_free_emptyFreeLists (pos : ℕ) (addr : ℤ) : ¬ emptyFreeLists.Free pos addr := by
  rintro ⟨t, he, hmem⟩
  have hpos := position_of_element he
  rw [element, dif_pos hpos] at he
  cases he
  simp [emptyFreeLists, bplusEmptyTree, Vector.get_eq_getElem] at hmem

theorem initAlloc_represents (base : ℤ) : (initAlloc base).Represents base {root 31} := by
  have hempty : emptyFreeLists.Represents base ∅ := by
    intro pos addr
    simp [not_free_emptyFreeLists]
  have hset := hempty.insert (b := root 31) (t := bplusEmptyTree) rfl
  rw [insert_empty_eq] at hset
  have haddr : addrOf base (root 31) = base := by simp [addrOf, root, Block.start]
  rw [haddr] at hset
  exact hset

/-! ## The functions of the allocator as moves -/

/-- The free table keeps the space that the blocks of `held` leave. -/
def Manages (base : ℤ) (ftab : FreeTable) (held : Set Block) : Prop :=
  ∃ free, ftab.Represents base free ∧ Tiling 31 free held

theorem initAlloc_manages (base : ℤ) : Manages base (initAlloc base) ∅ :=
  ⟨_, initAlloc_represents base, Tiling.root_free 31⟩

theorem Manages.eq_initAlloc (h : Manages base ftab ∅) : ftab = initAlloc base := by
  obtain ⟨free, hrep, ht⟩ := h
  rw [ht.free_eq_root] at hrep
  exact hrep.unique (initAlloc_represents base)

theorem bplusLookupFirst_mem (h : bplusLookupFirst t = some addr) : addr ∈ t := by
  rw [bplusLookupFirst] at h
  split at h
  · cases h
    exact Finset.min'_mem _ _
  · cases h

/-- A search returns a free block that is large enough, or there is no more space. -/
theorem findFirstFree_spec (ftab : FreeTable) (pos0 : ℕ) (filename : String) (hpos : 1 ≤ pos) :
    findFirstFree ftab pos pos0 filename = .error (.noMoreSpaceOnFile filename) ∨
      ∃ fpos addr, findFirstFree ftab pos pos0 filename = .ok (fpos, addr) ∧ pos ≤ fpos ∧
        ftab.Free fpos addr := by
  -- induction on the number of positions above
  induction hn : maxBud + 1 - pos generalizing pos with
  | zero =>
    rw [findFirstFree, if_pos (by omega)]
    exact .inl rfl
  | succ n ih =>
    obtain ⟨t, he⟩ := element_eq ftab ⟨hpos, show pos ≤ maxBud by omega⟩
    rw [findFirstFree, if_neg (by omega), he]
    simp only [bind, Except.bind]
    cases hfirst : bplusLookupFirst t with
    | none =>
      rcases ih (show 1 ≤ pos + 1 by omega) (by omega) with h | ⟨fpos, addr, h, hle, hfree⟩
      · exact .inl h
      · exact .inr ⟨fpos, addr, h, by omega, hfree⟩
    | some addr =>
      simp only
      split
      · exact .inl rfl
      · exact .inr ⟨pos, addr, rfl, le_rfl, t, he, bplusLookupFirst_mem hfirst⟩

/-- The low half of a block of a level above the lowest. -/
def lowHalf (b : Block) : Block := ⟨b.level - 1, 2 * b.index⟩

theorem parent_lowHalf (h : 0 < b.level) : (lowHalf b).parent = b := by
  ext
  · simp only [lowHalf, Block.level_parent]
    omega
  · simp [lowHalf, Block.parent]

theorem start_lowHalf (h : 0 < b.level) : (lowHalf b).start = b.start := by
  have hpow : (2 : ℤ) ^ b.level = 2 * 2 ^ (b.level - 1) := by
    rw [← pow_succ', Nat.sub_add_cancel h]
  rw [Block.start, Block.start, hpow, lowHalf]
  ring

theorem addrOf_buddy_lowHalf (base : ℤ) (h : 0 < b.level) :
    addrOf base (lowHalf b).buddy = addrOf base b + pow b.level / 2 := by
  have hpow : (2 : ℤ) ^ b.level = 2 ^ (b.level - 1) * 2 := by
    rw [← pow_succ, Nat.sub_add_cancel h]
  have heven : (lowHalf b).index % 2 = 0 := by simp [lowHalf]
  rw [addrOf, addrOf, Block.start_buddy, if_pos heven, start_lowHalf h, pow, hpow,
    Int.mul_ediv_cancel _ (by norm_num), add_assoc]
  rfl

theorem moveDown_self (ftab : FreeTable) (pos : ℕ) (addr : ℤ) :
    moveDown ftab pos pos addr = .ok ftab := by
  rw [moveDown.eq_def, if_pos rfl]

theorem moveDown_of_ne (addr : ℤ) (hne : pos + 1 ≠ pos0) (he : element pos ftab = .ok t) :
    moveDown ftab (pos + 1) pos0 addr =
      moveDown (setelement pos ftab (bplusInsert t (addr + pow pos / 2))) pos pos0 addr := by
  rw [moveDown.eq_def, if_neg hne]
  simp only [he, bind, Except.bind]

/-- A held block is cut down to the block of position `pos0` at its start. -/
theorem Manages.moveDown (h : Manages base ftab held) (hb : b ∈ held) (hpos : 1 ≤ pos0)
    (hle : pos0 ≤ posOf b) :
    ∃ ftab' c, Dets.moveDown ftab (posOf b) pos0 (addrOf base b) = .ok ftab' ∧
      posOf c = pos0 ∧ addrOf base c = addrOf base b ∧
      Manages base ftab' (insert c (held \ {b})) := by
  -- induction on the number of halvings
  induction hn : posOf b - pos0 generalizing b ftab held with
  | zero =>
    have heq : posOf b = pos0 := by omega
    refine ⟨ftab, b, ?_, heq, rfl, ?_⟩
    · rw [heq, moveDown_self]
    · rwa [Set.insert_sdiff_singleton, Set.insert_eq_of_mem hb]
  | succ n ih =>
    obtain ⟨free, hrep, ht⟩ := h
    simp only [posOf] at hn
    have hlevel : 0 < b.level := by omega
    have hle31 : b.level ≤ 31 := ht.cut.level_le (.inr hb)
    have hhalf : posOf (lowHalf b) = b.level := by
      simp only [posOf, lowHalf]
      omega
    have hparent := parent_lowHalf hlevel
    have haddr0 : addrOf base (lowHalf b) = addrOf base b := by
      rw [addrOf, addrOf, start_lowHalf hlevel]
    have hnew : lowHalf b ∉ held := fun hl =>
      ht.cut.half_not_mem (by rw [hparent]; exact .inr hb) (.inr hl)
    obtain ⟨t, he⟩ := element_eq ftab (show 1 ≤ b.level ∧ b.level ≤ 32 by omega)
    have hsplit := ht.split (b := lowHalf b) (by rwa [hparent])
    have hins := hrep.insert (b := (lowHalf b).buddy) (t := t) (hhalf ▸ he)
    rw [hparent] at hsplit
    obtain ⟨ftab', c, hrun, hc, haddr, hman⟩ :=
      ih ⟨_, hins, hsplit⟩ (Set.mem_insert _ _) (by omega) (by omega)
    refine ⟨ftab', c, ?_, hc, haddr.trans haddr0, ?_⟩
    · rw [posOf, moveDown_of_ne _ (by omega) he, ← addrOf_buddy_lowHalf base hlevel]
      rw [haddr0] at hrun
      rw [← hrun, ← hhalf]
      rfl
    · rwa [Set.insert_sdiff_self_of_notMem] at hman
      exact fun hl => hnew hl.1

/-- `undo_free` leaves the positions below alone. -/
theorem undoFree_setelement (hpos : 1 ≤ pos') (hlt : pos' < pos) :
    undoFree (setelement pos' ftab t) pos addr base =
      (undoFree ftab pos addr base).map fun ftab' => setelement pos' ftab' t := by
  induction hn : maxBud + 1 - pos generalizing pos ftab addr with
  | zero => rw [undoFree, if_neg (by omega), undoFree, if_neg (by omega)]; rfl
  | succ n ih =>
    have hin : 1 ≤ pos ∧ pos ≤ maxBud := by omega
    have hcomm : ∀ u : Tree, setelement pos (setelement pos' ftab t) u =
        setelement pos' (setelement pos ftab u) t := fun u => by
      simp only [setelement, FreeTable.mk.injEq]
      ext1 i hi
      simp only [Vector.getElem_setIfInBounds]
      split_ifs <;> first | rfl | omega
    obtain ⟨u, he⟩ := element_eq ftab hin
    have he' : element pos (setelement pos' ftab t) = .ok u := by
      rw [element_setelement hin, if_neg (by omega), he]
    rw [undoFree, if_pos hin, he', undoFree, if_pos hin, he]
    simp only [bind, Except.bind]
    cases bplusLookup u addr with
    | some a =>
      simp only [hcomm]
      rfl
    | none =>
      simp only [hcomm]
      exact ih (by omega) (by omega)

theorem element_undoFree (hlt : pos' < pos) (he : element pos' ftab = .ok t)
    (h : undoFree ftab pos addr base = .ok ftab') : element pos' ftab' = .ok t := by
  have hpos := position_of_element he
  -- the element set to what it is
  have hself : setelement pos' ftab t = ftab := by
    refine eq_of_free_iff fun p a => ?_
    by_cases hp : 1 ≤ p ∧ p ≤ maxBud
    · rw [FreeTable.Free, FreeTable.Free, element_setelement hp]
      split
      · obtain rfl : p = pos' := by omega
        rw [he]
      · rfl
    · exact ⟨fun ⟨_, h', _⟩ => absurd (position_of_element h') hp,
        fun ⟨_, h', _⟩ => absurd (position_of_element h') hp⟩
  have hset : undoFree (setelement pos' ftab t) pos addr base = _ :=
    undoFree_setelement hpos.1 hlt
  rw [hself, h] at hset
  rw [Except.ok.inj hset, element_setelement hpos, if_pos rfl]

theorem bplusLookup_of_mem {key : ℤ} (h : key ∈ t) : bplusLookup t key = some key :=
  if_pos h

theorem bplusLookup_of_not_mem {key : ℤ} (h : key ∉ t) : bplusLookup t key = none :=
  if_neg h

/-- The wanted block is taken out of the free block that it lies in. -/
theorem undoFree_manages {free : Set Block} {d : ℕ} (hrep : ftab.Represents base free)
    (ht : Tiling 31 free held) (hb : b.ancestor d ∈ free) :
    ∃ ftab', undoFree ftab (posOf b) (addrOf base b) base = .ok ftab' ∧
      Manages base ftab' (insert b held) := by
  -- induction on the number of levels between the two
  induction d generalizing b with
  | zero =>
    rw [Block.ancestor_zero] at hb
    have hle := ht.cut.level_le (.inl hb)
    have hin := posOf_bounds (b := b) (by omega)
    obtain ⟨t, he⟩ := element_eq ftab hin
    refine ⟨_, ?_, _, hrep.delete he, ht.take hb⟩
    rw [undoFree, if_pos hin, he]
    simp only [bind, Except.bind, bplusLookup_of_mem ((hrep.mem he).2 hb)]
  | succ d ih =>
    have hb' := hb
    rw [Block.ancestor_succ] at hb
    have hle := ht.cut.level_le (.inl hb)
    simp only [Block.ancestor, Block.level_parent] at hle
    have hin := posOf_bounds (b := b) (by omega)
    obtain ⟨t, he⟩ := element_eq ftab hin
    have hnot : b ∉ free := by
      intro hf
      have hl := congrArg Block.level (ht.cut.eq_of_ancestor (.inl hf) (.inl hb'))
      simp only [Block.ancestor] at hl
      omega
    obtain ⟨ftab1, hrun, free1, hrep1, ht1⟩ := ih hb
    have he1 : element (posOf b.buddy) ftab1 = .ok t :=
      element_undoFree (Nat.lt_succ_self _) he hrun
    have hsplit := ht1.split (b := b) (Set.mem_insert _ _)
    refine ⟨_, ?_, _, hrep1.insert he1, ?_⟩
    · rw [undoFree, if_pos hin, he]
      simp only [bind, Except.bind, bplusLookup_of_not_mem (mt (hrep.mem he).1 hnot)]
      have hpow : pow (posOf b - 1) = pow b.level := rfl
      rw [hpow, myBuddy_addrOf]
      rw [undoFree_setelement hin.1 (Nat.lt_succ_self _)]
      exact congrArg (Except.map _) hrun
    · rwa [Set.insert_sdiff_self_of_notMem] at hsplit
      exact ht.not_held_of_ancestor hb

/-- A held block is given back: it is merged with its buddies as long as they are free. -/
theorem Manages.freeInPos (h : Manages base ftab held) (hb : b ∈ held) :
    ∃ ftab', Dets.freeInPos ftab (addrOf base b) (posOf b) base = .ok ftab' ∧
      Manages base ftab' (held \ {b}) := by
  -- induction on the number of levels above the block
  induction hn : 31 - b.level using Nat.strongRecOn generalizing ftab held b with
  | _ n ih =>
    obtain ⟨free, hrep, ht⟩ := h
    have hle := ht.cut.level_le (.inr hb)
    have hin := posOf_bounds (b := b) (by omega)
    obtain ⟨t, he⟩ := element_eq ftab hin
    have hpow : pow (posOf b - 1) = pow b.level := rfl
    rw [Dets.freeInPos, if_neg (by omega), he, hpow, myBuddy_addrOf]
    simp only [bind, Except.bind]
    have he' : element (posOf b.buddy) ftab = .ok t := he
    by_cases hf : b.buddy ∈ free
    · have hmerge := ht.merge hb hf
      have hup := hmerge.cut.level_le (.inr (Set.mem_insert _ _))
      rw [Block.level_parent] at hup
      rw [bplusLookup_of_mem ((hrep.mem he').2 hf)]
      have hno : bplusDelete t (addrOf base b) = t :=
        Finset.erase_eq_of_notMem (mt (hrep.mem he).1 (ht.not_free hb))
      obtain ⟨ftab', hrun, hman⟩ := ih (31 - (b.level + 1)) (by omega)
        ⟨_, hrep.delete he', hmerge⟩ (Set.mem_insert _ _) rfl
      refine ⟨ftab', ?_, ?_⟩
      · simp only [hno]
        exact hrun
      · rwa [Set.insert_sdiff_self_of_notMem] at hman
        exact fun hp => ht.cut.parent_not_mem (.inr hb) (.inr hp.1)
    · rw [bplusLookup_of_not_mem (mt (hrep.mem he').1 hf)]
      exact ⟨_, rfl, _, hrep.insert he, ht.release hb hf⟩

/-- A free block is reserved and cut down to the wanted size. -/
theorem reserveBuddy_manages {free : Set Block} (hrep : ftab.Represents base free)
    (ht : Tiling 31 free held) (hb : b ∈ free) (hpos : 1 ≤ pos0) (hle : pos0 ≤ posOf b) :
    ∃ ftab' c, reserveBuddy ftab (posOf b) pos0 (addrOf base b) = .ok ftab' ∧
      posOf c = pos0 ∧ addrOf base c = addrOf base b ∧ Manages base ftab' (insert c held) := by
  have hlevel := ht.cut.level_le (.inl hb)
  have hin := posOf_bounds (b := b) (by omega)
  obtain ⟨t, he⟩ := element_eq ftab hin
  have htake : Manages base _ (insert b held) := ⟨_, hrep.delete he, ht.take hb⟩
  obtain ⟨ftab', c, hrun, hc, haddr, hman⟩ := htake.moveDown (Set.mem_insert _ _) hpos hle
  refine ⟨ftab', c, ?_, hc, haddr, ?_⟩
  · rw [reserveBuddy, he]
    exact hrun
  · rwa [Set.insert_sdiff_self_of_notMem] at hman
    exact ht.not_held hb

/-! ## Sizes -/

/-- A block of position `log2 n` holds `n` bytes. -/
theorem le_two_pow_log2 (h : 2 ≤ n) : n ≤ 2 ^ log2 n := by
  induction n using Nat.strongRecOn with
  | _ n ih =>
    rw [log2]
    by_cases hbig : n > 2 ^ 12
    · -- the rest above the lowest twelve bits, rounded up
      have hband : n &&& (2 ^ 12 - 1) = n % 2 ^ 12 := Nat.and_two_pow_sub_one_eq_mod n 12
      rw [if_pos (by omega), if_pos (by omega), if_pos (by omega), if_pos hbig,
        Nat.shiftRight_eq_div_pow, pow_add]
      split_ifs with hlow
      · have hrest := ih (n / 2 ^ 12) (by omega) (by omega)
        omega
      · have hrest := ih (1 + n / 2 ^ 12) (by omega) (by omega)
        omega
    · split_ifs <;> omega

theorem sz2pos_ok (h : sz2pos n = .ok pos) : 1 ≤ pos ∧ (n : ℤ) ≤ pow (pos - 1) := by
  rw [sz2pos] at h
  split at h
  · cases h
    have hle := le_two_pow_log2 (show 2 ≤ n + 1 by omega)
    refine ⟨by omega, ?_⟩
    rw [Nat.add_sub_cancel_left, pow]
    exact_mod_cast (show n ≤ 2 ^ log2 (n + 1) by omega)
  · cases h

end Otp.Stdlib.Dets
