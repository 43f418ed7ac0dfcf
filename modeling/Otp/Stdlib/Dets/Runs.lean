import Otp.Stdlib.Dets.Buddies

/-!
# Runs of the allocator

A table from its creation on: space is allocated and freed, and processes fix and
release the table in between.  In every state the live blocks and the current free
table cut the file, and while the table is fixed the frozen free table and all that
was live when the table was fixed or was handed out since then cut it as well
(`run_sound`).
-/

namespace Otp.Stdlib.Dets

open Otp.Lib.Buddy FreeTable List

/-! ## States and calls -/

/-- A block handed out for `size` bytes. -/
structure Area where
  addr : ℤ
  pos : ℕ
  size : ℕ
deriving DecidableEq

/-- The integers from `addr` on that a block of position `pos` holds. -/
def InBlock (pos : ℕ) (addr x : ℤ) : Prop := addr ≤ x ∧ x < addr + pow (pos - 1)

def Area.Holds (a : Area) (x : ℤ) : Prop := InBlock a.pos a.addr x

/-- The two areas share no byte. -/
def Area.Apart (a b : Area) : Prop := ∀ x, a.Holds x → ¬ b.Holds x

/-- A table with the areas in use.  `atFix` and `since` follow a fixed table: the areas
in use when it was fixed and those handed out since then. -/
structure State where
  head : Head
  live : List Area
  atFix : List Area
  since : List Area

def State.init (base : ℤ) (filename : String) : State :=
  ⟨⟨filename, base, .unfixed (initAlloc base)⟩, [], [], []⟩

inductive Op
  | alloc (sz : ℕ)
  | free (area : Area) (sz : ℕ)
  | fix (pid : Pid) (now : ℤ × ℤ)
  | release (pid : Pid) (how : How)
  | unlink

/-- Sizes are positive, and only an area in use is freed, with a size of its position. -/
def Op.Legal (s : State) : Op → Prop
  | .alloc sz => 0 < sz
  | .free a sz => a ∈ s.live ∧ sz2pos sz = .ok a.pos
  | _ => True

def Op.apply (s : State) : Op → Except DetsError State
  | .alloc sz =>
    match Dets.alloc s.head sz with
    | .ok (head, addr, pos) =>
      let area := ⟨addr, pos, sz⟩
      .ok { s with head := head, live := area :: s.live, since := area :: s.since }
    -- the call throws, and the table keeps its head
    | .error (.noMoreSpaceOnFile _) => .ok s
    | .error e => .error e
  | .free a sz => do
    let (head, _) ← Dets.free s.head a.addr sz
    .ok { s with head := head, live := s.live.erase a }
  | .fix pid now =>
    let head := doSafeFixtable s.head pid now true
    match s.head.freelists with
    | .unfixed _ => .ok { s with head := head, atFix := s.live, since := [] }
    | .fixed .. => .ok { s with head := head }
  | .release pid how => .ok { s with head := removeFix s.head pid how }
  | .unlink => .ok { s with head := unlinkFixingProcs s.head }

instance (s : State) : (op : Op) → Decidable (op.Legal s)
  | .alloc sz => inferInstanceAs (Decidable (0 < sz))
  | .free a sz => inferInstanceAs (Decidable (a ∈ s.live ∧ sz2pos sz = .ok a.pos))
  | .fix _ _ => inferInstanceAs (Decidable True)
  | .release _ _ => inferInstanceAs (Decidable True)
  | .unlink => inferInstanceAs (Decidable True)

/-- The state after a sequence of legal calls. -/
def run (s : State) : List Op → Option State
  | [] => some s
  | op :: ops =>
    if op.Legal s then
      match op.apply s with
      | .ok s' => run s' ops
      | .error _ => none
    else none

/-- Frees the areas one after the other. -/
def freeAll (head : Head) : List Area → Except DetsError Head
  | [] => .ok head
  | a :: areas => do
    let (head, _) ← free head a.addr a.size
    freeAll head areas

/-! ## What holds in every state -/

/-- The blocks of the free table and the areas cut the file without gaps or overlaps. -/
structure Tiles (base : ℤ) (ftab : FreeTable) (areas : List Area) : Prop where
  cover : ∀ x, (base ≤ x ∧ x < base + pow 31) ↔
    (∃ pos addr, ftab.Free pos addr ∧ InBlock pos addr x) ∨ ∃ a ∈ areas, a.Holds x
  free_apart : ∀ {pos addr pos' addr' x}, ftab.Free pos addr → ftab.Free pos' addr' →
    InBlock pos addr x → InBlock pos' addr' x → pos = pos' ∧ addr = addr'
  areas_apart : areas.Pairwise Area.Apart
  apart : ∀ {pos addr x a}, ftab.Free pos addr → InBlock pos addr x → a ∈ areas → ¬ a.Holds x

/-- The allocator hands out disjoint areas and loses no space. -/
structure Sound (base : ℤ) (s : State) : Prop where
  apart : s.live.Pairwise Area.Apart
  inside : ∀ a ∈ s.live, base ≤ a.addr ∧ a.addr + pow (a.pos - 1) ≤ base + pow 31
  aligned : ∀ a ∈ s.live, pow (a.pos - 1) ∣ a.addr - base
  large : ∀ a ∈ s.live, (a.size : ℤ) ≤ pow (a.pos - 1)
  tiles : Tiles base (getFreelists s.head) s.live
  restored : ∀ areas, areas.Perm s.live →
    ∃ head, freeAll s.head areas = .ok head ∧ getFreelists head = initAlloc base
  frozen : ∀ {stamp counters frozen ftab},
    s.head.freelists = .fixed stamp counters frozen ftab →
    Tiles base frozen (s.since ++ s.atFix) ∧ s.live ⊆ s.since ++ s.atFix ∧
      ∀ a ∈ s.since, ∀ b ∈ s.atFix, a.Apart b
  progress : ∀ op : Op, op.Legal s → ∃ s', op.apply s = .ok s'

/-! ## Areas and held blocks -/

/-- The area is the place of the block in the file. -/
def Area.IsAt (base : ℤ) (a : Area) (b : Block) : Prop :=
  a.pos = posOf b ∧ a.addr = addrOf base b

/-- The blocks of the areas. -/
def blocks (base : ℤ) (areas : List Area) : Set Block := {b | ∃ a ∈ areas, a.IsAt base b}

variable {base x : ℤ} {a : Area} {b : Block} {sz : ℕ} {areas : List Area} {head : Head}

theorem Area.IsAt.unique {c : Block} (hb : a.IsAt base b) (hc : a.IsAt base c) : b = c :=
  eq_of_place (hb.1.symm.trans hc.1) (hb.2.symm.trans hc.2)

theorem inBlock_iff : InBlock (posOf b) (addrOf base b) x ↔ b.Covers (x - base) := by
  rw [Block.covers_iff, InBlock, addrOf, pow, posOf, Nat.add_sub_cancel]
  omega

theorem Area.IsAt.holds_iff (h : a.IsAt base b) : a.Holds x ↔ b.Covers (x - base) := by
  rw [Area.Holds, h.1, h.2, inBlock_iff]

/-- The free table keeps the space that the areas leave; the areas have different
blocks, each for the size that was asked for. -/
structure Keeps (base : ℤ) (ftab : FreeTable) (areas : List Area) : Prop where
  manages : Manages base ftab (blocks base areas)
  placed : ∀ a ∈ areas, ∃ b, a.IsAt base b
  sized : ∀ a ∈ areas, sz2pos a.size = .ok a.pos
  distinct : areas.Pairwise fun a a' => ∀ b, a.IsAt base b → ¬ a'.IsAt base b

namespace Keeps

variable {base : ℤ} {ftab : FreeTable} {areas : List Area} {areas' : List Area}

theorem init (base : ℤ) : Keeps base (initAlloc base) [] where
  manages := by
    have hnone : blocks base [] = ∅ := by simp [blocks]
    rw [hnone]
    exact initAlloc_manages base
  placed := by simp
  sized := by simp
  distinct := .nil

section

variable (h : Keeps base ftab areas) {ftab' : FreeTable}

include h

theorem perm (hp : areas.Perm areas') :
    Keeps base ftab areas' where
  manages := by
    have hsame : blocks base areas' = blocks base areas := by
      ext b
      simp [blocks, hp.mem_iff]
    rw [hsame]
    exact h.manages
  placed a ha := h.placed a (hp.mem_iff.2 ha)
  sized a ha := h.sized a (hp.mem_iff.2 ha)
  distinct := (hp.pairwise_iff fun hne b hb hb' => hne b hb' hb).1 h.distinct

/-- A new area. -/
theorem cons {a : Area} {b : Block} (ha : a.IsAt base b)
    (hs : sz2pos a.size = .ok a.pos) (hb : b ∉ blocks base areas)
    (hm : Manages base ftab' (insert b (blocks base areas))) :
    Keeps base ftab' (a :: areas) where
  manages := by
    have hsame : blocks base (a :: areas) = insert b (blocks base areas) := by
      ext c
      simp only [blocks, mem_cons, exists_eq_or_imp, Set.mem_insert_iff, Set.mem_ofPred_eq]
      exact or_congr_left ⟨fun hc => hc.unique ha, fun hc => hc ▸ ha⟩
    rwa [hsame]
  placed := forall_mem_cons.2 ⟨⟨b, ha⟩, h.placed⟩
  sized := forall_mem_cons.2 ⟨hs, h.sized⟩
  distinct := by
    refine pairwise_cons.2 ⟨fun a' ha' c hc hc' => hb ?_, h.distinct⟩
    rw [← hc.unique ha]
    exact ⟨a', ha', hc'⟩

omit h in
/-- The first area is given back. -/
theorem tail (h : Keeps base ftab (a :: areas)) (ha : a.IsAt base b)
    (hm : Manages base ftab' (blocks base (a :: areas) \ {b})) :
    Keeps base ftab' areas where
  manages := by
    have hrest := (pairwise_cons.1 h.distinct).1
    have hsame : blocks base (a :: areas) \ {b} = blocks base areas := by
      ext c
      simp only [blocks, mem_cons, exists_eq_or_imp, Set.mem_sdiff, Set.mem_ofPred_eq,
        Set.mem_singleton_iff]
      constructor
      · rintro ⟨hc | hc, hne⟩
        · exact absurd (hc.unique ha) hne
        · exact hc
      · rintro ⟨a', ha', hc⟩
        refine ⟨.inr ⟨a', ha', hc⟩, ?_⟩
        rintro rfl
        exact hrest a' ha' c ha hc
    rwa [hsame] at hm
  placed := (forall_mem_cons.1 h.placed).2
  sized := (forall_mem_cons.1 h.sized).2
  distinct := (pairwise_cons.1 h.distinct).2

theorem tiles : Tiles base ftab areas := by
  obtain ⟨free, hrep, ht⟩ := h.manages
  have hroot : ∀ x, (base ≤ x ∧ x < base + pow 31) ↔ (root 31).Covers (x - base) := by
    intro x
    rw [Block.covers_iff, pow]
    simp only [root, Block.start, zero_mul]
    omega
  constructor
  · intro x
    rw [hroot, ht.cut.cover]
    constructor
    · rintro ⟨b, hb | ⟨a, ha, hat⟩, hx⟩
      · exact .inl ⟨_, _, hrep.free.2 hb, inBlock_iff.2 hx⟩
      · exact .inr ⟨a, ha, hat.holds_iff.2 hx⟩
    · rintro (⟨pos, addr, hf, hx⟩ | ⟨a, ha, hx⟩)
      · obtain ⟨b, hb, rfl, rfl⟩ := (hrep _ _).1 hf
        exact ⟨b, .inl hb, inBlock_iff.1 hx⟩
      · obtain ⟨b, hat⟩ := h.placed a ha
        exact ⟨b, .inr ⟨a, ha, hat⟩, hat.holds_iff.1 hx⟩
  · intro pos addr pos' addr' x hf hf' hx hx'
    obtain ⟨b, hb, rfl, rfl⟩ := (hrep _ _).1 hf
    obtain ⟨c, hc, rfl, rfl⟩ := (hrep _ _).1 hf'
    rw [ht.cut.apart (.inl hb) (.inl hc) (inBlock_iff.1 hx) (inBlock_iff.1 hx')]
    exact ⟨rfl, rfl⟩
  · refine h.distinct.imp_of_mem fun {a a'} ha ha' hne x hx hx' => ?_
    obtain ⟨b, hb⟩ := h.placed a ha
    obtain ⟨c, hc⟩ := h.placed a' ha'
    have heq : b = c := ht.cut.apart (.inr ⟨a, ha, hb⟩) (.inr ⟨a', ha', hc⟩)
      (hb.holds_iff.1 hx) (hc.holds_iff.1 hx')
    exact hne b hb (heq ▸ hc)
  · intro pos addr x a hf hx ha hx'
    obtain ⟨b, hb, rfl, rfl⟩ := (hrep _ _).1 hf
    obtain ⟨c, hc⟩ := h.placed a ha
    have heq : b = c := ht.cut.apart (.inl hb) (.inr ⟨a, ha, hc⟩) (inBlock_iff.1 hx)
      (hc.holds_iff.1 hx')
    exact ht.not_held hb (heq ▸ ⟨a, ha, hc⟩)

theorem inside (ha : a ∈ areas) :
    base ≤ a.addr ∧ a.addr + pow (a.pos - 1) ≤ base + pow 31 := by
  have hpow : 0 < pow (a.pos - 1) := by
    rw [pow]
    positivity
  have hfirst := (h.tiles.cover a.addr).2 (.inr ⟨a, ha, le_rfl, by omega⟩)
  have hlast := (h.tiles.cover (a.addr + pow (a.pos - 1) - 1)).2 (.inr ⟨a, ha, by omega, by omega⟩)
  omega

theorem aligned (ha : a ∈ areas) : pow (a.pos - 1) ∣ a.addr - base := by
  obtain ⟨b, hpos, haddr⟩ := h.placed a ha
  rw [hpos, haddr, posOf, addrOf, add_sub_cancel_left]
  exact Dvd.intro_left _ rfl

end

/-- The blocks of a free table and of a second one that holds more. -/
theorem not_mem_blocks_of_subset (hsub : areas ⊆ areas') (hb : b ∉ blocks base areas') :
    b ∉ blocks base areas :=
  fun ⟨a, ha, hat⟩ => hb ⟨a, hsub ha, hat⟩

/-! ## Calls -/

theorem freeInPos (h : Keeps base ftab (a :: areas)) :
    ∃ ftab', Dets.freeInPos ftab a.addr a.pos base = .ok ftab' ∧ Keeps base ftab' areas := by
  obtain ⟨b, hat⟩ := h.placed a mem_cons_self
  obtain ⟨ftab', hrun, hman⟩ := h.manages.freeInPos ⟨a, mem_cons_self, hat⟩
  exact ⟨ftab', by rw [hat.1, hat.2]; exact hrun, h.tail hat hman⟩

/-- A search for a block of position `pos` in a free table, and its reservation there and
in a second table that holds no more. -/
theorem reserve {pos sz : ℕ} (h : Keeps base ftab areas) (hs : sz2pos sz = .ok pos)
    {fpos : ℕ} {addr : ℤ} (hle : pos ≤ fpos) (hf : ftab.Free fpos addr) :
    (∃ ftab', reserveBuddy ftab fpos pos addr = .ok ftab' ∧
      Keeps base ftab' (⟨addr, pos, sz⟩ :: areas)) ∧
    ∀ {ftab2 areas2}, Keeps base ftab2 areas2 → areas2 ⊆ areas →
      ∃ ftab2', (undoFree ftab2 fpos addr base).bind (moveDown · fpos pos addr) = .ok ftab2' ∧
        Keeps base ftab2' (⟨addr, pos, sz⟩ :: areas2) := by
  obtain ⟨free, hrep, ht⟩ := h.manages
  obtain ⟨b, hb, rfl, rfl⟩ := (hrep _ _).1 hf
  have hpos := (sz2pos_ok hs).1
  obtain ⟨ftab', c, hrun, rfl, haddr, hman⟩ := reserveBuddy_manages hrep ht hb hpos hle
  have hat : Area.IsAt base ⟨addrOf base b, posOf c, sz⟩ c := ⟨rfl, haddr.symm⟩
  -- the new block starts where a free block does
  have hnew : c ∉ blocks base areas := by
    intro hc
    have hstart : c.start = b.start := by
      simp only [addrOf] at haddr
      omega
    have heq : c = b := ht.cut.apart (.inr hc) (.inl hb) c.covers_start (hstart ▸ b.covers_start)
    exact ht.not_held hb (heq ▸ hc)
  refine ⟨⟨ftab', hrun, h.cons hat hs hnew hman⟩, fun {ftab2 areas2} h2 hsub => ?_⟩
  have hnew2 := not_mem_blocks_of_subset hsub hnew
  obtain ⟨free2, hrep2, ht2⟩ := h2.manages
  have hblocks : blocks base areas2 ⊆ blocks base areas := by
    rintro _ ⟨a, ha, hat⟩
    exact ⟨a, hsub ha, hat⟩
  obtain ⟨d, hd⟩ := ht2.exists_container_of_subset ht hblocks hb
  obtain ⟨ftab2', hrun2, hman2⟩ := undoFree_manages hrep2 ht2 hd
  obtain ⟨ftab2'', c', hdown, hc', haddr', hman2'⟩ :=
    hman2.moveDown (Set.mem_insert _ _) hpos hle
  obtain rfl : c' = c := eq_of_place hc' (haddr'.trans haddr.symm)
  refine ⟨ftab2'', by rw [hrun2]; exact hdown, h2.cons hat hs hnew2 ?_⟩
  rwa [Set.insert_sdiff_of_mem _ (Set.mem_singleton _), Set.sdiff_singleton_eq_self] at hman2'
  exact ht2.not_held_of_ancestor hd

end Keeps

theorem free_keeps (hbase : head.base = base)
    (h : Keeps base (getFreelists head) (a :: areas)) (hs : sz2pos sz = .ok a.pos) :
    ∃ ftab, free head a.addr sz = .ok (setFreelists head ftab, a.pos) ∧ Keeps base ftab areas := by
  obtain ⟨ftab, hrun, hkeeps⟩ := h.freeInPos
  refine ⟨ftab, ?_, hkeeps⟩
  subst hbase
  simp only [free, hs, bind, Except.bind, hrun]

@[simp]
theorem getFreelists_setFreelists (head : Head) (ftab : FreeTable) :
    getFreelists (setFreelists head ftab) = ftab := by
  rw [setFreelists]
  cases head.freelists <;> rfl

@[simp]
theorem base_setFreelists (head : Head) (ftab : FreeTable) :
    (setFreelists head ftab).base = head.base := by
  rw [setFreelists]
  cases head.freelists <;> rfl

/-- Freeing all areas in use, in any order, leaves the free table of a new file. -/
theorem freeAll_restores (hbase : head.base = base) (h : Keeps base (getFreelists head) areas) :
    ∃ head', freeAll head areas = .ok head' ∧ getFreelists head' = initAlloc base := by
  induction areas generalizing head with
  | nil =>
    have hman := h.manages
    have hnone : blocks base [] = ∅ := by simp [blocks]
    rw [hnone] at hman
    exact ⟨head, rfl, hman.eq_initAlloc⟩
  | cons a areas ih =>
    obtain ⟨ftab, hrun, hkeeps⟩ := free_keeps hbase h (h.sized a mem_cons_self)
    rw [freeAll, hrun]
    exact ih (by rw [base_setFreelists, hbase]) (by rwa [getFreelists_setFreelists])

/-- A release unfixes the table or changes the counters. -/
theorem removeFix_fixed (filename : String) (base : ℤ) (stamp : ℤ × ℤ)
    (counters : List (Pid × ℕ)) (frozen ftab : FreeTable) (pid : Pid) (how : How) :
    removeFix ⟨filename, base, .fixed stamp counters frozen ftab⟩ pid how =
        ⟨filename, base, .unfixed ftab⟩ ∨
      ∃ counters', removeFix ⟨filename, base, .fixed stamp counters frozen ftab⟩ pid how =
        ⟨filename, base, .fixed stamp counters' frozen ftab⟩ := by
  simp only [removeFix]
  cases counters.lookup pid with
  | none => exact .inr ⟨counters, rfl⟩
  | some counter =>
    simp only
    split
    · cases keydelete pid counters with
      | nil => exact .inl rfl
      | cons c cs => exact .inr ⟨c :: cs, rfl⟩
    · exact .inr ⟨_, rfl⟩

/-! ## The invariant of a table -/

structure Inv (base : ℤ) (s : State) : Prop where
  base_eq : s.head.base = base
  current : Keeps base (getFreelists s.head) s.live
  frozen : ∀ {stamp counters frozen ftab},
    s.head.freelists = .fixed stamp counters frozen ftab →
    Keeps base frozen (s.since ++ s.atFix) ∧ s.live ⊆ s.since ++ s.atFix

namespace Inv

variable {base : ℤ} {s : State} {pid : Pid}

theorem init (base : ℤ) (filename : String) : Inv base (State.init base filename) where
  base_eq := rfl
  current := Keeps.init base
  frozen h := nomatch h

section

variable (h : Inv base s)

include h

/-- Space is handed out, or there is no more. -/
theorem alloc (hsz : 0 < sz) :
    Dets.alloc s.head sz = .error (.noMoreSpaceOnFile s.head.filename) ∨
      ∃ head addr pos, Dets.alloc s.head sz = .ok (head, addr, pos) ∧
        Inv base { s with
          head := head, live := ⟨addr, pos, sz⟩ :: s.live,
          since := ⟨addr, pos, sz⟩ :: s.since } := by
  obtain ⟨hbase, hcur, hfrozen⟩ := h
  obtain ⟨pos, hs⟩ : ∃ pos, sz2pos sz = .ok pos := ⟨_, if_pos hsz⟩
  have hpos := (sz2pos_ok hs).1
  obtain ⟨⟨filename, base', freelists⟩, live, atFix, since⟩ := s
  obtain rfl : base' = base := hbase
  cases freelists with
  | unfixed ftab =>
    replace hcur : Keeps base' ftab live := hcur
    simp only [Dets.alloc, hs, bind, Except.bind]
    rcases findFirstFree_spec ftab pos filename hpos with hfind | ⟨fpos, addr, hfind, hle, hf⟩
    · exact .inl (by simp only [hfind])
    · obtain ⟨⟨ftab', hrun, hkeeps⟩, -⟩ := Keeps.reserve hcur hs hle hf
      refine .inr ⟨⟨filename, base', .unfixed ftab'⟩, addr, pos, by simp only [hfind, hrun],
        rfl, hkeeps, ?_⟩
      rintro _ _ _ _ ⟨⟩
  | fixed stamp counters frozen ftab =>
    replace hcur : Keeps base' ftab live := hcur
    obtain ⟨hkeepsF, hsub⟩ := hfrozen rfl
    simp only [Dets.alloc, hs, bind, Except.bind]
    rcases findFirstFree_spec frozen pos filename hpos with hfind | ⟨fpos, addr, hfind, hle, hf⟩
    · exact .inl (by simp only [hfind])
    · obtain ⟨⟨frozen', hrunF, hF⟩, hboth⟩ := hkeepsF.reserve hs hle hf
      obtain ⟨ftab', hrun, hkeeps⟩ := hboth hcur hsub
      refine .inr ⟨⟨filename, base', .fixed stamp counters frozen' ftab'⟩, addr, pos, ?_,
        rfl, hkeeps, ?_⟩
      · cases hundo : undoFree ftab fpos addr base' with
        | error e =>
          rw [hundo] at hrun
          cases hrun
        | ok ftab1 =>
          rw [hundo] at hrun
          replace hrun : Dets.moveDown ftab1 fpos pos addr = .ok ftab' := hrun
          simp only [hfind, hrunF, hundo, hrun]
      · rintro _ _ _ _ ⟨⟩
        exact ⟨hF, cons_subset_cons _ hsub⟩

theorem free (ha : a ∈ s.live) (hs : sz2pos sz = .ok a.pos) :
    ∃ head, Dets.free s.head a.addr sz = .ok (head, a.pos) ∧
      Inv base { s with head := head, live := s.live.erase a } := by
  obtain ⟨ftab, hrun, hkeeps⟩ :=
    free_keeps h.base_eq (h.current.perm (perm_cons_erase ha)) hs
  refine ⟨_, hrun, by rw [← h.base_eq]; simp, by simpa using hkeeps, ?_⟩
  intro stamp counters frozen _ hfix
  have hold : ∃ ftab', s.head.freelists = .fixed stamp counters frozen ftab' := by
    simp only [setFreelists] at hfix
    split at hfix
    · cases hfix
    · cases hfix
      exact ⟨_, by assumption⟩
  obtain ⟨_, hold⟩ := hold
  obtain ⟨hkeepsF, hsub⟩ := h.frozen hold
  exact ⟨hkeepsF, fun b hb => hsub (mem_of_mem_erase hb)⟩

/-- A head with the same current free table and at most the same frozen one. -/
theorem of_head (hbase : head.base = s.head.base) (hcur : getFreelists head = getFreelists s.head)
    (hfix : ∀ {stamp counters frozen ftab}, head.freelists = .fixed stamp counters frozen ftab →
      ∃ stamp' counters' ftab', s.head.freelists = .fixed stamp' counters' frozen ftab') :
    Inv base { s with head := head } where
  base_eq := hbase.trans h.base_eq
  current := by
    rw [hcur]
    exact h.current
  frozen hf := by
    obtain ⟨_, _, _, hold⟩ := hfix hf
    exact h.frozen hold

theorem fix {now : ℤ × ℤ} : ∃ s', (Op.fix pid now).apply s = .ok s' ∧ Inv base s' := by
  obtain ⟨⟨filename, base', freelists⟩, live, atFix, since⟩ := s
  cases freelists with
  | unfixed ftab =>
    refine ⟨_, rfl, h.base_eq, h.current, ?_⟩
    -- both copies of the free table are the current one
    rintro _ _ _ _ ⟨⟩
    exact ⟨h.current, fun _ ha => ha⟩
  | fixed stamp counters frozen ftab =>
    refine ⟨_, rfl, h.of_head ?_ ?_ ?_⟩ <;>
      cases hl : counters.lookup pid <;> simp only [doSafeFixtable, if_true, hl, getFreelists]
    · rintro _ _ _ _ ⟨⟩
      exact ⟨_, _, _, rfl⟩
    · rintro _ _ _ _ ⟨⟩
      exact ⟨_, _, _, rfl⟩

theorem release {how : How} : Inv base { s with head := removeFix s.head pid how } := by
  obtain ⟨⟨filename, base', freelists⟩, live, atFix, since⟩ := s
  cases freelists with
  | unfixed ftab => exact h
  | fixed stamp counters frozen ftab =>
    rcases removeFix_fixed filename base' stamp counters frozen ftab pid how with
      hunfix | ⟨counters', hfix⟩
    · rw [hunfix]
      refine h.of_head rfl rfl ?_
      rintro _ _ _ _ ⟨⟩
    · rw [hfix]
      refine h.of_head rfl rfl ?_
      rintro _ _ _ _ ⟨⟩
      exact ⟨_, _, _, rfl⟩

theorem unlink : Inv base { s with head := unlinkFixingProcs s.head } := by
  obtain ⟨⟨filename, base', freelists⟩, live, atFix, since⟩ := s
  cases freelists with
  | unfixed ftab => exact h
  | fixed stamp counters frozen ftab =>
    refine h.of_head rfl rfl ?_
    rintro _ _ _ _ ⟨⟩

/-- Every legal call is carried out and keeps the invariant. -/
theorem apply {op : Op} (hl : op.Legal s) : ∃ s', op.apply s = .ok s' ∧ Inv base s' := by
  cases op with
  | alloc sz =>
    rcases h.alloc hl with hrun | ⟨head, addr, pos, hrun, hinv⟩
    · exact ⟨s, by simp only [Op.apply, hrun], h⟩
    · exact ⟨_, by simp only [Op.apply, hrun], hinv⟩
  | free a sz =>
    obtain ⟨head, hrun, hinv⟩ := h.free hl.1 hl.2
    exact ⟨_, by simp only [Op.apply, hrun]; rfl, hinv⟩
  | fix pid now => exact h.fix
  | release pid how => exact ⟨_, rfl, h.release⟩
  | unlink => exact ⟨_, rfl, h.unlink⟩

end

end Inv

theorem run_inv {s s' : State} {ops : List Op} (hinv : Inv base s) (h : run s ops = some s') :
    Inv base s' := by
  induction ops generalizing s with
  | nil =>
    cases h
    exact hinv
  | cons op ops ih =>
    rw [run] at h
    split at h
    · next hl =>
      obtain ⟨s1, hrun, hinv1⟩ := hinv.apply hl
      rw [hrun] at h
      exact ih hinv1 h
    · cases h

/-- After any sequence of calls on a new table, fixed or not, the areas in use are
disjoint, aligned blocks of the file that are large enough, the free table holds the
rest, and freeing all areas leaves the free table of a new file; a fixed table hands
out no space that was in use when it was fixed. -/
theorem run_sound (base : ℤ) (filename : String) {ops : List Op} {s : State}
    (h : run (State.init base filename) ops = some s) : Sound base s := by
  have hinv := run_inv (Inv.init base filename) h
  have hcur := hinv.current
  refine ⟨hcur.tiles.areas_apart, fun a ha => hcur.inside ha, fun a ha => hcur.aligned ha,
    fun a ha => (sz2pos_ok (hcur.sized a ha)).2, hcur.tiles, ?_, ?_, ?_⟩
  · intro areas hp
    exact freeAll_restores hinv.base_eq (hcur.perm hp.symm)
  · intro stamp counters frozen ftab hfix
    obtain ⟨hkeeps, hsub⟩ := hinv.frozen hfix
    have hapart := hkeeps.tiles.areas_apart
    exact ⟨hkeeps.tiles, hsub, (pairwise_append.1 hapart).2.2⟩
  · intro op hl
    obtain ⟨s', hrun, -⟩ := hinv.apply hl
    exact ⟨s', hrun⟩

/-- An area freed while the table is fixed is not handed out again. -/
theorem run_sound_freed_while_fixed :
    ∃ s, run (State.init 64 "table")
        [.alloc 100, .fix 7 (0, 0), .free ⟨64, 8, 100⟩ 90, .alloc 100] = some s ∧
      s.atFix = [⟨64, 8, 100⟩] ∧ s.live = [⟨192, 8, 100⟩] ∧ Sound 64 s := by
  have heval : (run (State.init 64 "table")
      [.alloc 100, .fix 7 (0, 0), .free ⟨64, 8, 100⟩ 90, .alloc 100]).map
        (fun s => (s.atFix, s.live)) = some ([⟨64, 8, 100⟩], [⟨192, 8, 100⟩]) := by
    decide +kernel
  obtain ⟨s, hrun, hs⟩ := Option.map_eq_some_iff.1 heval
  exact ⟨s, hrun, congrArg Prod.fst hs, congrArg Prod.snd hs, run_sound 64 "table" hrun⟩

end Otp.Stdlib.Dets
