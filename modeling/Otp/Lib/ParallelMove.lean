import Mathlib

/-!
# Parallel moves

Moves from registers or literals to distinct registers, carried out all at once
(`simultaneous`).  They may be carried out one after the other where no source has been
overwritten (`execAll_moves`), in two groups where the second group reads nothing that the
first one writes (`simultaneous_append`), and round a cycle of registers by swaps
(`execAll_swaps`).
-/

namespace Otp.Lib.ParallelMove

open List Function

/-- A source of a move. -/
inductive Arg (ρ V : Type*)
  | reg (r : ρ)
  | literal (v : V)
deriving DecidableEq

structure Move (ρ V : Type*) where
  src : Arg ρ V
  dst : ρ
deriving DecidableEq

inductive Instr (ρ V : Type*)
  | move (src : Arg ρ V) (dst : ρ)
  | swap (src : Arg ρ V) (dst : ρ)
deriving DecidableEq

variable {ρ V : Type*}

def Move.toInstr (m : Move ρ V) : Instr ρ V := .move m.src m.dst

def Move.toSwap (m : Move ρ V) : Instr ρ V := .swap m.src m.dst

def value (σ : ρ → V) : Arg ρ V → V
  | .reg r => σ r
  | .literal v => v

/-- The second move writes the source of the first. -/
def Links (m m' : Move ρ V) : Prop := m.src = .reg m'.dst

variable [DecidableEq ρ] {ms : List (Move ρ V)} {r dst : ρ} {m e : Move ρ V}

/-- A literal cannot be swapped. -/
def exec (σ : ρ → V) : Instr ρ V → Option (ρ → V)
  | .move src dst => some (update σ dst (value σ src))
  | .swap (.reg r) dst => some (update (update σ r (σ dst)) dst (σ r))
  | .swap (.literal _) _ => none

/-- One instruction after the other. -/
def execAll (σ : ρ → V) : List (Instr ρ V) → Option (ρ → V)
  | [] => some σ
  | i :: is => (exec σ i).bind fun σ' => execAll σ' is

/-- All moves at once. -/
def simultaneous (ms : List (Move ρ V)) (σ : ρ → V) (r : ρ) : V :=
  match ms.find? (·.dst = r) with
  | some m => value σ m.src
  | none => σ r

theorem execAll_append (σ : ρ → V) (is is' : List (Instr ρ V)) :
    execAll σ (is ++ is') = (execAll σ is).bind fun σ' => execAll σ' is' := by
  induction is generalizing σ with
  | nil => rfl
  | cons i is ih =>
    show (exec σ i).bind _ = ((exec σ i).bind _).bind _
    rw [Option.bind_assoc]
    congr 1
    funext σ'
    exact ih σ'

/-! ## All moves at once -/

theorem simultaneous_of_not_mem (h : r ∉ ms.map Move.dst) (σ : ρ → V) :
    simultaneous ms σ r = σ r := by
  have hnone : ms.find? (·.dst = r) = none := by
    rw [List.find?_eq_none]
    intro m hm hr
    exact h (mem_map.2 ⟨m, hm, by simpa using hr⟩)
  rw [simultaneous, hnone]

theorem simultaneous_of_mem (hdst : (ms.map Move.dst).Nodup) (h : m ∈ ms) (σ : ρ → V) :
    simultaneous ms σ m.dst = value σ m.src := by
  cases hfind : ms.find? (·.dst = m.dst) with
  | none =>
    have hne := List.find?_eq_none.1 hfind m h
    simp at hne
  | some m' =>
    have heq : m'.dst = m.dst := by simpa using List.find?_some hfind
    have hm : m' = m := inj_on_of_nodup_map hdst (mem_of_find?_eq_some hfind) h heq
    rw [simultaneous, hfind, hm]

/-- A source that no move writes keeps its value. -/
theorem value_simultaneous {src : Arg ρ V} (h : ∀ m ∈ ms, src ≠ .reg m.dst) (σ : ρ → V) :
    value (simultaneous ms σ) src = value σ src := by
  cases src with
  | literal v => rfl
  | reg r =>
    refine simultaneous_of_not_mem ?_ σ
    intro hr
    obtain ⟨m, hm, rfl⟩ := mem_map.1 hr
    exact h m hm rfl

/-- The order of the moves in the list does not matter. -/
theorem simultaneous_perm {ms' : List (Move ρ V)} (hperm : ms.Perm ms')
    (hdst : (ms.map Move.dst).Nodup) (σ : ρ → V) : simultaneous ms σ = simultaneous ms' σ := by
  have hdst' : (ms'.map Move.dst).Nodup := (hperm.map Move.dst).nodup_iff.1 hdst
  funext r
  by_cases hr : r ∈ ms.map Move.dst
  · obtain ⟨m, hm, rfl⟩ := mem_map.1 hr
    rw [simultaneous_of_mem hdst hm, simultaneous_of_mem hdst' (hperm.mem_iff.1 hm)]
  · rw [simultaneous_of_not_mem hr, simultaneous_of_not_mem]
    exact fun hr' => hr ((hperm.map Move.dst).mem_iff.2 hr')

/-- The second group reads nothing that the first group writes. -/
theorem simultaneous_append {ms ms' : List (Move ρ V)} (hdst : ((ms ++ ms').map Move.dst).Nodup)
    (hsrc : ∀ m' ∈ ms', ∀ m ∈ ms, m'.src ≠ .reg m.dst) (σ : ρ → V) :
    simultaneous (ms ++ ms') σ = simultaneous ms' (simultaneous ms σ) := by
  have hparts := hdst
  rw [map_append, nodup_append] at hparts
  funext r
  by_cases hr' : r ∈ ms'.map Move.dst
  · obtain ⟨m', hm', rfl⟩ := mem_map.1 hr'
    rw [simultaneous_of_mem hdst (mem_append_right _ hm'), simultaneous_of_mem hparts.2.1 hm',
      value_simultaneous (hsrc m' hm')]
  · rw [simultaneous_of_not_mem hr']
    by_cases hr : r ∈ ms.map Move.dst
    · obtain ⟨m, hm, rfl⟩ := mem_map.1 hr
      rw [simultaneous_of_mem hdst (mem_append_left _ hm), simultaneous_of_mem hparts.1 hm]
    · rw [simultaneous_of_not_mem hr, simultaneous_of_not_mem]
      rw [map_append, mem_append]
      exact fun h => h.elim hr hr'

theorem simultaneous_singleton (m : Move ρ V) (σ : ρ → V) :
    simultaneous [m] σ = update σ m.dst (value σ m.src) := by
  funext r
  by_cases hr : r = m.dst
  · have hdst : ([m].map Move.dst).Nodup := nodup_singleton _
    rw [hr, update_self, simultaneous_of_mem hdst (mem_singleton_self m)]
  · rw [update_of_ne hr, simultaneous_of_not_mem]
    rw [map_singleton, mem_singleton]
    exact hr

/-! ## One after the other -/

/-- No move reads what an earlier one has written. -/
theorem execAll_moves (hdst : (ms.map Move.dst).Nodup)
    (hsrc : ms.Pairwise fun m m' => m'.src ≠ .reg m.dst) (σ : ρ → V) :
    execAll σ (ms.map Move.toInstr) = some (simultaneous ms σ) := by
  induction ms generalizing σ with
  | nil => rfl
  | cons m ms ih =>
    have hpairs := pairwise_cons.1 hsrc
    show execAll (update σ m.dst (value σ m.src)) (ms.map Move.toInstr) = _
    rw [ih (nodup_cons.1 hdst).2 hpairs.2, ← simultaneous_singleton]
    refine congrArg some (@simultaneous_append ρ V _ [m] ms hdst ?_ σ).symm
    intro m' hm' m₀ hm₀
    rw [mem_singleton.1 hm₀]
    exact hpairs.1 m' hm'

/-! ## Round a cycle -/

omit [DecidableEq ρ] in
/-- All sources are written by moves of the chain. -/
theorem exists_src_of_isChain (h : (m :: ms ++ [e]).IsChain Links) :
    ∀ m' ∈ m :: ms, ∃ r ∈ (ms ++ [e]).map Move.dst, m'.src = .reg r := by
  induction ms generalizing m with
  | nil =>
    intro m' hm'
    rw [mem_singleton.1 hm']
    exact ⟨e.dst, mem_singleton_self _, (isChain_cons_cons.1 h).1⟩
  | cons m₂ ms ih =>
    have hparts := isChain_cons_cons.1 h
    intro m' hm'
    rcases mem_cons.1 hm' with rfl | hm'
    · exact ⟨m₂.dst, mem_cons_self .., hparts.1⟩
    · obtain ⟨r, hr, heq⟩ := ih hparts.2 m' hm'
      exact ⟨r, mem_cons_of_mem _ hr, heq⟩

omit [DecidableEq ρ] in
/-- Of the last move, the chain only needs the destination. -/
theorem isChain_concat_congr {e' : Move ρ V} (h : (ms ++ [e]).IsChain Links)
    (hdst : e'.dst = e.dst) :
    (ms ++ [e']).IsChain Links := by
  rw [isChain_append] at h ⊢
  refine ⟨h.1, isChain_singleton e', ?_⟩
  intro m hm m' hm'
  cases hm'
  show m.src = .reg e'.dst
  rw [hdst]
  exact h.2.2 m hm e rfl

/-- The state after a swap. -/
def swapped (σ : ρ → V) (r dst : ρ) : ρ → V := update (update σ r (σ dst)) dst (σ r)

theorem swapped_left (σ : ρ → V) (h : r ≠ dst) : swapped σ r dst r = σ dst := by
  rw [swapped, update_of_ne h, update_self]

theorem swapped_right (σ : ρ → V) (r dst : ρ) : swapped σ r dst dst = σ r := update_self ..

theorem swapped_of_ne (σ : ρ → V) {q : ρ} (hr : q ≠ r) (hdst : q ≠ dst) :
    swapped σ r dst q = σ q := by
  rw [swapped, update_of_ne hdst, update_of_ne hr]

/-- The moves of a cycle, where the last one reads what the first one writes: swaps for all
but the last. -/
theorem execAll_swaps (hchain : (m :: ms ++ [e]).IsChain Links) (he : Links e m)
    (hdst : ((e :: m :: ms).map Move.dst).Nodup) (σ : ρ → V) :
    execAll σ ((m :: ms).map Move.toSwap) = some (simultaneous (e :: m :: ms) σ) := by
  induction ms generalizing m e σ with
  | nil =>
    have hsrc : m.src = .reg e.dst := (isChain_cons_cons.1 hchain).1
    have hne : e.dst ≠ m.dst := by simpa using hdst
    show (exec σ (.swap m.src m.dst)).bind some = _
    rw [hsrc]
    show some (swapped σ e.dst m.dst) = _
    congr 1
    funext r
    by_cases hm : r = m.dst
    · rw [hm, swapped_right, simultaneous_of_mem hdst (by simp), hsrc]
      rfl
    · by_cases hr : r = e.dst
      · rw [hr, swapped_left σ hne, simultaneous_of_mem hdst mem_cons_self, he]
        rfl
      · rw [swapped_of_ne σ hr hm, simultaneous_of_not_mem]
        simp [hr, hm]
  | cons m₂ ms ih =>
    have hparts := isChain_cons_cons.1 hchain
    have hsrc : m.src = .reg m₂.dst := hparts.1
    -- the last move now reads what the second move writes
    have hrest := @ih m₂ ⟨.reg m₂.dst, e.dst⟩ (isChain_concat_congr hparts.2 rfl) rfl
    simp only [map_cons, nodup_cons, mem_cons, not_or] at hdst hrest
    obtain ⟨⟨hem, hem₂, hems⟩, ⟨hmm₂, hmms⟩, hm₂ms, hms⟩ := hdst
    show (exec σ (.swap m.src m.dst)).bind _ = _
    rw [hsrc]
    show execAll (swapped σ m₂.dst m.dst) ((m₂ :: ms).map Move.toSwap) = _
    rw [map_cons, hrest ⟨⟨hem₂, hems⟩, hm₂ms, hms⟩]
    congr 1
    have hdst : ((e :: m :: m₂ :: ms).map Move.dst).Nodup := by
      simp only [map_cons, nodup_cons, mem_cons, not_or]
      exact ⟨⟨hem, hem₂, hems⟩, ⟨hmm₂, hmms⟩, hm₂ms, hms⟩
    have hdst' : ((⟨.reg m₂.dst, e.dst⟩ :: m₂ :: ms : List (Move ρ V)).map Move.dst).Nodup := by
      simp only [map_cons, nodup_cons, mem_cons, not_or]
      exact ⟨⟨hem₂, hems⟩, hm₂ms, hms⟩
    funext r
    by_cases hr : r ∈ (m₂ :: ms).map Move.dst
    · obtain ⟨m', hm', rfl⟩ := mem_map.1 hr
      obtain ⟨q, hq, hsrc'⟩ := exists_src_of_isChain hparts.2 m' hm'
      rw [simultaneous_of_mem hdst' (mem_cons_of_mem _ hm'),
        simultaneous_of_mem hdst (by simp [mem_cons.1 hm']), hsrc']
      refine swapped_of_ne σ ?_ ?_
      all_goals
        rintro rfl
        simp only [map_append, mem_append, map_cons, map_nil, mem_singleton] at hq
        tauto
    · by_cases hre : r = e.dst
      · rw [hre, simultaneous_of_mem hdst mem_cons_self, he]
        have hfirst := simultaneous_of_mem hdst' mem_cons_self (swapped σ m₂.dst m.dst)
        rw [hfirst]
        exact swapped_left σ (Ne.symm hmm₂)
      · rw [simultaneous_of_not_mem (by simp only [map_cons, mem_cons] at hr ⊢; tauto)]
        by_cases hrm : r = m.dst
        · rw [hrm, swapped_right, simultaneous_of_mem hdst (by simp), hsrc]
          rfl
        · rw [simultaneous_of_not_mem (by simp only [map_cons, mem_cons] at hr ⊢; tauto)]
          refine swapped_of_ne σ ?_ hrm
          rintro rfl
          exact hr mem_cons_self

end Otp.Lib.ParallelMove
