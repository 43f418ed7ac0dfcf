import Mathlib

/-!
# Singly linked lists in memory cells

The cells that hold pointers to nodes: the heads of some lists and the `next`
field of each node. A program that moves a pointer to such a cell along a list
and writes through it is described by the nodes passed so far: they are read
from the cells up to the one pointed to, and a write there disturbs neither
them nor another list.
-/

namespace Otp.Lib

/-- A cell: the head of a list, or the `next` field of a node. -/
inductive Cell (H : Type*) where
  | head (h : H)
  | next (node : ℕ)
deriving DecidableEq

/-- The contents of all cells. -/
abbrev Links (H : Type*) := Cell H → Option ℕ

namespace Links

variable {H : Type*} {m : Links H} {c : Cell H} {ns ns' : List ℕ} {n : ℕ} {h h' : H}

/-- From the cell `c` the nodes are found one after the other. -/
def Follows (m : Links H) : Cell H → List ℕ → Prop
  | _, [] => True
  | c, n :: ns => m c = some n ∧ Follows m (.next n) ns

/-- The cell after the last of the nodes. -/
def endCell : Cell H → List ℕ → Cell H
  | c, [] => c
  | _, n :: ns => endCell (.next n) ns

/-- The cells in which the nodes are found. -/
def reads : Cell H → List ℕ → List (Cell H)
  | _, [] => []
  | c, n :: ns => c :: reads (.next n) ns

@[simp] theorem endCell_snoc (c : Cell H) (ns : List ℕ) (n : ℕ) :
    endCell c (ns ++ [n]) = .next n := by
  induction ns generalizing c with
  | nil => rfl
  | cons n' ns ih => exact ih (.next n')

theorem follows_snoc : Follows m c (ns ++ [n]) ↔ Follows m c ns ∧ m (endCell c ns) = some n := by
  induction ns generalizing c with
  | nil => simp [Follows, endCell]
  | cons n' ns ih =>
    show m c = some n' ∧ Follows m (.next n') (ns ++ [n]) ↔ _
    rw [ih]
    exact and_assoc.symm

/-- A node's own field is reached only through the node. -/
theorem mem_reads_next (h : .next n ∈ reads c ns) : c = .next n ∨ n ∈ ns := by
  induction ns generalizing c with
  | nil => simp [reads] at h
  | cons n' ns ih =>
    obtain h | h := List.mem_cons.mp h
    · exact .inl h.symm
    · obtain h | h := ih h
      · cases h
        exact .inr List.mem_cons_self
      · exact .inr (List.mem_cons_of_mem _ h)

theorem mem_reads_head (hmem : .head h ∈ reads (.head h') ns) : h = h' := by
  have hnext : ∀ (ns : List ℕ) (n : ℕ), (.head h : Cell H) ∉ reads (.next n) ns := by
    intro ns
    induction ns with
    | nil => intro n; simp [reads]
    | cons n' ns ih => intro n; simp [reads, ih n']
  cases ns with
  | nil => simp [reads] at hmem
  | cons n ns =>
    obtain hh | hh := List.mem_cons.mp hmem
    · injection hh
    · exact absurd hh (hnext ns n)

theorem endCell_eq (c : Cell H) (ns : List ℕ) :
    endCell c ns = c ∨ ∃ n ∈ ns, endCell c ns = .next n := by
  induction ns generalizing c with
  | nil => exact .inl rfl
  | cons n ns ih =>
    obtain h | ⟨n', hn, h⟩ := ih (.next n)
    · exact .inr ⟨n, List.mem_cons_self .., h⟩
    · exact .inr ⟨n', List.mem_cons_of_mem _ hn, h⟩

/-- The end of a list is not one of the cells it is found in. -/
theorem endCell_notMem_reads (h : H) (hns : ns.Nodup) :
    endCell (.head h) ns ∉ reads (.head h) ns := by
  have hnext : ∀ (ns : List ℕ) (c : Cell H), ns.Nodup → (∀ n ∈ ns, c ≠ .next n) →
      endCell c ns ∉ reads c ns := by
    intro ns
    induction ns with
    | nil => intro c _ _; simp [reads]
    | cons n ns ih =>
      intro c hnd hc
      rw [List.nodup_cons] at hnd
      show endCell (.next n) ns ∉ c :: reads (.next n) ns
      rw [List.mem_cons, not_or]
      refine ⟨?_, ih (.next n) hnd.2 ?_⟩
      · obtain he | ⟨n', hn, he⟩ := endCell_eq (.next n : Cell H) ns
        · rw [he]
          exact (hc n List.mem_cons_self).symm
        · rw [he]
          exact (hc n' (List.mem_cons_of_mem _ hn)).symm
      · intro n' hn he
        injection he with he
        exact hnd.1 (he ▸ hn)
  exact hnext ns _ hns (by simp)

/-- Nor is it one of the cells of a list with another head and other nodes. -/
theorem endCell_notMem_reads_of_disjoint (hne : h ≠ h') (hd : ns.Disjoint ns') :
    endCell (.head h) ns ∉ reads (.head h') ns' := by
  intro hmem
  obtain he | ⟨n, hn, he⟩ := endCell_eq (.head h : Cell H) ns
  · rw [he] at hmem
    exact hne (mem_reads_head hmem)
  · rw [he] at hmem
    obtain hh | hh := mem_reads_next hmem
    · cases hh
    · exact hd hn hh

theorem endCell_ne_of_disjoint (hne : h ≠ h') (hd : ns.Disjoint ns') :
    endCell (.head h) ns ≠ endCell (.head h') ns' := by
  obtain he | ⟨n, hn, he⟩ := endCell_eq (.head h : Cell H) ns <;>
    obtain he' | ⟨n', hn', he'⟩ := endCell_eq (.head h' : Cell H) ns' <;> rw [he, he']
  · simpa using hne
  · simp
  · simp
  · intro heq
    injection heq with heq
    exact hd hn (heq ▸ hn')

/-- The nodes from a cell on, as far as the fuel goes. -/
def collect (m : Links H) : ℕ → Cell H → List ℕ
  | 0, _ => []
  | fuel + 1, c =>
    match m c with
    | none => []
    | some n => n :: collect m fuel (.next n)

theorem collect_eq (h : Follows m c ns) (hend : m (endCell c ns) = none) {fuel : ℕ}
    (hf : ns.length < fuel) : collect m fuel c = ns := by
  induction ns generalizing c fuel with
  | nil =>
    obtain ⟨fuel, rfl⟩ := Nat.exists_eq_succ_of_ne_zero (Nat.pos_iff_ne_zero.mp hf)
    have hc : m c = none := hend
    simp [collect, hc]
  | cons n ns ih =>
    obtain ⟨fuel, rfl⟩ := Nat.exists_eq_succ_of_ne_zero (Nat.ne_zero_of_lt hf)
    obtain ⟨hc, hrest⟩ := h
    have := ih hrest hend (Nat.lt_of_succ_lt_succ hf)
    simp [collect, hc, this]

variable [DecidableEq H]

/-- A write to a cell that is not read leaves the list as it is. -/
theorem follows_update {x : Cell H} {v : Option ℕ} (h : x ∉ reads c ns) :
    Follows (Function.update m x v) c ns ↔ Follows m c ns := by
  induction ns generalizing c with
  | nil => simp [Follows]
  | cons n ns ih =>
    simp only [reads, List.mem_cons, not_or] at h
    simp only [Follows, ih h.2, Function.update_of_ne (Ne.symm h.1)]

end Links

end Otp.Lib
