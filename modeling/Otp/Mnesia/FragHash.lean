import Mathlib

/-!
# Fragments of a Mnesia table (`mnesia_frag_hash.erl`)

Linear hashing: the fragments are split one after the other, and when `2 ^ n_doubles` of them
have been split a new round begins (`Linear`).  A new fragment takes keys from one fragment
only, and deleting the last fragment is the way back.
-/

namespace Otp.Mnesia.FragHash

variable {K : Type*}

inductive HashFunction
  | phash
  | phash2
deriving DecidableEq

structure HashState where
  nFragments : ℕ
  nextNToSplit : ℕ
  nDoubles : ℕ
  function : HashFunction
deriving DecidableEq

def initState : HashState := ⟨1, 1, 0, .phash2⟩

def power2 (y : ℕ) : ℕ := 1 <<< y

/-- The new state, the fragments to go through and those to lock besides. -/
def addFrag (s : HashState) : HashState × List ℕ × List ℕ :=
  let p := s.nextNToSplit + 1
  let newN := s.nFragments + 1
  let s2 :=
    if power2 s.nDoubles + 1 = p then
      { s with nFragments := newN, nDoubles := s.nDoubles + 1, nextNToSplit := 1 }
    else { s with nFragments := newN, nextNToSplit := p }
  (s2, [s.nextNToSplit], [newN])

/-- The last fragment goes; a table keeps its first, so the numbers do not become negative. -/
def delFrag (s : HashState) : HashState × List ℕ × List ℕ :=
  let p := s.nextNToSplit - 1
  if p < 1 then
    let l2 := s.nDoubles - 1
    let mergeN := power2 l2
    ({ s with nFragments := s.nFragments - 1, nextNToSplit := mergeN, nDoubles := l2 },
      [s.nFragments], [mergeN])
  else ({ s with nFragments := s.nFragments - 1, nextNToSplit := p }, [s.nFragments], [p])

/-- `erlang:phash2/2` is a fixed hash, reduced; `erlang:phash/2` counts from 1. -/
def keyToFragNumber (phash : K → ℕ → ℕ) (hash : K → ℕ) (s : HashState) (key : K) : ℕ :=
  let a := match s.function with
    | .phash => phash key (power2 (s.nDoubles + 1))
    | .phash2 => hash key % power2 (s.nDoubles + 1) + 1
  if a > s.nFragments then a - power2 s.nDoubles else a

/-- The states of a table with at least one fragment. -/
inductive Reachable : HashState → Prop
  | init : Reachable initState
  | add {s : HashState} : Reachable s → Reachable (addFrag s).1
  | del {s : HashState} : Reachable s → 2 ≤ s.nFragments → Reachable (delFrag s).1

variable {s : HashState}

/-- So many fragments of the round have been split. -/
structure Linear (s : HashState) : Prop where
  function : s.function = .phash2
  pos : 1 ≤ s.nextNToSplit
  le : s.nextNToSplit ≤ power2 s.nDoubles
  count : s.nFragments + 1 = power2 s.nDoubles + s.nextNToSplit

theorem power2_succ (y : ℕ) : power2 (y + 1) = 2 * power2 y := by
  simp only [power2, Nat.one_shiftLeft, Nat.pow_succ']

theorem power2_pos (y : ℕ) : 0 < power2 y := by
  rw [power2, Nat.one_shiftLeft]
  exact Nat.two_pow_pos y

theorem linear_addFrag (h : Linear s) : Linear (addFrag s).1 := by
  obtain ⟨hfunction, hpos, hle, hcount⟩ := h
  simp only [addFrag]
  split_ifs with hlast
  · exact ⟨hfunction, Nat.le_refl 1, power2_pos _, by simp only [power2_succ]; omega⟩
  · exact ⟨hfunction, by simp, by simp only; omega, by simp only; omega⟩

theorem delFrag_addFrag (h : Linear s) : (delFrag (addFrag s).1).1 = s := by
  obtain ⟨-, hpos, -, -⟩ := h
  obtain ⟨n, p, l, f⟩ := s
  simp only [addFrag]
  split_ifs with hlast
  · simp only [delFrag, Nat.sub_self, Nat.zero_lt_one, if_true, Nat.add_sub_cancel,
      HashState.mk.injEq, and_true, true_and]
    omega
  · simp [delFrag, Nat.pos_iff_ne_zero.1 hpos]

/-- Deleting a fragment goes back to a state of the same kind, to which it can be added again. -/
theorem addFrag_delFrag (h : Linear s) (hn : 2 ≤ s.nFragments) :
    Linear (delFrag s).1 ∧ (addFrag (delFrag s).1).1 = s ∧
      (delFrag s).2 = ([s.nFragments], [(delFrag s).1.nextNToSplit]) := by
  obtain ⟨hfunction, hpos, hle, hcount⟩ := h
  obtain ⟨n, p, l, f⟩ := s
  simp only at hpos hle hcount hn
  rw [delFrag]
  split_ifs with hfirst
  · obtain ⟨m, rfl⟩ : ∃ m, l = m + 1 := by
      cases l with
      | zero => simp only [power2] at hle hcount; omega
      | succ m => exact ⟨m, rfl⟩
    have hp : p = 1 := by simp only at hfirst; omega
    rw [power2_succ] at hcount
    simp only [Nat.add_sub_cancel, addFrag, if_true, and_true]
    exact ⟨⟨hfunction, power2_pos m, Nat.le_refl _, by simp only; omega⟩, by simp; omega⟩
  · simp only at hfirst
    have hstep : ¬power2 l + 1 = p - 1 + 1 := by omega
    simp only [addFrag, if_neg hstep, and_true]
    exact ⟨⟨hfunction, by simp only; omega, by simp only; omega, by simp only; omega⟩,
      by simp; omega⟩

theorem Reachable.linear (h : Reachable s) : Linear s := by
  induction h with
  | init => exact ⟨rfl, Nat.le_refl 1, Nat.le_refl 1, rfl⟩
  | add _ ih => exact linear_addFrag ih
  | del _ hn ih => exact (addFrag_delFrag ih hn).1

section

variable (phash : K → ℕ → ℕ) (hash : K → ℕ) (key : K)

theorem keyToFragNumber_eq (h : s.function = .phash2) :
    keyToFragNumber phash hash s key =
      if hash key % (2 * power2 s.nDoubles) + 1 > s.nFragments then
        hash key % (2 * power2 s.nDoubles) + 1 - power2 s.nDoubles
      else hash key % (2 * power2 s.nDoubles) + 1 := by
  simp only [keyToFragNumber, h, power2_succ]

theorem keyToFragNumber_mem (h : Linear s) :
    1 ≤ keyToFragNumber phash hash s key ∧ keyToFragNumber phash hash s key ≤ s.nFragments := by
  obtain ⟨hfunction, hpos, hle, hcount⟩ := h
  have hlt : hash key % (2 * power2 s.nDoubles) < _ := Nat.mod_lt _ (by omega)
  rw [keyToFragNumber_eq _ _ _ hfunction]
  split_ifs <;> omega

/-- A key stays in its fragment, or it moves from the split fragment to the new one. -/
theorem keyToFragNumber_addFrag (h : Linear s) :
    keyToFragNumber phash hash (addFrag s).1 key = keyToFragNumber phash hash s key ∨
      keyToFragNumber phash hash s key = s.nextNToSplit ∧
        keyToFragNumber phash hash (addFrag s).1 key = s.nFragments + 1 := by
  rw [keyToFragNumber_eq _ _ _ h.function, keyToFragNumber_eq _ _ _ (linear_addFrag h).function]
  obtain ⟨-, hpos, hle, hcount⟩ := h
  have hlt : hash key % (2 * power2 s.nDoubles) < _ := Nat.mod_lt _ (by omega)
  simp only [addFrag]
  by_cases hlast : power2 s.nDoubles + 1 = s.nextNToSplit + 1
  · -- a new round: one more bit of the hash, which makes no difference yet
    simp only [if_pos hlast, power2_succ]
    rw [Nat.mul_comm 2 (2 * _), Nat.mod_mul]
    rcases Nat.mod_two_eq_zero_or_one (hash key / (2 * power2 s.nDoubles)) with hbit | hbit
    · rw [hbit]
      split_ifs <;> omega
    · rw [hbit]
      split_ifs <;> omega
  · simp only [if_neg hlast]
    split_ifs <;> omega

end

theorem fragments_move_as_reported (phash : K → ℕ → ℕ) (hash : K → ℕ) (hs : Reachable s) :
    let frag := keyToFragNumber phash hash
    (∀ key, 1 ≤ frag s key ∧ frag s key ≤ s.nFragments) ∧
    (∃ splitN, (addFrag s).2 = ([splitN], [s.nFragments + 1]) ∧
      (addFrag s).1.nFragments = s.nFragments + 1 ∧
      ∀ key, frag (addFrag s).1 key = frag s key ∨
        frag s key = splitN ∧ frag (addFrag s).1 key = s.nFragments + 1) ∧
    (2 ≤ s.nFragments → ∃ mergeN, (delFrag s).2 = ([s.nFragments], [mergeN]) ∧
      (delFrag s).1.nFragments = s.nFragments - 1 ∧
      ∀ key, frag (delFrag s).1 key = if frag s key = s.nFragments then mergeN else frag s key) ∧
    (delFrag (addFrag s).1).1 = s := by
  have h := hs.linear
  refine ⟨fun key => keyToFragNumber_mem phash hash key h,
    ⟨_, rfl, ?_, fun key => keyToFragNumber_addFrag phash hash key h⟩, fun hn => ?_,
      delFrag_addFrag h⟩
  · simp only [addFrag]
    split_ifs <;> rfl
  · obtain ⟨hlinear, hback, hreport⟩ := addFrag_delFrag h hn
    have hcount : (delFrag s).1.nFragments = s.nFragments - 1 := by
      rw [delFrag]
      split_ifs <;> rfl
    refine ⟨_, hreport, hcount, fun key => ?_⟩
    -- the way back from the state with the fragment
    have hmem := keyToFragNumber_mem phash hash key hlinear
    have hmove := keyToFragNumber_addFrag phash hash key hlinear
    rw [hback] at hmove
    split_ifs <;> omega

/-- With three fragments, the second is the next to be split and the third goes to the first. -/
theorem fragments_move_three :
    let frag := keyToFragNumber (K := ℕ) (fun _ n => n) id
    ∃ mergeN, (delFrag ⟨3, 2, 1, .phash2⟩).2 = ([3], [mergeN]) ∧
      ∀ key, frag ⟨2, 1, 1, .phash2⟩ key =
        if frag ⟨3, 2, 1, .phash2⟩ key = 3 then mergeN else frag ⟨3, 2, 1, .phash2⟩ key := by
  have hs := fragments_move_as_reported (K := ℕ) (fun _ n => n) id (.add (.add .init))
  obtain ⟨mergeN, hreport, -, hmove⟩ := hs.2.2.1 (by decide)
  exact ⟨mergeN, hreport, hmove⟩

end Otp.Mnesia.FragHash
