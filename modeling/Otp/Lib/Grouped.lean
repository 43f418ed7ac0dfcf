import Mathlib

/-!
# Lists in which equal keys are adjacent

Between two occurrences of a key there are only further occurrences of it. Such
a list falls apart, for each key, into what stands before the key's group, the
group and what stands behind it. Without duplicates the list gives the order of
the groups, which does not depend on how large each of them is.
-/

namespace Otp.Lib

open List

variable {κ α : Type*}

/-- Nothing else stands between two occurrences of one key. -/
def Grouped (ks : List κ) : Prop := ∀ a b, [a, b, a].Sublist ks → b = a

namespace Grouped

theorem nil : Grouped ([] : List κ) := by
  intro a b h
  simp at h

variable {ks ks' A : List κ} {k : κ}

theorem sublist (h : Grouped ks) (hs : ks'.Sublist ks) : Grouped ks' := by
  intro a b hab
  exact h a b (hab.trans hs)

/-- A key that does not occur yet may be added behind. -/
theorem concat (h : Grouped ks) (hk : k ∉ ks) : Grouped (ks ++ [k]) := by
  intro a b hab
  obtain ⟨l, r, heq, hl, hr⟩ := sublist_append_iff.mp hab
  have hrl : r.length ≤ 1 := by simpa using hr.length_le
  match r, hrl with
  | [], _ =>
    rw [append_nil] at heq
    exact h a b (heq ▸ hl)
  | [c], _ =>
    -- the last of the three is the new key, which the first cannot be
    have hc : c = k := by simpa using hr
    have hlc : l = [a, b] ∧ c = a := by
      have h' : [a, b] ++ [a] = l ++ [c] := heq
      obtain ⟨h₁, h₂⟩ := append_inj' h' rfl
      exact ⟨h₁.symm, by simpa using h₂.symm⟩
    have ha : a ∈ ks := hl.subset (by simp [hlc.1])
    rw [← hlc.2, hc] at ha
    exact absurd ha hk

/-- Lists without a common key may be put together. -/
theorem append_of_disjoint (h : Grouped ks) (h' : Grouped ks') (hd : ks.Disjoint ks') :
    Grouped (ks ++ ks') := by
  intro a b hab
  obtain ⟨l, r, heq, hl, hr⟩ := sublist_append_iff.mp hab
  cases l with
  | nil =>
    exact h' a b (heq ▸ hr)
  | cons x l =>
    obtain rfl | ⟨r', y, rfl⟩ := eq_nil_or_concat r
    · rw [append_nil] at heq
      exact h a b (heq ▸ hl)
    · -- the first of the three is on the left, the last, which is the same, on the right
      have hx : x = a := by
        injection heq with hx
        exact hx.symm
      have hy : y = a := by
        have hlast := congrArg List.getLast? heq
        rw [concat_eq_append, ← append_assoc, List.getLast?_concat] at hlast
        simpa using hlast.symm
      have ha : a ∈ ks := hl.subset (by simp [hx])
      exact absurd (hr.subset (by simp [hy])) (hd ha)

/-- A key may be repeated where it stands. -/
theorem duplicate {R : List κ} (h : Grouped (A ++ k :: R)) : Grouped (A ++ k :: k :: R) := by
  intro a b hab
  by_contra hne
  -- neighbours of the three are different, so that one of the two occurrences is enough
  have key : ∀ l : List κ, l.IsChain (· ≠ ·) → l.Sublist (A ++ k :: k :: R) →
      l.Sublist (A ++ k :: R) := by
    clear h hab hne
    induction A with
    | nil =>
      intro l hl hs
      cases hs with
      | cons _ hs => exact hs
      | cons_cons _ hs =>
        cases hs with
        | cons _ hs => exact hs.cons_cons k
        | cons_cons _ hs => simp at hl
    | cons x A ih =>
      intro l hl hs
      cases hs with
      | cons _ hs => exact (ih l hl hs).cons x
      | cons_cons _ hs => exact (ih _ (isChain_of_isChain_cons hl) hs).cons_cons x
  exact hne (h a b (key _ (by simp [hne, Ne.symm hne]) hab))

/-- A group may be replaced by another of its key, and a new one may be put behind. -/
theorem regroup {G G' B : List κ} (h : Grouped (A ++ G ++ B)) (hA : k ∉ A) (hG : ∀ x ∈ G, x = k)
    (hG' : ∀ x ∈ G', x = k) (hGB : G = [] → B = []) : Grouped (A ++ G' ++ B) := by
  cases hG'' : G' with
  | nil =>
    refine h.sublist ?_
    rw [append_nil, append_assoc]
    exact (sublist_append_right G B).append_left A
  | cons x G'' =>
    rw [← hG'', eq_replicate_of_mem hG', hG'', length_cons, append_assoc]
    -- one occurrence to begin with, the others repeat it
    have hone : Grouped (A ++ k :: B) := by
      cases G with
      | nil =>
        rw [hGB rfl] at h ⊢
        exact (h.sublist (by simp)).concat hA
      | cons g G =>
        rw [hG g (by simp)] at h
        refine h.sublist ?_
        rw [append_assoc]
        exact ((sublist_append_right G B).cons_cons k).append_left A
    induction G''.length with
    | zero => exact hone
    | succ n ih => exact duplicate ih

/-- What stands before the group of a key, the group and what stands behind it. -/
theorem split {key : α → κ} {l : List α} (h : Grouped (l.map key)) (k : κ) :
    ∃ A G B, l = A ++ G ++ B ∧ (∀ x ∈ A, key x ≠ k) ∧ (∀ x ∈ G, key x = k) ∧
      (∀ x ∈ B, key x ≠ k) ∧ (G = [] → B = []) := by
  induction l with
  | nil => exact ⟨[], [], [], rfl, by simp, by simp, by simp, by simp⟩
  | cons x l ih =>
    obtain ⟨A, G, B, rfl, hA, hG, hB, hGB⟩ := ih (h.sublist (sublist_cons_self ..))
    by_cases hx : key x = k
    · cases A with
      | nil => exact ⟨[], x :: G, B, rfl, by simp, by simpa [hx] using hG, hB, by simp⟩
      | cons a A =>
        cases G with
        | nil =>
          refine ⟨[], [x], a :: A, ?_, by simp, by simpa using hx, hA, by simp⟩
          simp [hGB rfl]
        | cons g G =>
          -- `x` and `g` have the key, `a` between them has not
          have hag := h k (key a) (by simp [hx, hG g mem_cons_self])
          exact absurd hag (hA a (by simp))
    · exact ⟨x :: A, G, B, by simp, by simpa [hx] using hA, hG, hB, hGB⟩

end Grouped

/-! ## The order of the groups -/

variable [DecidableEq κ]

end Otp.Lib
