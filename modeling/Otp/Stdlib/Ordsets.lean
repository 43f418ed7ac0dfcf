import Mathlib

/-!
# Ordered sets (`ordsets.erl`)

Lists in strictly increasing term order.  Elements are compared with `<`, `>` and
`==` only; `compare` is the term order, and two elements that compare equal need
not be the same term.  So `add_element/2` leaves a set alone when it holds an
element that compares equal to the new one, whichever of the two it is.
-/

namespace Otp.Stdlib.Ordsets

open List

variable {α : Type} [Ord α]

/-- `is_element/2`. -/
def isElement (e : α) : List α → Bool
  | h :: es =>
    match compare e h with
    | .gt => isElement e es
    | .lt => false
    | .eq => true
  | [] => false

/-- `add_element/2`. -/
def addElement (e : α) : List α → List α
  | h :: es =>
    match compare e h with
    | .gt => h :: addElement e es
    | .lt => e :: h :: es
    | .eq => h :: es
  | [] => [e]

/-- Strictly increasing term order. -/
def IsOrdset (s : List α) : Prop := s.Pairwise fun a b => compare a b = .lt

variable {e x : α} {s : List α}

theorem mem_addElement_imp (h : x ∈ addElement e s) : x = e ∨ x ∈ s := by
  induction s with
  | nil => simpa [addElement] using h
  | cons y s ih =>
    simp only [addElement] at h
    split at h
    · rcases mem_cons.1 h with rfl | h
      · exact .inr mem_cons_self
      · exact (ih h).imp id (mem_cons_of_mem y)
    · exact mem_cons.1 h
    · exact .inr h

theorem subset_addElement (h : x ∈ s) : x ∈ addElement e s := by
  induction s with
  | nil => cases h
  | cons y s ih =>
    simp only [addElement]
    split
    · rcases mem_cons.1 h with rfl | h
      · exact mem_cons_self
      · exact mem_cons_of_mem y (ih h)
    · exact mem_cons_of_mem e h
    · exact h

/-- The element is in the new set, unless another one that compares equal kept
it out. -/
theorem mem_addElement_self (h : ∀ y ∈ s, compare e y = .eq → y = e) : e ∈ addElement e s := by
  induction s with
  | nil => exact mem_cons_self
  | cons y s ih =>
    simp only [addElement]
    split
    · exact mem_cons_of_mem y (ih fun z hz => h z (mem_cons_of_mem y hz))
    · exact mem_cons_self
    · rename_i heq
      rw [h y mem_cons_self heq]
      exact mem_cons_self

variable [Std.TransOrd α]

theorem isOrdset_addElement (hs : IsOrdset s) : IsOrdset (addElement e s) := by
  induction s with
  | nil => exact pairwise_singleton _ _
  | cons y s ih =>
    obtain ⟨hlt, hs'⟩ := pairwise_cons.1 hs
    simp only [addElement]
    split
    · rename_i hgt
      refine pairwise_cons.2 ⟨fun z hz => ?_, ih hs'⟩
      rcases mem_addElement_imp hz with rfl | hz
      · exact Std.OrientedCmp.gt_iff_lt.1 hgt
      · exact hlt z hz
    · rename_i hey
      refine pairwise_cons.2 ⟨fun z hz => ?_, hs⟩
      rcases mem_cons.1 hz with rfl | hz
      · exact hey
      · exact Std.TransCmp.lt_trans hey (hlt z hz)
    · exact hs

/-- Elements of a set that compare equal are one element. -/
theorem IsOrdset.eq_of_compare {y : α} (hs : IsOrdset s) (hx : x ∈ s) (hy : y ∈ s)
    (h : compare x y = .eq) : x = y := by
  by_contra hne
  have hxy : compare x y = .lt ∨ compare y x = .lt := by
    induction s with
    | nil => cases hx
    | cons z s ih =>
      obtain ⟨hlt, hs'⟩ := pairwise_cons.1 hs
      rcases mem_cons.1 hx with rfl | hx' <;> rcases mem_cons.1 hy with rfl | hy'
      · exact absurd rfl hne
      · exact .inl (hlt y hy')
      · exact .inr (hlt x hx')
      · exact ih hs' hx' hy'
  rcases hxy with hlt | hgt
  · rw [h] at hlt
    cases hlt
  · rw [Std.OrientedCmp.eq_comm.1 h] at hgt
    cases hgt

theorem IsOrdset.nodup (hs : IsOrdset s) : s.Nodup :=
  hs.imp fun {x y} h hxy => by
    have hself : compare x x = .eq := Std.ReflCmp.compare_self
    rw [← hxy, hself] at h
    cases h

theorem isElement_of_mem (hs : IsOrdset s) (h : e ∈ s) : isElement e s = true := by
  induction s with
  | nil => cases h
  | cons y s ih =>
    obtain ⟨hlt, hs'⟩ := pairwise_cons.1 hs
    simp only [isElement]
    rcases mem_cons.1 h with rfl | h
    · have hself : compare e e = .eq := Std.ReflCmp.compare_self
      rw [hself]
    · rw [Std.OrientedCmp.gt_iff_lt.2 (hlt e h)]
      exact ih hs' h

end Otp.Stdlib.Ordsets
