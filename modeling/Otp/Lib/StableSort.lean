import Mathlib

/-!
# Stable sorting

An order with ties, given as a Boolean relation.  Two lists are the same up to the order of
elements that are not tied (`Same`); such lists are permutations of each other.  A list is
rearranged without leaving the relation by moving an element past others that are not tied
with it (`same_move`), and by merging (`same_merge`).
-/

namespace Otp.Lib.StableSort

open List

variable {α : Type*}

/-- A total order with ties. -/
structure TotalPreorder (le : α → α → Bool) : Prop where
  trans : ∀ a b c, le a b → le b c → le a c
  total : ∀ a b, le a b || le b a

/-- Neither of the two has to come first. -/
def Tied (le : α → α → Bool) (a b : α) : Bool := le a b && le b a

/-- The elements of every class come in the same order. -/
def Same (le : α → α → Bool) (l l' : List α) : Prop :=
  ∀ a, l.filter (Tied le a) = l'.filter (Tied le a)

variable {le : α → α → Bool} {l l' l₁ l₁' l₂ l₂' out : List α} {z : α}

/-! ## The order -/

namespace TotalPreorder

section

variable (h : TotalPreorder le) {a b : α}

include h

theorem refl (a : α) : le a a := by
  have htotal := h.total a a
  rwa [Bool.or_self] at htotal

theorem of_not (hab : ¬le a b) : le b a := by
  have htotal := h.total a b
  rw [Bool.or_eq_true] at htotal
  exact htotal.resolve_left hab

theorem tied_self (a : α) : Tied le a a := by
  rw [Tied, h.refl a]
  rfl

theorem tied_of_tied {c : α} (hb : Tied le a b) (hc : Tied le a c) : Tied le b c := by
  rw [Tied, Bool.and_eq_true] at hb hc ⊢
  exact ⟨h.trans b a c hb.2 hc.1, h.trans c a b hc.2 hb.1⟩

/-- The order read backwards. -/
theorem flip : TotalPreorder fun a b => le b a :=
  ⟨fun a b c hab hbc => h.trans c b a hbc hab, fun a b => h.total b a⟩

end

end TotalPreorder

theorem not_tied_of_not_le {a b : α} (h : ¬le a b) : ¬Tied le a b := by
  rw [Tied, Bool.and_eq_true]
  exact fun hab => h hab.1

theorem tied_comm (a b : α) : Tied le a b = Tied le b a := Bool.and_comm ..

theorem tied_flip (a : α) : Tied (fun x y => le y x) a = Tied le a := by
  funext b
  exact Bool.and_comm ..

/-! ## The same list up to order -/

namespace Same

theorem refl (l : List α) : Same le l l := fun _ => rfl

theorem symm (h : Same le l l') : Same le l' l := fun a => (h a).symm

theorem trans (h : Same le l₁ l₂) (h' : Same le l₂ l) : Same le l₁ l := fun a => (h a).trans (h' a)

theorem append (h₁ : Same le l₁ l₁') (h₂ : Same le l₂ l₂') : Same le (l₁ ++ l₂) (l₁' ++ l₂') := by
  intro a
  rw [filter_append, filter_append, h₁ a, h₂ a]

theorem append_left (l : List α) (h : Same le l₁ l₁') : Same le (l ++ l₁) (l ++ l₁') :=
  (refl l).append h

theorem append_right (l : List α) (h : Same le l₁ l₁') : Same le (l₁ ++ l) (l₁' ++ l) :=
  h.append (refl l)

theorem cons (a : α) (h : Same le l₁ l₁') : Same le (a :: l₁) (a :: l₁') := h.append_left [a]

theorem reverse (h : Same le l l') : Same le l.reverse l'.reverse := by
  intro a
  rw [filter_reverse, filter_reverse, h a]

theorem flip (h : Same (fun a b => le b a) l l') : Same le l l' := by
  intro a
  have hfilter := h a
  rwa [tied_flip] at hfilter

/-- The elements of a class include those equal to its representative. -/
theorem perm (hle : TotalPreorder le) (h : Same le l l') : l.Perm l' := by
  classical
  rw [perm_iff_count]
  intro a
  have hcount := congrArg (List.count a) (h a)
  rwa [count_filter (hle.tied_self a), count_filter (hle.tied_self a)] at hcount

end Same

/-- An element moves past elements that it is not tied with. -/
theorem same_move (hle : TotalPreorder le) (ys : List α) (h : ∀ y ∈ ys, ¬Tied le y z) (l : List α) :
    Same le (ys ++ z :: l) (z :: (ys ++ l)) := by
  intro a
  rw [filter_append]
  by_cases hz : Tied le a z
  · have hys : ys.filter (Tied le a) = [] := by
      rw [filter_eq_nil_iff]
      intro y hy hay
      exact h y hy (hle.tied_of_tied hay hz)
    rw [filter_cons_of_pos hz, filter_cons_of_pos hz, filter_append, hys, nil_append, nil_append]
  · rw [filter_cons_of_neg hz, filter_cons_of_neg hz, filter_append]

theorem same_swap (hle : TotalPreorder le) {y : α} (h : ¬Tied le y z) (l : List α) :
    Same le (z :: y :: l) (y :: z :: l) :=
  (same_move hle [y] (by simpa using h) l).symm

/-! ## Merging -/

/-- On a tie the element of the first list comes first. -/
theorem same_merge (hle : TotalPreorder le) (h : l.Pairwise fun a b => le a b) (l' : List α) :
    Same le (l.merge l' le) (l ++ l') := by
  induction l generalizing l' with
  | nil =>
    rw [nil_merge]
    exact .refl l'
  | cons a l ih =>
    have hpairs := pairwise_cons.1 h
    induction l' with
    | nil =>
      rw [merge_right, append_nil]
      exact .refl _
    | cons b l' ih' =>
      rw [cons_merge_cons]
      by_cases hab : le a b
      · rw [if_pos hab]
        exact (ih hpairs.2 (b :: l')).cons a
      · rw [if_neg hab]
        -- the head of the second list is less than all elements of the first
        refine (ih'.cons b).trans (same_move hle (a :: l) ?_ l').symm
        intro y hy
        rcases mem_cons.1 hy with rfl | hy
        · exact not_tied_of_not_le hab
        · exact not_tied_of_not_le fun hyb => hab (hle.trans a y b (hpairs.1 y hy) hyb)

/-! ## Sorted lists -/

/-- The list `out` is `l` in ascending order, with ties in the order of `l`. -/
structure Sorts (le : α → α → Bool) (l out : List α) : Prop where
  sorted : out.Pairwise fun a b => le a b
  same : Same le out l

namespace Sorts

theorem congr (h : Sorts le l out) (hsame : Same le l l') : Sorts le l' out :=
  ⟨h.sorted, h.same.trans hsame⟩

theorem perm (hle : TotalPreorder le) (h : Sorts le l out) : out.Perm l :=
  h.same.perm hle

/-- What is ascending backwards is descending. -/
theorem reverse (h : Sorts (fun b a => le a b) l out) :
    Sorts le l.reverse out.reverse :=
  ⟨pairwise_reverse.2 h.sorted, h.same.flip.reverse⟩

end Sorts

/-- The result is the list, sorted. -/
def SortsTo (le : α → α → Bool) (res : Option (List α)) (l : List α) : Prop :=
  ∃ out, res = some out ∧ Sorts le l out

theorem SortsTo.congr {res : Option (List α)} (h : SortsTo le res l) (hsame : Same le l l') :
    SortsTo le res l' :=
  h.imp fun _ hout => ⟨hout.1, hout.2.congr hsame⟩

theorem sorts_merge (hle : TotalPreorder le) (h : l.Pairwise fun a b => le a b)
    (h' : l'.Pairwise fun a b => le a b) : Sorts le (l ++ l') (l.merge l' le) :=
  ⟨pairwise_merge hle.trans hle.total l l' h h', same_merge hle h l'⟩

end Otp.Lib.StableSort
