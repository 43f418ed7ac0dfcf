import Otp.Lib.StableSort

/-!
# Two- and three-way merges (`lists.erl`)

The merges take the lists apart with their heads in arguments and build the result in
reverse.  Ascending lists are merged into a descending one by `merge2_1` and `merge3_1`, and
descending lists into an ascending one by `rmerge2_1` and `rmerge3_1`.  Whatever the lists,
the results are those of `List.merge` (`merge2_1_eq`, `merge3_1_eq`); the merges of descending
lists are the same with `>` for `=<` (`rmerge2_eq_merge2`, `rmerge3_eq_merge3`).

The functions are written for a comparison `le`.  `sort/1` compares terms; the functions of
`keysort/2` are the same with `le` on the elements of tuples.  As in every total order,
`X > Y` is that `X =< Y` does not hold.
-/

namespace Otp.Stdlib.Lists

open Otp.Lib.StableSort List

variable {α : Type*} (le : α → α → Bool) {h1 h2 h3 : α}

/-! ## Ascending lists -/

mutual

def merge2_1 : List α → α → List α → List α → List α
  | h1 :: t1, h2, t2, m =>
    if le h1 h2 then merge2_1 t1 h2 t2 (h1 :: m) else merge2_2 t1 h2 t2 m h1
  | [], h2, t2, m => t2.reverseAux (h2 :: m)
termination_by t1 _ t2 => t1.length + t2.length

def merge2_2 : List α → α → List α → List α → α → List α
  | t1, hdM, h2 :: t2, m, h1 =>
    if le h1 h2 then merge2_1 t1 h2 t2 (h1 :: hdM :: m) else merge2_2 t1 h2 t2 (hdM :: m) h1
  | t1, hdM, [], m, h1 => t1.reverseAux (h1 :: hdM :: m)
termination_by t1 _ t2 => t1.length + t2.length

end

mutual

/-- Take the first list apart. -/
def merge3_1 : List α → List α → α → List α → α → List α → List α
  | h1 :: t1, m, h2, t2, h3, t3 =>
    if le h1 h2 then merge3_12 t1 h1 h2 t2 h3 t3 m else merge3_21 t1 h1 h2 t2 h3 t3 m
  | [], m, h2, t2, h3, t3 =>
    if le h2 h3 then merge2_1 le t2 h3 t3 (h2 :: m) else merge2_2 le t2 h3 t3 m h2
termination_by t1 _ _ t2 _ t3 => 2 * (t1.length + t2.length + t3.length)

/-- Take the second list apart. -/
def merge3_2 : List α → α → List α → List α → α → List α → List α
  | t1, h1, m, h2 :: t2, h3, t3 =>
    if le h1 h2 then merge3_12 t1 h1 h2 t2 h3 t3 m else merge3_21 t1 h1 h2 t2 h3 t3 m
  | t1, h1, m, [], h3, t3 =>
    if le h1 h3 then merge2_1 le t1 h3 t3 (h1 :: m) else merge2_2 le t1 h3 t3 m h1
termination_by t1 _ _ t2 _ t3 => 2 * (t1.length + t2.length + t3.length)

/-- `H1 =< H2`. -/
def merge3_12 (t1 : List α) (h1 h2 : α) (t2 : List α) (h3 : α) (t3 m : List α) : List α :=
  if le h1 h3 then merge3_1 t1 (h1 :: m) h2 t2 h3 t3 else merge3_12_3 t1 h1 h2 t2 (h3 :: m) t3
termination_by 2 * (t1.length + t2.length + t3.length) + 1

/-- `H1 =< H2`, take the third list apart. -/
def merge3_12_3 : List α → α → α → List α → List α → List α → List α
  | t1, h1, h2, t2, m, h3 :: t3 =>
    if le h1 h3 then merge3_1 t1 (h1 :: m) h2 t2 h3 t3 else merge3_12_3 t1 h1 h2 t2 (h3 :: m) t3
  | t1, h1, h2, t2, m, [] => merge2_1 le t1 h2 t2 (h1 :: m)
termination_by t1 _ _ t2 _ t3 => 2 * (t1.length + t2.length + t3.length)

/-- `H1 > H2`. -/
def merge3_21 (t1 : List α) (h1 h2 : α) (t2 : List α) (h3 : α) (t3 m : List α) : List α :=
  if le h2 h3 then merge3_2 t1 h1 (h2 :: m) t2 h3 t3 else merge3_21_3 t1 h1 h2 t2 (h3 :: m) t3
termination_by 2 * (t1.length + t2.length + t3.length) + 1

/-- `H1 > H2`, take the third list apart. -/
def merge3_21_3 : List α → α → α → List α → List α → List α → List α
  | t1, h1, h2, t2, m, h3 :: t3 =>
    if le h2 h3 then merge3_2 t1 h1 (h2 :: m) t2 h3 t3 else merge3_21_3 t1 h1 h2 t2 (h3 :: m) t3
  | t1, h1, h2, t2, m, [] => merge2_2 le t1 h2 t2 m h1
termination_by t1 _ _ t2 _ t3 => 2 * (t1.length + t2.length + t3.length)

end

/-! ## Descending lists -/

mutual

def rmerge2_1 : List α → α → List α → List α → List α
  | h1 :: t1, h2, t2, m =>
    if le h1 h2 then rmerge2_2 t1 h2 t2 m h1 else rmerge2_1 t1 h2 t2 (h1 :: m)
  | [], h2, t2, m => t2.reverseAux (h2 :: m)
termination_by t1 _ t2 => t1.length + t2.length

def rmerge2_2 : List α → α → List α → List α → α → List α
  | t1, hdM, h2 :: t2, m, h1 =>
    if le h1 h2 then rmerge2_2 t1 h2 t2 (hdM :: m) h1 else rmerge2_1 t1 h2 t2 (h1 :: hdM :: m)
  | t1, hdM, [], m, h1 => t1.reverseAux (h1 :: hdM :: m)
termination_by t1 _ t2 => t1.length + t2.length

end

mutual

/-- Take the first list apart. -/
def rmerge3_1 : List α → List α → α → List α → α → List α → List α
  | h1 :: t1, m, h2, t2, h3, t3 =>
    if le h1 h2 then rmerge3_12 t1 h1 h2 t2 h3 t3 m else rmerge3_21 t1 h1 h2 t2 h3 t3 m
  | [], m, h2, t2, h3, t3 =>
    if le h2 h3 then rmerge2_2 le t2 h3 t3 m h2 else rmerge2_1 le t2 h3 t3 (h2 :: m)
termination_by t1 _ _ t2 _ t3 => 2 * (t1.length + t2.length + t3.length)

/-- Take the second list apart. -/
def rmerge3_2 : List α → α → List α → List α → α → List α → List α
  | t1, h1, m, h2 :: t2, h3, t3 =>
    if le h1 h2 then rmerge3_12 t1 h1 h2 t2 h3 t3 m else rmerge3_21 t1 h1 h2 t2 h3 t3 m
  | t1, h1, m, [], h3, t3 =>
    if le h1 h3 then rmerge2_2 le t1 h3 t3 m h1 else rmerge2_1 le t1 h3 t3 (h1 :: m)
termination_by t1 _ _ t2 _ t3 => 2 * (t1.length + t2.length + t3.length)

/-- `H1 =< H2`. -/
def rmerge3_12 (t1 : List α) (h1 h2 : α) (t2 : List α) (h3 : α) (t3 m : List α) : List α :=
  if le h2 h3 then rmerge3_12_3 t1 h1 h2 t2 (h3 :: m) t3 else rmerge3_2 t1 h1 (h2 :: m) t2 h3 t3
termination_by 2 * (t1.length + t2.length + t3.length) + 1

/-- `H1 =< H2`, take the third list apart. -/
def rmerge3_12_3 : List α → α → α → List α → List α → List α → List α
  | t1, h1, h2, t2, m, h3 :: t3 =>
    if le h2 h3 then rmerge3_12_3 t1 h1 h2 t2 (h3 :: m) t3 else rmerge3_2 t1 h1 (h2 :: m) t2 h3 t3
  | t1, h1, h2, t2, m, [] => rmerge2_2 le t1 h2 t2 m h1
termination_by t1 _ _ t2 _ t3 => 2 * (t1.length + t2.length + t3.length)

/-- `H1 > H2`. -/
def rmerge3_21 (t1 : List α) (h1 h2 : α) (t2 : List α) (h3 : α) (t3 m : List α) : List α :=
  if le h1 h3 then rmerge3_21_3 t1 h1 h2 t2 (h3 :: m) t3 else rmerge3_1 t1 (h1 :: m) h2 t2 h3 t3
termination_by 2 * (t1.length + t2.length + t3.length) + 1

/-- `H1 > H2`, take the third list apart. -/
def rmerge3_21_3 : List α → α → α → List α → List α → List α → List α
  | t1, h1, h2, t2, m, h3 :: t3 =>
    if le h1 h3 then rmerge3_21_3 t1 h1 h2 t2 (h3 :: m) t3 else rmerge3_1 t1 (h1 :: m) h2 t2 h3 t3
  | t1, h1, h2, t2, m, [] => rmerge2_1 le t1 h2 t2 (h1 :: m)
termination_by t1 _ _ t2 _ t3 => 2 * (t1.length + t2.length + t3.length)

end

/-! ## The merged list -/

variable {le}

theorem reverse_cons_append (a : α) (l m : List α) :
    (a :: l).reverse ++ m = l.reverse ++ a :: m := by
  rw [reverse_cons, append_assoc]
  rfl

mutual

theorem merge2_1_eq (t1 : List α) (h2 : α) (t2 m : List α) :
    merge2_1 le t1 h2 t2 m = (t1.merge (h2 :: t2) le).reverse ++ m := by
  cases t1 with
  | nil => rw [merge2_1, reverseAux_eq, nil_merge, reverse_cons_append]
  | cons h1 t1 =>
    rw [merge2_1, cons_merge_cons]
    split
    · rw [merge2_1_eq t1 h2 t2 (h1 :: m), reverse_cons_append]
    · rw [merge2_2_eq t1 h2 t2 m h1, reverse_cons_append]
termination_by t1.length + t2.length

theorem merge2_2_eq (t1 : List α) (hdM : α) (t2 m : List α) (h1 : α) :
    merge2_2 le t1 hdM t2 m h1 = ((h1 :: t1).merge t2 le).reverse ++ hdM :: m := by
  cases t2 with
  | nil => rw [merge2_2, reverseAux_eq, merge_right, reverse_cons_append]
  | cons h2 t2 =>
    rw [merge2_2, cons_merge_cons]
    split
    · rw [merge2_1_eq t1 h2 t2 (h1 :: hdM :: m), reverse_cons_append]
    · rw [merge2_2_eq t1 h2 t2 (hdM :: m) h1, reverse_cons_append]
termination_by t1.length + t2.length

end

/-! ### Three lists -/

/-- The three-way merge; elements of the first list come first on a tie, then those of the
second. -/
def merged3 (le : α → α → Bool) (l1 l2 l3 : List α) : List α := l1.merge (l2.merge l3 le) le

theorem merged3_take1 (le : α → α → Bool) (h12 : le h1 h2) (h13 : le h1 h3) (t1 t2 t3 : List α) :
    merged3 le (h1 :: t1) (h2 :: t2) (h3 :: t3) = h1 :: merged3 le t1 (h2 :: t2) (h3 :: t3) := by
  rw [merged3, merged3, cons_merge_cons]
  split
  · rw [cons_merge_cons, if_pos h12]
  · rw [cons_merge_cons, if_pos h13]

theorem merged3_take2 (le : α → α → Bool) (h12 : ¬le h1 h2) (h23 : le h2 h3) (t1 t2 t3 : List α) :
    merged3 le (h1 :: t1) (h2 :: t2) (h3 :: t3) = h2 :: merged3 le (h1 :: t1) t2 (h3 :: t3) := by
  rw [merged3, merged3, cons_merge_cons le h2, if_pos h23, cons_merge_cons, if_neg h12]

theorem merged3_take3 (le : α → α → Bool) (h13 : ¬le h1 h3) (h23 : ¬le h2 h3) (t1 t2 t3 : List α) :
    merged3 le (h1 :: t1) (h2 :: t2) (h3 :: t3) = h3 :: merged3 le (h1 :: t1) (h2 :: t2) t3 := by
  rw [merged3, merged3, cons_merge_cons le h2, if_neg h23, cons_merge_cons, if_neg h13]

/-- What the three-way merges need of a comparison. -/
structure Chained (le : α → α → Bool) : Prop where
  trans : ∀ a b c, le a b → le b c → le a c
  not_trans : ∀ a b c, ¬le a b → ¬le b c → ¬le a c

theorem chained_of_totalPreorder (hle : TotalPreorder le) : Chained le :=
  ⟨hle.trans, fun a b c hab hbc hac => hbc (hle.trans b a c (hle.of_not hab) hac)⟩

theorem merge3_12_eq_3 (t1 : List α) (h1 h2 : α) (t2 : List α) (h3 : α) (t3 m : List α) :
    merge3_12 le t1 h1 h2 t2 h3 t3 m = merge3_12_3 le t1 h1 h2 t2 m (h3 :: t3) := by
  rw [merge3_12, merge3_12_3]

theorem merge3_21_eq_3 (t1 : List α) (h1 h2 : α) (t2 : List α) (h3 : α) (t3 m : List α) :
    merge3_21 le t1 h1 h2 t2 h3 t3 m = merge3_21_3 le t1 h1 h2 t2 m (h3 :: t3) := by
  rw [merge3_21, merge3_21_3]

mutual

theorem merge3_1_eq (hle : Chained le) (t1 m : List α) (h2 : α) (t2 : List α) (h3 : α)
    (t3 : List α) :
    merge3_1 le t1 m h2 t2 h3 t3 = (merged3 le t1 (h2 :: t2) (h3 :: t3)).reverse ++ m := by
  cases t1 with
  | nil => rw [merge3_1, ← merge2_1, merge2_1_eq, merged3, nil_merge]
  | cons h1 t1 =>
    rw [merge3_1]
    split
    · next h12 => rw [merge3_12_eq_3, merge3_12_3_eq hle h12]
    · next h12 => rw [merge3_21_eq_3, merge3_21_3_eq hle h12]
termination_by 2 * (t1.length + t2.length + t3.length) + 1

theorem merge3_2_eq (hle : Chained le) (t1 : List α) (h1 : α) (m t2 : List α) (h3 : α)
    (t3 : List α) :
    merge3_2 le t1 h1 m t2 h3 t3 = (merged3 le (h1 :: t1) t2 (h3 :: t3)).reverse ++ m := by
  cases t2 with
  | nil => rw [merge3_2, ← merge2_1, merge2_1_eq, merged3, nil_merge]
  | cons h2 t2 =>
    rw [merge3_2]
    split
    · next h12 => rw [merge3_12_eq_3, merge3_12_3_eq hle h12]
    · next h12 => rw [merge3_21_eq_3, merge3_21_3_eq hle h12]
termination_by 2 * (t1.length + t2.length + t3.length) + 1

theorem merge3_12_3_eq (hle : Chained le) {h1 h2 : α} (h12 : le h1 h2) (t1 t2 m t3 : List α) :
    merge3_12_3 le t1 h1 h2 t2 m t3 = (merged3 le (h1 :: t1) (h2 :: t2) t3).reverse ++ m := by
  cases t3 with
  | nil =>
    rw [merge3_12_3, merge2_1_eq, merged3, merge_right, cons_merge_cons, if_pos h12,
      reverse_cons_append]
  | cons h3 t3 =>
    rw [merge3_12_3]
    split
    · next h13 => rw [merge3_1_eq hle, merged3_take1 le h12 h13, reverse_cons_append]
    · next h13 =>
      have h23 : ¬le h2 h3 := fun h => h13 (hle.trans h1 h2 h3 h12 h)
      rw [merge3_12_3_eq hle h12, merged3_take3 le h13 h23, reverse_cons_append]
termination_by 2 * (t1.length + t2.length + t3.length)

theorem merge3_21_3_eq (hle : Chained le) {h1 h2 : α} (h12 : ¬le h1 h2) (t1 t2 m t3 : List α) :
    merge3_21_3 le t1 h1 h2 t2 m t3 = (merged3 le (h1 :: t1) (h2 :: t2) t3).reverse ++ m := by
  cases t3 with
  | nil =>
    rw [merge3_21_3, merge2_2_eq, merged3, merge_right, cons_merge_cons, if_neg h12,
      reverse_cons_append]
  | cons h3 t3 =>
    rw [merge3_21_3]
    split
    · next h23 => rw [merge3_2_eq hle, merged3_take2 le h12 h23, reverse_cons_append]
    · next h23 =>
      rw [merge3_21_3_eq hle h12, merged3_take3 le (hle.not_trans h1 h2 h3 h12 h23) h23,
        reverse_cons_append]
termination_by 2 * (t1.length + t2.length + t3.length)

end

/-! ### Descending lists -/

/-- `X > Y`. -/
def gt (le : α → α → Bool) (a b : α) : Bool := !le a b

theorem chained_gt (hle : TotalPreorder le) : Chained (gt le) := by
  have h := chained_of_totalPreorder hle
  constructor
  · simpa [gt] using h.not_trans
  · simpa [gt] using h.trans

theorem merge_gt (l1 l2 : List α) : l1.merge l2 (gt le) = l2.merge l1 fun b a => le a b := by
  induction l1 generalizing l2 with
  | nil => rw [nil_merge, merge_right]
  | cons h1 t1 ih1 =>
    induction l2 with
    | nil => rw [nil_merge, merge_right]
    | cons h2 t2 ih2 =>
      rw [cons_merge_cons, cons_merge_cons, ih1, ih2, gt]
      cases le h1 h2 <;> rfl

/-- Descending lists are merged as ascending ones are, with `>` for `=<`. -/
theorem rmerge2_eq_merge2 :
    (∀ (t1 : List α) h2 t2 m, rmerge2_1 le t1 h2 t2 m = merge2_1 (gt le) t1 h2 t2 m) ∧
    ∀ (t1 : List α) hdM t2 m h1, rmerge2_2 le t1 hdM t2 m h1 = merge2_2 (gt le) t1 hdM t2 m h1 := by
  apply rmerge2_1.mutual_induct le <;> intros <;>
    simp_all [rmerge2_1, rmerge2_2, merge2_1, merge2_2, gt]

theorem rmerge3_eq_merge3 :
    (∀ (t1 m : List α) h2 t2 h3 t3,
      rmerge3_1 le t1 m h2 t2 h3 t3 = merge3_1 (gt le) t1 m h2 t2 h3 t3) ∧
    (∀ (t1 : List α) h1 h2 t2 h3 t3 m,
      rmerge3_21 le t1 h1 h2 t2 h3 t3 m = merge3_12 (gt le) t1 h1 h2 t2 h3 t3 m) ∧
    (∀ (t1 : List α) h1 h2 t2 m t3,
      rmerge3_21_3 le t1 h1 h2 t2 m t3 = merge3_12_3 (gt le) t1 h1 h2 t2 m t3) ∧
    (∀ (t1 : List α) h1 h2 t2 h3 t3 m,
      rmerge3_12 le t1 h1 h2 t2 h3 t3 m = merge3_21 (gt le) t1 h1 h2 t2 h3 t3 m) ∧
    (∀ (t1 : List α) h1 m t2 h3 t3,
      rmerge3_2 le t1 h1 m t2 h3 t3 = merge3_2 (gt le) t1 h1 m t2 h3 t3) ∧
    ∀ (t1 : List α) h1 h2 t2 m t3,
      rmerge3_12_3 le t1 h1 h2 t2 m t3 = merge3_21_3 (gt le) t1 h1 h2 t2 m t3 := by
  apply rmerge3_1.mutual_induct le <;> intros <;>
    simp_all [rmerge3_1, rmerge3_2, rmerge3_12, rmerge3_12_3, rmerge3_21, rmerge3_21_3, merge3_1,
      merge3_2, merge3_12, merge3_12_3, merge3_21, merge3_21_3, rmerge2_eq_merge2, gt]

/-! ## Sorted lists -/

section Sorted

variable (hle : TotalPreorder le) {t1 t2 t3 : List α}
include hle

theorem sorts_merged3 {l1 l2 l3 : List α} (hs1 : l1.Pairwise fun a b => le a b)
    (hs2 : l2.Pairwise fun a b => le a b) (hs3 : l3.Pairwise fun a b => le a b) :
    Sorts le (l1 ++ (l2 ++ l3)) (merged3 le l1 l2 l3) := by
  have hinner := sorts_merge hle hs2 hs3
  exact (sorts_merge hle hs1 hinner.sorted).congr (hinner.same.append_left l1)

section

variable (hs1 : t1.Pairwise fun a b => le a b) (hs2 : (h2 :: t2).Pairwise fun a b => le a b)

include hs1 hs2

theorem sorts_merge2_1 :
    Sorts le (t1 ++ h2 :: t2) (merge2_1 le t1 h2 t2 []).reverse := by
  rw [merge2_1_eq, append_nil, reverse_reverse]
  exact sorts_merge hle hs1 hs2

theorem sorts_merge3_1 (hs3 : (h3 :: t3).Pairwise fun a b => le a b) :
    Sorts le (t1 ++ (h2 :: t2 ++ h3 :: t3)) (merge3_1 le t1 [] h2 t2 h3 t3).reverse := by
  rw [merge3_1_eq (chained_of_totalPreorder hle), append_nil, reverse_reverse]
  exact sorts_merged3 hle hs1 hs2 hs3

end

variable (hs1 : t1.Pairwise fun a b => le b a) (hs2 : (h2 :: t2).Pairwise fun a b => le b a)

include hs1 hs2

theorem sorts_rmerge2_1 :
    Sorts le (h2 :: t2 ++ t1).reverse (rmerge2_1 le t1 h2 t2 []) := by
  rw [rmerge2_eq_merge2.1, merge2_1_eq, append_nil, merge_gt]
  exact (sorts_merge hle.flip hs2 hs1).reverse

theorem sorts_rmerge3_1 (hs3 : (h3 :: t3).Pairwise fun a b => le b a) :
    Sorts le (h3 :: t3 ++ (h2 :: t2 ++ t1)).reverse (rmerge3_1 le t1 [] h2 t2 h3 t3) := by
  rw [rmerge3_eq_merge3.1, merge3_1_eq (chained_gt hle), append_nil, merged3, merge_gt, merge_gt,
    ← append_assoc]
  have hinner := sorts_merge hle.flip hs3 hs2
  exact ((sorts_merge hle.flip hinner.sorted hs1).congr (hinner.same.append_right t1)).reverse

end Sorted

end Otp.Stdlib.Lists
