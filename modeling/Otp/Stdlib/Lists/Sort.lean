import Otp.Stdlib.Lists.Merge

/-!
# Sorting (`lists.erl`)

`sort/1` splits the list into runs and merges them.  It starts with ascending or with
descending runs, as the first elements ask for; an element that does not fit is put aside and
starts the next run.  Ascending runs are built in reverse and merged as descending lists.
The lists are merged three at a time, into descending and ascending lists by turns.
-/

namespace Otp.Stdlib.Lists

open Otp.Lib.StableSort List

variable {α : Type*} (le : α → α → Bool) {r l : List α} {x y : α} {m : List α}

/-! ## Merging runs -/

mutual

/-- Ascending lists, the first ones first, after the descending lists `acc`, the last ones
first. -/
def mergel : List (List α) → List (List α) → Option (List α)
  | [], [] => some []
  | [h :: t], [] => some (h :: t)
  | [], a :: acc => rmergel (a :: acc) []
  | [] :: l, acc => mergel l acc
  | [h :: t], a :: acc => rmergel ((h :: t).reverseAux [] :: a :: acc) []
  | (h :: t) :: [] :: l, acc => mergel ((h :: t) :: l) acc
  | (h1 :: t1) :: (h2 :: t2) :: [] :: l, acc => mergel ((h1 :: t1) :: (h2 :: t2) :: l) acc
  | (h1 :: t1) :: (h2 :: t2) :: (h3 :: t3) :: l, acc =>
    mergel l (merge3_1 le (h1 :: t1) [] h2 t2 h3 t3 :: acc)
  | [h1 :: t1, h2 :: t2], acc => rmergel (merge2_1 le (h1 :: t1) h2 t2 [] :: acc) []
termination_by l acc => 2 * l.length + 4 * acc.length

/-- Descending lists, the last ones first, before the ascending lists `acc`, the first ones
first. -/
def rmergel : List (List α) → List (List α) → Option (List α)
  | (h3 :: t3) :: (h2 :: t2) :: t1 :: l, acc => rmergel l (rmerge3_1 le t1 [] h2 t2 h3 t3 :: acc)
  | [h2 :: t2, t1], acc => mergel (rmerge2_1 le t1 h2 t2 [] :: acc) []
  | [l], acc => mergel (l.reverseAux [] :: acc) []
  | [], acc => mergel acc []
  | _, _ => none
termination_by l acc => 2 * l.length + 4 * acc.length + 1

end

/-! ## Splitting into runs -/

section Split

variable (finish : List (List α) → Option (List α))

mutual

/-- Ascending runs, in reverse.  The runs are merged by `finish`. -/
def split_1 : α → α → List α → List α → List (List α) → Option (List α)
  | x, y, z :: l, r, rs =>
    if le y z then split_1 y z l (x :: r) rs
    else if le x z then split_1 z y l (x :: r) rs
    else
      match r with
      | [] => split_1 x y l [z] rs
      | h :: t => split_1_1 x y l (h :: t) rs z
  | x, y, [], r, rs => finish ((y :: x :: r) :: rs)

/-- The element `s` is put aside. -/
def split_1_1 : α → α → List α → List α → List (List α) → α → Option (List α)
  | x, y, z :: l, r, rs, s =>
    if le y z then split_1_1 y z l (x :: r) rs s
    else if le x z then split_1_1 z y l (x :: r) rs s
    else if le s z then split_1 s z l [] ((y :: x :: r) :: rs)
    else split_1 z s l [] ((y :: x :: r) :: rs)
  | x, y, [], r, rs, s => finish ([s] :: (y :: x :: r) :: rs)

end

mutual

/-- Descending runs, in reverse.  The runs are merged by `finish`. -/
def split_2 : α → α → List α → List α → List (List α) → Option (List α)
  | x, y, z :: l, r, rs =>
    if ¬le y z then split_2 y z l (x :: r) rs
    else if ¬le x z then split_2 z y l (x :: r) rs
    else
      match r with
      | [] => split_2 x y l [z] rs
      | h :: t => split_2_1 x y l (h :: t) rs z
  | x, y, [], r, rs => finish ((y :: x :: r) :: rs)

/-- The element `s` is put aside. -/
def split_2_1 : α → α → List α → List α → List (List α) → α → Option (List α)
  | x, y, z :: l, r, rs, s =>
    if ¬le y z then split_2_1 y z l (x :: r) rs s
    else if ¬le x z then split_2_1 z y l (x :: r) rs s
    else if ¬le s z then split_2 s z l [] ((y :: x :: r) :: rs)
    else split_2 z s l [] ((y :: x :: r) :: rs)
  | x, y, [], r, rs, s => finish ([s] :: (y :: x :: r) :: rs)

end

end Split

section Start

variable (same : α → α → Bool) (finish_1 finish_2 : List (List α) → Option (List α))

/-- Equal elements at the start of the list. -/
def sort_1 : α → List α → List α → Option (List α)
  | x, y :: l, r =>
    if Tied le x y then sort_1 y l (x :: r)
    else if le x y then split_1 le finish_1 x y l r []
    else split_2 le finish_2 x y l [] [r.reverseAux []]
  | x, [], r => some (r.reverseAux [x])

/-- Sorting with a test for equal first elements, and with merges for ascending and for
descending runs. -/
def sortWith : List α → Option (List α)
  | x :: y :: l =>
    if le x y then
      match l with
      | [] => some [x, y]
      | [z] => some (if le y z then [x, y, z] else if le x z then [x, z, y] else [z, x, y])
      | z :: w :: l =>
        if same x y then sort_1 le finish_1 finish_2 y (z :: w :: l) [x]
        else split_1 le finish_1 x y (z :: w :: l) [] []
    else
      match l with
      | [] => some [y, x]
      | [z] => some (if le x z then [y, x, z] else if le y z then [y, z, x] else [z, y, x])
      | z :: w :: l => split_2 le finish_2 x y (z :: w :: l) [] []
  | [x] => some [x]
  | [] => some []

end Start

def sort : List α → Option (List α) :=
  sortWith le (Tied le) (fun runs => rmergel le runs []) fun runs => mergel le runs.reverse []

/-! ## Merged runs -/

variable {le}

/-- A descending run. -/
def DescRun (le : α → α → Bool) (r : List α) : Prop := r ≠ [] ∧ r.Pairwise fun a b => le b a

/-- An ascending run. -/
def AscRun (le : α → α → Bool) (r : List α) : Prop := r ≠ [] ∧ r.Pairwise fun a b => le a b

theorem AscRun.reverse (h : AscRun le r) : DescRun le r.reverse :=
  ⟨mt reverse_eq_nil_iff.1 h.1, pairwise_reverse.2 h.2⟩

theorem DescRun.reverse (h : DescRun le r) : AscRun le r.reverse := AscRun.reverse h

theorem ascRun_of_sorts (hle : TotalPreorder le) {out : List α} (h : Sorts le l out) (hl : l ≠ []) :
    AscRun le out := by
  refine ⟨fun hnil => hl ?_, h.sorted⟩
  have hperm := h.perm hle
  rw [hnil] at hperm
  exact hperm.nil_eq.symm

theorem descRun_of_sorts (hle : TotalPreorder le) (h : Sorts le l m.reverse) (hl : l ≠ []) :
    DescRun le m := by
  have hrun := (ascRun_of_sorts hle h hl).reverse
  rwa [reverse_reverse] at hrun

/-- The runs still to be merged, in order: those of `acc` are reversed and come last first. -/
def pending (l acc : List (List α)) : List (List α) := (acc.map List.reverse).reverse ++ l

/-- A run that replaces the runs it was merged from. -/
theorem same_replace (rs before after : List (List α)) (h : Same le m rs.flatten) :
    Same le (before ++ m :: after).flatten (before ++ (rs ++ after)).flatten := by
  rw [flatten_append, flatten_append, flatten_append]
  exact (h.append_right _).append_left _

/-! ## Elements of runs -/

theorem AscRun.tail (h : AscRun le (y :: x :: r)) : AscRun le (x :: r) :=
  ⟨cons_ne_nil x r, (pairwise_cons.1 h.2).2⟩

theorem AscRun.head_le (h : AscRun le (y :: x :: r)) : le y x :=
  (pairwise_cons.1 h.2).1 x mem_cons_self

theorem AscRun.cons (hle : TotalPreorder le) {y z : α} {r : List α} (h : AscRun le (y :: r))
    (hzy : le z y) : AscRun le (z :: y :: r) := by
  refine ⟨cons_ne_nil z _, pairwise_cons.2 ⟨?_, h.2⟩⟩
  intro a ha
  rcases mem_cons.1 ha with rfl | ha
  · exact hzy
  · exact hle.trans z y a hzy ((pairwise_cons.1 h.2).1 a ha)

theorem ascRun_singleton (s : α) : AscRun le [s] :=
  ⟨cons_ne_nil s [], pairwise_singleton _ s⟩

-- a descending run is an ascending one of the order turned round

theorem DescRun.tail (h : DescRun le (y :: x :: r)) : DescRun le (x :: r) := AscRun.tail h

theorem DescRun.head_le (h : DescRun le (y :: x :: r)) : le x y :=
  (pairwise_cons.1 h.2).1 x mem_cons_self

theorem DescRun.cons (hle : TotalPreorder le) {y z : α} {r : List α} (h : DescRun le (y :: r))
    (hyz : le y z) : DescRun le (z :: y :: r) := AscRun.cons hle.flip h hyz

theorem descRun_singleton (s : α) : DescRun le [s] := ascRun_singleton s

/-! ## Ascending runs -/

/-- The merges for ascending runs, which are built in reverse and come last first. -/
def Finishes_1 (le : α → α → Bool) (finish : List (List α) → Option (List α)) : Prop :=
  ∀ runs ≠ [], (∀ r ∈ runs, DescRun le r) →
    ∃ out, finish runs = some out ∧ Sorts le runs.flatten.reverse out

section Split_1

variable {finish : List (List α) → Option (List α)} (hle : TotalPreorder le)
  (hfinish : Finishes_1 le finish)

theorem split_1_cons (x y z : α) (l r : List α) (rs : List (List α)) :
    split_1 le finish x y (z :: l) r rs =
      if le y z then split_1 le finish y z l (x :: r) rs
      else if le x z then split_1 le finish z y l (x :: r) rs
      else if r = [] then split_1 le finish x y l [z] rs
      else split_1_1 le finish x y l r rs z := by
  cases r <;> simp [split_1]

include hle hfinish

mutual

theorem split_1_spec (x y : α) (l r : List α) (rs : List (List α)) (hrun : DescRun le (y :: x :: r))
    (hrs : ∀ r ∈ rs, DescRun le r) :
    SortsTo le (split_1 le finish x y l r rs)
      (rs.flatten.reverse ++ ((y :: x :: r).reverse ++ l)) := by
  match l with
  | [] =>
    obtain ⟨out, heq, hsorts⟩ := hfinish _ (cons_ne_nil _ _) (forall_mem_cons.2 ⟨hrun, hrs⟩)
    refine ⟨out, by rw [split_1, heq], ?_⟩
    rwa [append_nil, ← reverse_append]
  | z :: l =>
    rw [split_1_cons]
    split_ifs with hyz hxz hr
    · have hspec := split_1_spec y z l (x :: r) rs (hrun.cons hle hyz) hrs
      rwa [reverse_cons_append] at hspec
    · have hzy := hle.of_not hyz
      refine (split_1_spec z y l (x :: r) rs ((hrun.tail.cons hle hxz).cons hle hzy) hrs).congr
        (Same.append_left _ ?_)
      simp only [reverse_cons_append]
      exact Same.append_left _ ((same_swap hle (not_tied_of_not_le hyz) l).cons x)
    · subst hr
      have hrun' : DescRun le [y, x, z] :=
        ((descRun_singleton z).cons hle (hle.of_not hxz)).cons hle hrun.head_le
      refine (split_1_spec x y l [z] rs hrun' hrs).congr (Same.append_left _ ?_)
      refine (same_move hle [x, y] ?_ l).symm
      simpa using ⟨by simpa using not_tied_of_not_le hxz, by simpa using not_tied_of_not_le hyz⟩
    · exact split_1_1_spec x y l r rs z hrun hrs hxz
termination_by structural l

theorem split_1_1_spec (x y : α) (l r : List α) (rs : List (List α)) (s : α)
    (hrun : DescRun le (y :: x :: r)) (hrs : ∀ r ∈ rs, DescRun le r) (hxs : ¬le x s) :
    SortsTo le (split_1_1 le finish x y l r rs s)
      (rs.flatten.reverse ++ ((y :: x :: r).reverse ++ s :: l)) := by
  match l with
  | [] =>
    obtain ⟨out, heq, hsorts⟩ := hfinish _ (cons_ne_nil _ _)
      (forall_mem_cons.2 ⟨descRun_singleton s, forall_mem_cons.2 ⟨hrun, hrs⟩⟩)
    refine ⟨out, by rw [split_1_1, heq], ?_⟩
    rw [flatten_cons, flatten_cons, reverse_append, reverse_append, append_assoc] at hsorts
    exact hsorts
  | z :: l =>
    have hzs : le x z → ¬le z s := fun hxz hzs => hxs (hle.trans x z s hxz hzs)
    have hsz : le x z → ¬Tied le s z := fun hxz => by
      rw [tied_comm]
      exact not_tied_of_not_le (hzs hxz)
    rw [split_1_1]
    split_ifs with hyz hxz hsz'
    · have hxz := hle.trans x y z hrun.head_le hyz
      have hys : ¬le y s := fun hys => hxs (hle.trans x y s hrun.head_le hys)
      refine (split_1_1_spec y z l (x :: r) rs s (hrun.cons hle hyz) hrs hys).congr
        (Same.append_left _ ?_)
      rw [reverse_cons_append]
      exact Same.append_left _ (same_swap hle (hsz hxz) l)
    · refine (split_1_1_spec z y l (x :: r) rs s
        ((hrun.tail.cons hle hxz).cons hle (hle.of_not hyz)) hrs (hzs hxz)).congr
        (Same.append_left _ ?_)
      simp only [reverse_cons_append]
      refine Same.append_left _ ((same_move hle [y, s] ?_ l).symm.cons x)
      simpa using ⟨by simpa using not_tied_of_not_le hyz, by simpa using hsz hxz⟩
    · have hspec := split_1_spec s z l [] ((y :: x :: r) :: rs)
        ((descRun_singleton s).cons hle hsz') (forall_mem_cons.2 ⟨hrun, hrs⟩)
      rwa [flatten_cons, reverse_append, append_assoc] at hspec
    · have hspec := split_1_spec z s l [] ((y :: x :: r) :: rs)
        ((descRun_singleton z).cons hle (hle.of_not hsz')) (forall_mem_cons.2 ⟨hrun, hrs⟩)
      rw [flatten_cons, reverse_append, append_assoc] at hspec
      refine hspec.congr (Same.append_left _ (Same.append_left _ ?_))
      exact same_swap hle (not_tied_of_not_le hsz') l
termination_by structural l

end

end Split_1

/-! ## Descending runs -/

/-- An element below the first one of a run, and one that is put aside, are below all. -/
theorem AscRun.not_tied (hle : TotalPreorder le) {z : α} (h : AscRun le (x :: r)) (hxz : ¬le x z) :
    ∀ a ∈ x :: r, ¬Tied le a z := by
  intro a ha
  rcases mem_cons.1 ha with rfl | ha
  · exact not_tied_of_not_le hxz
  · exact not_tied_of_not_le fun haz =>
      hxz (hle.trans x a z ((pairwise_cons.1 h.2).1 a ha) haz)

/-- The merges for descending runs, which are built in reverse and come last first. -/
def Finishes_2 (le : α → α → Bool) (finish : List (List α) → Option (List α)) : Prop :=
  ∀ runs ≠ [], (∀ r ∈ runs, AscRun le r) →
    ∃ out, finish runs = some out ∧ Sorts le runs.reverse.flatten out

theorem flatten_reverse_cons (r : List α) (rs : List (List α)) :
    (r :: rs).reverse.flatten = rs.reverse.flatten ++ r := by
  rw [reverse_cons, flatten_append, flatten_singleton]

section Split_2

variable {finish : List (List α) → Option (List α)} (hle : TotalPreorder le)
  (hfinish : Finishes_2 le finish)

theorem split_2_cons (x y z : α) (l r : List α) (rs : List (List α)) :
    split_2 le finish x y (z :: l) r rs =
      if ¬le y z then split_2 le finish y z l (x :: r) rs
      else if ¬le x z then split_2 le finish z y l (x :: r) rs
      else if r = [] then split_2 le finish x y l [z] rs
      else split_2_1 le finish x y l r rs z := by
  cases r <;> simp [split_2]

include hle hfinish

mutual

theorem split_2_spec (x y : α) (l r : List α) (rs : List (List α)) (hrun : AscRun le (y :: x :: r))
    (hrs : ∀ r ∈ rs, AscRun le r) :
    SortsTo le (split_2 le finish x y l r rs) (rs.reverse.flatten ++ (y :: x :: r ++ l)) := by
  match l with
  | [] =>
    obtain ⟨out, heq, hsorts⟩ := hfinish _ (cons_ne_nil _ _) (forall_mem_cons.2 ⟨hrun, hrs⟩)
    refine ⟨out, by rw [split_2, heq], ?_⟩
    rwa [append_nil, ← flatten_reverse_cons]
  | z :: l =>
    rw [split_2_cons]
    split_ifs with hyz hxz hr
    · subst hr
      have hrun' : AscRun le [y, x, z] :=
        ((ascRun_singleton z).cons hle hxz).cons hle hrun.head_le
      exact split_2_spec x y l [z] rs hrun' hrs
    · exact split_2_1_spec x y l r rs z hrun hrs hxz
    · refine (split_2_spec z y l (x :: r) rs
        ((hrun.tail.cons hle (hle.of_not hxz)).cons hle hyz) hrs).congr
        (Same.append_left _ (Same.cons y ?_))
      exact (same_move hle (x :: r) (hrun.tail.not_tied hle hxz) l).symm
    · refine (split_2_spec y z l (x :: r) rs (hrun.cons hle (hle.of_not hyz)) hrs).congr
        (Same.append_left _ ?_)
      exact (same_move hle (y :: x :: r) (hrun.not_tied hle hyz) l).symm
termination_by structural l

theorem split_2_1_spec (x y : α) (l r : List α) (rs : List (List α)) (s : α)
    (hrun : AscRun le (y :: x :: r)) (hrs : ∀ r ∈ rs, AscRun le r) (hxs : le x s) :
    SortsTo le (split_2_1 le finish x y l r rs s)
      (rs.reverse.flatten ++ (y :: x :: r ++ s :: l)) := by
  match l with
  | [] =>
    obtain ⟨out, heq, hsorts⟩ := hfinish _ (cons_ne_nil _ _)
      (forall_mem_cons.2 ⟨ascRun_singleton s, forall_mem_cons.2 ⟨hrun, hrs⟩⟩)
    refine ⟨out, by rw [split_2_1, heq], ?_⟩
    rw [flatten_reverse_cons, flatten_reverse_cons, append_assoc] at hsorts
    exact hsorts
  | z :: l =>
    -- an element that goes into the run moves past the one that was put aside
    have hmove : ¬le x z → Same le (z :: s :: l) (s :: z :: l) := by
      intro hxz
      have hsz : ¬le s z := fun hsz => hxz (hle.trans x s z hxs hsz)
      exact same_swap hle (not_tied_of_not_le hsz) l
    rw [split_2_1]
    split_ifs with hyz hxz hsz
    · have hspec := split_2_spec z s l [] ((y :: x :: r) :: rs)
        ((ascRun_singleton z).cons hle hsz) (forall_mem_cons.2 ⟨hrun, hrs⟩)
      rwa [flatten_reverse_cons, append_assoc] at hspec
    · have hspec := split_2_spec s z l [] ((y :: x :: r) :: rs)
        ((ascRun_singleton s).cons hle (hle.of_not hsz)) (forall_mem_cons.2 ⟨hrun, hrs⟩)
      rw [flatten_reverse_cons, append_assoc] at hspec
      refine hspec.congr (Same.append_left _ (Same.append_left _ ?_))
      exact same_swap hle (not_tied_of_not_le hsz) l
    · have hzx := hle.of_not hxz
      refine (split_2_1_spec z y l (x :: r) rs s
        ((hrun.tail.cons hle hzx).cons hle hyz) hrs (hle.trans z x s hzx hxs)).congr
        (Same.append_left _ (Same.cons y ?_))
      exact (same_move hle (x :: r) (hrun.tail.not_tied hle hxz) (s :: l)).symm.trans
        ((hmove hxz).append_left _)
    · have hxz : ¬le x z := fun hxz => hyz (hle.trans y x z hrun.head_le hxz)
      refine (split_2_1_spec y z l (x :: r) rs s
        (hrun.cons hle (hle.of_not hyz)) hrs (hle.trans y x s hrun.head_le hxs)).congr
        (Same.append_left _ ?_)
      exact (same_move hle (y :: x :: r) (hrun.not_tied hle hyz) (s :: l)).symm.trans
        ((hmove hxz).append_left _)
termination_by structural l

end

end Split_2

/-! ## Sorting -/

section Start

variable {finish_1 finish_2 : List (List α) → Option (List α)}

section

variable (hle : TotalPreorder le)

include hle

theorem pairwise_of_tied (h : ∀ a ∈ l, Tied le x a) : l.Pairwise fun a b => le a b := by
  refine pairwise_of_forall_mem_list ?_
  intro a ha b hb
  have htied := hle.tied_of_tied (h a ha) (h b hb)
  rw [Tied, Bool.and_eq_true] at htied
  exact htied.1

/-- The elements before `x` are all tied with it. -/
theorem sort_1_spec (hfinish_1 : Finishes_1 le finish_1)
    (hfinish_2 : Finishes_2 le finish_2) (x : α) (l r : List α) (hr : r ≠ [])
    (htied : ∀ a ∈ r, Tied le x a) :
    ∃ out, sort_1 le finish_1 finish_2 x l r = some out ∧ Sorts le (r.reverse ++ x :: l) out := by
  induction l generalizing x r with
  | nil =>
    refine ⟨r.reverse ++ [x], by rw [sort_1, reverseAux_eq], ?_, .refl _⟩
    refine pairwise_of_tied hle (x := x) ?_
    intro a ha
    rcases mem_append.1 ha with ha | ha
    · exact htied a (mem_reverse.1 ha)
    · rw [mem_singleton.1 ha]
      exact hle.tied_self x
  | cons y l ih =>
    rw [sort_1]
    split_ifs with hxy hle_xy
    · have htied' : ∀ a ∈ x :: r, Tied le y a := by
        intro a ha
        rcases mem_cons.1 ha with rfl | ha
        · rwa [tied_comm]
        · exact hle.tied_of_tied hxy (htied a ha)
      have hih := ih y (x :: r) (cons_ne_nil x r) htied'
      rwa [reverse_cons_append] at hih
    · have hall : ∀ a ∈ x :: r, Tied le x a := forall_mem_cons.2 ⟨hle.tied_self x, htied⟩
      have hrun : DescRun le (x :: r) :=
        ⟨cons_ne_nil x r, pairwise_of_tied hle.flip (x := x) (by simpa only [tied_flip] using hall)⟩
      have hspec := split_1_spec hle hfinish_1 x y l r [] (hrun.cons hle hle_xy) (by simp)
      rwa [reverse_cons_append, reverse_cons_append] at hspec
    · have hrev : AscRun le r.reverse :=
        ⟨mt reverse_eq_nil_iff.1 hr, pairwise_of_tied hle fun a ha =>
          htied a (mem_reverse.1 ha)⟩
      refine (split_2_spec hle hfinish_2 x y l [] [r.reverse]
        ((ascRun_singleton x).cons hle (hle.of_not hle_xy)) (by simpa using hrev)).congr ?_
      rw [reverse_singleton, flatten_singleton]
      exact Same.append_left _ (same_swap hle hxy l)

/-- Lists of three elements are sorted by comparing them. -/
theorem sorts_three (x y z : α) :
    (le x y → Sorts le [x, y, z]
      (if le y z then [x, y, z] else if le x z then [x, z, y] else [z, x, y])) ∧
    (¬le x y → Sorts le [x, y, z]
      (if le x z then [y, x, z] else if le y z then [y, z, x] else [z, y, x])) := by
  have hthree : ∀ a b c : α, le a b → le b c → [a, b, c].Pairwise fun a b => le a b := by
    intro a b c hab hbc
    exact ((ascRun_singleton c).cons hle hbc).cons hle hab |>.2
  have hswap : ∀ a b : α, ∀ l, ¬le a b → Same le (b :: a :: l) (a :: b :: l) := fun a b l hab =>
    same_swap hle (not_tied_of_not_le hab) l
  constructor
  · intro hxy
    split_ifs with hyz hxz
    · exact ⟨hthree x y z hxy hyz, .refl _⟩
    · exact ⟨hthree x z y hxz (hle.of_not hyz), (hswap y z [] hyz).cons x⟩
    · exact ⟨hthree z x y (hle.of_not hxz) hxy,
        (hswap x z [y] hxz).trans ((hswap y z [] hyz).cons x)⟩
  · intro hxy
    split_ifs with hxz hyz
    · exact ⟨hthree y x z (hle.of_not hxy) hxz, hswap x y [z] hxy⟩
    · exact ⟨hthree y z x hyz (hle.of_not hxz),
        ((hswap x z [] hxz).cons y).trans (hswap x y [z] hxy)⟩
    · exact ⟨hthree z y x (hle.of_not hyz) (hle.of_not hxy), (hswap y z [x] hyz).trans
        (((hswap x z [] hxz).cons y).trans (hswap x y [z] hxy))⟩

theorem sortWith_spec {same : α → α → Bool}
    (hsame : ∀ x y, same x y → Tied le x y) (hfinish_1 : Finishes_1 le finish_1)
    (hfinish_2 : Finishes_2 le finish_2) (l : List α) :
    ∃ out, sortWith le same finish_1 finish_2 l = some out ∧ Sorts le l out := by
  match l with
  | [] => exact ⟨[], rfl, List.Pairwise.nil, .refl _⟩
  | [x] => exact ⟨[x], rfl, pairwise_singleton _ x, .refl _⟩
  | [x, y] =>
    by_cases hxy : le x y
    · refine ⟨[x, y], by simp [sortWith, hxy], ((ascRun_singleton y).cons hle hxy).2, .refl _⟩
    · refine ⟨[y, x], by simp [sortWith, hxy],
        ((ascRun_singleton x).cons hle (hle.of_not hxy)).2, ?_⟩
      exact same_swap hle (not_tied_of_not_le hxy) []
  | [x, y, z] =>
    by_cases hxy : le x y
    · exact ⟨_, by rw [sortWith, if_pos hxy], (sorts_three hle x y z).1 hxy⟩
    · exact ⟨_, by rw [sortWith, if_neg hxy], (sorts_three hle x y z).2 hxy⟩
  | x :: y :: z :: w :: l =>
    rw [sortWith]
    split_ifs with hxy hsame_xy
    · have htied := hsame x y hsame_xy
      rw [tied_comm] at htied
      exact sort_1_spec hle hfinish_1 hfinish_2 y (z :: w :: l) [x] (cons_ne_nil x [])
        (by simpa using htied)
    · exact split_1_spec hle hfinish_1 x y (z :: w :: l) [] []
        ((descRun_singleton x).cons hle hxy) (by simp)
    · refine (split_2_spec hle hfinish_2 x y (z :: w :: l) [] []
        ((ascRun_singleton x).cons hle (hle.of_not hxy)) (by simp)).congr ?_
      exact same_swap hle (not_tied_of_not_le hxy) _

end

end Start

end Otp.Stdlib.Lists
