import Otp.Erts.Terms.Order
import Otp.Stdlib.Lists.Sort

/-!
# Sorting by a key (`lists.erl`)

`keysort/2` splits the list into runs as `sort/1` does, but merges them in its own way: the
lists of runs are not reversed between the passes, so the direction `asc` or `desc` says
whether the first runs come first or last.
-/

namespace Otp.Stdlib.Lists

open Otp.Erts Otp.Lib.StableSort List

variable {α : Type*} (le : α → α → Bool) {m : List α} {res : Option (List α)}
  {l acc : List (List α)}

/-! ## Merging runs -/

inductive Direction
  | asc
  | desc
deriving DecidableEq

mutual

/-- Ascending lists, and the descending lists made of others.  There is always a list. -/
def keymergel : List (List α) → List (List α) → Direction → Option (List α)
  | t1 :: (h2 :: t2) :: (h3 :: t3) :: l, acc, .asc =>
    keymergel l (merge3_1 le t1 [] h2 t2 h3 t3 :: acc) .asc
  | (h3 :: t3) :: (h2 :: t2) :: t1 :: l, acc, .desc =>
    keymergel l (merge3_1 le t1 [] h2 t2 h3 t3 :: acc) .desc
  | t1 :: (h2 :: t2) :: l, acc, .asc => keymergel l (merge2_1 le t1 h2 t2 [] :: acc) .asc
  | (h2 :: t2) :: t1 :: l, acc, .desc => keymergel l (merge2_1 le t1 h2 t2 [] :: acc) .desc
  | [l], [], _ => some l
  | [l], a :: acc, o => rkeymergel (l.reverseAux [] :: a :: acc) [] o
  | [], a :: acc, o => rkeymergel (a :: acc) [] o
  -- without any list, the two functions would call each other for ever
  | _, _, _ => none
termination_by l acc => 3 * l.length + 5 * acc.length

/-- Descending lists, and the ascending lists made of others. -/
def rkeymergel : List (List α) → List (List α) → Direction → Option (List α)
  | (h3 :: t3) :: (h2 :: t2) :: t1 :: l, acc, .asc =>
    rkeymergel l (rmerge3_1 le t1 [] h2 t2 h3 t3 :: acc) .asc
  | t1 :: (h2 :: t2) :: (h3 :: t3) :: l, acc, .desc =>
    rkeymergel l (rmerge3_1 le t1 [] h2 t2 h3 t3 :: acc) .desc
  | (h2 :: t2) :: t1 :: l, acc, .asc => rkeymergel l (rmerge2_1 le t1 h2 t2 [] :: acc) .asc
  | t1 :: (h2 :: t2) :: l, acc, .desc => rkeymergel l (rmerge2_1 le t1 h2 t2 [] :: acc) .desc
  | [l], acc, o => keymergel (l.reverseAux [] :: acc) [] o
  | [], acc, o => keymergel acc [] o
  | _, _, _ => none
termination_by l acc => 3 * l.length + 5 * acc.length + 1

end

/-- Sorting by the order `le` of keys, with the test `same` for equal first tuples. -/
def keysortBy (same : α → α → Bool) (l : List α) : Option (List α) :=
  sortWith le same (fun runs => rkeymergel le runs [] .asc)
    (fun runs => keymergel le runs [] .desc) l

/-! ## Tuples -/

section Tuples

variable {τ : Type*}

/-- A tuple that has an element at position `n`. -/
structure Tuple (τ : Type*) (n : ℕ) where
  elements : List τ
  pos : 0 < n
  size : n ≤ elements.length

def Tuple.element {n : ℕ} (t : Tuple τ n) : τ :=
  t.elements.get ⟨n - 1, Nat.lt_of_lt_of_le (Nat.sub_lt t.pos Nat.one_pos) t.size⟩

/-- `==` on the elements of two tuples. -/
def elementsEq (le : τ → τ → Bool) : List τ → List τ → Bool
  | x :: xs, y :: ys => Tied le x y && elementsEq le xs ys
  | [], [] => true
  | _, _ => false

/-- The order of the elements at position `n`. -/
def tupleLe (le : τ → τ → Bool) {n : ℕ} (a b : Tuple τ n) : Bool := le a.element b.element

/-- Sorting tuples that have an element at position `n`. -/
def keysortTuples (le : τ → τ → Bool) {n : ℕ} (l : List (Tuple τ n)) : Option (List (Tuple τ n)) :=
  keysortBy (tupleLe le) (fun a b => elementsEq le a.elements b.elements) l

def toTuple (n : ℕ) (t : List τ) : Option (Tuple τ n) :=
  if h : 0 < n ∧ n ≤ t.length then some ⟨t, h.1, h.2⟩ else none

/-- A position below one is refused.  Lists of up to one tuple are not looked into; in others
every tuple must have an element at the position. -/
def keysort (le : τ → τ → Bool) (n : ℕ) (l : List (List τ)) : Option (List (List τ)) :=
  if 0 < n then
    match l with
    | [] => some []
    | [x] => some [x]
    | x :: y :: t => do
      let tuples ← (x :: y :: t).mapM (toTuple n)
      let out ← keysortTuples le tuples
      return out.map Tuple.elements
  else none

end Tuples

/-! ## Merged runs

The runs of `sort/1` stand in the order of the list; here the direction says whether they do, so
one invariant covers both.  Upwards, the steps are those of `sort/1`. -/

variable {le}

/-- The runs in the order of the list. -/
def Direction.order : Direction → List (List α) → List (List α)
  | .asc, l => l
  | .desc, l => l.reverse

/-- A run that replaces the runs it was merged from, in either direction. -/
theorem same_replace_order (o : Direction) (rs before after : List (List α))
    (h : Same le m (o.order rs).flatten) :
    Same le (o.order (before ++ m :: after)).flatten
      (o.order (before ++ (rs ++ after))).flatten := by
  cases o with
  | asc => exact same_replace rs before after h
  | desc =>
    have hrev := same_replace rs.reverse after.reverse before.reverse h
    simpa [Direction.order] using hrev

/-- The runs that merging starts with are the last ones of the pass before. -/
theorem pending_cons (r : List α) (l acc : List (List α)) :
    pending l (r :: acc) = pending (r.reverse :: l) acc := by
  simp [pending]

/-- Runs that were merged into a descending one. -/
theorem sortsTo_keymerged (o : Direction) (rs : List (List α))
    (hmerge : Same le m.reverse (o.order rs).flatten)
    (h : SortsTo le res (o.order (pending l (m :: acc))).flatten) :
    SortsTo le res (o.order (pending (rs ++ l) acc)).flatten := by
  rw [pending_cons] at h
  exact h.congr (same_replace_order o rs _ l hmerge)

/-- Runs that were merged into an ascending one. -/
theorem sortsTo_rkeymerged (o : Direction) (rs : List (List α))
    (hmerge : Same le m (o.order (rs.map List.reverse).reverse).flatten)
    (h : SortsTo le res (o.order (pending (m :: acc) l)).flatten) :
    SortsTo le res (o.order (pending acc (rs ++ l))).flatten := by
  have hsame := same_replace_order o _ (l.map List.reverse).reverse acc hmerge
  rw [pending, map_append, reverse_append, append_assoc]
  exact h.congr hsame

/-- A single run is the result of `mergel/2`, -/
theorem mergel_singleton {r : List α} (h : r ≠ []) : mergel le [r] [] = some r := by
  cases r with
  | nil => exact absurd rfl h
  | cons x t => rw [mergel]

/-- or begins the next pass. -/
theorem mergel_last {r a : List α} (h : r ≠ []) :
    mergel le [r] (a :: acc) = rmergel le (r.reverseAux [] :: a :: acc) [] := by
  cases r with
  | nil => exact absurd rfl h
  | cons x t => rw [mergel]

section Merged

variable (hle : TotalPreorder le)

include hle

section Step

variable {a b : List α} {l : List (List α)} (acc : List (List α)) (o : Direction)

/-- A step merges the first three of the ascending runs, or the two there are. -/
theorem keymergel_step (hl : ∀ r ∈ a :: b :: l, AscRun le r) :
    ∃ rs l' m, l = rs ++ l' ∧ keymergel le (a :: b :: l) acc o = keymergel le l' (m :: acc) o ∧
      (o = .asc → mergel le (a :: b :: l) acc = mergel le l' (m :: acc)) ∧
      Sorts le (o.order (a :: b :: rs)).flatten m.reverse := by
  rw [forall_mem_cons, forall_mem_cons] at hl
  obtain ⟨ha, hb, hl⟩ := hl
  match a, b, l, o with
  | [], _, _, _ => exact absurd rfl ha.1
  | _, [], _, _ => exact absurd rfl hb.1
  | _, _, [] :: _, _ => exact absurd rfl (hl [] mem_cons_self).1
  | h1 :: t1, h2 :: t2, [], .asc =>
    have hmerge := sorts_merge2_1 hle ha.2 hb.2
    refine ⟨[], [], _, rfl, by rw [keymergel]; simp, fun _ => by rw [mergel, mergel], ?_⟩
    simpa [Direction.order] using hmerge
  | h2 :: t2, h1 :: t1, [], .desc =>
    have hmerge := sorts_merge2_1 hle hb.2 ha.2
    refine ⟨[], [], _, rfl, by rw [keymergel]; simp, by simp, ?_⟩
    simpa [Direction.order] using hmerge
  | h1 :: t1, h2 :: t2, (h3 :: t3) :: l, .asc =>
    have hmerge := sorts_merge3_1 hle ha.2 hb.2 (hl _ mem_cons_self).2
    refine ⟨[_], l, _, rfl, by rw [keymergel], fun _ => by rw [mergel], ?_⟩
    simpa [Direction.order] using hmerge
  | h3 :: t3, h2 :: t2, (h1 :: t1) :: l, .desc =>
    have hmerge := sorts_merge3_1 hle (hl _ mem_cons_self).2 hb.2 ha.2
    refine ⟨[_], l, _, rfl, by rw [keymergel], by simp, ?_⟩
    simpa [Direction.order] using hmerge

/-- A step merges the first three of the descending runs, or the two there are. -/
theorem rkeymergel_step (hl : ∀ r ∈ a :: b :: l, DescRun le r) :
    ∃ rs l' m, l = rs ++ l' ∧ rkeymergel le (a :: b :: l) acc o = rkeymergel le l' (m :: acc) o ∧
      (o = .asc → rmergel le (a :: b :: l) acc = rmergel le l' (m :: acc)) ∧
      Sorts le (o.order ((a :: b :: rs).map List.reverse).reverse).flatten m := by
  rw [forall_mem_cons, forall_mem_cons] at hl
  obtain ⟨ha, hb, hl⟩ := hl
  match a, b, l, o with
  | [], _, _, _ => exact absurd rfl ha.1
  | _, [], _, _ => exact absurd rfl hb.1
  | _, _, [] :: _, _ => exact absurd rfl (hl [] mem_cons_self).1
  | h1 :: t1, h2 :: t2, [], .desc =>
    have hmerge := sorts_rmerge2_1 hle ha.2 hb.2
    refine ⟨[], [], _, rfl, by rw [rkeymergel]; simp, by simp, ?_⟩
    simpa [Direction.order] using hmerge
  | h2 :: t2, h1 :: t1, [], .asc =>
    have hmerge := sorts_rmerge2_1 hle hb.2 ha.2
    refine ⟨[], [], _, rfl, by rw [rkeymergel]; simp, fun _ => by rw [rmergel, rmergel], ?_⟩
    simpa [Direction.order] using hmerge
  | h1 :: t1, h2 :: t2, (h3 :: t3) :: l, .desc =>
    have hmerge := sorts_rmerge3_1 hle ha.2 hb.2 (hl _ mem_cons_self).2
    refine ⟨[_], l, _, rfl, by rw [rkeymergel], by simp, ?_⟩
    simpa [Direction.order] using hmerge
  | h3 :: t3, h2 :: t2, (h1 :: t1) :: l, .asc =>
    have hmerge := sorts_rmerge3_1 hle (hl _ mem_cons_self).2 hb.2 ha.2
    refine ⟨[_], l, _, rfl, by rw [rkeymergel], fun _ => by rw [rmergel], ?_⟩
    simpa [Direction.order] using hmerge

end Step

mutual

theorem keymergel_spec (l acc : List (List α)) (o : Direction) (hl : ∀ r ∈ l, AscRun le r)
    (hacc : ∀ r ∈ acc, DescRun le r) (hne : ¬(l = [] ∧ acc = [])) :
    SortsTo le (keymergel le l acc o) (o.order (pending l acc)).flatten ∧
      (o = .asc → mergel le l acc = keymergel le l acc o) := by
  match l, acc, o with
  | [], [], _ => exact absurd ⟨rfl, rfl⟩ hne
  | a :: b :: l, acc, o =>
    obtain ⟨rs, l, m, rfl, heq, hasc, hmerge⟩ := keymergel_step hle acc o hl
    have ha := (hl a mem_cons_self).1
    have hm := descRun_of_sorts hle hmerge (by cases o <;> simp [Direction.order, ha])
    obtain ⟨hsorts, hsort⟩ := keymergel_spec l _ o (fun r hr => hl r (by simp [hr]))
      (forall_mem_cons.2 ⟨hm, hacc⟩) (by simp)
    rw [heq]
    exact ⟨sortsTo_keymerged o (a :: b :: rs) hmerge.same hsorts, fun h => by rw [hasc h, hsort h]⟩
  | [r], [], o =>
    refine ⟨⟨r, by rw [keymergel], (hl r mem_cons_self).2, ?_⟩, ?_⟩
    · cases o <;> simpa [Direction.order, pending] using Same.refl _
    · rw [keymergel, mergel_singleton (hl r mem_cons_self).1]
      exact fun _ => rfl
  | [r], a :: acc, o =>
    have hrun := (hl r mem_cons_self).reverse
    rw [keymergel, mergel_last (hl r mem_cons_self).1, reverseAux_eq, append_nil,
      ← reverse_reverse r, ← pending_cons, reverse_reverse]
    exact rkeymergel_spec _ [] o (forall_mem_cons.2 ⟨hrun, hacc⟩) (by simp) (by simp)
  | [], a :: acc, o =>
    rw [keymergel, mergel]
    exact rkeymergel_spec (a :: acc) [] o hacc (by simp) (by simp)
termination_by 3 * l.length + 5 * acc.length
decreasing_by
  all_goals subst_vars
  all_goals simp only [length_cons, length_append, length_nil]; omega

theorem rkeymergel_spec (l acc : List (List α)) (o : Direction) (hl : ∀ r ∈ l, DescRun le r)
    (hacc : ∀ r ∈ acc, AscRun le r) (hne : ¬(l = [] ∧ acc = [])) :
    SortsTo le (rkeymergel le l acc o) (o.order (pending acc l)).flatten ∧
      (o = .asc → rmergel le l acc = rkeymergel le l acc o) := by
  match l, acc, o with
  | a :: b :: l, acc, o =>
    obtain ⟨rs, l, m, rfl, heq, hasc, hmerge⟩ := rkeymergel_step hle acc o hl
    have ha := (hl a mem_cons_self).1
    have hm := ascRun_of_sorts hle hmerge (by cases o <;> simp [Direction.order, ha])
    obtain ⟨hsorts, hsort⟩ := rkeymergel_spec l _ o (fun r hr => hl r (by simp [hr]))
      (forall_mem_cons.2 ⟨hm, hacc⟩) (by simp)
    rw [heq]
    exact ⟨sortsTo_rkeymerged o (a :: b :: rs) hmerge.same hsorts, fun h => by rw [hasc h, hsort h]⟩
  | [r], acc, o =>
    have hrun := (hl r mem_cons_self).reverse
    rw [rkeymergel, rmergel, reverseAux_eq, append_nil, pending_cons]
    exact keymergel_spec _ [] o (forall_mem_cons.2 ⟨hrun, hacc⟩) (by simp) (by simp)
  | [], acc, o =>
    rw [rkeymergel, rmergel]
    exact keymergel_spec acc [] o hacc (by simp) (by simpa using hne)
termination_by 3 * l.length + 5 * acc.length + 1

end

end Merged

/-- `sort/1` is a stable sort. -/
theorem sort_spec (hle : TotalPreorder le) (l : List α) :
    ∃ out, sort le l = some out ∧ Sorts le l out := by
  refine sortWith_spec hle (fun _ _ h => h) ?_ ?_ l
  · intro runs hne hruns
    obtain ⟨hspec, heq⟩ := rkeymergel_spec hle runs [] .asc hruns (by simp) (by simp [hne])
    rwa [← heq rfl, Direction.order, pending, append_nil, ← reverse_flatten] at hspec
  · intro runs hne hruns
    obtain ⟨hspec, heq⟩ := keymergel_spec hle runs.reverse [] .asc
      (fun r hr => hruns r (mem_reverse.1 hr)) (by simp) (by simp [hne])
    rwa [← heq rfl] at hspec

theorem keysortBy_spec (hle : TotalPreorder le) {same : α → α → Bool}
    (hsame : ∀ a b, same a b → Tied le a b) (l : List α) :
    ∃ out, keysortBy le same l = some out ∧ Sorts le l out := by
  refine sortWith_spec hle hsame ?_ ?_ l
  · intro runs hne hruns
    have hspec := (rkeymergel_spec hle runs [] .asc hruns (by simp) (by simp [hne])).1
    rwa [Direction.order, pending, append_nil, ← reverse_flatten] at hspec
  · intro runs hne hruns
    exact (keymergel_spec hle runs [] .desc hruns (by simp) (by simp [hne])).1

/-! ## Sorting tuples -/

section Tuples

variable {τ : Type*} {le : τ → τ → Bool} {n : ℕ} {l : List (List τ)}

theorem totalPreorder_tupleLe (hle : TotalPreorder le) (n : ℕ) :
    TotalPreorder fun a b : Tuple τ n => tupleLe le a b :=
  ⟨fun a b c => hle.trans a.element b.element c.element, fun a b => hle.total a.element b.element⟩

/-- Tuples that are equal have equal elements. -/
theorem tied_get_of_elementsEq {xs ys : List τ} (h : elementsEq le xs ys) (i : ℕ)
    (hx : i < xs.length) (hy : i < ys.length) : Tied le (xs.get ⟨i, hx⟩) (ys.get ⟨i, hy⟩) := by
  induction xs generalizing ys i with
  | nil => cases hx
  | cons x xs ih =>
    cases ys with
    | nil => cases hy
    | cons y ys =>
      rw [elementsEq, Bool.and_eq_true] at h
      cases i with
      | zero => exact h.1
      | succ i => exact ih h.2 i (Nat.lt_of_succ_lt_succ hx) (Nat.lt_of_succ_lt_succ hy)

theorem keysortTuples_spec (hle : TotalPreorder le) (l : List (Tuple τ n)) :
    ∃ out, keysortTuples le l = some out ∧ Sorts (tupleLe le) l out := by
  refine keysortBy_spec (totalPreorder_tupleLe hle n) ?_ l
  intro a b h
  exact tied_get_of_elementsEq h _ _ _

/-- The order of tuples by the element at position `n`; tuples without one are not ordered. -/
def keyLe (le : τ → τ → Bool) (n : ℕ) (a b : List τ) : Bool :=
  match toTuple n a, toTuple n b with
  | some a, some b => tupleLe le a b
  | _, _ => false

theorem toTuple_elements (t : Tuple τ n) : toTuple n t.elements = some t := by
  rw [toTuple, dif_pos ⟨t.pos, t.size⟩]

theorem keyLe_elements (a b : Tuple τ n) : keyLe le n a.elements b.elements = tupleLe le a b := by
  rw [keyLe, toTuple_elements, toTuple_elements]

theorem mapM_toTuple (hn : 0 < n) (h : ∀ t ∈ l, n ≤ t.length) :
    ∃ tuples, l.mapM (toTuple n) = some tuples ∧ tuples.map Tuple.elements = l := by
  induction l with
  | nil => exact ⟨[], rfl, rfl⟩
  | cons t l ih =>
    have hsize := forall_mem_cons.1 h
    obtain ⟨tuples, heq, hmap⟩ := ih hsize.2
    refine ⟨⟨t, hn, hsize.1⟩ :: tuples, ?_, ?_⟩
    · rw [mapM_cons, toTuple, dif_pos ⟨hn, hsize.1⟩, heq]
      rfl
    · rw [map_cons, hmap]

/-- The elements of a class of tuples. -/
theorem filter_keyLe_map {out tuples : List (Tuple τ n)} (h : Same (tupleLe le) out tuples) :
    Same (keyLe le n) (out.map Tuple.elements) (tuples.map Tuple.elements) := by
  intro t
  rw [filter_map, filter_map]
  congr 1
  cases ht : toTuple n t with
  | some u =>
    have hu : t = u.elements := by
      rw [toTuple] at ht
      split at ht
      · cases ht
        rfl
      · cases ht
    have hfun : Tied (keyLe le n) t ∘ Tuple.elements = Tied (tupleLe le) u := by
      funext v
      rw [hu, Function.comp_apply, Tied, keyLe_elements, keyLe_elements]
      rfl
    rw [hfun]
    exact h u
  | none =>
    have hfun : Tied (keyLe le n) t ∘ Tuple.elements = fun _ : Tuple τ n => false := by
      funext v
      rw [Function.comp_apply, Tied, keyLe, ht]
      rfl
    rw [hfun, filter_false, filter_false]

/-- The result of sorting lists of tuples that have the element. -/
theorem keysort_spec (hle : TotalPreorder le) (hn : 0 < n) (h : ∀ t ∈ l, n ≤ t.length) :
    ∃ out, keysort le n l = some out ∧ out.Perm l ∧ Sorts (keyLe le n) l out := by
  match l with
  | [] => exact ⟨[], by simp [keysort, hn], .refl _, List.Pairwise.nil, .refl _⟩
  | [x] => exact ⟨[x], by simp [keysort, hn], .refl _, pairwise_singleton _ x, .refl _⟩
  | x :: y :: l =>
    obtain ⟨tuples, hmapM, hmap⟩ := mapM_toTuple hn h
    obtain ⟨out, heq, hsorts⟩ := keysortTuples_spec hle tuples
    refine ⟨out.map Tuple.elements, ?_, ?_, ?_, ?_⟩
    · rw [keysort, if_pos hn]
      show ((x :: y :: l).mapM (toTuple n)).bind _ = _
      rw [hmapM, Option.bind_some, heq]
      rfl
    · rw [← hmap]
      exact (hsorts.perm (totalPreorder_tupleLe hle n)).map _
    · rw [pairwise_map]
      simpa only [keyLe_elements] using hsorts.sorted
    · rw [← hmap]
      exact filter_keyLe_map hsorts.same

/-- Both sorts return the stable permutation in ascending order: the elements of every class
of ties come as in the list. -/
theorem sort_keysort_stable (hle : TotalPreorder le) :
    (∀ l : List τ, ∃ out, sort le l = some out ∧ out.Perm l ∧
      (out.Pairwise fun a b => le a b) ∧ ∀ a, out.filter (Tied le a) = l.filter (Tied le a)) ∧
    ∀ n > 0, ∀ l : List (List τ), (∀ t ∈ l, n ≤ t.length) →
      ∃ out, keysort le n l = some out ∧ out.Perm l ∧
        (out.Pairwise fun a b => keyLe le n a b) ∧
        ∀ t, out.filter (Tied (keyLe le n) t) = l.filter (Tied (keyLe le n) t) := by
  constructor
  · intro l
    obtain ⟨out, heq, hsorts⟩ := sort_spec hle l
    exact ⟨out, heq, hsorts.perm hle, hsorts.sorted, hsorts.same⟩
  · intro n hn l hl
    obtain ⟨out, heq, hperm, hsorts⟩ := keysort_spec hle hn hl
    exact ⟨out, heq, hperm, hsorts.sorted, hsorts.same⟩

-- ties keep their order
example : sort (fun a b : ℕ × Bool => decide (a.1 ≤ b.1))
    [(1, true), (2, false), (1, false), (2, true), (0, false)] =
      some [(0, false), (1, true), (1, false), (2, false), (2, true)] := by
  decide +kernel

/-- `A =< B` of terms. -/
def termLe (a b : Term) : Bool := (Term.ertsCmp a b).isLE

theorem totalPreorder_termLe : TotalPreorder termLe where
  trans _ _ _ hab hbc := Std.TransCmp.isLE_trans hab hbc
  total a b := by
    rw [termLe, termLe, Term.ertsCmp_swap b a]
    cases Term.ertsCmp a b <;> rfl

/-- `1.0`, which is tied with `1`. -/
def oneFloat : Term := .num (.float 1 false)

theorem sort_keysort_terms :
    (∃ out, sort termLe [oneFloat, .atom ['a'], .int 1, .int 0] = some out ∧
      out.Perm [oneFloat, .atom ['a'], .int 1, .int 0] ∧ (out.Pairwise fun a b => termLe a b) ∧
      ∀ a, out.filter (Tied termLe a) =
        [oneFloat, .atom ['a'], .int 1, .int 0].filter (Tied termLe a)) ∧
    ∃ out, keysort termLe 1 [[oneFloat], [.int 0, .nil], [.int 1]] = some out ∧
      out.Perm [[oneFloat], [.int 0, .nil], [.int 1]] ∧
      (out.Pairwise fun a b => keyLe termLe 1 a b) ∧
      ∀ t, out.filter (Tied (keyLe termLe 1) t) =
        [[oneFloat], [.int 0, .nil], [.int 1]].filter (Tied (keyLe termLe 1) t) :=
  ⟨(sort_keysort_stable totalPreorder_termLe).1 _,
    (sort_keysort_stable totalPreorder_termLe).2 1 (by decide) _ (by simp)⟩

end Tuples

end Otp.Stdlib.Lists
