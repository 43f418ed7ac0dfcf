import Otp.Stdlib.Queue.Ops

/-!
# The list that a queue stands for

`to_list/1` reads any pair of lists, whether the library has built it or not, and each
operation on the pair is an operation on that list.  The representation keeps an element on
each side of a queue of two or more; one lemma per operation says what list it leads to and
that it keeps this.  The functions for the rear end are those for the front end on the mirrored
queue, so that only one end is looked at.
-/

namespace Otp.Stdlib.Queue

open List

variable {α β : Type} {q q' : Queue α} {pred : α → Bool} {l : List α}

/-- `fold/3`. -/
def fold (fn : α → β → β) (acc : β) (q : Queue α) : β :=
  q.rear.foldr fn (q.front.foldl (fun acc x => fn x acc) acc)

/-- What an item is replaced by. -/
def FilterReply.items (x : α) : FilterReply α → List α
  | .keep b => if b then [x] else []
  | .list l => l

def FiltermapReply.items (x : α) : FiltermapReply α → List α
  | .keep b => if b then [x] else []
  | .value y => [y]

/-- A queue of two or more elements has one on each side. -/
def Balanced (q : Queue α) : Prop :=
  2 ≤ q.len → q.rear ≠ [] ∧ q.front ≠ []

instance (q : Queue α) : Decidable (Balanced q) :=
  inferInstanceAs (Decidable (_ → _ ≠ [] ∧ _ ≠ []))

theorem balanced_iff_length (q : Queue α) :
    Balanced q ↔ (2 ≤ q.rear.length + q.front.length → 0 < q.rear.length ∧ 0 < q.front.length) := by
  simp only [Balanced, len, ne_eq, length_pos_iff]

theorem balanced_reverse (h : Balanced q) : Balanced (reverse q) := by
  rw [balanced_iff_length] at *
  simp only [reverse]
  omega

/-- Both sides are there, so nothing is asked. -/
theorem balanced_of_ne_nil (hr : q.rear ≠ []) (hf : q.front ≠ []) : Balanced q :=
  fun _ => ⟨hr, hf⟩

theorem Balanced.rear_ne_nil (h : Balanced q) (hf : 2 ≤ q.front.length) : q.rear ≠ [] :=
  (h (by simp only [len]; omega)).1

theorem Balanced.front_ne_nil (h : Balanced q) (hr : 2 ≤ q.rear.length) : q.front ≠ [] :=
  (h (by simp only [len]; omega)).2

@[simp] theorem toList_reverse (q : Queue α) : toList (reverse q) = (toList q).reverse := by
  simp [toList, reverse]

/-- `q'` stands for the list `l`, and has an element on each side if `q` has. -/
structure Becomes (q : Queue α) (l : List α) (q' : Queue α) : Prop where
  toList_eq : toList q' = l
  balanced : Balanced q → Balanced q'

/-! ## Mirror images -/

theorem Becomes.mirror (h : Becomes (reverse q) l q') : Becomes q l.reverse (reverse q') :=
  ⟨by rw [toList_reverse, h.toList_eq], fun hq => balanced_reverse
    (h.balanced (balanced_reverse hq))⟩

/-! `out/1` and `drop/1` with an element in front do not look at the rear list. -/

@[simp] theorem drop_one (r : List α) (v : α) : drop ⟨r, [v]⟩ = .ok (r2f r) := by
  rcases r with _ | ⟨_, _ | _⟩ <;> rfl

@[simp] theorem drop_more (r f : List α) (v w : α) : drop ⟨r, v :: w :: f⟩ = .ok ⟨r, w :: f⟩ := by
  rcases r with _ | ⟨_, _ | _⟩ <;> rfl

@[simp] theorem out_one (r : List α) (v : α) : out ⟨r, [v]⟩ = .ok (some v, r2f r) := by
  rcases r with _ | ⟨_, _ | _⟩ <;> rfl

@[simp] theorem out_more (r f : List α) (v w : α) :
    out ⟨r, v :: w :: f⟩ = .ok (some v, ⟨r, w :: f⟩) := by
  rcases r with _ | ⟨_, _ | _⟩ <;> rfl

theorem f2r_eq (l : List α) : f2r l = reverse (r2f l) := by
  match l with
  | [] | [x] | [x, y] | x :: y :: z :: l => rfl

theorem inR_eq (x : α) (q : Queue α) : inR x q = reverse (inQ x (reverse q)) := by
  match q with
  | ⟨[], []⟩ | ⟨[], [_]⟩ | ⟨[], _ :: _ :: _⟩
  | ⟨_ :: _, []⟩ | ⟨_ :: _, [_]⟩ | ⟨_ :: _, _ :: _ :: _⟩ => rfl

theorem rear_eq (q : Queue α) : dropR q = (drop (reverse q)).map reverse ∧
    outR q = (out (reverse q)).map (Prod.map id reverse) := by
  match q with
  | ⟨[], []⟩ | ⟨[], [_]⟩ => exact ⟨rfl, rfl⟩
  | ⟨[], _ :: _ :: f⟩ =>
    simp only [dropR, drop, outR, out, reverse]
    split <;> simp_all [Except.map, reverse]
  | ⟨[_], f⟩ => simp [dropR, outR, reverse, Except.map, f2r_eq]
  | ⟨_ :: _ :: _, f⟩ => simp [dropR, outR, reverse, Except.map]

theorem balanced_r2f (l : List α) : Balanced (r2f l) := by
  rw [balanced_iff_length]
  match l with
  | [] | [x] | [y, x] => simp [r2f]
  | x :: y :: z :: l =>
    simp only [r2f, splitAt_eq, length_take, length_reverse, length_drop, length_cons]
    omega

theorem balanced_f2r (l : List α) : Balanced (f2r l) := by
  rw [f2r_eq]
  exact balanced_reverse (balanced_r2f l)

@[simp] theorem toList_r2f (l : List α) : toList (r2f l) = l.reverse := by
  match l with
  | [] | [x] | [y, x] => rfl
  | x :: y :: z :: l => simp only [r2f, splitAt_eq, toList, ← reverse_append, take_append_drop]

@[simp] theorem toList_f2r (l : List α) : toList (f2r l) = l := by
  rw [f2r_eq, toList_reverse, toList_r2f, List.reverse_reverse]

/-! ## Both ends -/

theorem becomes_inQ (x : α) (q : Queue α) : Becomes q (toList q ++ [x]) (inQ x q) := by
  refine ⟨?_, fun h => ?_⟩
  · fun_cases inQ x q with
    | case1 y => rfl
    | case2 r f => simp [toList]
  · rw [balanced_iff_length] at *
    fun_cases inQ x q with
    | case1 y => simp
    | case2 r f hne =>
      match r, f with
      | [], [] => simp
      | [y], [] => exact (hne y rfl rfl).elim
      | _, z :: f => simp
      | y :: y' :: r, [] => simp at h

theorem becomes_inR (x : α) (q : Queue α) : Becomes q (x :: toList q) (inR x q) := by
  have h := (becomes_inQ x (reverse q)).mirror
  rwa [← inR_eq, toList_reverse, reverse_append, List.reverse_reverse] at h

theorem out_spec (q : Queue α) :
    ∃ q', out q = .ok ((toList q).head?, q') ∧ Becomes q (toList q).tail q' := by
  match q with
  | ⟨[], []⟩ | ⟨[_], []⟩ => exact ⟨_, rfl, rfl, fun _ => balanced_r2f []⟩
  | ⟨y :: z :: r, []⟩ =>
    obtain ⟨v, f, hrev⟩ := exists_cons_of_ne_nil (reverse_ne_nil_iff.2 (cons_ne_nil z r))
    have hlist : toList ⟨y :: z :: r, []⟩ = v :: (f ++ [y]) := by
      rw [toList, reverse_cons, hrev]
      rfl
    refine ⟨⟨[y], f⟩, ?_, ?_, fun h => absurd rfl (h.front_ne_nil (by simp))⟩
    · simp only [out, hrev, hlist, head?_cons]
    · rw [hlist, tail_cons, toList, reverse_singleton]
  | ⟨r, [v]⟩ => exact ⟨_, out_one r v, toList_r2f r, fun _ => balanced_r2f r⟩
  | ⟨r, v :: w :: f⟩ =>
    refine ⟨_, out_more r f v w, rfl, fun h => ?_⟩
    exact balanced_of_ne_nil (h.rear_ne_nil (by simp)) (cons_ne_nil w f)

theorem outR_spec (q : Queue α) :
    ∃ q', outR q = .ok ((toList q).getLast?, q') ∧ Becomes q (toList q).dropLast q' := by
  obtain ⟨q', hout, hq'⟩ := out_spec (reverse q)
  have hmirror := hq'.mirror
  rw [toList_reverse, tail_reverse, List.reverse_reverse] at hmirror
  refine ⟨reverse q', ?_, hmirror⟩
  rw [(rear_eq q).2, hout, toList_reverse, head?_reverse]
  rfl

/-! ## Whole queues -/

theorem toList_join (p q : Queue α) : toList (join p q) = toList p ++ toList q := by
  fun_cases join p q with
  | case1 | case2 | case3 => simp [toList]

theorem splitF1ToR2_spec (n : ℕ) (r1 f1 r2 f2 : List α) (hn : n ≤ f1.length) :
    splitF1ToR2 n r1 f1 r2 f2 =
      .ok (⟨(f1.take n).reverse ++ r2, f2⟩, ⟨r1, f1.drop n⟩) := by
  induction n generalizing f1 r2 with
  | zero => simp [splitF1ToR2]
  | succ n ih =>
    cases f1 with
    | nil => simp at hn
    | cons x f1 =>
      rw [splitF1ToR2, ih f1 (x :: r2) (by simpa using hn)]
      simp

theorem splitR1ToF2_spec (n : ℕ) (r1 f1 r2 f2 : List α) (hn : n ≤ r1.length) :
    splitR1ToF2 n r1 f1 r2 f2 =
      .ok (⟨r1.drop n, f1⟩, ⟨r2, (r1.take n).reverse ++ f2⟩) := by
  induction n generalizing r1 f2 with
  | zero => simp [splitR1ToF2]
  | succ n ih =>
    cases r1 with
    | nil => simp at hn
    | cons x r1 =>
      rw [splitR1ToF2, ih r1 (x :: f2) (by simpa using hn)]
      simp

theorem split_spec {n : ℕ} (hn : n ≤ q.len) : ∃ p p', split n q = .ok (p, p') ∧
    Becomes q ((toList q).take n) p ∧ Becomes q ((toList q).drop n) p' := by
  suffices hcut : ∃ p p', split n q = .ok (p, p') ∧ (toList p).length = n ∧
      toList p ++ toList p' = toList q ∧ (Balanced q → Balanced p ∧ Balanced p') by
    obtain ⟨p, p', hsplit, rfl, happend, hbal⟩ := hcut
    rw [← happend, take_left, drop_left]
    exact ⟨p, p', hsplit, ⟨rfl, fun h => (hbal h).1⟩, rfl, fun h => (hbal h).2⟩
  have hnew : Balanced (⟨[], []⟩ : Queue α) := balanced_r2f []
  obtain ⟨r, f⟩ := q
  simp only [len] at hn
  unfold split
  dsimp only
  split_ifs with h0 h1 h2 h3 h4 h5
  · exact ⟨_, _, rfl, by simp [toList]; omega, rfl, fun h => ⟨hnew, h⟩⟩
  · -- fewer than the front list holds: one element stays in front on the left
    cases f with
    | nil => simp at h2; omega
    | cons x f =>
      simp only [length_cons] at h2
      refine ⟨_, _, splitF1ToR2_spec _ _ _ _ _ (by omega), ?_, by simp [toList, ← append_assoc],
        fun h => ⟨?_, balanced_of_ne_nil (h.rear_ne_nil (by simp; omega)) ?_⟩⟩
      · simp [toList]
        omega
      · rw [balanced_iff_length]
        simp
        omega
      · simp
        omega
  · omega
  · -- more than the front list holds: one element stays in the rear on the right
    cases r with
    | nil => simp at h3 h5; omega
    | cons x r =>
      have hlen : (x :: r).length = r.length + 1 := rfl
      refine ⟨_, _, splitR1ToF2_spec _ _ _ _ _ (by omega), ?_, ?_,
        fun h => ⟨balanced_of_ne_nil ?_ (h.front_ne_nil (by simp; omega)), ?_⟩⟩
      · simp [toList]
        omega
      · simp [toList]
        rw [← append_assoc, ← reverse_append, take_append_drop]
      · simp
        omega
      · rw [balanced_iff_length]
        simp
        omega
  · refine ⟨_, _, rfl, ?_, by simp [toList], fun h => ⟨h, hnew⟩⟩
    simp [toList]
    omega
  · exact ⟨_, _, rfl, by rw [toList_f2r]; omega, by rw [toList_f2r, toList_r2f]; rfl,
      fun _ => ⟨balanced_f2r f, balanced_r2f r⟩⟩
  · omega

theorem fold_eq (fn : α → β → β) (acc : β) (q : Queue α) :
    fold fn acc q = (toList q).foldl (fun acc x => fn x acc) acc := by
  rw [fold, toList, foldl_append, foldl_reverse]

/-! ## Filters -/

theorem refill_spec (r f : List α) :
    toList (refill r f) = f ++ r.reverse ∧ Balanced (refill r f) := by
  unfold refill
  split_ifs with hr hf
  · exact ⟨by simp [isEmpty_iff.1 hr], balanced_f2r f⟩
  · exact ⟨by simp [isEmpty_iff.1 hf], balanced_r2f r⟩
  · exact ⟨rfl, balanced_of_ne_nil (by simpa using hr) (by simpa using hf)⟩

section Filter

variable (fn : α → FilterReply α)

theorem filterF_eq (l : List α) : filterF fn l = l.flatMap fun x => (fn x).items x := by
  induction l with
  | nil => rfl
  | cons x l ih =>
    rw [filterF]
    split <;> simp_all [FilterReply.items]

theorem filterR_eq (l : List α) : filterR fn l = l.flatMap fun x => ((fn x).items x).reverse := by
  induction l with
  | nil => rfl
  | cons x l ih =>
    rw [filterR]
    split <;> simp_all [FilterReply.items]

theorem toList_filter (q : Queue α) :
    toList (filter fn q) = (toList q).flatMap fun x => (fn x).items x := by
  rw [filter, (refill_spec _ _).1, filterF_eq, filterR_eq, toList, reverse_flatMap]
  simp [Function.comp_def]

end Filter

section Filtermap

variable (fn : α → FiltermapReply α)

theorem filtermapF_eq (l : List α) : filtermapF fn l = l.flatMap fun x => (fn x).items x := by
  induction l with
  | nil => rfl
  | cons x l ih =>
    rw [filtermapF]
    split <;> simp_all [FiltermapReply.items]

theorem filtermapR_eq (l : List α) : filtermapR fn l =
    l.flatMap fun x => ((fn x).items x).reverse := by
  induction l with
  | nil => rfl
  | cons x l ih =>
    rw [filtermapR]
    split <;> simp_all [FiltermapReply.items]

theorem toList_filtermap (q : Queue α) :
    toList (filtermap fn q) = (toList q).flatMap fun x => (fn x).items x := by
  rw [filtermap, (refill_spec _ _).1, filtermapF_eq, filtermapR_eq, toList, reverse_flatMap]
  simp [Function.comp_def]

end Filtermap

/-! ## Deleting one element -/

theorem deleteWithFront_eq (pred : α → Bool) (l : List α) :
    deleteWithFront pred l = if l.any pred then some (l.eraseP pred) else none := by
  induction l with
  | nil => rfl
  | cons x l ih =>
    rw [deleteWithFront, ih]
    cases hx : pred x <;> cases hl : l.any pred <;> simp [hx, hl]

/-- The last element of the rear list stands first. -/
theorem deleteWithRear_eq (pred : α → Bool) (l : List α) :
    deleteWithRear pred l = (deleteWithFront pred l.reverse).map List.reverse := by
  rw [deleteWithFront_eq]
  induction l with
  | nil => rfl
  | cons x l ih =>
    rw [deleteWithRear, ih, reverse_cons, any_append, eraseP_append]
    cases hl : l.reverse.any pred <;> cases hx : pred x <;> simp [hx]

theorem length_eraseP_add_one (h : l.any pred = true) :
    (l.eraseP pred).length + 1 = l.length := by
  obtain ⟨x, hx, hp⟩ := any_eq_true.1 h
  rw [length_eraseP_of_mem hx hp]
  have := length_pos_of_mem hx
  omega

theorem becomes_deleteWith (pred : α → Bool) (q : Queue α) :
    Becomes q ((toList q).eraseP pred) (deleteWith pred q) := by
  rw [deleteWith, deleteWithRear_eq, deleteWithFront_eq, deleteWithFront_eq,
    show toList q = q.front ++ q.rear.reverse from rfl, eraseP_append]
  cases hf : q.front.any pred with
  | true =>
    have hlen := length_eraseP_add_one hf
    generalize q.front.eraseP pred = f at hlen
    cases f with
    | nil => exact ⟨toList_r2f _, fun _ => balanced_r2f _⟩
    | cons x f =>
      exact ⟨rfl, fun h => balanced_of_ne_nil (h.rear_ne_nil (by simp [← hlen])) (cons_ne_nil x f)⟩
  | false =>
    simp only [Bool.false_eq_true, if_false]
    cases hr : q.rear.reverse.any pred with
    | true =>
      have hlen := length_eraseP_add_one hr
      simp only [if_true, Option.map_some]
      rw [← List.reverse_reverse (q.rear.reverse.eraseP pred)] at hlen ⊢
      generalize (q.rear.reverse.eraseP pred).reverse = r at hlen
      rw [List.reverse_reverse]
      cases r with
      | nil => exact ⟨by simp, fun _ => balanced_f2r _⟩
      | cons x r =>
        simp only [length_reverse, length_cons] at hlen
        exact ⟨rfl, fun h => balanced_of_ne_nil (cons_ne_nil x r) (h.front_ne_nil (by omega))⟩
    | false =>
      rw [eraseP_of_forall_not (by simpa using hr)]
      exact ⟨rfl, id⟩

theorem becomes_deleteWithR (pred : α → Bool) (q : Queue α) :
    Becomes q ((toList q).reverse.eraseP pred).reverse (deleteWithR pred q) := by
  rw [← toList_reverse]
  exact (becomes_deleteWith pred (reverse q)).mirror

/-- Every operation on a pair of lists is the operation of its name on the list that the pair
stands for. -/
theorem operations_refine_lists [DecidableEq α] (p q : Queue α) :
    (∀ x, toList (inQ x q) = toList q ++ [x] ∧ toList (inR x q) = x :: toList q) ∧
    (∃ q', out q = .ok ((toList q).head?, q') ∧ toList q' = (toList q).tail) ∧
    (∃ q', outR q = .ok ((toList q).getLast?, q') ∧ toList q' = (toList q).dropLast) ∧
    toList (join p q) = toList p ++ toList q ∧
    toList (reverse q) = (toList q).reverse ∧
    (∀ fn, toList (filter fn q) = (toList q).flatMap fun x => (fn x).items x) ∧
    (∀ fn, toList (filtermap fn q) = (toList q).flatMap fun x => (fn x).items x) ∧
    (∀ (β : Type) (fn : α → β → β) acc,
      fold fn acc q = (toList q).foldl (fun acc x => fn x acc) acc) ∧
    (∀ item, toList (delete item q) = (toList q).erase item ∧
      toList (deleteR item q) = ((toList q).reverse.erase item).reverse) ∧
    (∀ pred, toList (deleteWith pred q) = (toList q).eraseP pred ∧
      toList (deleteWithR pred q) = ((toList q).reverse.eraseP pred).reverse) ∧
    ∀ n ≤ q.len, ∃ q1 q2, split n q = .ok (q1, q2) ∧
      toList q1 = (toList q).take n ∧ toList q2 = (toList q).drop n := by
  obtain ⟨q1, hout, hq1⟩ := out_spec q
  obtain ⟨q2, houtR, hq2⟩ := outR_spec q
  refine ⟨fun x => ⟨(becomes_inQ x q).toList_eq, (becomes_inR x q).toList_eq⟩,
    ⟨q1, hout, hq1.toList_eq⟩, ⟨q2, houtR, hq2.toList_eq⟩, toList_join p q, toList_reverse q,
    fun fn => toList_filter fn q, fun fn => toList_filtermap fn q, fun β fn acc => fold_eq fn acc q,
    fun item => ?_, fun pred => ?_, fun n hn => ?_⟩
  · rw [erase_eq_eraseP', erase_eq_eraseP']
    exact ⟨(becomes_deleteWith _ q).toList_eq, (becomes_deleteWithR _ q).toList_eq⟩
  · exact ⟨(becomes_deleteWith pred q).toList_eq, (becomes_deleteWithR pred q).toList_eq⟩
  · obtain ⟨p, p', hsplit, hp, hp'⟩ := split_spec hn
    exact ⟨p, p', hsplit, hp.toList_eq, hp'.toList_eq⟩

theorem operations_refine_lists_split_two : ∃ q1 q2 : Queue ℕ,
    split 2 ⟨[3, 2], [1]⟩ = .ok (q1, q2) ∧ toList q1 = [1, 2] ∧ toList q2 = [3] :=
  (operations_refine_lists ⟨[], []⟩ ⟨[3, 2], [1]⟩).2.2.2.2.2.2.2.2.2.2 2 (by decide)

end Otp.Stdlib.Queue
