import Otp.Lib.Outcome
import Otp.Stdlib.GbTrees.Ops

/-!
# What the tree functions do to the list of entries

Every function on trees is described by the in-order list of the tree it gets and
of the tree it returns, in terms of the operations on sorted lists.  Errors are
part of the description: a function raises exactly when the key is missing, or
for `insert_1/4` when it is there.
-/

namespace Otp.Stdlib.GbTrees

open Otp.Lib Otp.Lib.SortedAssoc List

variable {K V : Type} {k : K} {v : V} {sm bi t : Tree K V} {s : ℕ} {e : K × V} {l : List (K × V)}

/-! ## Lists and counts -/

theorem Tree.toListAcc_eq (t : Tree K V) (l : List (K × V)) : t.toListAcc l = t.toList ++ l := by
  induction t generalizing l with
  | nil => rfl
  | node k v small big ihs ihb =>
    simp only [Tree.toList, Tree.toListAcc] at *
    rw [ihs, ihb, ihs (_ :: big.toListAcc [])]
    simp

@[simp] theorem Tree.toList_nil : (Tree.nil : Tree K V).toList = [] := rfl

@[simp] theorem Tree.toList_node (k : K) (v : V) (small big : Tree K V) :
    (Tree.node k v small big).toList = small.toList ++ (k, v) :: big.toList := by
  rw [Tree.toList, Tree.toListAcc, Tree.toListAcc_eq]
  rfl

/-- `count/1` counts. -/
theorem Tree.count_size (t : Tree K V) : t.count.2 = t.toList.length := by
  fun_induction Tree.count t with
  | case1 => rfl
  | case2 k v sm bi hne h1 s1 hsm h2 s2 hbi ih1 ih2 =>
    rw [hsm] at ih1
    rw [hbi] at ih2
    simp only [Tree.toList_node, length_append, length_cons]
    omega
  | case3 => rfl

/-- A node with a child has twice the greater of its children's heights. -/
theorem Tree.count_node (h : sm ≠ .nil ∨ bi ≠ .nil) :
    (Tree.node k v sm bi).count =
      (2 * max sm.count.1 bi.count.1, sm.count.2 + bi.count.2 + 1) := by
  rw [Tree.count]
  rintro rfl rfl
  simp at h

/-! ## Balancing -/

theorem splitListSize_add (h : s > 1) : (splitListSize s).1 + (splitListSize s).2 + 1 = s := by
  simp only [splitListSize]
  omega

/-- A list of two or more entries, cut where its tree has the root. -/
theorem exists_splitListSize {α : Type} {l : List α} (h : l.length > 1) :
    ∃ a e b, l = a ++ e :: b ∧ a.length = (splitListSize l.length).1 ∧
      b.length = (splitListSize l.length).2 := by
  have hadd := splitListSize_add h
  have hlt : (splitListSize l.length).1 < l.length := by omega
  refine ⟨l.take (splitListSize l.length).1, l[(splitListSize l.length).1],
    l.drop ((splitListSize l.length).1 + 1), ?_, ?_, ?_⟩
  · rw [← drop_eq_getElem_cons hlt, take_append_drop]
  · rw [length_take]
    omega
  · rw [length_drop]
    omega

/-- The tree for a number of entries is made of that many from the front. -/
theorem balanceListUnchecked1_append (a b : List (K × V)) :
    ∃ t, balanceListUnchecked1 (a ++ b) a.length = .ok (t, b) ∧ t.toList = a := by
  induction hn : a.length using Nat.strongRecOn generalizing a b with
  | _ n ih =>
    subst hn
    rw [balanceListUnchecked1.eq_def]
    by_cases h1 : a.length > 1
    · obtain ⟨a1, ⟨k, v⟩, a2, ha, hlen1, hlen2⟩ := exists_splitListSize h1
      have hadd := splitListSize_add h1
      obtain ⟨t1, ht1, hl1⟩ := ih a1.length (by omega) a1 ((k, v) :: (a2 ++ b)) rfl
      obtain ⟨t2, ht2, hl2⟩ := ih a2.length (by omega) a2 b rfl
      rw [if_pos h1, ← hlen1, ← hlen2]
      refine ⟨.node k v t1 t2, ?_, ?_⟩
      · rw [ha, append_assoc, cons_append, ht1]
        simp only [bind, Except.bind, ht2, pure, Except.pure]
      · rw [Tree.toList_node, hl1, hl2, ← ha]
    · match a with
      | [] => exact ⟨.nil, rfl, rfl⟩
      | [(k, v)] => exact ⟨.node k v .nil .nil, rfl, rfl⟩
      | _ :: _ :: _ => simp at h1

theorem fromOrddictUnchecked_spec (l : List (K × V)) :
    ∃ t : GbTree K V, fromOrddictUnchecked l = .ok t ∧ t.size = l.length ∧ t.tree.toList = l := by
  obtain ⟨t, ht, hl⟩ := balanceListUnchecked1_append l []
  rw [append_nil] at ht
  refine ⟨⟨l.length, t⟩, ?_, rfl, hl⟩
  simp only [fromOrddictUnchecked, balanceListUnchecked, ht, bind, Except.bind, pure, Except.pure]

/-- Balancing a tree keeps its entries. -/
theorem Tree.balance_spec (t : Tree K V) (hs : t.toList.length = s) :
    ∃ t', t.balance s = .ok t' ∧ t'.toList = t.toList := by
  subst hs
  obtain ⟨t', ht', hl⟩ := balanceListUnchecked1_append t.toList []
  refine ⟨t', ?_, hl⟩
  rw [append_nil] at ht'
  simp only [Tree.balance, balanceListUnchecked, ht', bind, Except.bind, pure, Except.pure]

theorem map_toList (f : K → V → V) (t : Tree K V) :
    (map.map1 f t).toList = t.toList.map fun e => (e.1, f e.1 e.2) := by
  induction t with
  | nil => rfl
  | node k v sm bi ihs ihb => simp [map.map1, ihs, ihb]

/-! ## Taking the ends -/

theorem Tree.takeSmallest1_spec (h : t.toList = e :: l) :
    ∃ t', t.takeSmallest1 = .ok (e.1, e.2, t') ∧ t'.toList = l := by
  induction t generalizing e l with
  | nil => cases h
  | node k v sm bi ihs _ =>
    rw [Tree.toList_node] at h
    cases hsm : sm.toList with
    | nil =>
      have : sm = .nil := by cases sm <;> simp_all
      subst this
      cases h
      exact ⟨bi, rfl, rfl⟩
    | cons e' l' =>
      rw [hsm] at h
      obtain ⟨t', ht', hl'⟩ := ihs hsm
      cases h
      refine ⟨.node k v t' bi, ?_, by rw [Tree.toList_node, hl']; rfl⟩
      cases sm with
      | nil => cases hsm
      | node => simp only [Tree.takeSmallest1, ht', bind, Except.bind, pure, Except.pure]

theorem Tree.takeLargest1_spec (h : t.toList = l ++ [e]) :
    ∃ t', t.takeLargest1 = .ok (e.1, e.2, t') ∧ t'.toList = l := by
  induction t generalizing e l with
  | nil => simp at h
  | node k v sm bi _ ihb =>
    rw [Tree.toList_node] at h
    rcases eq_nil_or_concat bi.toList with hbi | ⟨l', e', hbi⟩
    · have : bi = .nil := by cases bi <;> simp_all
      subst this
      obtain ⟨rfl, he⟩ := append_inj' h rfl
      cases he
      exact ⟨sm, rfl, rfl⟩
    · rw [concat_eq_append] at hbi
      rw [hbi, ← cons_append, ← append_assoc] at h
      obtain ⟨rfl, he⟩ := append_inj' h rfl
      cases he
      obtain ⟨t', ht', hl'⟩ := ihb hbi
      refine ⟨.node k v sm t', ?_, by rw [Tree.toList_node, hl']⟩
      cases bi with
      | nil => simp at hbi
      | node => simp only [Tree.takeLargest1, ht', bind, Except.bind, pure, Except.pure]

theorem merge_spec (smaller larger : Tree K V) :
    ∃ t, merge smaller larger = .ok t ∧ t.toList = smaller.toList ++ larger.toList := by
  fun_cases merge smaller larger with
  | case1 => exact ⟨smaller, rfl, by simp⟩
  | case2 => exact ⟨larger, rfl, by simp⟩
  | case3 hl hs =>
    cases hlarger : larger.toList with
    | nil => cases larger <;> simp_all
    | cons e l =>
      obtain ⟨t', ht', hl'⟩ := Tree.takeSmallest1_spec hlarger
      exact ⟨.node e.1 e.2 smaller t', by simp only [ht']; rfl, by rw [Tree.toList_node, hl']⟩

/-! ## Replies of an insertion -/

/-- The tree in a reply of `insert_1/4`. -/
def InsertReply.toTree : InsertReply K V → Tree K V
  | .tree t => t
  | .deep t _ _ => t

/-- What a triple promises: its height and size are those of its tree, it is not
too high for its size, and it is higher than the measure `s` at the root of the
subtree allows. -/
def InsertReply.Honest (s : ℕ) : InsertReply K V → Prop
  | .tree _ => True
  | .deep t h n => t.count = (h, n) ∧ h ≤ n * n ∧ s < h

theorem InsertReply.Honest.toTree_ne_nil {h n : ℕ} (hr : (InsertReply.deep t h n).Honest s) :
    t ≠ .nil := by
  obtain ⟨hc, hle, hlt⟩ := hr
  rintro rfl
  cases hc
  simp at hle

/-- The check on the way up gives an honest reply for the node with the new child. -/
theorem checkDeep_spec {sibling : Tree K V} {h1 s1 : ℕ}
    (hcount : t.count = (2 * max h1 sibling.count.1, s1 + sibling.count.2 + 1)) (hlt : s / 2 < h1) :
    ∃ r, checkDeep t h1 s1 sibling = .ok r ∧ r.toTree.toList = t.toList ∧ r.Honest s := by
  unfold checkDeep
  rcases hsib : sibling.count with ⟨h2, s2⟩
  rw [hsib] at hcount
  simp only at hcount ⊢
  split_ifs with hhigh
  · have hsize : t.toList.length = s1 + s2 + 1 := by rw [← Tree.count_size, hcount]
    obtain ⟨t', ht', hl'⟩ := t.balance_spec hsize
    rw [ht']
    exact ⟨.tree t', rfl, hl', trivial⟩
  · refine ⟨_, rfl, rfl, hcount, Nat.le_of_not_lt hhigh, ?_⟩
    omega

/-! ## Functions that compare keys -/

variable [Preorder K]

/-- The subtrees of an ordered tree are ordered. -/
theorem sorted_children (hs : Sorted (Tree.node k v sm bi).toList) :
    Sorted sm.toList ∧ Sorted bi.toList := by
  rw [Tree.toList_node, sorted_append_cons] at hs
  exact ⟨hs.1, hs.2.1⟩

theorem sorted_iff_isChain (l : List (K × V)) : Sorted l ↔ l.IsChain fun x y => x.1 < y.1 := by
  exact isChain_iff_pairwise.symm

variable [DecidableLT K]

theorem Tree.delete1_eq (key : K) (t : Tree K V) : t.delete1 key = (t.take1 key).map Prod.snd := by
  induction t with
  | nil => rfl
  | node k v sm bi ihs ihb =>
    rw [Tree.delete1, Tree.take1, ihs, ihb]
    split_ifs
    · cases sm.take1 key <;> rfl
    · cases bi.take1 key <;> rfl
    · cases merge sm bi <;> rfl

/-! ## From lists -/

/-- The checked tree is made if each entry taken is below the next one in the
list, whether that one is taken as well or not. -/
theorem balanceListChecked1_append (a b : List (K × V)) :
    Outcome (balanceListChecked1 (a ++ b) a.length)
      ((a ++ b.take 1).IsChain fun x y => x.1 < y.1) .notOrddict
      fun r => r.1.toList = a ∧ r.2 = b := by
  induction hn : a.length using Nat.strongRecOn generalizing a b with
  | _ n ih =>
    subst hn
    rw [balanceListChecked1.eq_def]
    by_cases h1 : a.length > 1
    · obtain ⟨a1, ⟨k, v⟩, a2, ha, hlen1, hlen2⟩ := exists_splitListSize h1
      have hadd := splitListSize_add h1
      have ih1 := ih a1.length (by omega) a1 ((k, v) :: (a2 ++ b)) rfl
      have ih2 := ih a2.length (by omega) a2 b rfl
      have hchain : ((a ++ b.take 1).IsChain fun x y => x.1 < y.1) ↔
          ((a1 ++ [(k, v)]).IsChain fun x y => x.1 < y.1) ∧
          (∀ y ∈ (a2 ++ b).head?, k < y.1) ∧
          (a2 ++ b.take 1).IsChain fun x y => x.1 < y.1 := by
        have hhead : (a2 ++ b.take 1).head? = (a2 ++ b).head? := by
          cases a2 <;> cases b <;> rfl
        rw [ha, append_assoc, cons_append, isChain_split, isChain_cons, hhead]
      have hlist : a ++ b = a1 ++ (k, v) :: (a2 ++ b) := by rw [ha]; simp
      rw [if_pos h1, ← hlen1, ← hlen2, hlist]
      refine (ih1.seq fun r hr => ?_).of_iff hchain.symm
      obtain ⟨t1, l1⟩ := r
      obtain ⟨hl1, rfl⟩ := hr
      have hlast : Outcome ((balanceListChecked1 (a2 ++ b) a2.length).bind
          fun r => .ok (.node k v t1 r.1, r.2)) _ .notOrddict
          fun r : Tree K V × List (K × V) => r.1.toList = a ∧ r.2 = b :=
        ih2.bind fun r hr => ⟨_, rfl, by rw [Tree.toList_node, hl1, hr.1, ha], hr.2⟩
      cases hab : a2 ++ b with
      | nil =>
        rw [hab] at hlast
        exact hlast.of_iff (by simp)
      | cons y l =>
        rw [hab] at hlast
        by_cases hlt : k < y.1
        · simp only [hlt, not_true, if_false]
          exact hlast.of_iff (by simp [hlt])
        · simp only [hlt, not_false_eq_true, if_true]
          exact .error (by simp [hlt])
    · match a, b with
      | [], b =>
        refine .ok ?_ ⟨rfl, rfl⟩
        cases b <;> simp
      | [(k, v)], [] => exact .ok (by simp) ⟨rfl, rfl⟩
      | [(k, v)], (k2, v2) :: b =>
        by_cases hlt : k < k2
        · simp only [length_cons, length_nil, cons_append, nil_append, hlt,
            not_true, if_false, if_true]
          exact .ok (by simp [hlt]) ⟨rfl, rfl⟩
        · simp only [length_cons, length_nil, cons_append, nil_append, hlt,
            not_false_eq_true, if_true]
          exact .error (by simp [hlt])
      | _ :: _ :: _, _ => simp at h1

theorem fromOrddict_spec (l : List (K × V)) :
    Outcome (fromOrddict l) (Sorted l) .notOrddict
      fun t => t.size = l.length ∧ t.tree.toList = l := by
  have h := balanceListChecked1_append l []
  rw [take_nil, append_nil, ← sorted_iff_isChain] at h
  have hlist : Outcome (balanceListChecked l l.length) (Sorted l) .notOrddict
      fun t => t.toList = l := by
    refine h.bind fun r hr => ?_
    obtain ⟨t, l'⟩ := r
    obtain ⟨hl, rfl⟩ := hr
    exact ⟨t, rfl, hl⟩
  exact hlist.bind fun t ht => ⟨_, rfl, rfl, ht⟩

/-- `orddict:from_list/1` stores the pairs one after the other. -/
theorem orddictFromList_eq (l : List (K × V)) :
    orddictFromList l = l.foldl (fun acc e => put e.1 e.2 acc) [] := by
  match l with
  | [] => rfl
  | [_] => rfl
  | _ :: _ :: _ => rw [orddictFromList, ukeysort, foldr_reverse] <;> simp

/-! ## Ordered trees -/

variable [Std.Total (α := K) (· ≤ ·)]

/-- Where a key is found in an ordered tree. -/
theorem find_node {key : K} (hs : Sorted (Tree.node k v sm bi).toList) :
    find key (Tree.node k v sm bi).toList =
      if key < k then find key sm.toList
      else if k < key then find key bi.toList
      else some (k, v) := by
  rw [Tree.toList_node] at *
  exact (ops_append_cons hs).1

section

variable (hs : Sorted t.toList)

include hs

theorem Tree.lookup1_eq (key : K) : t.lookup1 key = (find key t.toList).map Prod.snd := by
  induction t with
  | nil => rfl
  | node k v sm bi ihs ihb =>
    obtain ⟨hsm, hbi⟩ := sorted_children hs
    rw [find_node hs, Tree.lookup1, ihs hsm, ihb hbi]
    split_ifs <;> rfl

theorem Tree.isDefined1_eq (key : K) : t.isDefined1 key = (find key t.toList).isSome := by
  induction t with
  | nil => rfl
  | node k v sm bi ihs ihb =>
    obtain ⟨hsm, hbi⟩ := sorted_children hs
    rw [find_node hs, Tree.isDefined1, ihs hsm, ihb hbi]
    split_ifs <;> rfl

theorem Tree.update1_spec (key : K) (value : V) :
    Outcome (t.update1 key value) ((find key t.toList).isSome) .functionClause
      fun t' => t'.toList = put key value t.toList := by
  induction t with
  | nil => exact .error (by simp [find])
  | node k v sm bi ihs ihb =>
    obtain ⟨hsm, hbi⟩ := sorted_children hs
    obtain ⟨-, hput, -⟩ := ops_append_cons (k := key) (Tree.toList_node k v sm bi ▸ hs)
    rw [find_node hs, Tree.update1, Tree.toList_node, hput]
    split_ifs with hlt hgt
    · exact (ihs hsm).bind fun t' ht' => ⟨_, rfl, by rw [Tree.toList_node, ht']⟩
    · exact (ihb hbi).bind fun t' ht' => ⟨_, rfl, by rw [Tree.toList_node, ht']⟩
    · exact .ok rfl (Tree.toList_node ..)

theorem Tree.take1_spec (key : K) :
    Outcome (t.take1 key) ((find key t.toList).isSome) .functionClause
      fun r => (find key t.toList).map Prod.snd = some r.1 ∧
        r.2.toList = erase key t.toList := by
  induction t with
  | nil => exact .error (by simp [find])
  | node k v sm bi ihs ihb =>
    obtain ⟨hsm, hbi⟩ := sorted_children hs
    obtain ⟨-, -, herase⟩ := ops_append_cons (k := key) (Tree.toList_node k v sm bi ▸ hs)
    rw [find_node hs, Tree.take1, Tree.toList_node, herase]
    split_ifs with hlt hgt
    · exact (ihs hsm).bind fun r hr => ⟨_, rfl, hr.1, by rw [Tree.toList_node, hr.2]⟩
    · exact (ihb hbi).bind fun r hr => ⟨_, rfl, hr.1, by rw [Tree.toList_node, hr.2]⟩
    · obtain ⟨t', ht', hl'⟩ := merge_spec sm bi
      rw [ht']
      exact .ok rfl ⟨rfl, hl'⟩

/-! ## Insertion -/

theorem Tree.insert1_spec (key : K) (value : V) (s : ℕ) :
    Outcome (t.insert1 key value s) ((find key t.toList).isSome = false) (.keyExists key)
      fun r => r.toTree.toList = put key value t.toList ∧ r.Honest s := by
  induction t generalizing s with
  | nil =>
    rw [Tree.insert1]
    split_ifs with h0
    · exact .ok rfl ⟨rfl, rfl, Nat.le_refl _, by omega⟩
    · exact .ok rfl ⟨rfl, trivial⟩
  | node k v sm bi ihs ihb =>
    obtain ⟨hsm, hbi⟩ := sorted_children hs
    obtain ⟨-, hput, -⟩ := ops_append_cons (k := key) (Tree.toList_node k v sm bi ▸ hs)
    rw [find_node hs, Tree.insert1, Tree.toList_node, hput]
    split_ifs with hlt hgt
    · refine (ihs hsm (s / 2)).bind fun r hr => ?_
      cases r with
      | tree t1 => exact ⟨_, rfl, by rw [← hr.1]; exact Tree.toList_node .., trivial⟩
      | deep t1 h1 s1 =>
        have hcount : (Tree.node k v t1 bi).count =
            (2 * max h1 bi.count.1, s1 + bi.count.2 + 1) := by
          rw [Tree.count_node (.inl hr.2.toTree_ne_nil), hr.2.1]
        obtain ⟨r', hr', hl', hon⟩ := checkDeep_spec hcount hr.2.2.2
        exact ⟨r', hr', by rw [hl', Tree.toList_node, ← hr.1]; rfl, hon⟩
    · refine (ihb hbi (s / 2)).bind fun r hr => ?_
      cases r with
      | tree t1 => exact ⟨_, rfl, by rw [← hr.1]; exact Tree.toList_node .., trivial⟩
      | deep t1 h1 s1 =>
        have hcount : (Tree.node k v sm t1).count =
            (2 * max h1 sm.count.1, s1 + sm.count.2 + 1) := by
          rw [Tree.count_node (.inr hr.2.toTree_ne_nil), hr.2.1, Nat.max_comm h1, Nat.add_comm s1]
        obtain ⟨r', hr', hl', hon⟩ := checkDeep_spec hcount hr.2.2.2
        exact ⟨r', hr', by rw [hl', Tree.toList_node, ← hr.1]; rfl, hon⟩
    · exact .error (by simp)

end

/-- At the root of a tree with the right size the reply is a tree: a triple would
be higher than the square of its size, and such a node is rebuilt. -/
theorem insert_spec {t : GbTree K V} (hs : Sorted t.tree.toList)
    (hsize : t.size = t.tree.toList.length) (key : K) (value : V) :
    Outcome (insert key value t) ((find key t.tree.toList).isSome = false) (.keyExists key)
      fun r => ∃ t', r = (t.size + 1, .tree t') ∧ t'.toList = put key value t.tree.toList := by
  refine (Tree.insert1_spec hs key value _).with_cond.bind fun r hr => ?_
  obtain ⟨hnone, hl, hon⟩ := hr
  cases r with
  | tree t' => exact ⟨_, rfl, t', rfl, hl⟩
  | deep t' h n =>
    exfalso
    obtain ⟨hcount, hle, hlt⟩ := hon
    have hn : n = t.size + 1 :=
      calc n = t'.count.2 := by rw [hcount]
        _ = (put key value t.tree.toList).length := by rw [Tree.count_size, ← hl]; rfl
        _ = t.size + 1 := by rw [length_put_of_none hnone, hsize]
    rw [hn] at hle
    omega

end Otp.Stdlib.GbTrees
