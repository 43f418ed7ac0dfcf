import Otp.Erts.DbTree.Balance

/-!
# Sequences of insertions and deletions in ordered sets

The invariant of a table: an AVL tree with its objects in strictly increasing order of keys,
and the number of them (`Table.Inv`).  Insertion and deletion keep it, and do to the objects
what they do to a finite map.  Keys are compared with a total preorder: two keys that are
neither below nor above each other are the same key, and the later object replaces the
earlier one with its key.
-/

namespace Otp.Erts.DbTree

open Lib.SortedAssoc

variable {K V : Type*} {l r : Tree K V} {e : K × V} {b : ℤ}

/-! ## Deletion of a root -/

theorem deleteLast_spec (ht : (Tree.node l e b r).Avl) :
    ∃ last t shrunk, deleteLast (.node l e b r) = some (last, some (t, shrunk)) ∧
      (Tree.node l e b r).toList = t.toList ++ [last] ∧
      Shrinks (Tree.node l e b r).height t shrunk := by
  induction r generalizing l e b with
  | nil => exact ⟨e, l, true, rfl, rfl, ⟨ht.1, by simp [Tree.height]⟩⟩
  | node rl re rb rr _ ih =>
    obtain ⟨last, t, shrunk, heq, hlist, ht'⟩ := ih ht.2.1
    obtain ⟨t', shrunk', hstep, hlist', hshrinks⟩ := stepUp_delete ht.right ht'
    refine ⟨last, t', shrunk', ?_, ?_, ?_⟩
    · rw [deleteLast, heq, ← hstep]
    · rw [Tree.toList, hlist, hlist', Frame.plug, Tree.toList]
      simp only [List.append_assoc, List.cons_append]
    · rw [Tree.height, max_comm]
      exact hshrinks

theorem deleteRoot_spec (ht : (Tree.node l e b r).Avl) :
    ∃ t shrunk, deleteRoot l b r = some (t, shrunk) ∧ t.toList = l.toList ++ r.toList ∧
      Shrinks (Tree.node l e b r).height t shrunk := by
  match r, l with
  | .nil, l =>
    exact ⟨l, true, rfl, (List.append_nil _).symm, ⟨ht.1, by simp [Tree.height]⟩⟩
  | .node rl re rb rr, .nil =>
    exact ⟨_, true, rfl, rfl, ⟨ht.2.1, by simp [Tree.height]⟩⟩
  | .node rl re rb rr, .node ll le lb lr =>
    obtain ⟨last, t, shrunk, heq, hlist, ht'⟩ := deleteLast_spec ht.1
    -- the last object of the left subtree is the new root
    have hfits : Frame.Fits ⟨.left, last, b, .node rl re rb rr⟩ (Tree.node ll le lb lr).height :=
      ⟨ht.2.1, ht.2.2.1, ht.2.2.2.1, ht.2.2.2.2⟩
    obtain ⟨t', shrunk', hstep, hlist', hshrinks⟩ := stepUp_delete hfits ht'
    refine ⟨t', shrunk', ?_, ?_, hshrinks⟩
    · rw [deleteRoot, heq, ← hstep]
    · rw [hlist, hlist', Frame.plug, Tree.toList]
      simp only [List.append_assoc, List.singleton_append]

/-! ## Stacks -/

/-- `STACK_NEED`, for how many objects. -/
def stackNeed : List (ℕ × ℤ) := [(50, 0xFFFFFFFF), (90, 2 ^ 61)]

theorem fib_height_le {t : Tree K V} (ht : t.Avl) :
    Nat.fib (t.height + 2) ≤ t.toList.length + 1 := by
  induction t with
  | nil => exact le_rfl
  | node l e b r ihl ihr =>
    have hlow := Nat.fib_mono (show max l.height r.height + 1 ≤ min l.height r.height + 2 by
      grind [Tree.Avl])
    rw [Tree.height, Nat.fib_add_two]
    grind [Tree.Avl, Tree.toList]

/-! ## Insertion and deletion in a subtree -/

section Order

variable [Preorder K] [DecidableLT K] [Std.Total (α := K) (· ≤ ·)] {t : Tree K V} {tb : Table K V}

theorem insertRec_spec (key : K) (obj : V) (ht : t.Avl) (hsorted : Sorted t.toList) :
    ∃ t' grew, insertRec key obj t = some (t', grew) ∧
      t'.toList = put key obj t.toList ∧ Grows t.height t' grew := by
  induction t with
  | nil =>
    exact ⟨_, _, rfl, rfl, ⟨⟨trivial, trivial, by simp [Tree.height]⟩, rfl, fun _ => .inl rfl⟩⟩
  | node l e b r ihl ihr =>
    obtain ⟨hl, hr, -, -⟩ := sorted_append_cons.1 hsorted
    rw [insertRec, Tree.toList, (ops_append_cons hsorted).2.1]
    split_ifs with hlt hgt
    · obtain ⟨t', grew, heq, hlist, hgrows⟩ := ihl ht.1 hl
      rw [heq, ← hlist]
      exact stepUp_insert ht.left hgrows
    · obtain ⟨t', grew, heq, hlist, hgrows⟩ := ihr ht.2.1 hr
      rw [heq, ← hlist, Tree.height, max_comm]
      exact stepUp_insert ht.right hgrows
    · exact ⟨_, _, rfl, rfl, ⟨ht, rfl, fun hgrew => absurd hgrew Bool.false_ne_true⟩⟩

theorem deleteRec_spec (key : K) (ht : t.Avl) (hsorted : Sorted t.toList) :
    ∃ t' shrunk, deleteRec key t = some (t', shrunk) ∧
      t'.toList = erase key t.toList ∧ Shrinks t.height t' shrunk := by
  induction t with
  | nil => exact ⟨_, _, rfl, rfl, ⟨trivial, rfl⟩⟩
  | node l e b r ihl ihr =>
    obtain ⟨hl, hr, -, -⟩ := sorted_append_cons.1 hsorted
    rw [deleteRec, Tree.toList, (ops_append_cons hsorted).2.2]
    split_ifs with hlt hgt
    · obtain ⟨t', shrunk, heq, hlist, hshrinks⟩ := ihl ht.1 hl
      rw [heq, ← hlist]
      exact stepUp_delete ht.left hshrinks
    · obtain ⟨t', shrunk, heq, hlist, hshrinks⟩ := ihr ht.2.1 hr
      rw [heq, ← hlist, Tree.height, max_comm]
      exact stepUp_delete ht.right hshrinks
    · exact deleteRoot_spec ht

/-- The object at the root. -/
def Tree.rootEntry : Tree K V → Option (K × V)
  | .nil => none
  | .node _ e _ _ => some e

/-- The walk down finds what is in the tree under a key. -/
theorem search_spec (key : K) (stack : List (Frame K V)) (hsorted : Sorted t.toList) :
    (search key t stack).1.rootEntry = find key t.toList := by
  induction t generalizing stack with
  | nil => rfl
  | node l e b r ihl ihr =>
    obtain ⟨hl, hr, -, -⟩ := sorted_append_cons.1 hsorted
    rw [search, Tree.toList, (ops_append_cons hsorted).1]
    split_ifs
    · exact ihl _ hl
    · exact ihr _ hr
    · rfl

/-! ## Operations on a table -/

/-- The invariant of a table. -/
structure Table.Inv (tb : Table K V) : Prop where
  avl : tb.root.Avl
  sorted : Sorted tb.root.toList
  nitems : tb.nitems = tb.root.toList.length

/-- A new object, or one in place of the object with the same key; with `keyClashFail`, the
table is left alone in the second case. -/
theorem dbPutTreeCommon_spec (hinv : tb.Inv) (key : K) (obj : V) (keyClashFail : Bool) :
    ∃ tb', dbPutTreeCommon tb key obj keyClashFail =
        some (tb', if keyClashFail ∧ (find key tb.root.toList).isSome then .badKey else .none) ∧
      tb'.Inv ∧
      tb'.root.toList = if keyClashFail ∧ (find key tb.root.toList).isSome then tb.root.toList
        else put key obj tb.root.toList := by
  have hfound := search_spec key [] hinv.sorted
  have hloop := insertLoop_eq key obj tb.root []
  obtain ⟨t', grew, hrec, hlist, hgrows⟩ := insertRec_spec key obj hinv.avl hinv.sorted
  rw [hrec, insertLoop] at hloop
  have hsorted : Sorted t'.toList := hlist ▸ sorted_put hinv.sorted
  rw [dbPutTreeCommon]
  generalize hsearch : search key tb.root [] = found at hfound hloop
  obtain ⟨sub, stack⟩ := found
  cases sub with
  | nil =>
    have hnone : (find key tb.root.toList).isSome = false := by rw [← hfound]; rfl
    refine ⟨⟨t', tb.nitems + 1⟩, ?_, ⟨hgrows.avl, hsorted, ?_⟩, ?_⟩
    · dsimp only at hloop ⊢
      rw [hloop, hnone]
      simp only [Bool.false_eq_true, and_false, if_false]
      rfl
    · rw [hlist, length_put_of_none hnone, hinv.nitems]
      rfl
    · simp only [hnone, Bool.false_eq_true, and_false, if_false, hlist]
  | node l e b r =>
    have hsome : (find key tb.root.toList).isSome := by rw [← hfound]; rfl
    cases keyClashFail with
    | true => exact ⟨tb, by simp [hsome], hinv, by simp [hsome]⟩
    | false =>
      dsimp only at hloop
      rw [climb_false] at hloop
      obtain ⟨heq, -⟩ := Prod.mk.inj (Option.some.inj hloop)
      refine ⟨⟨t', tb.nitems⟩, ?_, ⟨hgrows.avl, hsorted, ?_⟩, ?_⟩
      · simp [heq]
      · rw [hlist, length_put_of_some hsome, hinv.nitems]
      · simp [hlist]

/-- The object with the key goes and is the answer; without one the table is left alone. -/
theorem linkoutTree_spec (hinv : tb.Inv) (key : K) :
    ∃ tb', linkoutTree tb key = some (tb', find key tb.root.toList) ∧ tb'.Inv ∧
      tb'.root.toList = erase key tb.root.toList := by
  have hfound := search_spec key [] hinv.sorted
  have hloop := deleteLoop_eq key tb.root []
  obtain ⟨t', shrunk, hrec, hlist, hshrinks⟩ := deleteRec_spec key hinv.avl hinv.sorted
  rw [hrec, deleteLoop] at hloop
  have hsorted : Sorted t'.toList := hlist ▸ sorted_erase hinv.sorted
  rw [linkoutTree]
  generalize hsearch : search key tb.root [] = found at hfound hloop
  obtain ⟨sub, stack⟩ := found
  cases sub with
  | nil =>
    have hnone : (find key tb.root.toList).isSome = false := by rw [← hfound]; rfl
    exact ⟨tb, by rw [← hfound]; rfl, hinv, (erase_of_none hnone).symm⟩
  | node l e b r =>
    have hsome : (find key tb.root.toList).isSome := by rw [← hfound]; rfl
    dsimp only at hloop ⊢
    refine ⟨⟨t', tb.nitems - 1⟩, ?_, ⟨hshrinks.avl, hsorted, ?_⟩, hlist⟩
    · rw [hloop, ← hfound]
      rfl
    · show tb.nitems - 1 = t'.toList.length
      have hpos : 0 < tb.root.toList.length := by
        cases hroot : tb.root.toList with
        | nil => rw [hroot] at hsome; cases hsome
        | cons x xs => exact Nat.succ_pos _
      rw [hlist, length_erase_of_some hsome, hinv.nitems]
      omega

/-! ## Sequences of operations -/

inductive Op (K V : Type*)
  | put (key : K) (obj : V) (keyClashFail : Bool)
  | linkout (key : K)

/-- An operation on a table. -/
def Op.run (tb : Table K V) : Op K V → Option (Table K V)
  | put key obj keyClashFail => (dbPutTreeCommon tb key obj keyClashFail).map Prod.fst
  | linkout key => (linkoutTree tb key).map Prod.fst

/-- What an operation does to a finite map. -/
def Op.apply (m : Entries K V) : Op K V → Entries K V
  | put key obj keyClashFail => if keyClashFail ∧ (m key).isSome then m else m.put key obj
  | linkout key => m.erase key

def Table.empty : Table K V := ⟨.nil, 0⟩

/-- Operations one after the other. -/
def run (tb : Table K V) : List (Op K V) → Option (Table K V)
  | [] => some tb
  | op :: ops => (op.run tb).bind fun tb' => run tb' ops

theorem Op.run_spec (hinv : tb.Inv) (op : Op K V) :
    ∃ tb', op.run tb = some tb' ∧ tb'.Inv ∧
      toEntries tb'.root.toList = op.apply (toEntries tb.root.toList) := by
  cases op with
  | put key obj keyClashFail =>
    obtain ⟨tb', heq, hinv', hlist⟩ := dbPutTreeCommon_spec hinv key obj keyClashFail
    refine ⟨tb', by rw [Op.run, heq]; rfl, hinv', ?_⟩
    rw [hlist]
    show toEntries _ = if keyClashFail ∧ (find key tb.root.toList).isSome then _ else _
    split_ifs
    · rfl
    · exact toEntries_put hinv.sorted
  | linkout key =>
    obtain ⟨tb', heq, hinv', hlist⟩ := linkoutTree_spec hinv key
    refine ⟨tb', by rw [Op.run, heq]; rfl, hinv', ?_⟩
    rw [hlist]
    exact toEntries_erase hinv.sorted

theorem run_spec (hinv : tb.Inv) (ops : List (Op K V)) :
    ∃ tb', run tb ops = some tb' ∧ tb'.Inv ∧
      toEntries tb'.root.toList = ops.foldl Op.apply (toEntries tb.root.toList) := by
  induction ops generalizing tb with
  | nil => exact ⟨tb, rfl, hinv, rfl⟩
  | cons op ops ih =>
    obtain ⟨tb', heq, hinv', hentries⟩ := op.run_spec hinv
    obtain ⟨tb'', hrun, hinv'', hentries'⟩ := ih hinv'
    refine ⟨tb'', ?_, hinv'', ?_⟩
    · rw [run, heq]
      exact hrun
    · rw [hentries', hentries]
      rfl

omit [Std.Total (α := K) (· ≤ ·)] in
theorem search_le (key : K) (stack) :
    (search key t stack).2.length + (search key t stack).1.height ≤ stack.length + t.height := by
  fun_induction search <;> grind [Tree.height]

/-- The way to a key and the tree below it fit into the stacks. -/
theorem run_stacks_fit (ops : List (Op K V)) (key : K) :
    ∃ tb, run .empty ops = some tb ∧ ∀ s ∈ stackNeed, tb.nitems ≤ s.2 →
      (search key tb.root []).2.length + (search key tb.root []).1.height ≤ s.1 := by
  obtain ⟨tb, hrun, hinv, -⟩ := run_spec (⟨trivial, .nil, rfl⟩ : Table.Inv .empty) ops
  refine ⟨tb, hrun, fun s hs hn => (search_le key []).trans ?_⟩
  by_contra! hlt
  have hfib := Nat.fib_mono (Nat.add_le_add_right hlt 2)
  have hsize := fib_height_le hinv.avl
  rw [hinv.nitems] at hn
  fin_cases hs <;> norm_num at hfib hn <;> omega

/-- From the empty table, every sequence of insertions and deletions goes through; the tree is
an AVL tree, its keys increase strictly in order, and its objects are those of the finite map
to which the same operations are applied. -/
theorem run_empty_avl (ops : List (Op K V)) :
    ∃ tb, run .empty ops = some tb ∧ tb.root.Avl ∧ Sorted tb.root.toList ∧
      toEntries tb.root.toList = ops.foldl Op.apply Entries.empty ∧
      tb.nitems = tb.root.toList.length := by
  have hempty : (Table.empty : Table K V).Inv := ⟨trivial, List.Pairwise.nil, rfl⟩
  obtain ⟨tb, heq, hinv, hentries⟩ := run_spec hempty ops
  exact ⟨tb, heq, hinv.avl, hinv.sorted, hentries, hinv.nitems⟩

end Order

/-- An inner node goes from a tree of five objects, and the left subtree becomes too low. -/
theorem run_empty_avl_numbers :
    ∃ tb, run (K := ℕ) (V := ℕ) .empty [.put 2 0 false, .put 1 0 false, .put 4 0 true,
      .put 3 0 false, .put 5 0 false, .put 4 7 true, .linkout 2, .linkout 9] = some tb ∧
      tb.root.Avl ∧
      tb.root.toList = [(1, 0), (3, 0), (4, 0), (5, 0)] := by
  obtain ⟨tb, heq, havl, -⟩ := run_empty_avl (K := ℕ) (V := ℕ) [.put 2 0 false, .put 1 0 false,
    .put 4 0 true, .put 3 0 false, .put 5 0 false, .put 4 7 true, .linkout 2, .linkout 9]
  refine ⟨tb, heq, havl, ?_⟩
  have hlist := congrArg (Option.map fun x => x.root.toList) heq
  exact (Option.some.inj (hlist.symm.trans (by decide +kernel)))

/-- The way to a leaf at the third level. -/
theorem run_stacks_fit_levels :
    ∃ tb, run (K := ℕ) .empty
        [.put 2 0 true, .put 1 0 true, .put 4 0 true, .put 3 0 true] = some tb ∧
      (search 3 tb.root []).2.length = 2 ∧
      (search 3 tb.root []).2.length + (search 3 tb.root []).1.height ≤ 50 := by
  obtain ⟨tb, ⟨⟩, hfit⟩ := run_stacks_fit (K := ℕ)
    [.put 2 0 true, .put 1 0 true, .put 4 0 true, .put 3 0 true] 3
  exact ⟨_, rfl, by decide, hfit _ (.head _) (by decide)⟩

end Otp.Erts.DbTree
