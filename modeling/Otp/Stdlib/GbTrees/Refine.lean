import Otp.Stdlib.GbTrees.Contents

/-!
# General balanced trees are finite maps

A run is a list of calls on a tree made by `empty/0`, `from_list/1` or
`from_orddict/1`.  `Op.Spec` says what each call does to a finite map and what it
returns, without a representation.  A run of the source and a run of the map
correspond exactly: each returns where the other does, with the same replies, and
every tree on the way is `Valid` (`run_matches`).
-/

namespace Otp.Stdlib.GbTrees

open Otp.Lib Otp.Lib.SortedAssoc

variable {K V : Type} {cond : Prop} {err : GbError K}

/-! ## Calls -/

/-- A call that takes a tree and returns one. -/
inductive Op (K V : Type) where
  | insert (key : K) (value : V)
  | enter (key : K) (value : V)
  | update (key : K) (value : V)
  | delete (key : K)
  | deleteAny (key : K)
  | take (key : K)
  | takeSmallest
  | takeLargest
  | map (f : K → V → V)
  | balance

/-- What a call returns beside the tree. -/
inductive Reply (K V : Type) where
  | nothing
  | value (v : V)
  | entry (k : K) (v : V)

/-- Why a run stops: a call raised, or it returned a triple in place of a tree. -/
inductive Fault (K : Type) where
  | raised (e : GbError K)
  | triple

/-- The reply and the tree of a call. -/
def reply {α : Type} (r : Except (GbError K) α) (f : α → Reply K V × GbTree K V) :
    Except (Fault K) (Reply K V × GbTree K V) :=
  match r with
  | .ok x => .ok (f x)
  | .error e => .error (.raised e)

/-- The tree that `insert/3` or `enter/3` puts together. -/
def replyInsert (r : Except (GbError K) (ℕ × InsertReply K V)) :
    Except (Fault K) (Reply K V × GbTree K V) :=
  match r with
  | .ok (s, .tree t) => .ok (.nothing, ⟨s, t⟩)
  | .ok (_, .deep _ _ _) => .error .triple
  | .error e => .error (.raised e)

theorem outcome_reply {α : Type} {r : Except (GbError K) α} {f : α → Reply K V × GbTree K V}
    {post : α → Prop} {post' : Reply K V × GbTree K V → Prop} (h : Outcome r cond err post)
    (hf : ∀ x, post x → post' (f x)) : Outcome (reply r f) cond (.raised err) post' := by
  refine ⟨fun hc => ?_, fun hc => by rw [h.2 hc]; rfl⟩
  obtain ⟨x, rfl, hx⟩ := h.1 hc
  exact ⟨f x, rfl, hf x hx⟩

theorem outcome_replyInsert {r : Except (GbError K) (ℕ × InsertReply K V)} {n : ℕ}
    {post : Tree K V → Prop} (h : Outcome r cond err fun r => ∃ t', r = (n, .tree t') ∧ post t') :
    Outcome (replyInsert r) cond (.raised err)
      fun p => p.1 = .nothing ∧ p.2.size = n ∧ post p.2.tree := by
  refine ⟨fun hc => ?_, fun hc => by rw [h.2 hc]; rfl⟩
  obtain ⟨_, rfl, t', rfl, ht'⟩ := h.1 hc
  exact ⟨_, rfl, rfl, rfl, ht'⟩

section Calls

variable [Preorder K] [DecidableLT K]

/-- The call behind an operation. -/
def Op.apply (t : GbTree K V) : Op K V → Except (Fault K) (Reply K V × GbTree K V)
  | .insert key value => replyInsert (GbTrees.insert key value t)
  | .enter key value => replyInsert (GbTrees.enter key value t)
  | .update key value => reply (GbTrees.update key value t) fun t' => (.nothing, t')
  | .delete key => reply (GbTrees.delete key t) fun t' => (.nothing, t')
  | .deleteAny key => reply (GbTrees.deleteAny key t) fun t' => (.nothing, t')
  | .take key => reply (GbTrees.take key t) fun r => (.value r.1, r.2)
  | .takeSmallest => reply (GbTrees.takeSmallest t) fun r => (.entry r.1 r.2.1, r.2.2)
  | .takeLargest => reply (GbTrees.takeLargest t) fun r => (.entry r.1 r.2.1, r.2.2)
  | .map f => .ok (.nothing, GbTrees.map f t)
  | .balance => reply (GbTrees.balance t) fun t' => (.nothing, t')

/-- The calls of a run, with their replies. -/
def run (t : GbTree K V) : List (Op K V) → Except (Fault K) (List (Reply K V) × GbTree K V)
  | [] => .ok ([], t)
  | o :: os =>
    match o.apply t with
    | .error f => .error f
    | .ok (r, t') =>
      match run t' os with
      | .error f => .error f
      | .ok (rs, t'') => .ok (r :: rs, t'')

/-- How the first tree of a run is made. -/
inductive Start (K V : Type) where
  | empty
  | fromList (l : List (K × V))
  | fromOrddict (l : List (K × V))

/-- The call that makes the first tree. -/
def Start.tree : Start K V → Except (GbError K) (GbTree K V)
  | .empty => .ok GbTrees.empty
  | .fromList l => GbTrees.fromList l
  | .fromOrddict l => GbTrees.fromOrddict l

/-! ## The finite map -/

/-- What each call does to a finite map, and what it returns.  A call that does
not apply relates the map to nothing. -/
def Op.Spec (m : Entries K V) (r : Reply K V) (m' : Entries K V) : Op K V → Prop
  | .insert key value => m key = none ∧ r = .nothing ∧ m' = m.put key value
  | .enter key value => r = .nothing ∧ m' = m.put key value
  | .update key value => m key ≠ none ∧ r = .nothing ∧ m' = m.put key value
  | .delete key => m key ≠ none ∧ r = .nothing ∧ m' = m.erase key
  | .deleteAny key => r = .nothing ∧ m' = m.erase key
  | .take key => ∃ e, m key = some e ∧ r = .value e.2 ∧ m' = m.erase key
  | .takeSmallest => ∃ e, m.IsLeast e ∧ r = .entry e.1 e.2 ∧ m' = m.erase e.1
  | .takeLargest => ∃ e, m.IsGreatest e ∧ r = .entry e.1 e.2 ∧ m' = m.erase e.1
  | .map f => r = .nothing ∧ m' = m.map f
  | .balance => r = .nothing ∧ m' = m

/-- The run of a finite map. -/
def SpecRun (m : Entries K V) (rs : List (Reply K V)) (m' : Entries K V) :
    List (Op K V) → Prop
  | [] => rs = [] ∧ m' = m
  | o :: os => ∃ r rs' m1, o.Spec m r m1 ∧ SpecRun m1 rs' m' os ∧ rs = r :: rs'

/-- The entries of a list, stored one after the other. -/
def putAll (l : List (K × V)) : Entries K V := l.foldl (fun m e => m.put e.1 e.2) Entries.empty

/-- The first map of a run; `from_orddict/1` wants sorted entries. -/
def Start.Spec (m : Entries K V) : Start K V → Prop
  | .empty => m = Entries.empty
  | .fromList l => m = putAll l
  | .fromOrddict l => Sorted l ∧ m = putAll l

/-! ## Trees as finite maps -/

/-- The finite map of a tree. -/
def entries (t : GbTree K V) : Entries K V := toEntries t.tree.toList

end Calls

/-- The number of nodes of a tree. -/
def Tree.nodes : Tree K V → ℕ
  | .nil => 0
  | .node _ _ smaller bigger => smaller.nodes + bigger.nodes + 1

theorem Tree.nodes_eq (t : Tree K V) : t.nodes = t.toList.length := by
  induction t with
  | nil => rfl
  | node k v sm bi ihs ihb =>
    simp only [Tree.nodes, Tree.toList_node, List.length_append, List.length_cons]
    omega

/-- The size field counts the nodes, and the keys increase strictly in order. -/
structure Valid [Preorder K] (t : GbTree K V) : Prop where
  size : t.size = t.tree.nodes
  sorted : Sorted t.tree.toList

/-- The functions that read a tree read a finite map. -/
structure Agrees [Preorder K] [DecidableLT K] (t : GbTree K V) (m : Entries K V) : Prop where
  lookup : ∀ k, GbTrees.lookup k t = (m k).map Prod.snd
  isDefined : ∀ k, GbTrees.isDefined k t = (m k).isSome
  toList : ∀ e, e ∈ GbTrees.toList t ↔ m e.1 = some e

variable [Preorder K] {t : GbTree K V} {l : List (K × V)}

theorem Valid.size_eq (h : Valid t) : t.size = t.tree.toList.length := by
  rw [h.size, Tree.nodes_eq]

theorem Valid.of_toList (hs : Sorted l) (hl : t.tree.toList = l) (hsize : t.size = l.length) :
    Valid t :=
  ⟨by rw [hsize, Tree.nodes_eq, hl], by rw [hl]; exact hs⟩

variable [DecidableLT K] {o : Op K V}

/-! ## One call -/

/-- A call of the source matches a relation on finite maps: it raises where the
relation has nothing, and otherwise returns a valid tree with the one reply and
the one map that are related.  A call that leaves a triple at the root matches
nothing. -/
inductive Matches {R : Type} (spec : R → Entries K V → Prop) :
    Except (Fault K) (R × GbTree K V) → Prop
  | error {e : GbError K} (hspec : ∀ r m, ¬ spec r m) : Matches spec (.error (.raised e))
  | ok {r : R} {t : GbTree K V} (hv : Valid t)
      (hspec : ∀ r' m, spec r' m ↔ r' = r ∧ m = entries t) : Matches spec (.ok (r, t))

/-- A call does what it does to the map. -/
def Refines (t : GbTree K V) (o : Op K V) : Prop :=
  Matches (fun r m => o.Spec (entries t) r m) (o.apply t)

/-- A call that always returns. -/
theorem Refines.of_ok (r0 : Reply K V) (m0 : Entries K V)
    (hcall : ∃ t', o.apply t = .ok (r0, t') ∧ Valid t' ∧ entries t' = m0)
    (hspec : ∀ r m', o.Spec (entries t) r m' ↔ r = r0 ∧ m' = m0) : Refines t o := by
  obtain ⟨t', ht', hv, rfl⟩ := hcall
  rw [Refines, ht']
  exact .ok hv hspec

/-- A call with one possible reply and result. -/
theorem Refines.of_outcome (r0 : Reply K V) (m0 : Entries K V)
    (h : Outcome (o.apply t) cond (.raised err) fun p => p.1 = r0 ∧ Valid p.2 ∧ entries p.2 = m0)
    (hspec : ∀ r m', o.Spec (entries t) r m' ↔ cond ∧ r = r0 ∧ m' = m0) : Refines t o := by
  by_cases hc : cond
  · obtain ⟨⟨r1, t1⟩, h1, rfl, hres⟩ := h.1 hc
    exact .of_ok r1 m0 ⟨t1, h1, hres⟩ (by simpa [hc] using hspec)
  · rw [Refines, h.2 hc]
    exact .error fun r m hr => hc ((hspec r m).1 hr).1

theorem delete_eq (key : K) (t : GbTree K V) : delete key t = (take key t).map Prod.snd := by
  unfold delete take
  rw [Tree.delete1_eq]
  cases t.tree.take1 key <;> rfl

/-- A tree with a given list, as a result. -/
theorem valid_entries {m : Entries K V} (hs : Sorted l) (hl : t.tree.toList = l)
    (hsize : t.size = l.length) (hm : toEntries l = m) : Valid t ∧ entries t = m :=
  ⟨.of_toList hs hl hsize, by rw [entries, hl, hm]⟩

/-- A call on an empty tree that wants an entry. -/
theorem refines_empty (hspec : ∀ r m', ¬ o.Spec (entries t) r m')
    (hcall : o.apply t = .error (.raised .functionClause)) : Refines t o := by
  rw [Refines, hcall]
  exact .error hspec

theorem refines_map (h : Valid t) (f : K → V → V) : Refines t (.map f) := by
  have hsorted : Sorted (t.tree.toList.map fun e => (e.1, f e.1 e.2)) := by
    rw [Sorted, List.pairwise_map]
    exact h.sorted
  have hres : Valid (GbTrees.map f t) ∧ entries (GbTrees.map f t) = (entries t).map f :=
    valid_entries hsorted (map_toList f t.tree) (by rw [List.length_map]; exact h.size_eq)
      (funext fun k => find_map f k t.tree.toList)
  exact .of_ok .nothing ((entries t).map f) ⟨_, rfl, hres⟩ fun r m' => by simp [Op.Spec]

theorem refines_balance (h : Valid t) : Refines t .balance := by
  obtain ⟨t', ht', hl⟩ := t.tree.balance_spec h.size_eq.symm
  have hcall : GbTrees.balance t = .ok ⟨t.size, t'⟩ := by
    simp only [GbTrees.balance, ht']
    rfl
  have hres : Valid (⟨t.size, t'⟩ : GbTree K V) ∧ entries ⟨t.size, t'⟩ = entries t :=
    valid_entries h.sorted hl h.size_eq rfl
  exact .of_ok .nothing (entries t) ⟨_, by rw [Op.apply, hcall]; rfl, hres⟩
    fun r m' => by simp [Op.Spec]

variable [Std.Total (α := K) (· ≤ ·)]

section

variable (h : Valid t)

include h

/-- A valid tree agrees with its map. -/
theorem Valid.agrees : Agrees t (entries t) :=
  ⟨fun k => Tree.lookup1_eq h.sorted k, fun k => Tree.isDefined1_eq h.sorted k,
    fun _ => mem_iff_find h.sorted⟩

section

variable (key : K)

include key

theorem refines_insert (value : V) : Refines t (.insert key value) := by
  have hcall := (outcome_replyInsert (insert_spec h.sorted h.size_eq key value)).with_cond
  refine .of_outcome .nothing ((entries t).put key value) (hcall.mono fun p hp => ?_)
    fun r m' => by simp [Op.Spec, entries, toEntries]
  obtain ⟨hnone, hr, hsize, hl⟩ := hp
  exact ⟨hr, valid_entries (sorted_put h.sorted) hl
    (by rw [hsize, length_put_of_none hnone, h.size_eq]) (toEntries_put h.sorted)⟩

theorem update_spec (value : V) :
    Outcome (update key value t) ((find key t.tree.toList).isSome) .functionClause
      fun t' => t'.tree.toList = put key value t.tree.toList ∧
        t'.size = (put key value t.tree.toList).length := by
  refine (Tree.update1_spec h.sorted key value).with_cond.bind fun t' ht' => ⟨_, rfl, ht'.2, ?_⟩
  rw [length_put_of_some ht'.1, h.size_eq]

theorem refines_update (value : V) : Refines t (.update key value) := by
  refine .of_outcome .nothing ((entries t).put key value)
    (outcome_reply (update_spec h key value) fun t' ht' => ⟨rfl, ?_⟩) fun r m' => ?_
  · exact valid_entries (sorted_put h.sorted) ht'.1 ht'.2 (toEntries_put h.sorted)
  · simp [Op.Spec, entries, toEntries, Option.isSome_iff_ne_none]

theorem refines_enter (value : V) : Refines t (.enter key value) := by
  have hcall : ∃ t', GbTrees.enter key value t =
      .ok ((put key value t.tree.toList).length, .tree t') ∧
        t'.toList = put key value t.tree.toList := by
    unfold enter isDefined
    rw [Tree.isDefined1_eq h.sorted]
    cases hfind : (find key t.tree.toList).isSome with
    | true =>
      obtain ⟨t', ht', hl, hsize⟩ := (update_spec h key value).1 hfind
      exact ⟨t'.tree, by rw [← hsize]; simp only [ht']; rfl, hl⟩
    | false =>
      obtain ⟨r, hr, t', rfl, hl⟩ := (insert_spec h.sorted h.size_eq key value).1 hfind
      exact ⟨t', by rw [length_put_of_none hfind, ← h.size_eq]; exact hr, hl⟩
  obtain ⟨t', ht', hl⟩ := hcall
  refine .of_ok .nothing ((entries t).put key value) ⟨⟨_, t'⟩, ?_,
    valid_entries (sorted_put h.sorted) hl rfl (toEntries_put h.sorted)⟩
    fun r m' => by simp [Op.Spec]
  rw [Op.apply, ht']
  rfl

theorem take_spec :
    Outcome (take key t) ((find key t.tree.toList).isSome) .functionClause
      fun r => (find key t.tree.toList).map Prod.snd = some r.1 ∧
        Valid r.2 ∧ entries r.2 = (entries t).erase key := by
  refine (Tree.take1_spec h.sorted key).with_cond.bind fun r hr => ⟨_, rfl, hr.2.1, ?_⟩
  exact valid_entries (sorted_erase h.sorted) hr.2.2
    (by rw [length_erase_of_some hr.1, h.size_eq]) (toEntries_erase h.sorted)

theorem refines_take : Refines t (.take key) := by
  have hcall := take_spec h key
  cases hfind : find key t.tree.toList with
  | none =>
    rw [hfind] at hcall
    refine .of_outcome .nothing (entries t) (outcome_reply hcall fun r hr => ?_) fun r m' => ?_
    · cases hr.1
    · simp [Op.Spec, entries, toEntries, hfind]
  | some e =>
    rw [hfind] at hcall
    refine .of_outcome (.value e.2) ((entries t).erase key)
      (outcome_reply hcall fun r hr => ⟨?_, hr.2⟩) fun r m' => ?_
    · rw [← Option.some.inj hr.1]
    · simp [Op.Spec, entries, toEntries, hfind]

theorem delete_spec :
    Outcome (delete key t) ((find key t.tree.toList).isSome) .functionClause
      fun t' => Valid t' ∧ entries t' = (entries t).erase key := by
  rw [delete_eq]
  exact (take_spec h key).bind fun r hr => ⟨r.2, rfl, hr.2⟩

theorem refines_delete : Refines t (.delete key) := by
  refine .of_outcome .nothing ((entries t).erase key)
    (outcome_reply (delete_spec h key) fun t' ht' => ⟨rfl, ht'⟩) fun r m' => ?_
  simp [Op.Spec, entries, toEntries, Option.isSome_iff_ne_none]

theorem refines_deleteAny : Refines t (.deleteAny key) := by
  have hcall : ∃ t', GbTrees.deleteAny key t = .ok t' ∧ Valid t' ∧
      entries t' = (entries t).erase key := by
    unfold deleteAny isDefined
    rw [Tree.isDefined1_eq h.sorted]
    cases hfind : (find key t.tree.toList).isSome with
    | true => exact (delete_spec h key).1 hfind
    | false =>
      refine ⟨t, rfl, h, ?_⟩
      rw [entries, ← toEntries_erase h.sorted, erase_of_none hfind]
  obtain ⟨t', ht', hres⟩ := hcall
  exact .of_ok .nothing ((entries t).erase key) ⟨t', by rw [Op.apply, ht']; rfl, hres⟩
    fun r m' => by simp [Op.Spec]

end

/-- A call that takes the entry at one end, which is unique. -/
theorem refines_end {IsEnd : K × V → Prop} {e : K × V} {tree : Tree K V}
    (hspec : ∀ r m', o.Spec (entries t) r m' ↔
      ∃ e, IsEnd e ∧ r = .entry e.1 e.2 ∧ m' = (entries t).erase e.1)
    (he : IsEnd e) (huniq : ∀ e', IsEnd e' → e' = e)
    (hcall : o.apply t = .ok (.entry e.1 e.2, ⟨t.size - 1, tree⟩))
    (hl : tree.toList = erase e.1 t.tree.toList)
    (hlen : t.tree.toList.length = tree.toList.length + 1) : Refines t o := by
  have hres : Valid (⟨t.size - 1, tree⟩ : GbTree K V) ∧ entries ⟨t.size - 1, tree⟩ = _ :=
    valid_entries (sorted_erase h.sorted) hl (by rw [h.size_eq, hlen, hl]; rfl)
      (toEntries_erase h.sorted)
  refine .of_ok (.entry e.1 e.2) ((entries t).erase e.1) ⟨_, hcall, hres⟩ fun r m' => ?_
  rw [hspec]
  constructor
  · rintro ⟨e', he', hr, hm'⟩
    rw [huniq e' he'] at hr hm'
    exact ⟨hr, hm'⟩
  · rintro ⟨hr, hm'⟩
    exact ⟨e, he, hr, hm'⟩

theorem refines_takeSmallest : Refines t .takeSmallest := by
  obtain ⟨size, tree⟩ := t
  have hs : Sorted tree.toList := h.sorted
  cases hl : tree.toList with
  | nil =>
    have : tree = .nil := by cases tree <;> simp_all
    subst this
    exact refines_empty (by rintro r m' ⟨e, ⟨he, -⟩, -⟩; cases he) rfl
  | cons e l =>
    rw [hl] at hs
    obtain ⟨t', ht', hl'⟩ := Tree.takeSmallest1_spec hl
    have hleast : (entries ⟨size, tree⟩).IsLeast e := by
      rw [entries, hl]
      exact isLeast_cons hs
    refine refines_end h (fun r m' => Iff.rfl) hleast (fun e' he' => isLeast_unique he' hleast)
      ?_ (by rw [hl', hl, erase_cons]) (by rw [hl', hl]; rfl)
    simp only [Op.apply, takeSmallest, ht']
    rfl

theorem refines_takeLargest : Refines t .takeLargest := by
  obtain ⟨size, tree⟩ := t
  have hs : Sorted tree.toList := h.sorted
  rcases List.eq_nil_or_concat tree.toList with hl | ⟨l, e, hl⟩
  · have : tree = .nil := by cases tree <;> simp_all
    subst this
    exact refines_empty (by rintro r m' ⟨e, ⟨he, -⟩, -⟩; cases he) rfl
  · rw [List.concat_eq_append] at hl
    rw [hl] at hs
    obtain ⟨t', ht', hl'⟩ := Tree.takeLargest1_spec hl
    have hgreatest : (entries ⟨size, tree⟩).IsGreatest e := by
      rw [entries, hl]
      exact isGreatest_concat hs
    refine refines_end h (fun r m' => Iff.rfl) hgreatest
      (fun e' he' => isGreatest_unique he' hgreatest) ?_
      (by rw [hl', hl, erase_concat hs]) (by rw [hl', hl, List.length_append]; rfl)
    simp only [Op.apply, takeLargest, ht']
    rfl

/-- Every call on a valid tree does what the map says. -/
theorem Valid.refines (o : Op K V) : Refines t o := by
  cases o with
  | insert key value => exact refines_insert h key value
  | enter key value => exact refines_enter h key value
  | update key value => exact refines_update h key value
  | delete key => exact refines_delete h key
  | deleteAny key => exact refines_deleteAny h key
  | take key => exact refines_take h key
  | takeSmallest => exact refines_takeSmallest h
  | takeLargest => exact refines_takeLargest h
  | map f => exact refines_map h f
  | balance => exact refines_balance h

/-! ## Runs -/

/-- A run and the run of the map correspond.  By induction on the calls: the map
of the tree after a call is the one map the first step allows. -/
theorem run_matches (os : List (Op K V)) :
    Matches (fun rs m => SpecRun (entries t) rs m os) (run t os) := by
  induction os generalizing t with
  | nil => exact .ok h fun rs m => Iff.rfl
  | cons o os ih =>
    have hcall : Matches _ _ := h.refines o
    rw [run]
    cases hres : o.apply t with
    | error f =>
      rw [hres] at hcall
      cases hcall with
      | error hspec =>
        refine .error ?_
        rintro rs m ⟨r, rs', m1, hr, -⟩
        exact hspec r m1 hr
    | ok p =>
      obtain ⟨r, t1⟩ := p
      rw [hres] at hcall
      cases hcall with
      | ok hv hspec =>
        have hrest : Matches _ _ := ih hv
        simp only
        cases hres' : run t1 os with
        | error f =>
          rw [hres'] at hrest
          cases hrest with
          | error hspec' =>
            refine .error ?_
            rintro rs m ⟨r', rs', m1, hr, hos, -⟩
            obtain ⟨-, rfl⟩ := (hspec r' m1).1 hr
            exact hspec' rs' m hos
        | ok p =>
          obtain ⟨rs1, t2⟩ := p
          rw [hres'] at hrest
          cases hrest with
          | ok hv' hspec' =>
            refine .ok hv' fun rs m => ?_
            simp only [SpecRun, hspec]
            constructor
            · rintro ⟨r', rs', m1, ⟨rfl, rfl⟩, hos, rfl⟩
              obtain ⟨rfl, rfl⟩ := (hspec' rs' m).1 hos
              exact ⟨rfl, rfl⟩
            · rintro ⟨rfl, rfl⟩
              exact ⟨r, rs1, _, ⟨rfl, rfl⟩, (hspec' _ _).2 ⟨rfl, rfl⟩, rfl⟩

end

/-- The first tree of a run is valid, or the start does not apply. -/
theorem start_spec (s : Start K V) :
    (∃ t, s.tree = .ok t ∧ Valid t ∧ ∀ m, s.Spec m ↔ m = entries t) ∨
    (∃ e, s.tree = .error e ∧ ∀ m, ¬ s.Spec m) := by
  cases s with
  | empty => exact .inl ⟨GbTrees.empty, rfl, ⟨rfl, List.Pairwise.nil⟩, fun m => Iff.rfl⟩
  | fromList l =>
    obtain ⟨t, ht, hsize, hl⟩ := fromOrddictUnchecked_spec (orddictFromList l)
    rw [orddictFromList_eq] at hsize hl
    obtain ⟨hs, hm⟩ := toEntries_foldl_put (l := ([] : List (K × V))) List.Pairwise.nil l
    obtain ⟨hv, hent⟩ := valid_entries hs hl hsize hm
    exact .inl ⟨t, ht, hv, fun m => by rw [hent]; rfl⟩
  | fromOrddict l =>
    have hcall := fromOrddict_spec l
    by_cases hs : Sorted l
    · obtain ⟨t, ht, hsize, hl⟩ := hcall.1 hs
      have hm : toEntries l = putAll l := by
        have := (toEntries_foldl_put (l := ([] : List (K × V))) List.Pairwise.nil l).2
        rwa [foldl_put_of_sorted (a := []) hs] at this
      obtain ⟨hv, hent⟩ := valid_entries hs hl hsize hm
      exact .inl ⟨t, ht, hv, fun m => by rw [hent, Start.Spec]; simp [hs]⟩
    · exact .inr ⟨_, hcall.2 hs, fun m h => hs h.1⟩

/-- A whole run, from the call that makes the first tree. -/
def runFrom (s : Start K V) (os : List (Op K V)) :
    Except (Fault K) (List (Reply K V) × GbTree K V) :=
  match s.tree with
  | .error e => .error (.raised e)
  | .ok t => run t os

/-- Every tree that a run reaches is valid and agrees with the map of the same
run; a run that the map has is not stopped by an error; and `insert/3` never
leaves a triple at the root. -/
theorem runFrom_valid_map (s : Start K V) (os : List (Op K V)) :
    (∀ rs t, runFrom s os = .ok (rs, t) → Valid t ∧
      ∃ m0 m, s.Spec m0 ∧ SpecRun m0 rs m os ∧ Agrees t m) ∧
    (∀ m0 rs m, s.Spec m0 → SpecRun m0 rs m os →
      ∃ t, runFrom s os = .ok (rs, t) ∧ Agrees t m) ∧
    runFrom s os ≠ .error .triple := by
  unfold runFrom
  rcases start_spec s with ⟨t0, ht0, hv0, hspec0⟩ | ⟨e, he, hspec0⟩
  · have hrun := run_matches hv0 os
    rw [ht0]
    simp only
    cases hres : run t0 os with
    | error f =>
      rw [hres] at hrun
      cases hrun with
      | error hspec =>
        refine ⟨by simp, fun m0 rs m h0 hm => ?_, by simp⟩
        rw [(hspec0 m0).1 h0] at hm
        exact absurd hm (hspec rs m)
    | ok p =>
      obtain ⟨rs1, t1⟩ := p
      rw [hres] at hrun
      cases hrun with
      | ok hv hspec =>
        refine ⟨fun rs t ht => ?_, fun m0 rs m h0 hm => ?_, by simp⟩
        · cases ht
          exact ⟨hv, entries t0, entries t1, (hspec0 _).2 rfl, (hspec _ _).2 ⟨rfl, rfl⟩, hv.agrees⟩
        · rw [(hspec0 m0).1 h0] at hm
          obtain ⟨rfl, rfl⟩ := (hspec rs m).1 hm
          exact ⟨t1, rfl, hv.agrees⟩
  · rw [he]
    exact ⟨by simp, fun m0 rs m h0 => absurd h0 (hspec0 m0), by simp⟩

/-- A run over integers in which a deletion comes before an update. -/
theorem runFrom_valid_map_delete_enter :
    runFrom (K := ℤ) (V := ℕ) .empty [.insert 1 10, .insert 2 20, .delete 1, .enter 2 30] =
      .ok ([.nothing, .nothing, .nothing, .nothing], ⟨1, .node 2 30 .nil .nil⟩) ∧
    Valid (⟨1, .node 2 30 .nil .nil⟩ : GbTree ℤ ℕ) :=
  ⟨rfl, ((runFrom_valid_map .empty
    [.insert 1 10, .insert 2 20, .delete 1, .enter 2 30]).1 _ _ rfl).1⟩

end Otp.Stdlib.GbTrees
