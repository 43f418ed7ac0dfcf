import Otp.Stdlib.Graph.Ops

/-!
# The two edge indexes of a graph

A `LabelledGraph` is what a graph is for: vertices with labels, and a set of edges
between them.  A graph record `Represents` one if its maps are the vertices, the
edges by source and the edges by target.  Each operation of the source represents
the operation on labelled graphs, with one condition: the set of edges must stay
`TwinFree`, that is, no two different edges at one vertex may compare equal.
The two lists of edges at a vertex are ordsets, so the condition cannot be dropped.
-/

namespace Otp.Stdlib.Graphs

open List

/-- Vertices with labels, and edges between them. -/
@[ext] structure LabelledGraph (T : Type) where
  label : T → Option T
  edges : Set (Edge T)
  ends : ∀ e ∈ edges, (label e.source).isSome ∧ (label e.target).isSome

variable {T : Type} {steps : ℕ}

namespace LabelledGraph

/-- No vertices. -/
def empty : LabelledGraph T := ⟨fun _ => none, ∅, fun _ h => h.elim⟩

/-- Without the edges in `P`. -/
def remove (a : LabelledGraph T) (P : Edge T → Prop) : LabelledGraph T where
  label := a.label
  edges := {e | e ∈ a.edges ∧ ¬ P e}
  ends := fun e he => a.ends e he.1

/-- With an edge, if its ends are vertices. -/
def addEdge (a : LabelledGraph T) (e : Edge T) : LabelledGraph T where
  label := a.label
  edges := {x | x ∈ a.edges ∨
    (x = e ∧ (a.label e.source).isSome ∧ (a.label e.target).isSome)}
  ends := by
    rintro x (hx | ⟨rfl, hx⟩)
    · exact a.ends x hx
    · exact hx

/-- With the edges of a set whose ends are vertices. -/
def addEdges (a : LabelledGraph T) (es : Set (Edge T)) : LabelledGraph T where
  label := a.label
  edges := {x | x ∈ a.edges ∨
    (x ∈ es ∧ (a.label x.source).isSome ∧ (a.label x.target).isSome)}
  ends := by
    rintro x (hx | ⟨-, hx⟩)
    · exact a.ends x hx
    · exact hx

variable [DecidableEq T]

/-- The part between the vertices of a list, with its labels or without. -/
def subgraph [Terms T] (a : LabelledGraph T) (vs : List T) (keep : Bool) : LabelledGraph T where
  label := fun v => if v ∈ vs then
    (a.label v).map fun l => if keep then l else Terms.emptyList else none
  edges := {x | ∃ e ∈ a.edges, e.source ∈ vs ∧ e.target ∈ vs ∧ x = subgraphLabel keep e}
  ends := by
    rintro x ⟨e, he, hs, ht, rfl⟩
    have := a.ends e he
    unfold subgraphLabel
    split_ifs <;> simp_all

/-- With a vertex, or with a new label for it. -/
def addVertex (a : LabelledGraph T) (v l : T) : LabelledGraph T where
  label := fun x => if x = v then some l else a.label x
  edges := a.edges
  ends := by
    intro e he
    have := a.ends e he
    split_ifs <;> simp_all

/-- Without a vertex and the edges at it. -/
def delVertex (a : LabelledGraph T) (v : T) : LabelledGraph T where
  label := fun x => if x = v then none else a.label x
  edges := {e | e ∈ a.edges ∧ e.source ≠ v ∧ e.target ≠ v}
  ends := by
    rintro e ⟨he, hs, ht⟩
    simpa [hs, ht] using a.ends e he

end LabelledGraph

/-! ## Reading the maps -/

section Maps

variable [DecidableEq T] {v k : T} {e x : Edge T} {m : EdgeMap T}

theorem mapsGet_insert (es : List (Edge T)) :
    mapsGet v (m.insert k es) = if v = k then es else mapsGet v m := by
  unfold mapsGet
  split_ifs with h
  · rw [h, AList.lookup_insert]
    rfl
  · rw [AList.lookup_insert_ne h]

theorem mapsGet_erase : mapsGet v (m.erase k) = if v = k then [] else mapsGet v m := by
  unfold mapsGet
  split_ifs with h
  · rw [h, AList.lookup_erase]
    rfl
  · rw [AList.lookup_erase_ne h]

theorem mapsGet_edgeMapDel :
    mapsGet v (edgeMapDel k e m) = if v = k then (mapsGet v m).erase e else mapsGet v m := by
  unfold edgeMapDel
  cases hk : m.lookup k with
  | none =>
    split_ifs with h
    · subst h
      simp [mapsGet, hk]
    · rfl
  | some es =>
    simp only [mapsGet_insert]
    split_ifs with h
    · subst h
      simp [mapsGet, hk]
    · rfl

theorem mapsGet_edgeMapAdd [Ord T] :
    mapsGet v (edgeMapAdd k e m) =
      if v = k then Ordsets.addElement e (mapsGet v m) else mapsGet v m := by
  rw [edgeMapAdd, mapsGet_insert]
  split_ifs with h
  · rw [h]
  · rfl

/-- Taking edges out, each under its own key, takes out nothing else. -/
theorem mem_mapsGet_foldl_edgeMapDel (f : Edge T → T) (es : List (Edge T))
    (hm : (mapsGet v m).Nodup) :
    (mapsGet v (es.foldl (fun m e => edgeMapDel (f e) e m) m)).Sublist (mapsGet v m) ∧
    (x ∈ mapsGet v (es.foldl (fun m e => edgeMapDel (f e) e m) m) ↔
      x ∈ mapsGet v m ∧ ¬ (x ∈ es ∧ f x = v)) := by
  induction es generalizing m with
  | nil => simp
  | cons e es ih =>
    have hsub : (mapsGet v (edgeMapDel (f e) e m)).Sublist (mapsGet v m) := by
      rw [mapsGet_edgeMapDel]
      split_ifs
      · exact erase_sublist
      · exact List.Sublist.refl _
    have hmem : x ∈ mapsGet v (edgeMapDel (f e) e m) ↔ x ∈ mapsGet v m ∧ ¬ (x = e ∧ f x = v) := by
      rw [mapsGet_edgeMapDel]
      split_ifs with h
      · rw [hm.mem_erase_iff]
        constructor
        · rintro ⟨hne, hx⟩
          exact ⟨hx, fun hxe => hne hxe.1⟩
        · rintro ⟨hx, hne⟩
          exact ⟨fun hxe => hne ⟨hxe, by rw [hxe, h]⟩, hx⟩
      · constructor
        · intro hx
          exact ⟨hx, fun hxe => h (by rw [← hxe.2, hxe.1])⟩
        · exact fun hx => hx.1
    obtain ⟨ihsub, ihmem⟩ := ih (hm.sublist hsub)
    refine ⟨ihsub.trans hsub, ?_⟩
    rw [foldl_cons, ihmem, mem_cons]
    tauto

end Maps

/-! ## Graphs as labelled graphs -/

/-- The maps of the record are the vertices, and the edges by source and by target. -/
structure Represents [DecidableEq T] (g : Graph T) (a : LabelledGraph T) : Prop where
  vertex : ∀ v, g.vs.lookup v = a.label v
  out : ∀ v e, e ∈ outEdges g v ↔ e ∈ a.edges ∧ e.source = v
  inc : ∀ v e, e ∈ inEdges g v ↔ e ∈ a.edges ∧ e.target = v

/-- The edges at a vertex are ordsets. -/
structure Ordered [DecidableEq T] [Ord T] (g : Graph T) : Prop where
  out : ∀ v, Ordsets.IsOrdset (outEdges g v)
  inc : ∀ v, Ordsets.IsOrdset (inEdges g v)

/-- No two different edges at one vertex compare equal. -/
def TwinFree [Ord T] (edges : Set (Edge T)) : Prop :=
  ∀ e ∈ edges, ∀ e' ∈ edges, compare e e' = .eq →
    e.source = e'.source ∨ e.target = e'.target → e = e'

namespace LabelledGraph

variable (a : LabelledGraph T) {P Q : Edge T → Prop} {e x : Edge T}

@[simp] theorem mem_delVertex [DecidableEq T] {v : T} :
    e ∈ (a.delVertex v).edges ↔ e ∈ a.edges ∧ e.source ≠ v ∧ e.target ≠ v := Iff.rfl

@[simp] theorem mem_addEdge :
    x ∈ (a.addEdge e).edges ↔ x ∈ a.edges ∨
      (x = e ∧ (a.label e.source).isSome ∧ (a.label e.target).isSome) := Iff.rfl

@[simp] theorem mem_addEdges {es : Set (Edge T)} :
    x ∈ (a.addEdges es).edges ↔ x ∈ a.edges ∨
      (x ∈ es ∧ (a.label x.source).isSome ∧ (a.label x.target).isSome) := Iff.rfl

@[simp] theorem mem_remove : e ∈ (a.remove P).edges ↔ e ∈ a.edges ∧ ¬ P e := Iff.rfl

theorem remove_remove : (a.remove P).remove Q = a.remove fun e => P e ∨ Q e := by
  ext e
  · rfl
  · simp only [mem_remove]
    tauto

theorem remove_congr (h : ∀ e ∈ a.edges, P e ↔ Q e) : a.remove P = a.remove Q := by
  ext e
  · rfl
  · exact and_congr_right fun he => not_congr (h e he)

theorem remove_none (h : ∀ e ∈ a.edges, ¬ P e) : a.remove P = a := by
  ext e
  · rfl
  · exact ⟨fun he => he.1, fun he => ⟨he, h e he⟩⟩

end LabelledGraph

variable [DecidableEq T] {g : Graph T} {g' : Graph T}

/-- `del_edges/4` deletes the edges of its list that join the two vertices. -/
theorem delEdgesIn_eq (v1 v2 : T) (g : Graph T) (es : List (Edge T)) :
    delEdgesIn v1 v2 g es =
      delEdgeList g (es.filter fun e => e.source = v1 ∧ e.target = v2) := by
  induction es generalizing g with
  | nil => rfl
  | cons e es ih =>
    simp only [delEdgesIn, filter_cons, ih]
    split_ifs <;> simp_all [delEdgeList]

theorem Represents.addVertex {a : LabelledGraph T} (h : Represents g a) (v l : T) :
    Represents (addVertex g v l) (a.addVertex v l) := by
  refine ⟨fun u => ?_, h.out, h.inc⟩
  simp only [Graphs.addVertex, LabelledGraph.addVertex]
  split_ifs with hu
  · rw [hu, AList.lookup_insert]
  · rw [AList.lookup_insert_ne hu, h.vertex]

/-! ## Paths -/

/-- The pairs of neighbours on a list of vertices. -/
def neighbours : List T → List (T × T)
  | v1 :: v2 :: vs => (v1, v2) :: neighbours (v2 :: vs)
  | _ => []

/-- The pairs of neighbours on the paths that `del_path/3` finds. -/
def delPathPairs (steps : ℕ) : ℕ → Graph T → T → T → List (T × T)
  | 0, _, _, _ => []
  | rounds + 1, g, v1, v2 =>
    match getPath steps g v1 v2 with
    | .ok (some path) => neighbours path ++ delPathPairs steps rounds (delPathEdges g path) v1 v2
    | _ => []

theorem delPathEdges_eq (g : Graph T) (path : List T) :
    delPathEdges g path = (neighbours path).foldl (fun g p => delEdges g p.1 p.2) g := by
  fun_induction neighbours path generalizing g with
  | case1 v1 v2 vs ih => rw [delPathEdges, ih]; rfl
  | case2 path hne =>
    rw [delPathEdges]
    · rfl
    · exact hne

/-- `del_path/3` deletes all edges between the pairs of neighbours it finds. -/
theorem delPath_eq {rounds : ℕ} {g : Graph T} {v1 v2 : T}
    (h : delPath steps rounds g v1 v2 = .ok g') :
    g' = (delPathPairs steps rounds g v1 v2).foldl (fun g p => delEdges g p.1 p.2) g := by
  induction rounds generalizing g with
  | zero => cases h
  | succ rounds ih =>
    rw [delPath] at h
    rw [delPathPairs]
    cases hpath : getPath steps g v1 v2 with
    | error err => simp [hpath, bind, Except.bind] at h
    | ok path =>
      cases path with
      | none =>
        simp [hpath, bind, Except.bind, pure, Except.pure] at h
        simp [h]
      | some path =>
        simp only [hpath, bind, Except.bind] at h
        simp only [foldl_append, ← delPathEdges_eq]
        exact ih h

/-! ## The edges at a vertex stay ordsets -/

section Ordered

variable [Ord T] {m : EdgeMap T} {e : Edge T}

theorem Ordered.delEdge (h : Ordered g) (e : Edge T) : Ordered (delEdge g e) := by
  constructor <;> intro v
  · simp only [outEdges, Graphs.delEdge, mapsGet_edgeMapDel]
    split_ifs
    · exact (h.out v).sublist erase_sublist
    · exact h.out v
  · simp only [inEdges, Graphs.delEdge, mapsGet_edgeMapDel]
    split_ifs
    · exact (h.inc v).sublist erase_sublist
    · exact h.inc v

theorem Ordered.delEdgeList (h : Ordered g) (es : List (Edge T)) : Ordered (delEdgeList g es) := by
  induction es generalizing g with
  | nil => exact h
  | cons e es ih => exact ih (h.delEdge e)

theorem Ordered.delEdges (h : Ordered g) (v1 v2 : T) : Ordered (delEdges g v1 v2) := by
  rw [Graphs.delEdges, delEdgesIn_eq]
  exact h.delEdgeList _

/-- One index, by `f`, with an edge added, if no other edge under its key compares
equal to it. -/
theorem mem_mapsGet_edgeMapAdd {f : Edge T → T} {edges : Set (Edge T)} {x : Edge T} {v : T}
    (hm : ∀ y, y ∈ mapsGet v m ↔ y ∈ edges ∧ f y = v)
    (hne : ∀ y ∈ edges, f y = f e → compare e y = .eq → y = e) :
    x ∈ mapsGet v (edgeMapAdd (f e) e m) ↔ (x ∈ edges ∨ x = e) ∧ f x = v := by
  rw [mapsGet_edgeMapAdd]
  split_ifs with hv
  · constructor
    · intro hx
      rcases Ordsets.mem_addElement_imp hx with rfl | hx
      · exact ⟨.inr rfl, hv.symm⟩
      · exact ⟨.inl ((hm x).1 hx).1, ((hm x).1 hx).2⟩
    · rintro ⟨hx | rfl, hxv⟩
      · exact Ordsets.subset_addElement ((hm x).2 ⟨hx, hxv⟩)
      · refine Ordsets.mem_addElement_self fun y hy hxy => ?_
        obtain ⟨hy, hyv⟩ := (hm y).1 hy
        exact hne y hy (hyv.trans hv) hxy
  · rw [hm]
    constructor
    · exact fun hx => ⟨.inl hx.1, hx.2⟩
    · rintro ⟨hx | rfl, hxv⟩
      · exact ⟨hx, hxv⟩
      · exact absurd hxv.symm hv

theorem Ordered.delPairs (h : Ordered g) (pairs : List (T × T)) :
    Ordered (pairs.foldl (fun g p => Graphs.delEdges g p.1 p.2) g) := by
  induction pairs generalizing g with
  | nil => exact h
  | cons p pairs ih => exact ih (h.delEdges p.1 p.2)

theorem mapsGet_erase_isOrdset (k v : T) (h : Ordsets.IsOrdset (mapsGet v m)) :
    Ordsets.IsOrdset (mapsGet v (m.erase k)) := by
  rw [mapsGet_erase]
  split_ifs
  · exact List.Pairwise.nil
  · exact h

variable [Std.TransOrd T]

theorem Ordered.delVertex (h : Ordered g) (v : T) : Ordered (delVertex g v) := by
  constructor <;> intro u
  · have herase := mapsGet_erase_isOrdset v u (h.out u)
    exact herase.sublist
      (mem_mapsGet_foldl_edgeMapDel (x := ⟨u, u, u⟩) Edge.source _ herase.nodup).1
  · have herase := mapsGet_erase_isOrdset v u (h.inc u)
    exact herase.sublist
      (mem_mapsGet_foldl_edgeMapDel (x := ⟨u, u, u⟩) Edge.target _ herase.nodup).1

theorem Ordered.doAddEdge (h : Ordered g) (hadd : doAddEdge g e = .ok g') : Ordered g' := by
  unfold Graphs.doAddEdge at hadd
  split_ifs at hadd
  cases hadd
  constructor <;> intro v
  · simp only [outEdges, mapsGet_edgeMapAdd]
    split_ifs
    · exact Ordsets.isOrdset_addElement (h.out v)
    · exact h.out v
  · simp only [inEdges, mapsGet_edgeMapAdd]
    split_ifs
    · exact Ordsets.isOrdset_addElement (h.inc v)
    · exact h.inc v

end Ordered

/-! ## Adding -/

variable [Ord T] {a : LabelledGraph T} {e : Edge T}

/-- An edge goes into both indexes if no other edge at its ends compares equal. -/
theorem Represents.doAddEdge (h : Represents g a) (hadd : doAddEdge g e = .ok g')
    (htwin : TwinFree (a.addEdge e).edges) : Represents g' (a.addEdge e) := by
  unfold Graphs.doAddEdge at hadd
  split_ifs at hadd with hs ht
  cases hadd
  have hends : (a.label e.source).isSome ∧ (a.label e.target).isSome := by
    rw [← h.vertex, ← h.vertex]
    exact ⟨hs, ht⟩
  have hiff (x : Edge T) : x ∈ (a.addEdge e).edges ↔ x ∈ a.edges ∨ x = e := by
    simp [hends]
  have hne (y : Edge T) (hy : y ∈ a.edges) (hends : e.source = y.source ∨ e.target = y.target)
      (hcmp : compare e y = .eq) : y = e :=
    (htwin e ((hiff e).2 (.inr rfl)) y ((hiff y).2 (.inl hy)) hcmp hends).symm
  refine ⟨h.vertex, fun v x => ?_, fun v x => ?_⟩
  · rw [hiff]
    exact mem_mapsGet_edgeMapAdd (h.out v) fun y hy hsrc => hne y hy (.inl hsrc.symm)
  · rw [hiff]
    exact mem_mapsGet_edgeMapAdd (h.inc v) fun y hy htgt => hne y hy (.inr htgt.symm)

theorem addEdge_ok (h : addEdge steps g e = .ok g') : doAddEdge g e = .ok g' := by
  unfold Graphs.addEdge at h
  split_ifs at h with hc
  · exact h
  · unfold acyclicAddEdge at h
    split_ifs at h with hloop
    cases hpath : getPath steps g e.target e.source with
    | error err => simp [hpath, bind, Except.bind] at h
    | ok path =>
      cases hhas : hasPath steps g e.target e.source with
      | error err => cases path <;> simp [hpath, hhas, bind, Except.bind] at h
      | ok b => cases path <;> cases b <;> simp_all [bind, Except.bind]

/-! ## Deleting -/

variable [Std.TransOrd T]

section

variable (h : Represents g a)

include h

variable (ho : Ordered g)

include ho

theorem Represents.delEdge (e : Edge T) :
    Represents (delEdge g e) (a.remove (· = e)) := by
  refine ⟨h.vertex, fun v x => ?_, fun v x => ?_⟩
  · have hmem := (mem_mapsGet_foldl_edgeMapDel (x := x) Edge.source [e] (ho.out v).nodup).2
    have hout := h.out v x
    simp only [outEdges, Graphs.delEdge, LabelledGraph.mem_remove, foldl_cons,
      foldl_nil, mem_singleton] at *
    rw [hmem, hout]
    tauto
  · have hmem := (mem_mapsGet_foldl_edgeMapDel (x := x) Edge.target [e] (ho.inc v).nodup).2
    have hinc := h.inc v x
    simp only [inEdges, Graphs.delEdge, LabelledGraph.mem_remove, foldl_cons,
      foldl_nil, mem_singleton] at *
    rw [hmem, hinc]
    tauto

theorem Represents.delEdgeList (es : List (Edge T)) :
    Represents (delEdgeList g es) (a.remove (· ∈ es)) := by
  induction es generalizing g a with
  | nil =>
    rw [a.remove_none (by simp)]
    exact h
  | cons e es ih =>
    have := ih (h.delEdge ho e) (ho.delEdge e)
    rw [LabelledGraph.remove_remove] at this
    simp only [mem_cons]
    exact this

theorem Represents.delEdges (v1 v2 : T) :
    Represents (delEdges g v1 v2) (a.remove fun e => (e.source, e.target) = (v1, v2)) := by
  rw [Graphs.delEdges, delEdgesIn_eq]
  have := h.delEdgeList ho ((outEdges g v1).filter fun e => e.source = v1 ∧ e.target = v2)
  rwa [LabelledGraph.remove_congr] at this
  intro e he
  simp only [mem_filter, h.out, Prod.mk.injEq, decide_eq_true_eq]
  tauto

theorem Represents.delVertex (v : T) :
    Represents (delVertex g v) (a.delVertex v) := by
  refine ⟨fun u => ?_, fun u x => ?_, fun u x => ?_⟩
  · simp only [Graphs.delVertex, LabelledGraph.delVertex]
    split_ifs with hu
    · rw [hu, AList.lookup_erase]
    · rw [AList.lookup_erase_ne hu, h.vertex]
  · have hmem := (mem_mapsGet_foldl_edgeMapDel (x := x) Edge.source (inEdges g v)
      (mapsGet_erase_isOrdset v u (ho.out u)).nodup).2
    have hout := h.out u x
    rw [h.inc v x, mapsGet_erase] at hmem
    rw [LabelledGraph.mem_delVertex]
    refine hmem.trans ?_
    split_ifs with hu
    · subst hu
      tauto
    · rw [show x ∈ mapsGet u g.outEs ↔ _ from hout]
      constructor
      · rintro ⟨⟨hx, rfl⟩, hnot⟩
        exact ⟨⟨hx, hu, fun ht => hnot ⟨⟨hx, ht⟩, rfl⟩⟩, rfl⟩
      · rintro ⟨⟨hx, -, ht⟩, rfl⟩
        exact ⟨⟨hx, rfl⟩, fun hc => ht hc.1.2⟩
  · have hmem := (mem_mapsGet_foldl_edgeMapDel (x := x) Edge.target (outEdges g v)
      (mapsGet_erase_isOrdset v u (ho.inc u)).nodup).2
    have hinc := h.inc u x
    rw [h.out v x, mapsGet_erase] at hmem
    rw [LabelledGraph.mem_delVertex]
    refine hmem.trans ?_
    split_ifs with hu
    · subst hu
      tauto
    · rw [show x ∈ mapsGet u g.inEs ↔ _ from hinc]
      constructor
      · rintro ⟨⟨hx, rfl⟩, hnot⟩
        exact ⟨⟨hx, fun hs => hnot ⟨⟨hx, hs⟩, rfl⟩, hu⟩, rfl⟩
      · rintro ⟨⟨hx, hs, -⟩, rfl⟩
        exact ⟨⟨hx, rfl⟩, fun hc => hs hc.1.2⟩

theorem Represents.delPairs (pairs : List (T × T)) :
    Represents (pairs.foldl (fun g p => Graphs.delEdges g p.1 p.2) g)
      (a.remove fun e => (e.source, e.target) ∈ pairs) := by
  induction pairs generalizing g a with
  | nil =>
    rw [a.remove_none (by simp)]
    exact h
  | cons p pairs ih =>
    have := ih (h.delEdges ho p.1 p.2) (ho.delEdges p.1 p.2)
    rw [LabelledGraph.remove_remove] at this
    simp only [mem_cons]
    exact this

end

/-! ## Consistency -/

/-- The two indexes agree, the ends of every edge are vertices, and every edge
that was added and not deleted is reported by the functions that read edges. -/
structure Consistent (g : Graph T) (a : LabelledGraph T) : Prop where
  index : ∀ e, e ∈ outEdges g e.source ↔ e ∈ inEdges g e.target
  ends : ∀ v e, e ∈ outEdges g v ∨ e ∈ inEdges g v → hasVertex g e.source ∧ hasVertex g e.target
  reported : ∀ e ∈ a.edges, hasEdge g e ∧ e ∈ outEdges g e.source ∧ e ∈ inEdges g e.target

theorem Represents.consistent (h : Represents g a) (hord : Ordered g) : Consistent g a := by
  have hends (e : Edge T) (he : e ∈ a.edges) : hasVertex g e.source ∧ hasVertex g e.target := by
    unfold hasVertex
    rw [h.vertex, h.vertex]
    exact a.ends e he
  refine ⟨fun e => ?_, fun v e he => ?_, fun e he => ⟨?_, ?_, ?_⟩⟩
  · rw [h.out, h.inc]
    simp
  · rcases he with he | he
    · exact hends e ((h.out v e).1 he).1
    · exact hends e ((h.inc v e).1 he).1
  · have hmem := (h.out e.source e).2 ⟨he, rfl⟩
    have hset := hord.out e.source
    unfold outEdges mapsGet at hmem hset
    unfold hasEdge
    cases hl : g.outEs.lookup e.source with
    | none => rw [hl] at hmem; exact (not_mem_nil hmem).elim
    | some es =>
      rw [hl] at hmem hset
      exact Ordsets.isElement_of_mem hset hmem
  · exact (h.out _ e).2 ⟨he, rfl⟩
  · exact (h.inc _ e).2 ⟨he, rfl⟩

/-- Edges that are all reported have no twins, since the lists are ordsets. -/
theorem Consistent.twinFree (h : Consistent g a) (hord : Ordered g) : TwinFree a.edges := by
  intro e he e' he' hcmp hends
  obtain ⟨-, hout, hin⟩ := h.reported e he
  obtain ⟨-, hout', hin'⟩ := h.reported e' he'
  rcases hends with hs | ht
  · rw [hs] at hout
    exact (hord.out _).eq_of_compare hout hout' hcmp
  · rw [ht] at hin
    exact (hord.inc _).eq_of_compare hin hin' hcmp

end Otp.Stdlib.Graphs
