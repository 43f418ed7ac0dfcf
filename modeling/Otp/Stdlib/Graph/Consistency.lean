import Otp.Stdlib.Graph.Index

/-!
# Runs on graphs

Subgraphs are made of the operations that add vertices and edges, so they
represent the part of the labelled graph between the vertices given.  A run is a
list of calls on a new graph; every graph on the way is compared with the labelled
graph of the same calls, in which an edge stays until it is deleted.
-/

namespace Otp.Stdlib.Graphs

/-! ## Subgraphs -/

theorem foldlM_flatMap {α β γ ε : Type} (f : β → α → Except ε β) (h : γ → List α)
    (vs : List γ) (b : β) :
    vs.foldlM (fun b v => (h v).foldlM f b) b = (vs.flatMap h).foldlM f b := by
  induction vs generalizing b with
  | nil => rfl
  | cons v vs ih =>
    rw [List.flatMap_cons, List.foldlM_append]
    exact bind_congr fun b' => ih b'

variable {T : Type} {steps : ℕ} {type : List GraphType}

section

variable (options : List GraphType)

theorem new_maps [DecidableEq T] :
    (new options : Graph T).vs = ∅ ∧ (new options : Graph T).inEs = ∅ ∧
      (new options : Graph T).outEs = ∅ := by
  have hfold (g : Graph T) :
      (options.foldl (fun g o => { g with cyclic := decide (o = .cyclic) }) g).vs = g.vs ∧
      (options.foldl (fun g o => { g with cyclic := decide (o = .cyclic) }) g).inEs = g.inEs ∧
      (options.foldl (fun g o => { g with cyclic := decide (o = .cyclic) }) g).outEs = g.outEs := by
    induction options generalizing g with
    | nil => exact ⟨rfl, rfl, rfl⟩
    | cons o options ih => exact ih _
  exact hfold _

/-- A new graph is empty. -/
theorem represents_new [DecidableEq T] :
    Represents (new options : Graph T) LabelledGraph.empty := by
  obtain ⟨hvs, hin, hout⟩ := new_maps (T := T) options
  refine ⟨fun v => ?_, fun v e => ?_, fun v e => ?_⟩
  · rw [hvs]
    rfl
  · rw [outEdges, hout]
    exact ⟨fun h => (List.not_mem_nil h).elim, fun h => h.1.elim⟩
  · rw [inEdges, hin]
    exact ⟨fun h => (List.not_mem_nil h).elim, fun h => h.1.elim⟩

theorem ordered_new [DecidableEq T] [Ord T] :
    Ordered (new options : Graph T) := by
  obtain ⟨-, hin, hout⟩ := new_maps (T := T) options
  refine ⟨fun v => ?_, fun v => ?_⟩
  · rw [outEdges, hout]
    exact List.Pairwise.nil
  · rw [inEdges, hin]
    exact List.Pairwise.nil

end

variable [Terms T]

@[simp] theorem subgraphLabel_source (keep : Bool) (e : Edge T) :
    (subgraphLabel keep e).source = e.source := by
  unfold subgraphLabel
  split_ifs <;> rfl

@[simp] theorem subgraphLabel_target (keep : Bool) (e : Edge T) :
    (subgraphLabel keep e).target = e.target := by
  unfold subgraphLabel
  split_ifs <;> rfl

variable [DecidableEq T]

theorem subgraphVertex_lookup (g sg : Graph T) (keep : Bool) (u v : T) :
    (subgraphVertex g keep sg u).vs.lookup v =
      if v = u ∧ (g.vs.lookup v).isSome
      then (g.vs.lookup v).map fun l => if keep then l else Terms.emptyList
      else sg.vs.lookup v := by
  unfold subgraphVertex
  by_cases hv : v = u
  · subst hv
    cases hl : g.vs.lookup v with
    | none => simp
    | some l => simp [addVertex]
  · cases hl : g.vs.lookup u with
    | none => simp [hv]
    | some l => simp [addVertex, hv]

/-- The vertices of the subgraph are copied; its edge maps are left alone. -/
theorem foldl_subgraphVertex (g : Graph T) (keep : Bool) (vs : List T) (sg : Graph T) :
    let sg' := vs.foldl (subgraphVertex g keep) sg
    sg'.inEs = sg.inEs ∧ sg'.outEs = sg.outEs ∧
    ∀ v, sg'.vs.lookup v = if v ∈ vs ∧ (g.vs.lookup v).isSome
      then (g.vs.lookup v).map fun l => if keep then l else Terms.emptyList
      else sg.vs.lookup v := by
  induction vs generalizing sg with
  | nil => simp
  | cons u vs ih =>
    obtain ⟨hin, hout, hvs⟩ := ih (subgraphVertex g keep sg u)
    have hstep : (subgraphVertex g keep sg u).inEs = sg.inEs ∧
        (subgraphVertex g keep sg u).outEs = sg.outEs := by
      unfold subgraphVertex
      split <;> exact ⟨rfl, rfl⟩
    refine ⟨hin.trans hstep.1, hout.trans hstep.2, fun v => ?_⟩
    rw [List.foldl_cons, hvs, subgraphVertex_lookup]
    simp only [List.mem_cons]
    split_ifs <;> first | rfl | (exfalso; tauto)

variable [Ord T] {sg sg' g : Graph T} {e : Edge T} {es : List (Edge T)} {a : LabelledGraph T}
  {vs : List T} {keep : Bool}

/-- A call that adds an edge of the subgraph, or skips it. -/
theorem subgraphEdge_ok (h : subgraphEdge steps keep sg e = .ok sg') :
    (doAddEdge sg (subgraphLabel keep e) = .ok sg') ∨
      (hasVertex sg e.target = false ∧ sg' = sg) := by
  unfold subgraphEdge at h
  split_ifs at h with hv
  · exact .inl (addEdge_ok h)
  · cases h
    exact .inr ⟨by simpa using hv, rfl⟩

theorem foldlM_ok_cons (h : (e :: es).foldlM (subgraphEdge steps keep) sg = .ok sg') :
    ∃ sg1, subgraphEdge steps keep sg e = .ok sg1 ∧
      es.foldlM (subgraphEdge steps keep) sg1 = .ok sg' := by
  rw [List.foldlM_cons] at h
  cases hstep : subgraphEdge steps keep sg e with
  | error err => simp [hstep, bind, Except.bind] at h
  | ok sg1 =>
    simp only [hstep, bind, Except.bind] at h
    exact ⟨sg1, rfl, h⟩

/-- The edges of a subgraph are added one after the other. -/
theorem Represents.foldlM_subgraphEdge {b : LabelledGraph T} (h : Represents sg b)
    (hfold : es.foldlM (subgraphEdge steps keep) sg = .ok sg')
    (htwin : TwinFree (b.addEdges {x | ∃ e ∈ es, x = subgraphLabel keep e}).edges) :
    Represents sg' (b.addEdges {x | ∃ e ∈ es, x = subgraphLabel keep e}) := by
  induction es generalizing sg b with
  | nil =>
    cases hfold
    have : b.addEdges {x | ∃ e ∈ ([] : List (Edge T)), x = subgraphLabel keep e} = b := by
      ext x <;> simp [LabelledGraph.addEdges]
    rw [this]
    exact h
  | cons e es ih =>
    obtain ⟨sg1, hstep, hrest⟩ := foldlM_ok_cons hfold
    have hsplit : b.addEdges {x | ∃ e' ∈ e :: es, x = subgraphLabel keep e'} =
        (b.addEdge (subgraphLabel keep e)).addEdges {x | ∃ e' ∈ es, x = subgraphLabel keep e'} := by
      ext x
      · rfl
      · simp only [LabelledGraph.mem_addEdges, LabelledGraph.mem_addEdge, Set.mem_ofPred_eq,
          List.mem_cons, exists_eq_or_imp]
        constructor
        · rintro (hx | ⟨rfl | hx, hends⟩)
          · exact .inl (.inl hx)
          · exact .inl (.inr ⟨rfl, hends⟩)
          · exact .inr ⟨hx, hends⟩
        · rintro ((hx | ⟨rfl, hends⟩) | ⟨hx, hends⟩)
          · exact .inl hx
          · exact .inr ⟨.inl rfl, hends⟩
          · exact .inr ⟨.inr hx, hends⟩
    rw [hsplit] at htwin ⊢
    refine ih ?_ hrest htwin
    rcases subgraphEdge_ok hstep with hadd | ⟨hv, rfl⟩
    · exact h.doAddEdge hadd fun x hx y hy => htwin x (.inl hx) y (.inl hy)
    · -- the edge is left out because its target is no vertex
      have hnone : b.label e.target = none := by
        rw [← h.vertex]
        simpa [hasVertex] using hv
      have : b.addEdge (subgraphLabel keep e) = b := by
        ext x
        · rfl
        · simp [hnone]
      rw [this]
      exact h

/-- The subgraph is the part of the graph between the vertices given. -/
theorem Represents.subgraphOf (h : Represents g a)
    (hok : subgraphOf steps g vs type keep = .ok sg) (htwin : TwinFree (a.subgraph vs keep).edges) :
    Represents sg (a.subgraph vs keep) := by
  obtain ⟨hin, hout, hvs⟩ := foldl_subgraphVertex g keep vs (new type)
  obtain ⟨hnvs, hnin, hnout⟩ := new_maps (T := T) type
  simp only [Graphs.subgraphOf] at hok
  rw [foldlM_flatMap] at hok
  generalize vs.foldl (subgraphVertex g keep) (new type) = sg1 at *
  -- the vertices, before any edge is added
  let b : LabelledGraph T := ⟨(a.subgraph vs keep).label, ∅, fun _ he => he.elim⟩
  have hlabel (v : T) : sg1.vs.lookup v = b.label v := by
    rw [hvs, hnvs, h.vertex]
    simp only [b, LabelledGraph.subgraph]
    cases a.label v <;> simp
  have hb : Represents sg1 b := by
    refine ⟨hlabel, fun v e => ?_, fun v e => ?_⟩
    · rw [outEdges, hout, hnout]
      exact ⟨fun he => (List.not_mem_nil he).elim, fun he => he.1.elim⟩
    · rw [inEdges, hin, hnin]
      exact ⟨fun he => (List.not_mem_nil he).elim, fun he => he.1.elim⟩
  have hsome (v : T) : (b.label v).isSome ↔ v ∈ vs ∧ (a.label v).isSome := by
    simp only [b, LabelledGraph.subgraph]
    split_ifs with hv <;> simp [hv]
  have hkeys (v : T) : v ∈ sg1.vs.keys ↔ v ∈ vs ∧ (a.label v).isSome := by
    rw [← AList.mem_keys, ← AList.lookup_isSome, hlabel, hsome]
  have hadd : b.addEdges {x | ∃ e ∈ sg1.vs.keys.flatMap (outEdges g), x = subgraphLabel keep e} =
      a.subgraph vs keep := by
    ext x
    · rfl
    · constructor
      · rintro (hx | ⟨⟨e, he, rfl⟩, -, ht⟩)
        · exact hx.elim
        · obtain ⟨v, hv, hev⟩ := List.mem_flatMap.1 he
          obtain ⟨hea, rfl⟩ := (h.out v e).1 hev
          rw [subgraphLabel_target, hsome] at ht
          exact ⟨e, hea, ((hkeys _).1 hv).1, ht.1, rfl⟩
      · rintro ⟨e, he, hs, ht, rfl⟩
        have hends := a.ends e he
        refine .inr ⟨⟨e, List.mem_flatMap.2 ⟨e.source, ?_, (h.out _ e).2 ⟨he, rfl⟩⟩, rfl⟩, ?_, ?_⟩
        · exact (hkeys _).2 ⟨hs, hends.1⟩
        · rw [subgraphLabel_source, hsome]
          exact ⟨hs, hends.1⟩
        · rw [subgraphLabel_target, hsome]
          exact ⟨ht, hends.2⟩
  rw [← hadd] at htwin ⊢
  exact hb.foldlM_subgraphEdge hok htwin

/-! ## Runs -/

/-- A call that takes a graph and returns one. -/
inductive Op (T : Type) where
  | addNewVertex
  | addVertex (v label : T)
  | addEdge (e : Edge T)
  | delEdge (e : Edge T)
  | delEdgeList (es : List (Edge T))
  | delEdges (v1 v2 : T)
  | delVertex (v : T)
  | delPath (v1 v2 : T)
  | subgraph (vs : List T) (options : List SubgraphOption)

/-- Whether `subgraph/3` keeps the labels. -/
def keepLabels (options : List SubgraphOption) : Bool :=
  options.foldl (fun keep o =>
    match o with
    | .type _ => keep
    | .keepLabels keep => keep) true

/-- The call behind an operation, with bounds on the searches for a path. -/
def Op.apply (steps : ℕ) (g : Graph T) : Op T → Except (GraphError T) (Graph T)
  | .addNewVertex => .ok (Graphs.addNewVertex g)
  | .addVertex v label => .ok (Graphs.addVertex g v label)
  | .addEdge e => Graphs.addEdge steps g e
  | .delEdge e => .ok (Graphs.delEdge g e)
  | .delEdgeList es => .ok (Graphs.delEdgeList g es)
  | .delEdges v1 v2 => .ok (Graphs.delEdges g v1 v2)
  | .delVertex v => .ok (Graphs.delVertex g v)
  | .delPath v1 v2 => Graphs.delPath steps steps g v1 v2
  | .subgraph vs options => Graphs.subgraph steps g vs options

/-- What an operation does to the labelled graph.  The paths that `del_path/3`
deletes are those it finds. -/
def Op.effect (steps : ℕ) (g : Graph T) (a : LabelledGraph T) : Op T → LabelledGraph T
  | .addNewVertex => a.addVertex (Terms.integer g.nextVid) Terms.emptyList
  | .addVertex v label => a.addVertex v label
  | .addEdge e => a.addEdge e
  | .delEdge e => a.remove (· = e)
  | .delEdgeList es => a.remove (· ∈ es)
  | .delEdges v1 v2 => a.remove fun e => (e.source, e.target) = (v1, v2)
  | .delVertex v => a.delVertex v
  | .delPath v1 v2 => a.remove fun e => (e.source, e.target) ∈ delPathPairs steps steps g v1 v2
  | .subgraph vs options => a.subgraph vs (keepLabels options)

theorem subgraph_eq (steps : ℕ) (g : Graph T) (vs : List T) (options : List SubgraphOption) :
    ∃ type, Graphs.subgraph steps g vs options =
      Graphs.subgraphOf steps g vs type (keepLabels options) := by
  have hfold (acc : Option (List GraphType) × Bool) : (options.foldl (fun acc o =>
        match o with
        | .type t => (t, acc.2)
        | .keepLabels keep => (acc.1, keep)) acc).2 =
      options.foldl (fun keep o =>
        match o with
        | .type _ => keep
        | .keepLabels keep => keep) acc.2 := by
    induction options generalizing acc with
    | nil => rfl
    | cons o options ih => cases o <;> exact ih _
  unfold Graphs.subgraph keepLabels
  rw [← hfold (none, true)]
  generalize options.foldl _ (none, true) = acc
  obtain ⟨_ | type, keep⟩ := acc <;> exact ⟨_, rfl⟩

/-- `P` holds of every graph of a run and the labelled graph of the same calls.
A call that raises ends the run. -/
def Along (P : Graph T → LabelledGraph T → Prop) (steps : ℕ) (g : Graph T)
    (a : LabelledGraph T) : List (Op T) → Prop
  | [] => P g a
  | o :: os => P g a ∧ ∀ g', o.apply steps g = .ok g' → Along P steps g' (o.effect steps g a) os

theorem Along.head {P : Graph T → LabelledGraph T → Prop} {steps : ℕ} {g : Graph T}
    {a : LabelledGraph T} {os : List (Op T)} (h : Along P steps g a os) : P g a := by
  cases os with
  | nil => exact h
  | cons o os => exact h.1

/-! ## One call -/

variable [Std.TransOrd T] {g' : Graph T}

theorem Ordered.foldlM_subgraphEdge (h : Ordered sg)
    (hfold : es.foldlM (subgraphEdge steps keep) sg = .ok sg') : Ordered sg' := by
  induction es generalizing sg with
  | nil =>
    cases hfold
    exact h
  | cons e es ih =>
    obtain ⟨sg1, hstep, hrest⟩ := foldlM_ok_cons hfold
    refine ih ?_ hrest
    rcases subgraphEdge_ok hstep with hadd | ⟨-, rfl⟩
    · exact h.doAddEdge hadd
    · exact h

theorem Ordered.subgraphOf (hok : subgraphOf steps g vs type keep = .ok sg) :
    Ordered sg := by
  obtain ⟨hin, hout, -⟩ := foldl_subgraphVertex g keep vs (new type)
  simp only [Graphs.subgraphOf] at hok
  rw [foldlM_flatMap] at hok
  have hnew := ordered_new (T := T) type
  refine Ordered.foldlM_subgraphEdge ⟨fun v => ?_, fun v => ?_⟩ hok
  · rw [outEdges, hout]
    exact hnew.out v
  · rw [inEdges, hin]
    exact hnew.inc v

/-- Every call keeps the edges at a vertex ordsets. -/
theorem Ordered.apply (h : Ordered g) (o : Op T) (ho : o.apply steps g = .ok g') : Ordered g' := by
  cases o with
  | addNewVertex | addVertex v label => cases ho; exact ⟨h.out, h.inc⟩
  | addEdge e => exact h.doAddEdge (addEdge_ok ho)
  | delEdge e => cases ho; exact h.delEdge e
  | delEdgeList es => cases ho; exact h.delEdgeList es
  | delEdges v1 v2 => cases ho; exact h.delEdges v1 v2
  | delVertex v => cases ho; exact h.delVertex v
  | delPath v1 v2 =>
    rw [delPath_eq ho]
    exact h.delPairs _
  | subgraph vs options =>
    obtain ⟨type, htype⟩ := subgraph_eq steps g vs options
    exact Ordered.subgraphOf (htype.symm.trans ho)

/-- Every call does what it does to the labelled graph, if no twins come of it. -/
theorem Represents.apply (h : Represents g a) (hord : Ordered g) (o : Op T)
    (ho : o.apply steps g = .ok g') (htwin : TwinFree (o.effect steps g a).edges) :
    Represents g' (o.effect steps g a) := by
  cases o with
  | addNewVertex =>
    cases ho
    have hnext : Represents { g with nextVid := g.nextVid + 1 } a := ⟨h.vertex, h.out, h.inc⟩
    exact hnext.addVertex _ _
  | addVertex v label => cases ho; exact h.addVertex v label
  | addEdge e => exact h.doAddEdge (addEdge_ok ho) htwin
  | delEdge e => cases ho; exact h.delEdge hord e
  | delEdgeList es => cases ho; exact h.delEdgeList hord es
  | delEdges v1 v2 => cases ho; exact h.delEdges hord v1 v2
  | delVertex v => cases ho; exact h.delVertex hord v
  | delPath v1 v2 =>
    rw [delPath_eq ho]
    exact h.delPairs hord _
  | subgraph vs options =>
    obtain ⟨type, htype⟩ := subgraph_eq steps g vs options
    exact h.subgraphOf (htype.symm.trans ho) htwin

/-! ## Whole runs -/

/-- By induction on the calls: as long as there are no twins the graph represents
the labelled graph, and twins are edges that cannot both be reported. -/
theorem along_consistent_iff (h : Represents g a) (hord : Ordered g) (os : List (Op T)) :
    Along Consistent steps g a os ↔ Along (fun _ a => TwinFree a.edges) steps g a os := by
  have hcons := h.consistent hord
  induction os generalizing g a with
  | nil => exact ⟨fun hc => hc.twinFree hord, fun _ => hcons⟩
  | cons o os ih =>
    constructor
    · rintro ⟨hc, hrest⟩
      refine ⟨hc.twinFree hord, fun g' hg' => ?_⟩
      have hord' := hord.apply o hg'
      have hrep := h.apply hord o hg' ((hrest g' hg').head.twinFree hord')
      exact (ih hrep hord' (hrep.consistent hord')).1 (hrest g' hg')
    · rintro ⟨-, hrest⟩
      refine ⟨hcons, fun g' hg' => ?_⟩
      have hord' := hord.apply o hg'
      have hrep := h.apply hord o hg' (hrest g' hg').head
      exact (ih hrep hord' (hrep.consistent hord')).2 (hrest g' hg')

/-- All graphs of a run from `new/1` have consistent indexes that report every edge
exactly if no two different edges at one vertex ever compare equal. -/
theorem run_consistent_iff (steps : ℕ) (options : List GraphType) (os : List (Op T)) :
    Along Consistent steps (new options) LabelledGraph.empty os ↔
      Along (fun _ a => TwinFree a.edges) steps (new options) LabelledGraph.empty os :=
  along_consistent_iff (represents_new options) (ordered_new options) os

/-! ## Integers and floats -/

/-- Integers, and floats with an integer value: `1` and `1.0` compare equal. -/
inductive Number where
  | int (n : ℤ)
  | float (n : ℤ)
deriving DecidableEq, Repr

/-- The value by which numbers are compared. -/
def Number.value : Number → ℤ
  | .int n => n
  | .float n => n

instance : Ord Number := ⟨compareOn Number.value⟩

instance : Std.TransOrd Number := inferInstanceAs (Std.TransCmp (compareOn Number.value))

instance : Terms Number := ⟨.int 0, fun n => .int n⟩

/-- One edge has no twin. -/
theorem run_consistent_iff_one_edge :
    Along Consistent 0 (new []) LabelledGraph.empty [Op.addVertex (Number.int 1) (.int 0),
      .addVertex (.int 2) (.int 0), .addEdge ⟨.int 1, .int 2, .int 0⟩] := by
  refine (run_consistent_iff 0 [] _).2 ?_
  have hempty : TwinFree (∅ : Set (Edge Number)) := fun _ h => h.elim
  refine ⟨hempty, fun _ _ => ⟨hempty, fun _ _ => ⟨hempty, fun _ _ => ?_⟩⟩⟩
  rintro e (he | ⟨rfl, -⟩) e' (he' | ⟨rfl, -⟩) - -
  · exact he.elim
  · exact he.elim
  · exact he'.elim
  · rfl

/-- Three vertices and edges from `1` and from `1.0` to `2`. -/
def twinRun : List (Op Number) :=
  [.addVertex (.int 1) (.int 0), .addVertex (.float 1) (.int 0), .addVertex (.int 2) (.int 0),
    .addEdge ⟨.int 1, .int 2, .int 0⟩, .addEdge ⟨.float 1, .int 2, .int 0⟩]

/-- The second edge is among the edges out of `1.0`, and not among those into `2`. -/
theorem twinRun_inconsistent :
    (twinRun.foldlM (Op.apply 0) (new [])).map
        (fun g => (outEdges g (.float 1), inEdges g (.int 2))) =
      .ok ([⟨.float 1, .int 2, .int 0⟩], [⟨.int 1, .int 2, .int 0⟩]) :=
  rfl

end Otp.Stdlib.Graphs
