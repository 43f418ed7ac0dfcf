import Otp.Stdlib.Ordsets

/-!
# Functional graphs (`graph.erl`)

A graph keeps a map of vertex labels and two maps of edge sets, one by source and
one by target.  The maps are keyed by exact equality `=:=`, which here is the
equality of the type of terms; the edge sets are ordsets, which compare with `==`,
and `--` takes an edge out by exact equality again.

Maps are association lists with distinct keys.  Functions that search for a path
take a bound on the number of steps, since nothing in a graph record that was not
made by this module bounds the search; running out of steps is an outcome of its
own.
-/

namespace Otp.Stdlib.Graphs

/-- What the graph functions need of Erlang's terms beside their order and exact
equality: the empty list, and the integers. -/
class Terms (T : Type) where
  /-- `[]`, the default label. -/
  emptyList : T
  /-- Non-negative integers, the vertices that `add_vertex/1` makes. -/
  integer : ℕ → T

/-- `{From, To, Label}`. -/
structure Edge (T : Type) where
  source : T
  target : T
  label : T
deriving DecidableEq, Repr

variable {T : Type}

/-- Triples are compared from left to right. -/
instance [Ord T] : Ord (Edge T) :=
  ⟨compareLex (compareOn Edge.source) (compareLex (compareOn Edge.target) (compareOn Edge.label))⟩

instance [Ord T] [Std.TransOrd T] : Std.TransOrd (Edge T) :=
  inferInstanceAs (Std.TransCmp (compareLex (compareOn Edge.source)
    (compareLex (compareOn Edge.target) (compareOn Edge.label))))

/-- A map from vertices to edge sets. -/
abbrev EdgeMap (T : Type) := AList fun _ : T => List (Edge T)

/-- The record `#graph{}`. -/
structure Graph (T : Type) where
  vs : AList fun _ : T => T
  inEs : EdgeMap T
  outEs : EdgeMap T
  cyclic : Bool
  nextVid : ℕ

/-- What a call can raise; `outOfSteps` is no error of the source. -/
inductive GraphError (T : Type) where
  | badarg
  | badVertex (v : T)
  | badEdge (v w : T)
  | badmatch
  | outOfSteps
deriving DecidableEq, Repr

variable [DecidableEq T]

/-- `maps:get(V, EsMap, [])`. -/
def mapsGet (v : T) (m : EdgeMap T) : List (Edge T) := (m.lookup v).getD []

/-! ## Making and reading graphs -/

/-- The options of `new/1`. -/
inductive GraphType where
  | cyclic
  | acyclic
deriving DecidableEq, Repr

/-- `new/1`: the last option counts. -/
def new (options : List GraphType) : Graph T :=
  options.foldl (fun g o => { g with cyclic := o = .cyclic }) ⟨∅, ∅, ∅, true, 0⟩

/-- `in_edges/2`. -/
def inEdges (g : Graph T) (v : T) : List (Edge T) := mapsGet v g.inEs

/-- `out_edges/2`. -/
def outEdges (g : Graph T) (v : T) : List (Edge T) := mapsGet v g.outEs

/-- `out_neighbours/2`. -/
def outNeighbours (g : Graph T) (v : T) : List T := (outEdges g v).map Edge.target

/-- `has_vertex/2`. -/
def hasVertex (g : Graph T) (v : T) : Bool := (g.vs.lookup v).isSome

/-- `has_edge/2`. -/
def hasEdge [Ord T] (g : Graph T) (e : Edge T) : Bool :=
  match g.outEs.lookup e.source with
  | some es => Ordsets.isElement e es
  | none => false

/-! ## Vertices -/

/-- `add_vertex/3`. -/
def addVertex (g : Graph T) (v label : T) : Graph T := { g with vs := g.vs.insert v label }

/-- `add_vertex/1`, without the new vertex that it also returns. -/
def addNewVertex [Terms T] (g : Graph T) : Graph T :=
  addVertex { g with nextVid := g.nextVid + 1 } (Terms.integer g.nextVid) Terms.emptyList

/-- `edge_map_del/3`. -/
def edgeMapDel (v : T) (e : Edge T) (m : EdgeMap T) : EdgeMap T :=
  match m.lookup v with
  | none => m
  | some es => m.insert v (es.erase e)

/-- `del_vertex/2`. -/
def delVertex (g : Graph T) (v : T) : Graph T :=
  let inEs := mapsGet v g.inEs
  let outEsMap := inEs.foldl (fun m e => edgeMapDel e.source e m) (g.outEs.erase v)
  let outEs := mapsGet v g.outEs
  let inEsMap := outEs.foldl (fun m e => edgeMapDel e.target e m) (g.inEs.erase v)
  { g with vs := g.vs.erase v, inEs := inEsMap, outEs := outEsMap }

/-! ## Deleting edges -/

/-- `del_edge/2`. -/
def delEdge (g : Graph T) (e : Edge T) : Graph T :=
  { g with inEs := edgeMapDel e.target e g.inEs, outEs := edgeMapDel e.source e g.outEs }

/-- `del_edges/2`. -/
def delEdgeList (g : Graph T) (es : List (Edge T)) : Graph T := es.foldl delEdge g

/-- `del_edges/4`. -/
def delEdgesIn (v1 v2 : T) : Graph T → List (Edge T) → Graph T
  | g, e :: es =>
    if e.source = v1 ∧ e.target = v2 then delEdgesIn v1 v2 (delEdge g e) es
    else delEdgesIn v1 v2 g es
  | g, [] => g

/-- `del_edges/3`. -/
def delEdges (g : Graph T) (v1 v2 : T) : Graph T := delEdgesIn v1 v2 g (outEdges g v1)

/-! ## Paths -/

/-- `one_path/8`, at most as many steps as the first argument says; `none` is
`false`. -/
def onePath (g : Graph T) (w : T) (prune : ℕ) : ℕ → List T → List (List T × List T) →
    List T → List T → ℕ → Except (GraphError T) (Option (List T))
  | 0, _, _, _, _, _ => .error .outOfSteps
  | steps + 1, v :: vs, cont, xs, ps, counter =>
    if v = w then
      if counter < prune then onePath g w prune steps vs cont xs ps counter
      else .ok (some (w :: ps).reverse)
    else if v ∈ xs then onePath g w prune steps vs cont xs ps counter
    else onePath g w prune steps (outNeighbours g v) ((vs, ps) :: cont) (v :: xs) (v :: ps)
      (counter + 1)
  | steps + 1, [], (vs, ps) :: cont, xs, _, counter =>
    onePath g w prune steps vs cont xs ps (counter - 1)
  | _ + 1, [], [], _, _, _ => .ok none

/-- `get_path/3`. -/
def getPath (steps : ℕ) (g : Graph T) (v1 v2 : T) : Except (GraphError T) (Option (List T)) :=
  onePath g v2 1 steps (outNeighbours g v1) [] [v1] [v1] 1

/-- `has_path_1/4`: `none` is the `throw(true)`, and otherwise the vertices seen. -/
def hasPath1 (g : Graph T) (w : T) :
    ℕ → List T → List T → Except (GraphError T) (Option (List T))
  | 0, _, _ => .error .outOfSteps
  | steps + 1, v :: vs, seen =>
    if v = w then .ok none
    else if v ∈ seen then hasPath1 g w steps vs seen
    else do
      match ← hasPath1 g w steps (outNeighbours g v) (v :: seen) with
      | none => return none
      | some seen' => hasPath1 g w steps vs seen'
  | _ + 1, [], seen => .ok (some seen)

/-- `has_path/3`. -/
def hasPath (steps : ℕ) (g : Graph T) (v w : T) : Except (GraphError T) Bool := do
  return (← hasPath1 g w steps [v] []).isNone

/-- `del_path_edges/2`. -/
def delPathEdges : Graph T → List T → Graph T
  | g, v1 :: v2 :: vs => delPathEdges (delEdges g v1 v2) (v2 :: vs)
  | g, _ => g

/-- `del_path/3`, at most as many rounds as the second argument says. -/
def delPath (steps : ℕ) : ℕ → Graph T → T → T → Except (GraphError T) (Graph T)
  | 0, _, _, _ => .error .outOfSteps
  | rounds + 1, g, v1, v2 => do
    match ← getPath steps g v1 v2 with
    | none => return g
    | some path => delPath steps rounds (delPathEdges g path) v1 v2

/-! ## Adding edges -/

section AddEdge

variable [Ord T]

/-- `edge_map_add/3`. -/
def edgeMapAdd (v : T) (e : Edge T) (m : EdgeMap T) : EdgeMap T :=
  m.insert v (Ordsets.addElement e (mapsGet v m))

/-- `do_add_edge/4`. -/
def doAddEdge (g : Graph T) (e : Edge T) : Except (GraphError T) (Graph T) :=
  if ¬ hasVertex g e.source then .error (.badVertex e.source)
  else if ¬ hasVertex g e.target then .error (.badVertex e.target)
  else .ok { g with inEs := edgeMapAdd e.target e g.inEs, outEs := edgeMapAdd e.source e g.outEs }

/-- `acyclic_add_edge/4`, with its two assertions. -/
def acyclicAddEdge (steps : ℕ) (g : Graph T) (e : Edge T) : Except (GraphError T) (Graph T) :=
  if e.source = e.target then .error (.badEdge e.source e.target)
  else do
    match ← getPath steps g e.target e.source with
    | none =>
      if ← hasPath steps g e.target e.source then .error .badmatch
      else doAddEdge g e
    | some _ =>
      if ← hasPath steps g e.target e.source then .error (.badEdge e.source e.target)
      else .error .badmatch

/-- `add_edge/4`. -/
def addEdge (steps : ℕ) (g : Graph T) (e : Edge T) : Except (GraphError T) (Graph T) :=
  if g.cyclic then doAddEdge g e else acyclicAddEdge steps g e

/-! ## Subgraphs -/

variable [Terms T]

/-- `subgraph_vertex/4`. -/
def subgraphVertex (g : Graph T) (keep : Bool) (sg : Graph T) (v : T) : Graph T :=
  match g.vs.lookup v with
  | none => sg
  | some label => addVertex sg v (if keep then label else Terms.emptyList)

/-- The edge that `subgraph_edge/3` adds for an edge. -/
def subgraphLabel (keep : Bool) (e : Edge T) : Edge T :=
  if keep then e else ⟨e.source, e.target, Terms.emptyList⟩

/-- `subgraph_edge/3`. -/
def subgraphEdge (steps : ℕ) (keep : Bool) (sg : Graph T) (e : Edge T) :
    Except (GraphError T) (Graph T) :=
  if hasVertex sg e.target then addEdge steps sg (subgraphLabel keep e) else .ok sg

/-- `subgraph/4`. -/
def subgraphOf (steps : ℕ) (g : Graph T) (vs : List T) (type : List GraphType) (keep : Bool) :
    Except (GraphError T) (Graph T) :=
  let sg1 := vs.foldl (subgraphVertex g keep) (new type)
  sg1.vs.keys.foldlM (fun sgv v => (outEdges g v).foldlM (subgraphEdge steps keep) sgv) sg1

/-- The options of `subgraph/3`; `none` is the type `inherit`. -/
inductive SubgraphOption where
  | type (t : Option (List GraphType))
  | keepLabels (keep : Bool)

/-- `subgraph/3`, with the options read from left to right as in `subgraph_opts/5`. -/
def subgraph (steps : ℕ) (g : Graph T) (vs : List T) (options : List SubgraphOption) :
    Except (GraphError T) (Graph T) :=
  let (type, keep) := options.foldl (fun acc o =>
    match o with
    | .type t => (t, acc.2)
    | .keepLabels keep => (acc.1, keep)) (none, true)
  match type with
  | none => subgraphOf steps g vs [if g.cyclic then .cyclic else .acyclic] keep
  | some type => subgraphOf steps g vs type keep

end AddEdge

end Otp.Stdlib.Graphs
