import Otp.Lib.SortedAssoc

/-!
# General balanced trees (`gb_trees.erl`)

A tree is `{Size, Tree}`, where `Tree` is `nil` or `{Key, Value, Smaller, Bigger}`.
Keys are compared with `<` and `>` only, over any type with an order; two keys of
which neither is smaller, like `1` and `1.0`, are the same key.

`insert_1/4` halves the square of the new size at each step down.  If nothing is
left of it at the bottom, the path is too long, and the node is returned in a
triple with its height and size; on the way up the first subtree that is too high
for its size is rebuilt from its list, and from there on plain trees are returned.
Deletions do not rebuild anything.
-/

namespace Otp.Stdlib.GbTrees

/-- `nil | {Key, Value, Smaller, Bigger}`. -/
inductive Tree (K V : Type) where
  | nil
  | node (key : K) (value : V) (smaller bigger : Tree K V)
deriving DecidableEq, Repr

/-- `{Size, Tree}`. -/
structure GbTree (K V : Type) where
  size : ℕ
  tree : Tree K V
deriving DecidableEq, Repr

/-- What a call can raise. -/
inductive GbError (K : Type) where
  | keyExists (key : K)
  | notOrddict
  | functionClause
  | badmatch
deriving DecidableEq, Repr

variable {K V : Type}

/-! ## Lists and counts -/

/-- `to_list/2`. -/
def Tree.toListAcc : Tree K V → List (K × V) → List (K × V)
  | .node key value small big, l => small.toListAcc ((key, value) :: big.toListAcc l)
  | .nil, l => l

/-- `to_list_1/1`. -/
def Tree.toList (t : Tree K V) : List (K × V) := t.toListAcc []

/-- `to_list/1`. -/
def toList (t : GbTree K V) : List (K × V) := t.tree.toList

/-- `count/1`: two to the height, and the number of nodes. -/
def Tree.count : Tree K V → ℕ × ℕ
  | .node _ _ .nil .nil => (1, 1)
  | .node _ _ sm bi =>
    let (h1, s1) := sm.count
    let (h2, s2) := bi.count
    (2 * max h1 h2, s1 + s2 + 1)
  | .nil => (1, 0)

/-! ## Balancing -/

/-- `split_list_size/1`. -/
def splitListSize (s : ℕ) : ℕ × ℕ :=
  let sm := s - 1
  let s2 := sm / 2
  let s1 := sm - s2
  (s1, s2)

/-- `balance_list_unchecked_1/2`. -/
def balanceListUnchecked1 (l : List (K × V)) (s : ℕ) :
    Except (GbError K) (Tree K V × List (K × V)) :=
  if s > 1 then do
    match ← balanceListUnchecked1 l (splitListSize s).1 with
    | (t1, (k, v) :: l1) =>
      let (t2, l2) ← balanceListUnchecked1 l1 (splitListSize s).2
      return (.node k v t1 t2, l2)
    | _ => throw .badmatch
  else if s = 1 then
    match l with
    | (key, val) :: l => return (.node key val .nil .nil, l)
    | [] => throw .functionClause
  else return (.nil, l)
termination_by s
decreasing_by all_goals simp only [splitListSize]; omega

/-- `balance_list_unchecked/2`. -/
def balanceListUnchecked (l : List (K × V)) (s : ℕ) : Except (GbError K) (Tree K V) := do
  match ← balanceListUnchecked1 l s with
  | (t, []) => return t
  | _ => throw .badmatch

/-- `balance/2`. -/
def Tree.balance (t : Tree K V) (s : ℕ) : Except (GbError K) (Tree K V) :=
  balanceListUnchecked t.toList s

/-- `balance/1`. -/
def balance (t : GbTree K V) : Except (GbError K) (GbTree K V) := do
  return ⟨t.size, ← t.tree.balance t.size⟩

/-- `map/2`. -/
def map (f : K → V → V) (t : GbTree K V) : GbTree K V := ⟨t.size, map1 t.tree⟩
where
  /-- `map_1/2`. -/
  map1 : Tree K V → Tree K V
    | .nil => .nil
    | .node k v smaller larger => .node k (f k v) (map1 smaller) (map1 larger)

/-- `empty/0`. -/
def empty : GbTree K V := ⟨0, .nil⟩

/-! ## Taking the ends -/

/-- `take_smallest1/1`. -/
def Tree.takeSmallest1 : Tree K V → Except (GbError K) (K × V × Tree K V)
  | .nil => throw .functionClause
  | .node key value .nil larger => return (key, value, larger)
  | .node key value smaller larger => do
    let (key1, value1, smaller1) ← smaller.takeSmallest1
    return (key1, value1, .node key value smaller1 larger)

/-- `take_smallest/1`. -/
def takeSmallest (t : GbTree K V) : Except (GbError K) (K × V × GbTree K V) := do
  let (key, value, larger) ← t.tree.takeSmallest1
  return (key, value, ⟨t.size - 1, larger⟩)

/-- `take_largest1/1`. -/
def Tree.takeLargest1 : Tree K V → Except (GbError K) (K × V × Tree K V)
  | .nil => throw .functionClause
  | .node key value smaller .nil => return (key, value, smaller)
  | .node key value smaller larger => do
    let (key1, value1, larger1) ← larger.takeLargest1
    return (key1, value1, .node key value smaller larger1)

/-- `take_largest/1`. -/
def takeLargest (t : GbTree K V) : Except (GbError K) (K × V × GbTree K V) := do
  let (key, value, smaller) ← t.tree.takeLargest1
  return (key, value, ⟨t.size - 1, smaller⟩)

/-- `merge/2`. -/
def merge : Tree K V → Tree K V → Except (GbError K) (Tree K V)
  | smaller, .nil => return smaller
  | .nil, larger => return larger
  | smaller, larger => do
    let (key, value, larger1) ← larger.takeSmallest1
    return .node key value smaller larger1

/-! ## Functions that compare keys -/

variable [Preorder K] [DecidableLT K]

/-- `lookup_1/2`. -/
def Tree.lookup1 (key : K) : Tree K V → Option V
  | .node key1 value smaller bigger =>
    if key < key1 then smaller.lookup1 key
    else if key1 < key then bigger.lookup1 key
    else some value
  | .nil => none

/-- `lookup/2`; `none` and `{value, V}`. -/
def lookup (key : K) (t : GbTree K V) : Option V := t.tree.lookup1 key

/-- `is_defined_1/2`. -/
def Tree.isDefined1 (key : K) : Tree K V → Bool
  | .node key1 _ smaller bigger =>
    if key < key1 then smaller.isDefined1 key
    else if key1 < key then bigger.isDefined1 key
    else true
  | .nil => false

/-- `is_defined/2`. -/
def isDefined (key : K) (t : GbTree K V) : Bool := t.tree.isDefined1 key

/-- `update_1/3`. -/
def Tree.update1 (key : K) (value : V) : Tree K V → Except (GbError K) (Tree K V)
  | .node key1 v smaller bigger =>
    if key < key1 then do return .node key1 v (← smaller.update1 key value) bigger
    else if key1 < key then do return .node key1 v smaller (← bigger.update1 key value)
    else return .node key value smaller bigger
  | .nil => throw .functionClause

/-- `update/3`. -/
def update (key : K) (val : V) (t : GbTree K V) : Except (GbError K) (GbTree K V) := do
  return ⟨t.size, ← t.tree.update1 key val⟩

/-- What `insert_1/4` returns: a tree, or the triple `{Tree, Height, Size}` of a
subtree that is too deep. -/
inductive InsertReply (K V : Type) where
  | tree (t : Tree K V)
  | deep (t : Tree K V) (height size : ℕ)

/-- The end of both branches of `insert_1/4` for a triple from below: `t` is the
subtree with the new child, of height `h1` and size `s1`, in place. -/
def checkDeep (t : Tree K V) (h1 s1 : ℕ) (sibling : Tree K V) :
    Except (GbError K) (InsertReply K V) :=
  let (h2, s2) := sibling.count
  let h := 2 * max h1 h2
  let ss := s1 + s2 + 1
  let p := ss * ss
  if h > p then do return .tree (← t.balance ss)
  else return .deep t h ss

/-- `insert_1/4`. -/
def Tree.insert1 (key : K) (value : V) : Tree K V → ℕ → Except (GbError K) (InsertReply K V)
  | .node key1 v smaller bigger, s =>
    if key < key1 then do
      match ← smaller.insert1 key value (s / 2) with
      | .deep t1 h1 s1 => checkDeep (.node key1 v t1 bigger) h1 s1 bigger
      | .tree t1 => return .tree (.node key1 v t1 bigger)
    else if key1 < key then do
      match ← bigger.insert1 key value (s / 2) with
      | .deep t1 h1 s1 => checkDeep (.node key1 v smaller t1) h1 s1 smaller
      | .tree t1 => return .tree (.node key1 v smaller t1)
    else throw (.keyExists key)
  | .nil, s =>
    if s = 0 then return .deep (.node key value .nil .nil) 1 1
    else return .tree (.node key value .nil .nil)

/-- `insert/3`: the size and whatever `insert_1/4` returns. -/
def insert (key : K) (val : V) (t : GbTree K V) : Except (GbError K) (ℕ × InsertReply K V) := do
  let s1 := t.size + 1
  return (s1, ← t.tree.insert1 key val (s1 * s1))

/-- `enter/3`. -/
def enter (key : K) (val : V) (t : GbTree K V) : Except (GbError K) (ℕ × InsertReply K V) :=
  match isDefined key t with
  | true => do
    let t1 ← update key val t
    return (t1.size, .tree t1.tree)
  | false => insert key val t

/-- `delete_1/2`. -/
def Tree.delete1 (key : K) : Tree K V → Except (GbError K) (Tree K V)
  | .node key1 value smaller larger =>
    if key < key1 then do return .node key1 value (← smaller.delete1 key) larger
    else if key1 < key then do return .node key1 value smaller (← larger.delete1 key)
    else merge smaller larger
  | .nil => throw .functionClause

/-- `delete/2`. -/
def delete (key : K) (t : GbTree K V) : Except (GbError K) (GbTree K V) := do
  return ⟨t.size - 1, ← t.tree.delete1 key⟩

/-- `delete_any/2`. -/
def deleteAny (key : K) (t : GbTree K V) : Except (GbError K) (GbTree K V) :=
  match isDefined key t with
  | true => delete key t
  | false => return t

/-- `take_1/2`. -/
def Tree.take1 (key : K) : Tree K V → Except (GbError K) (V × Tree K V)
  | .node key1 value smaller larger =>
    if key < key1 then do
      let (value2, smaller1) ← smaller.take1 key
      return (value2, .node key1 value smaller1 larger)
    else if key1 < key then do
      let (value2, bigger1) ← larger.take1 key
      return (value2, .node key1 value smaller bigger1)
    else do return (value, ← merge smaller larger)
  | .nil => throw .functionClause

/-- `take/2`. -/
def take (key : K) (t : GbTree K V) : Except (GbError K) (V × GbTree K V) := do
  let (value, res) ← t.tree.take1 key
  return (value, ⟨t.size - 1, res⟩)

/-! ## From lists -/

/-- `balance_list_checked_1/2`. -/
def balanceListChecked1 (l : List (K × V)) (s : ℕ) :
    Except (GbError K) (Tree K V × List (K × V)) :=
  if s > 1 then do
    match ← balanceListChecked1 l (splitListSize s).1 with
    | (t1, (k, v) :: l1) =>
      match l1 with
      | (k1, _) :: _ => if ¬ k < k1 then throw .notOrddict else
        let (t2, l2) ← balanceListChecked1 l1 (splitListSize s).2
        return (.node k v t1 t2, l2)
      | [] =>
        let (t2, l2) ← balanceListChecked1 l1 (splitListSize s).2
        return (.node k v t1 t2, l2)
    | _ => throw .badmatch
  else if s = 1 then
    match l with
    | (k1, val) :: (k2, val2) :: l =>
      if ¬ k1 < k2 then throw .notOrddict
      else return (.node k1 val .nil .nil, (k2, val2) :: l)
    | (key, val) :: l => return (.node key val .nil .nil, l)
    | [] => throw .functionClause
  else return (.nil, l)
termination_by s
decreasing_by all_goals simp only [splitListSize]; omega

/-- `balance_list_checked/2`. -/
def balanceListChecked (l : List (K × V)) (s : ℕ) : Except (GbError K) (Tree K V) := do
  match ← balanceListChecked1 l s with
  | (t, []) => return t
  | _ => throw .badmatch

/-- `from_orddict/1`. -/
def fromOrddict (l : List (K × V)) : Except (GbError K) (GbTree K V) := do
  let s := l.length
  return ⟨s, ← balanceListChecked l s⟩

/-- `from_orddict_unchecked/1`. -/
def fromOrddictUnchecked (l : List (K × V)) : Except (GbError K) (GbTree K V) := do
  let s := l.length
  return ⟨s, ← balanceListUnchecked l s⟩

/-- `lists:ukeysort(1, L)`: sorted by key, with the first of the tuples that have
the same key. -/
def ukeysort (l : List (K × V)) : List (K × V) :=
  l.foldr (fun e acc => Lib.SortedAssoc.put e.1 e.2 acc) []

/-- `orddict:from_list/1`. -/
def orddictFromList : List (K × V) → List (K × V)
  | [] => []
  | [pair] => [pair]
  | pairs => ukeysort pairs.reverse

/-- `from_list/1`. -/
def fromList (l : List (K × V)) : Except (GbError K) (GbTree K V) :=
  fromOrddictUnchecked (orddictFromList l)

end Otp.Stdlib.GbTrees
