import Otp.Erts.DbTree.Balance

/-!
# Joining and splitting trees (`erl_db_catree.c`)

A tree is split at its root, and two trees are joined by a node taken out of the lower one,
which is planted on the spine of the higher one where the heights fit.  The way back up is
that of an insertion, although the planted tree may have balance 0 (`Planted`): then the node
above it was lower on this side, and the way ends there.
-/

namespace Otp.Erts.DbTree

open Lib.SortedAssoc

variable {K V : Type*}

def Tree.isNull : Tree K V → Bool
  | .nil => true
  | .node .. => false

/-! ## Splitting -/

section Split

variable [Preorder K] [DecidableLT K]

/-- The way down to the place of a new node. -/
def insertPlace (key : K) : Tree K V → List (Frame K V) → List (Frame K V)
  | .nil, stack => stack
  | .node l e b r, stack =>
    if key < e.1 then insertPlace key l (⟨.left, e, b, r⟩ :: stack)
    else insertPlace key r (⟨.right, e, b, l⟩ :: stack)

def insertTreeDbTerm (insertToRoot : Tree K V) (value : K × V) : Option (Tree K V) :=
  let stack := insertPlace value.1 insertToRoot []
  (climb insertBalance stack (.node .nil value 0 .nil) true).map Prod.fst

/-- The node with the split key, the left tree and the right tree. -/
def splitTree : Tree K V → Option (Option (K × V) × Tree K V × Tree K V)
  | .nil => none
  | .node l e _ r =>
    if l.isNull then
      let splitKeyNode := match r with
        | .nil => none
        | .node _ re _ _ => some re
      some (splitKeyNode, .node .nil e 0 .nil, r)
    else (insertTreeDbTerm r e).map fun right => (some e, l, right)

end Split

/-! ## Joining -/

/-- The loop of `compute_tree_hight`. -/
def hightFrom : Tree K V → Option ℕ
  | .nil => none
  | .node l _ b r =>
    if l.isNull && r.isNull then some 1
    else (if b = -1 then hightFrom l else hightFrom r).map (· + 1)

def computeTreeHight (root : Tree K V) : Option ℕ :=
  if root.isNull then some 0 else hightFrom root

/-- Down to the first or the last node: the node, its child and the way to it. -/
def minOrMax (isMin : Bool) :
    Tree K V → List (Frame K V) → Option ((K × V) × Tree K V × List (Frame K V))
  | .nil, _ => none
  | .node l e b r, stack =>
    if isMin && !l.isNull then minOrMax isMin l (⟨.left, e, b, r⟩ :: stack)
    else if !isMin && !r.isNull then minOrMax isMin r (⟨.right, e, b, l⟩ :: stack)
    else some (e, if r.isNull then l else r, stack)

def linkoutMinOrMaxTreeNode (root : Tree K V) (isMin : Bool) : Option ((K × V) × Tree K V) :=
  (minOrMax isMin root []).bind fun (q, child, stack) =>
  (climb deleteBalance stack child true).map fun out => (q, out.1)

/-- Down the spine of the higher tree, to a subtree that is not too high. -/
def descend (dir : Dir) (goal : ℕ) :
    ℕ → Tree K V → List (Frame K V) → Option (ℕ × Tree K V × List (Frame K V))
  | current, .nil, stack => if current > goal + 1 then none else some (current, .nil, stack)
  | current, .node l e b r, stack =>
    if current > goal + 1 then
      match dir with
      | .right =>
        descend dir goal (if b = -1 then current - 2 else current - 1) r
          (⟨.right, e, b, l⟩ :: stack)
      | .left =>
        descend dir goal (if b = 1 then current - 2 else current - 1) l (⟨.left, e, b, r⟩ :: stack)
    else some (current, .node l e b r, stack)

def joinTrees (leftRoot rightRoot : Tree K V) : Option (Tree K V) :=
  if leftRoot.isNull then some rightRoot
  else if rightRoot.isNull then some leftRoot
  else
    (computeTreeHight leftRoot).bind fun leftHeight =>
    (computeTreeHight rightRoot).bind fun rightHeight =>
    if leftHeight ≥ rightHeight then
      (linkoutMinOrMaxTreeNode rightRoot true).bind fun (newRoot, right) =>
      (computeTreeHight right).bind fun newRightHeight =>
      (descend .right newRightHeight leftHeight leftRoot []).bind fun (height, current, stack) =>
      let planted := .node current newRoot (newRightHeight - height) right
      (climb insertBalance stack planted true).map Prod.fst
    else
      (linkoutMinOrMaxTreeNode leftRoot false).bind fun (newRoot, left) =>
      (computeTreeHight left).bind fun newLeftHeight =>
      (descend .left newLeftHeight rightHeight rightRoot []).bind fun (height, current, stack) =>
      let planted := .node left newRoot (height - newLeftHeight) current
      (climb insertBalance stack planted true).map Prod.fst

/-! ## Heights -/

variable {t l r other : Tree K V} {e : K × V} {b : ℤ} {f : Frame K V} {h goal : ℕ} {grew : Bool}

theorem eq_nil_of_height (h : t.height = 0) : t = .nil := by
  cases t with
  | nil => rfl
  | node => cases h

theorem isNull_iff : t.isNull ↔ t.height = 0 := by
  cases t <;> simp [Tree.isNull, Tree.height]

theorem hightFrom_eq (ht : t.Avl) (hne : 0 < t.height) : hightFrom t = some t.height := by
  induction t with
  | nil => cases hne
  | node l e b r ihl ihr =>
    obtain ⟨hl, hr, hb, hlow, hhigh⟩ := ht
    rw [hightFrom, Tree.height]
    simp only [Bool.and_eq_true, isNull_iff]
    split_ifs with hnull hleft
    · rw [hnull.1, hnull.2]
      rfl
    · rw [ihl hl (by omega), max_eq_left (by omega)]
      rfl
    · rw [ihr hr (by omega), max_eq_right (by omega)]
      rfl

theorem computeTreeHight_eq (ht : t.Avl) : computeTreeHight t = some t.height := by
  rw [computeTreeHight]
  split_ifs with hnull
  · rw [isNull_iff.1 hnull]
  · exact hightFrom_eq ht (Nat.pos_of_ne_zero fun h => hnull (isNull_iff.2 h))

/-! ## The first or the last node -/

theorem climb_cons {balance : Dir → Tree K V → Option (Tree K V × Bool)} {stack : List (Frame K V)}
    {t' : Tree K V} {state state' : Bool}
    (hstep : stepUp balance f (some (t, state)) = some (t', state')) :
    climb balance (f :: stack) t state = climb balance stack t' state' := by
  have hcons := climbFrom_cons balance f stack (some (t, state))
  rwa [hstep] at hcons

theorem minOrMax_spec (isMin : Bool) (stack : List (Frame K V)) (ht : t.Avl) (hne : ¬t.isNull) :
    ∃ q child stack' t' shrunk, minOrMax isMin t stack = some (q, child, stack') ∧
      climb deleteBalance stack' child true = climb deleteBalance stack t' shrunk ∧
      t.toList = (if isMin then q :: t'.toList else t'.toList ++ [q]) ∧
      Shrinks t.height t' shrunk := by
  induction t generalizing stack with
  | nil => exact absurd rfl hne
  | node l e b r ihl ihr =>
    cases isMin with
    | true =>
      cases hl : l.isNull with
      | true =>
        refine ⟨e, r, stack, r, true, ?_, rfl, ?_, ht.2.1, ?_⟩
        all_goals cases l <;> cases r <;> simp_all [minOrMax, Tree.isNull, Tree.toList, Tree.height]
      | false =>
        obtain ⟨q, child, stack', t', _, heq, hclimb, hlist, ht'⟩ :=
          ihl (⟨.left, e, b, r⟩ :: stack) ht.1 (by simp [hl])
        obtain ⟨t'', shrunk, hstep, hlist', hshrinks⟩ := stepUp_delete ht.left ht'
        refine ⟨q, child, stack', t'', shrunk, ?_, hclimb.trans (climb_cons hstep), ?_, hshrinks⟩
        · simp [minOrMax, hl, heq]
        · simp [hlist', Frame.plug, Tree.toList, hlist]
    | false =>
      cases hr : r.isNull with
      | true =>
        refine ⟨e, l, stack, l, true, ?_, rfl, ?_, ht.1, ?_⟩
        all_goals cases r <;> simp_all [minOrMax, Tree.isNull, Tree.toList, Tree.height]
      | false =>
        obtain ⟨q, child, stack', t', _, heq, hclimb, hlist, ht'⟩ :=
          ihr (⟨.right, e, b, l⟩ :: stack) ht.2.1 (by simp [hr])
        obtain ⟨t'', shrunk, hstep, hlist', hshrinks⟩ := stepUp_delete ht.right ht'
        refine ⟨q, child, stack', t'', shrunk, ?_, hclimb.trans (climb_cons hstep), ?_, ?_⟩
        · simp [minOrMax, hr, heq]
        · simp [hlist', Frame.plug, Tree.toList, hlist]
        · rw [Tree.height, max_comm]
          exact hshrinks

theorem linkoutMinOrMaxTreeNode_spec (isMin : Bool) (ht : t.Avl) (hne : ¬t.isNull) :
    ∃ q t', linkoutMinOrMaxTreeNode t isMin = some (q, t') ∧ t'.Avl ∧ t'.height ≤ t.height ∧
      t.toList = if isMin then q :: t'.toList else t'.toList ++ [q] := by
  obtain ⟨q, child, stack', t', shrunk, heq, hclimb, hlist, ht'⟩ := minOrMax_spec isMin [] ht hne
  refine ⟨q, t', ?_, ht'.avl, Nat.le_of_add_right_le ht'.height.le, hlist⟩
  simp only [linkoutMinOrMaxTreeNode, heq, Option.bind_some, hclimb]
  rfl

/-! ## Planting -/

/-- The tree in a place of height `h` after planting. -/
def Planted (goal h : ℕ) (t : Tree K V) (grew : Bool) : Prop :=
  Grows h t grew ∨ grew ∧ h = goal ∧ t.Avl ∧ t.height = h + 1

theorem stepUp_planted (hf : f.Fits h) (ht : Planted goal h t grew)
    (hlt : goal < max h f.other.height) :
    ∃ t' grew', stepUp insertBalance f (some (t, grew)) = some (t', grew') ∧
      t'.toList = (f.plug t).toList ∧ Grows (max h f.other.height + 1) t' grew' := by
  obtain ht | ⟨rfl, rfl, havl, hheight⟩ := ht
  · exact stepUp_insert hf ht
  -- the planted tree may have balance 0, but the other side is higher
  obtain ⟨dir, e, b, other⟩ := f
  obtain ⟨hother, hbalance, hlow, hhigh⟩ := hf
  cases dir with
  | left =>
    obtain rfl : b = 1 := by dsimp only at *; omega
    refine ⟨_, _, rfl, rfl, ⟨havl, hother, ?_⟩, ?_, nofun⟩
    all_goals simp only [Tree.height, Bool.toNat_false] at *; omega
  | right =>
    obtain rfl : b = -1 := by dsimp only at *; omega
    refine ⟨_, _, rfl, rfl, ⟨hother, havl, ?_⟩, ?_, nofun⟩
    all_goals simp only [Tree.height, Bool.toNat_false] at *; omega

/-- The node over the end of the spine and the lower tree. -/
def plantNode (q : K × V) (other : Tree K V) : Dir → Tree K V → Tree K V
  | .left, t => .node other q (t.height - other.height) t
  | .right, t => .node t q (other.height - t.height) other

variable {q : K × V} {dir : Dir}

theorem planted_plantNode (hother : other.Avl) (ht : t.Avl) (hle : other.height ≤ t.height)
    (hle' : t.height ≤ other.height + 1) :
    Planted other.height t.height (plantNode q other dir t) true := by
  have havl : (plantNode q other dir t).Avl := by
    cases dir with
    | left => exact ⟨hother, ht, rfl, by omega⟩
    | right => exact ⟨ht, hother, rfl, by omega⟩
  have hheight : (plantNode q other dir t).height = t.height + 1 := by
    cases dir <;> simp only [plantNode, Tree.height] <;> omega
  by_cases heq : t.height = other.height
  · exact .inr ⟨rfl, heq, havl, hheight⟩
  · refine .inl ⟨havl, hheight, fun _ => .inr ?_⟩
    cases dir <;> simp only [plantNode, Tree.tilt] <;> omega

/-- The way down a tree, and back up after planting. -/
def PlantsIn (q : K × V) (other : Tree K V) (dir : Dir) (t : Tree K V) : Prop :=
  ∀ stack, ∃ c stack' t' grew,
    descend dir other.height t.height t stack = some (c.height, c, stack') ∧
    climb insertBalance stack' (plantNode q other dir c) true = climb insertBalance stack t' grew ∧
    t'.toList = (plantNode q other dir t).toList ∧ Planted other.height t.height t' grew

theorem PlantsIn.plug (h : PlantsIn q other f.dir t) (hf : f.Fits t.height)
    (hlt : other.height < max t.height f.other.height) : PlantsIn q other f.dir (f.plug t) := by
  intro stack
  obtain ⟨c, stack', t', grew, heq, hclimb, hlist, ht'⟩ := h (f :: stack)
  obtain ⟨t'', grew', hstep, hlist', hgrows⟩ := stepUp_planted hf ht' hlt
  have hgt : max t.height f.other.height + 1 > other.height + 1 := by omega
  rw [f.height_plug]
  refine ⟨c, stack', t'', grew', ?_, hclimb.trans (climb_cons hstep), ?_, .inl hgrows⟩
  · rw [← heq]
    obtain ⟨-, hbalance, hlow, hhigh⟩ := hf
    obtain ⟨_ | _, e, b, side⟩ := f
    all_goals
      simp only [Frame.plug, descend, if_pos hgt] at *
      congr 1
      split_ifs <;> omega
  · obtain ⟨_ | _, e, b, side⟩ := f
    all_goals simp [hlist', Frame.plug, plantNode, Tree.toList, hlist]

theorem plantsIn_end (hother : other.Avl) (ht : t.Avl) (hle : other.height ≤ t.height)
    (hle' : t.height ≤ other.height + 1) : PlantsIn q other dir t := by
  refine fun stack => ⟨t, stack, _, true, ?_, rfl, rfl, planted_plantNode hother ht hle hle'⟩
  cases t <;> simp only [descend, if_neg (Nat.not_lt.2 hle')]

theorem plantsIn (q : K × V) (dir : Dir) (hother : other.Avl) (ht : t.Avl)
    (hle : other.height ≤ t.height) : PlantsIn q other dir t := by
  induction t with
  | nil => exact plantsIn_end hother ht hle (Nat.zero_le _)
  | node l e b r ihl ihr =>
    by_cases hle' : (Tree.node l e b r).height ≤ other.height + 1
    · exact plantsIn_end hother ht hle hle'
    · obtain ⟨hl, hr, hb, hlow, hhigh⟩ := id ht
      rw [Tree.height] at hle'
      cases dir with
      | left => exact (ihl hl (by omega)).plug ht.left (by simp only; omega)
      | right => exact (ihr hr (by omega)).plug ht.right (by simp only; omega)

theorem PlantsIn.join (h : PlantsIn q other dir t) :
    ∃ c stack t', descend dir other.height t.height t [] = some (c.height, c, stack) ∧
      (climb insertBalance stack (plantNode q other dir c) true).map Prod.fst = some t' ∧
      t'.Avl ∧ t'.toList = (plantNode q other dir t).toList := by
  obtain ⟨c, stack, t', grew, heq, hclimb, hlist, ht'⟩ := h []
  refine ⟨c, stack, t', heq, ?_, ht'.elim Grows.avl fun ht' => ht'.2.2.1, hlist⟩
  rw [hclimb]
  rfl

theorem joinTrees_spec (hl : l.Avl) (hr : r.Avl) :
    ∃ t, joinTrees l r = some t ∧ t.Avl ∧ t.toList = l.toList ++ r.toList := by
  match l, r with
  | .nil, r => exact ⟨r, rfl, hr, rfl⟩
  | .node ll le lb lr, .nil => exact ⟨_, rfl, hl, (List.append_nil _).symm⟩
  | .node ll le lb lr, .node rl re rb rr =>
    simp only [joinTrees, Tree.isNull, Bool.false_eq_true, if_false, computeTreeHight_eq hl,
      computeTreeHight_eq hr, Option.bind_some]
    split_ifs with hge
    · obtain ⟨q, r', heq, hr', hle, hlist⟩ := linkoutMinOrMaxTreeNode_spec true hr nofun
      obtain ⟨c, stack, t, hdescend, hclimb, ht, hlist'⟩ :=
        (plantsIn q .right hr' hl (hle.trans hge)).join
      refine ⟨t, ?_, ht, ?_⟩
      · simp only [heq, computeTreeHight_eq hr', Option.bind_some, hdescend]
        exact hclimb
      · rw [hlist', hlist]
        rfl
    · obtain ⟨q, l', heq, hl', hle, hlist⟩ := linkoutMinOrMaxTreeNode_spec false hl nofun
      obtain ⟨c, stack, t, hdescend, hclimb, ht, hlist'⟩ :=
        (plantsIn q .left hl' hr (hle.trans (Nat.le_of_not_le hge))).join
      refine ⟨t, ?_, ht, ?_⟩
      · simp only [heq, computeTreeHight_eq hl', Option.bind_some, hdescend]
        exact hclimb
      · rw [hlist', hlist, plantNode, Tree.toList]
        simp

/-! ## The trees of a split -/

variable [Preorder K] [DecidableLT K]

theorem insertPlace_spec (hlt : ∀ x ∈ t.toList, e.1 < x.1) (ht : t.Avl) (stack : List (Frame K V)) :
    ∃ t' grew, climb insertBalance (insertPlace e.1 t stack) (.node .nil e 0 .nil) true =
        climb insertBalance stack t' grew ∧
      t'.toList = e :: t.toList ∧ Grows t.height t' grew := by
  induction t generalizing stack with
  | nil =>
    exact ⟨_, true, rfl, rfl, ⟨trivial, trivial, by simp [Tree.height]⟩, rfl, fun _ => .inl rfl⟩
  | node l x b r ihl _ =>
    simp only [Tree.toList, List.mem_append, List.mem_cons] at hlt
    obtain ⟨t', grew, hclimb, hlist, hgrows⟩ :=
      ihl (fun y hy => hlt y (.inl hy)) ht.1 (⟨.left, x, b, r⟩ :: stack)
    obtain ⟨t'', grew', hstep, hlist', hgrows'⟩ := stepUp_insert ht.left hgrows
    refine ⟨t'', grew', ?_, ?_, hgrows'⟩
    · rw [insertPlace, if_pos (hlt x (.inr (.inl rfl))), hclimb, climb_cons hstep]
    · simp [hlist', Frame.plug, Tree.toList, hlist]

theorem splitTree_spec (ht : t.Avl) (hs : Sorted t.toList) (hsize : 2 ≤ t.toList.length) :
    ∃ split left right, splitTree t = some (some split, left, right) ∧ left.Avl ∧ right.Avl ∧
      left ≠ .nil ∧ right ≠ .nil ∧ left.toList ++ right.toList = t.toList ∧
      (∀ x ∈ left.toList, x.1 < split.1) ∧ ∀ x ∈ right.toList, split.1 ≤ x.1 := by
  cases t with
  | nil => simp [Tree.toList] at hsize
  | node l e b r =>
    cases l with
    | nil =>
      cases r with
      | nil => simp [Tree.toList] at hsize
      | node rl re rb rr =>
        obtain ⟨-, hr, hb, -, hhigh⟩ := ht
        -- a tree without a left subtree has two nodes at most
        have hheight : rl.height = 0 ∧ rr.height = 0 := by simp only [Tree.height] at hb; omega
        obtain ⟨rfl, rfl⟩ := And.intro (eq_nil_of_height hheight.1) (eq_nil_of_height hheight.2)
        have hlt : e.1 < re.1 := (sorted_cons.1 hs).1 re (by simp [Tree.toList])
        exact ⟨re, _, _, rfl, ⟨trivial, trivial, by simp [Tree.height]⟩, hr, by simp, by simp, rfl,
          by simpa [Tree.toList] using hlt, by simp [Tree.toList]⟩
    | node ll le lb lr =>
      obtain ⟨-, -, hl, hr⟩ := sorted_append_cons.1 hs
      obtain ⟨t', grew, hclimb, hlist, hgrows⟩ := insertPlace_spec hr ht.2.1 []
      refine ⟨e, _, t', ?_, ht.1, hgrows.avl, by simp, ?_, ?_, hl, ?_⟩
      · simp only [splitTree, Tree.isNull, insertTreeDbTerm, hclimb]
        rfl
      · rintro rfl
        cases hlist
      · rw [hlist]
        rfl
      · rw [hlist, List.forall_mem_cons]
        exact ⟨le_rfl, fun x hx => (hr x hx).le⟩

/-- Trees are joined to a tree with the objects of both, and split into two that are not empty. -/
theorem joinTrees_splitTree_avl :
    (∀ left right : Tree K V, left.Avl → right.Avl → Sorted left.toList → Sorted right.toList →
      (∀ x ∈ left.toList, ∀ y ∈ right.toList, x.1 < y.1) →
      ∃ t, joinTrees left right = some t ∧ t.Avl ∧ Sorted t.toList ∧
        t.toList = left.toList ++ right.toList) ∧
    ∀ t : Tree K V, t.Avl → Sorted t.toList → 2 ≤ t.toList.length →
      ∃ split left right, splitTree t = some (some split, left, right) ∧ left.Avl ∧ right.Avl ∧
        Sorted left.toList ∧ Sorted right.toList ∧ left ≠ .nil ∧ right ≠ .nil ∧
        left.toList ++ right.toList = t.toList ∧
        (∀ x ∈ left.toList, x.1 < split.1) ∧ ∀ x ∈ right.toList, split.1 ≤ x.1 := by
  refine ⟨fun left right hl hr hsl hsr hlt => ?_, fun t ht hs hsize => ?_⟩
  · obtain ⟨t, heq, ht, hlist⟩ := joinTrees_spec hl hr
    exact ⟨t, heq, ht, hlist ▸ List.pairwise_append.2 ⟨hsl, hsr, hlt⟩, hlist⟩
  · obtain ⟨split, left, right, heq, hl, hr, hne, hne', hlist, hbounds⟩ :=
      splitTree_spec ht hs hsize
    obtain ⟨hsl, hsr, -⟩ := List.pairwise_append.1 (hlist ▸ hs)
    exact ⟨split, left, right, heq, hl, hr, hsl, hsr, hne, hne', hlist, hbounds⟩

/-- A node taken out of the right tree is planted at the end of the right spine. -/
theorem joinTrees_splitTree_numbers :
    let one (n : ℕ) : Tree ℕ ℕ := .node .nil (n, 0) 0 .nil
    let left := Tree.node (.node (one 1) (2, 0) 0 (one 3)) (4, 0) (-1) (one 5)
    (∃ t, joinTrees left (one 6) = some t ∧ t.Avl ∧ t.toList.length = 6) ∧
    ∃ split l r, splitTree left = some (some split, l, r) ∧ l.Avl ∧ r.Avl := by
  intro one left
  have havl : left.Avl := by simp [left, one, Tree.Avl, Tree.height]
  have hsorted : Sorted left.toList := by unfold Sorted; decide
  obtain ⟨hjoin, hsplit⟩ := joinTrees_splitTree_avl (K := ℕ) (V := ℕ)
  obtain ⟨t, heq, ht, -, hlist⟩ := hjoin left (one 6) havl (by simp [one, Tree.Avl, Tree.height])
    hsorted (by unfold Sorted; decide) (by decide)
  obtain ⟨split, l, r, heq', hl, hr, -⟩ := hsplit left havl hsorted (by decide)
  exact ⟨⟨t, heq, ht, by rw [hlist]; rfl⟩, split, l, r, heq', hl, hr⟩

end Otp.Erts.DbTree
