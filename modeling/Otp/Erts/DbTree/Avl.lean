import Otp.Lib.SortedAssoc

/-!
# AVL trees of ordered sets (`erl_db_tree.c`)

Insertion and deletion walk down the tree, keep the way back on two stacks, and walk back up
while the height of the subtree has changed.  A stack of pointers to child slots with the
directions taken is a list of frames: each is a node without the child that was taken.  A
walk back up that stops leaves the nodes above it as they are (`unwind`).

The loops compute what recursive functions compute (`insertLoop_eq`, `deleteLoop_eq`), which
is how they are reasoned about.  A missing node where the code follows a pointer is `none`.
-/

namespace Otp.Erts.DbTree

variable {K V : Type*}

/-- A node has an object with its key, and the height of the right subtree minus that of the
left one. -/
inductive Tree (K V : Type*)
  | nil
  | node (left : Tree K V) (entry : K × V) (balance : ℤ) (right : Tree K V)
deriving DecidableEq

inductive Dir
  | left
  | right
deriving DecidableEq

/-- A node on the way down, without the child in the direction taken. -/
structure Frame (K V : Type*) where
  dir : Dir
  entry : K × V
  balance : ℤ
  other : Tree K V

def Frame.plug (f : Frame K V) (t : Tree K V) : Tree K V :=
  match f.dir with
  | .left => .node t f.entry f.balance f.other
  | .right => .node f.other f.entry f.balance t

/-- The tree around a subtree. -/
def unwind : List (Frame K V) → Tree K V → Tree K V
  | [], t => t
  | f :: fs, t => unwind fs (f.plug t)

/-! ## Rotations -/

/-- The left subtree has grown; does the tree itself grow? -/
def insertLeft : Tree K V → Option (Tree K V × Bool)
  | .nil => none
  | .node l e b r =>
    if b = 1 then some (.node l e 0 r, false)
    else if b = 0 then some (.node l e (-1) r, true)
    else if b = -1 then
      match l with
      | .nil => none
      | .node l1 e1 b1 r1 =>
        if b1 = -1 then some (.node l1 e1 0 (.node r1 e 0 r), false)
        else
          match r1 with
          | .nil => none
          | .node l2 e2 b2 r2 =>
            some (.node (.node l1 e1 (if b2 = 1 then -1 else 0) l2) e2 0
              (.node r2 e (if b2 = -1 then 1 else 0) r), false)
    else some (.node l e b r, true)

/-- The right subtree has grown. -/
def insertRight : Tree K V → Option (Tree K V × Bool)
  | .nil => none
  | .node l e b r =>
    if b = -1 then some (.node l e 0 r, false)
    else if b = 0 then some (.node l e 1 r, true)
    else if b = 1 then
      match r with
      | .nil => none
      | .node l1 e1 b1 r1 =>
        if b1 = 1 then some (.node (.node l e 0 l1) e1 0 r1, false)
        else
          match l1 with
          | .nil => none
          | .node l2 e2 b2 r2 =>
            some (.node (.node l e (if b2 = 1 then -1 else 0) l2) e2 0
              (.node r2 e1 (if b2 = -1 then 1 else 0) r1), false)
    else some (.node l e b r, true)

/-- The left subtree has become lower; does the tree itself become lower? -/
def treeBalanceLeft : Tree K V → Option (Tree K V × Bool)
  | .nil => none
  | .node l e b r =>
    if b = -1 then some (.node l e 0 r, true)
    else if b = 0 then some (.node l e 1 r, false)
    else if b = 1 then
      match r with
      | .nil => none
      | .node l1 e1 b1 r1 =>
        if b1 ≥ 0 then
          if b1 = 0 then some (.node (.node l e 1 l1) e1 (-1) r1, false)
          else some (.node (.node l e 0 l1) e1 0 r1, true)
        else
          match l1 with
          | .nil => none
          | .node l2 e2 b2 r2 =>
            some (.node (.node l e (if b2 = 1 then -1 else 0) l2) e2 0
              (.node r2 e1 (if b2 = -1 then 1 else 0) r1), true)
    else some (.node l e b r, true)

/-- The right subtree has become lower. -/
def treeBalanceRight : Tree K V → Option (Tree K V × Bool)
  | .nil => none
  | .node l e b r =>
    if b = 1 then some (.node l e 0 r, true)
    else if b = 0 then some (.node l e (-1) r, false)
    else if b = -1 then
      match l with
      | .nil => none
      | .node l1 e1 b1 r1 =>
        if b1 ≤ 0 then
          if b1 = 0 then some (.node l1 e1 1 (.node r1 e (-1) r), false)
          else some (.node l1 e1 0 (.node r1 e 0 r), true)
        else
          match r1 with
          | .nil => none
          | .node l2 e2 b2 r2 =>
            some (.node (.node l1 e1 (if b2 = 1 then -1 else 0) l2) e2 0
              (.node r2 e (if b2 = -1 then 1 else 0) r), true)
    else some (.node l e b r, true)

/-! ## Loops -/

/-- The way back up: while the height has changed, the node in the frame is balanced.  Has the
height of the whole tree changed in the end? -/
def climb (balance : Dir → Tree K V → Option (Tree K V × Bool)) :
    List (Frame K V) → Tree K V → Bool → Option (Tree K V × Bool)
  | [], t, state => some (t, state)
  | f :: fs, t, true =>
    match balance f.dir (f.plug t) with
    | some (t', state) => climb balance fs t' state
    | none => none
  | f :: fs, t, false => some (unwind (f :: fs) t, false)

def insertBalance : Dir → Tree K V → Option (Tree K V × Bool)
  | .left => insertLeft
  | .right => insertRight

def deleteBalance : Dir → Tree K V → Option (Tree K V × Bool)
  | .left => treeBalanceLeft
  | .right => treeBalanceRight

section Search

variable [Preorder K] [DecidableLT K]

/-- The way down to a key: the subtree with the key at its root, or none. -/
def search (key : K) : Tree K V → List (Frame K V) → Tree K V × List (Frame K V)
  | .nil, stack => (.nil, stack)
  | .node l e b r, stack =>
    if key < e.1 then search key l (⟨.left, e, b, r⟩ :: stack)
    else if e.1 < key then search key r (⟨.right, e, b, l⟩ :: stack)
    else (.node l e b r, stack)

inductive DbError
  | none
  | badKey
deriving DecidableEq

/-- The root and the number of objects. -/
structure Table (K V : Type*) where
  root : Tree K V
  nitems : ℤ

def dbPutTreeCommon (tb : Table K V) (key : K) (obj : V) (keyClashFail : Bool) :
    Option (Table K V × DbError) :=
  match search key tb.root [] with
  | (.nil, stack) =>
    (climb insertBalance stack (.node .nil (key, obj) 0 .nil) true).map fun out =>
      (⟨out.1, tb.nitems + 1⟩, .none)
  | (.node l _ b r, stack) =>
    if ¬keyClashFail then some (⟨unwind stack (.node l (key, obj) b r), tb.nitems⟩, .none)
    else some (tb, .badKey)

end Search

/-- Down to the last node on the right: its object, its left subtree and the way to it. -/
def rightmost : Tree K V → List (Frame K V) → Option ((K × V) × Tree K V × List (Frame K V))
  | .nil, _ => none
  | .node l e _ .nil, stack => some (e, l, stack)
  | .node l e b (.node rl re rb rr), stack =>
    rightmost (.node rl re rb rr) (⟨.right, e, b, l⟩ :: stack)

/-- The last node of the left subtree takes the place of a node with two children.  The first
slot of its way is the left child of the node that is put in, not of the one taken out. -/
def delsub : Tree K V → Option (Tree K V × Bool)
  | .nil => none
  | .node ql _ qb qr =>
    match rightmost ql [] with
    | none => none
    | some (e, l, stack) =>
      match climb deleteBalance stack l true with
      | none => none
      | some (ql', h) => some (.node ql' e qb qr, h)

/-- The tree without a node, given the way to it. -/
def linkoutNode (l : Tree K V) (e : K × V) (b : ℤ) (r : Tree K V) (stack : List (Frame K V)) :
    Option (Tree K V × Bool) :=
  match r, l with
  | .nil, l => climb deleteBalance stack l true
  | .node rl re rb rr, .nil => climb deleteBalance stack (.node rl re rb rr) true
  | .node rl re rb rr, .node ll le lb lr =>
    match delsub (.node (.node ll le lb lr) e b (.node rl re rb rr)) with
    | none => none
    | some (.nil, _) => none
    | some (.node l' e' b' r', state) => climb deleteBalance (⟨.left, e', b', r'⟩ :: stack) l' state

variable [Preorder K] [DecidableLT K]

/-- The table without the object, and the object if there was one. -/
def linkoutTree (tb : Table K V) (key : K) : Option (Table K V × Option (K × V)) :=
  match search key tb.root [] with
  | (.nil, _) => some (tb, none)
  | (.node l e b r, stack) =>
    (linkoutNode l e b r stack).map fun out => (⟨out.1, tb.nitems - 1⟩, some e)

/-! ## The loops as recursive functions -/

/-- One step of the way back up, from the result in the subtree. -/
def stepUp (balance : Dir → Tree K V → Option (Tree K V × Bool)) (f : Frame K V) :
    Option (Tree K V × Bool) → Option (Tree K V × Bool)
  | none => none
  | some (t, true) => balance f.dir (f.plug t)
  | some (t, false) => some (f.plug t, false)

/-- The way back up, from the result in the subtree. -/
def climbFrom (balance : Dir → Tree K V → Option (Tree K V × Bool)) (fs : List (Frame K V)) :
    Option (Tree K V × Bool) → Option (Tree K V × Bool)
  | none => none
  | some (t, state) => climb balance fs t state

omit [Preorder K] [DecidableLT K] in
theorem climb_false (balance : Dir → Tree K V → Option (Tree K V × Bool)) (fs : List (Frame K V))
    (t : Tree K V) : climb balance fs t false = some (unwind fs t, false) := by
  cases fs <;> rfl

omit [Preorder K] [DecidableLT K] in
theorem climbFrom_cons (balance : Dir → Tree K V → Option (Tree K V × Bool)) (f : Frame K V)
    (fs : List (Frame K V)) (res : Option (Tree K V × Bool)) :
    climbFrom balance (f :: fs) res = climbFrom balance fs (stepUp balance f res) := by
  match res with
  | none => rfl
  | some (t, false) =>
    show climb balance (f :: fs) t false = climb balance fs (f.plug t) false
    rw [climb_false, climb_false]
    rfl
  | some (t, true) =>
    rw [climbFrom, climb, stepUp]
    cases balance f.dir (f.plug t) <;> rfl

/-- Insertion in a subtree. -/
def insertRec (key : K) (obj : V) : Tree K V → Option (Tree K V × Bool)
  | .nil => some (.node .nil (key, obj) 0 .nil, true)
  | .node l e b r =>
    if key < e.1 then stepUp insertBalance ⟨.left, e, b, r⟩ (insertRec key obj l)
    else if e.1 < key then stepUp insertBalance ⟨.right, e, b, l⟩ (insertRec key obj r)
    else some (.node l (key, obj) b r, false)

/-- The loop of insertion, in a subtree with the given way to it. -/
def insertLoop (key : K) (obj : V) (t : Tree K V) (stack : List (Frame K V)) :
    Option (Tree K V × Bool) :=
  match search key t stack with
  | (.nil, stack) => climb insertBalance stack (.node .nil (key, obj) 0 .nil) true
  | (.node l _ b r, stack) => climb insertBalance stack (.node l (key, obj) b r) false

theorem insertLoop_eq (key : K) (obj : V) (t : Tree K V) (stack : List (Frame K V)) :
    insertLoop key obj t stack = climbFrom insertBalance stack (insertRec key obj t) := by
  induction t generalizing stack with
  | nil => rfl
  | node l e b r ihl ihr =>
    rw [insertLoop, search, insertRec]
    split_ifs
    · rw [← climbFrom_cons, ← ihl]
      rfl
    · rw [← climbFrom_cons, ← ihr]
      rfl
    · rfl

omit [Preorder K] [DecidableLT K] in
/-- The last node of a tree that is not empty, and the tree without it. -/
def deleteLast : Tree K V → Option ((K × V) × Option (Tree K V × Bool))
  | .nil => none
  | .node l e _ .nil => some (e, some (l, true))
  | .node l e b (.node rl re rb rr) =>
    match deleteLast (.node rl re rb rr) with
    | none => none
    | some (last, res) => some (last, stepUp deleteBalance ⟨.right, e, b, l⟩ res)

omit [Preorder K] [DecidableLT K] in
theorem rightmost_eq (t : Tree K V) (stack : List (Frame K V)) :
    ((rightmost t stack).map fun x => (x.1, climb deleteBalance x.2.2 x.2.1 true)) =
      (deleteLast t).map fun x => (x.1, climbFrom deleteBalance stack x.2) := by
  induction t generalizing stack with
  | nil => rfl
  | node l e b r _ ihr =>
    cases r with
    | nil => rfl
    | node rl re rb rr =>
      rw [rightmost, deleteLast, ihr]
      cases deleteLast (.node rl re rb rr) with
      | none => rfl
      | some x => exact congrArg some (Prod.ext rfl (climbFrom_cons ..))

/-- A tree without its root. -/
def deleteRoot (l : Tree K V) (b : ℤ) (r : Tree K V) : Option (Tree K V × Bool) :=
  match r, l with
  | .nil, l => some (l, true)
  | .node rl re rb rr, .nil => some (.node rl re rb rr, true)
  | .node rl re rb rr, .node ll le lb lr =>
    match deleteLast (.node ll le lb lr) with
    | none => none
    | some (last, res) => stepUp deleteBalance ⟨.left, last, b, .node rl re rb rr⟩ res

omit [Preorder K] [DecidableLT K] in
theorem linkoutNode_eq (l : Tree K V) (e : K × V) (b : ℤ) (r : Tree K V)
    (stack : List (Frame K V)) :
    linkoutNode l e b r stack = climbFrom deleteBalance stack (deleteRoot l b r) := by
  match r, l with
  | .nil, l => rfl
  | .node rl re rb rr, .nil => rfl
  | .node rl re rb rr, .node ll le lb lr =>
    have hlast := rightmost_eq (.node ll le lb lr) []
    rw [linkoutNode, delsub, deleteRoot]
    cases hright : rightmost (.node ll le lb lr) [] with
    | none =>
      rw [hright, Option.map_none, eq_comm, Option.map_eq_none_iff] at hlast
      rw [hlast]
      rfl
    | some x =>
      obtain ⟨last, l', stack'⟩ := x
      rw [hright, Option.map_some, eq_comm, Option.map_eq_some_iff] at hlast
      obtain ⟨⟨last', res⟩, heq, hres⟩ := hlast
      obtain ⟨rfl, hres⟩ := Prod.mk.inj hres
      rw [heq]
      have hres' : climb deleteBalance stack' l' true = res := by
        rw [← hres]
        cases res <;> rfl
      dsimp only
      rw [hres', ← climbFrom_cons]
      cases res <;> rfl

/-- Deletion in a subtree. -/
def deleteRec (key : K) : Tree K V → Option (Tree K V × Bool)
  | .nil => some (.nil, false)
  | .node l e b r =>
    if key < e.1 then stepUp deleteBalance ⟨.left, e, b, r⟩ (deleteRec key l)
    else if e.1 < key then stepUp deleteBalance ⟨.right, e, b, l⟩ (deleteRec key r)
    else deleteRoot l b r

/-- The loop of deletion, in a subtree with the given way to it. -/
def deleteLoop (key : K) (t : Tree K V) (stack : List (Frame K V)) : Option (Tree K V × Bool) :=
  match search key t stack with
  | (.nil, stack) => some (unwind stack .nil, false)
  | (.node l e b r, stack) => linkoutNode l e b r stack

theorem deleteLoop_eq (key : K) (t : Tree K V) (stack : List (Frame K V)) :
    deleteLoop key t stack = climbFrom deleteBalance stack (deleteRec key t) := by
  induction t generalizing stack with
  | nil => exact (climb_false deleteBalance stack .nil).symm
  | node l e b r ihl ihr =>
    rw [deleteLoop, search, deleteRec]
    split_ifs
    · rw [← climbFrom_cons, ← ihl]
      rfl
    · rw [← climbFrom_cons, ← ihr]
      rfl
    · exact linkoutNode_eq l e b r stack

end Otp.Erts.DbTree
