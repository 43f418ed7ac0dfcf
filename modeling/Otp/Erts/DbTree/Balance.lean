import Otp.Erts.DbTree.Avl

/-!
# The trees of ordered sets stay AVL trees

One lemma for each balancing function says what it does with a node whose one subtree has
become higher (`Grows`) or lower (`Shrinks`) by one: the balance fields are right again, the
objects stay in order, and the answer says whether the height of the tree has changed.  The
recursive forms of insertion and deletion follow by induction on the tree, and what holds
after any sequence of operations by induction on the sequence.
-/

namespace Otp.Erts.DbTree

open Lib.SortedAssoc

variable {K V : Type*} {t l r : Tree K V} {h : ℕ} {grew shrunk : Bool} {e : K × V} {b : ℤ}
  {f : Frame K V}

namespace Tree

def height : Tree K V → ℕ
  | nil => 0
  | node l _ _ r => max l.height r.height + 1

/-- The objects in order. -/
def toList : Tree K V → List (K × V)
  | nil => []
  | node l e _ r => l.toList ++ e :: r.toList

/-- Every balance field is the height on the right minus the height on the left, and no
subtree is higher than the other by more than one. -/
def Avl : Tree K V → Prop
  | nil => True
  | node l _ b r => l.Avl ∧ r.Avl ∧ b = r.height - l.height ∧ -1 ≤ b ∧ b ≤ 1

/-- The tree seen from the other side. -/
def mirror : Tree K V → Tree K V
  | nil => nil
  | node l e b r => node r.mirror e (-b) l.mirror

/-- The balance field of the root. -/
def tilt : Tree K V → ℤ
  | nil => 0
  | node _ _ b _ => b

/-! ### The tree seen from the other side -/

theorem mirror_mirror (t : Tree K V) : t.mirror.mirror = t := by
  induction t with
  | nil => rfl
  | node l e b r ihl ihr => rw [mirror, mirror, ihl, ihr, neg_neg]

theorem height_mirror (t : Tree K V) : t.mirror.height = t.height := by
  induction t with
  | nil => rfl
  | node l e b r ihl ihr => rw [mirror, height, ihl, ihr, max_comm, height]

theorem toList_mirror (t : Tree K V) : t.mirror.toList = t.toList.reverse := by
  induction t with
  | nil => rfl
  | node l e b r ihl ihr =>
    rw [mirror, toList, ihl, ihr, toList, List.reverse_append, List.reverse_cons,
      List.append_assoc, List.singleton_append]

theorem tilt_mirror (t : Tree K V) : t.mirror.tilt = -t.tilt := by
  cases t <;> rfl

theorem Avl.mirror {t : Tree K V} (ht : t.Avl) : t.mirror.Avl := by
  induction t with
  | nil => trivial
  | node l e b r ihl ihr =>
    obtain ⟨hl, hr, hb, hlow, hhigh⟩ := ht
    refine ⟨ihr hr, ihl hl, ?_⟩
    rw [height_mirror, height_mirror]
    omega

end Tree

/-- The answer of a balancing function, seen from the other side. -/
def mirrorResult (res : Option (Tree K V × Bool)) : Option (Tree K V × Bool) :=
  res.map fun x => (x.1.mirror, x.2)

theorem insertRight_mirror (t : Tree K V) : insertRight t.mirror = mirrorResult (insertLeft t) := by
  match t with
  | .nil => rfl
  | .node .nil e b r | .node (.node l1 e1 b1 .nil) e b r
  | .node (.node l1 e1 b1 (.node l2 e2 b2 r2)) e b r =>
    simp only [insertRight, insertLeft, mirrorResult, Tree.mirror, neg_eq_iff_eq_neg]
    split_ifs <;> simp_all [Tree.mirror]

theorem treeBalanceRight_mirror (t : Tree K V) :
    treeBalanceRight t.mirror = mirrorResult (treeBalanceLeft t) := by
  match t with
  | .nil => rfl
  | .node l e b .nil =>
    simp only [treeBalanceRight, treeBalanceLeft, mirrorResult, Tree.mirror, neg_eq_iff_eq_neg]
    split_ifs <;> simp_all [Tree.mirror]
  | .node l e b (.node .nil e1 b1 r1) | .node l e b (.node (.node l2 e2 b2 r2) e1 b1 r1) =>
    simp only [treeBalanceRight, treeBalanceLeft, mirrorResult, Tree.mirror,
      neg_eq_iff_eq_neg, neg_nonpos]
    split_ifs <;> simp_all [Tree.mirror]

/-- What has become of a tree of height `h` after an insertion.  A tree that has grown has a
higher side, unless it was empty: this is why a single or a double rotation is enough. -/
structure Grows (h : ℕ) (t : Tree K V) (grew : Bool) : Prop where
  avl : t.Avl
  height : t.height = h + grew.toNat
  tilted : grew → h = 0 ∨ t.tilt ≠ 0

/-- What has become of a tree of height `h` after a deletion. -/
structure Shrinks (h : ℕ) (t : Tree K V) (shrunk : Bool) : Prop where
  avl : t.Avl
  height : t.height + shrunk.toNat = h

theorem Grows.mirror (ht : Grows h t grew) :
    Grows h t.mirror grew where
  avl := ht.avl.mirror
  height := by rw [Tree.height_mirror, ht.height]
  tilted := fun hgrew => by rw [Tree.tilt_mirror, neg_ne_zero]; exact ht.tilted hgrew

theorem Shrinks.mirror (ht : Shrinks h t shrunk) :
    Shrinks h t.mirror shrunk where
  avl := ht.avl.mirror
  height := by rw [Tree.height_mirror, ht.height]

/-! ## Balancing -/

theorem insertLeft_spec (hl : Grows h l true) (hr : r.Avl) (hb : b = r.height - h) (hlow : -1 ≤ b)
    (hhigh : b ≤ 1) :
    ∃ t grew, insertLeft (.node l e b r) = some (t, grew) ∧
      t.toList = (Tree.node l e b r).toList ∧ Grows (max h r.height + 1) t grew := by
  obtain ⟨havl, hheight, htilt⟩ := hl
  simp only [Bool.toNat_true] at hheight
  obtain rfl | rfl | rfl : b = 1 ∨ b = 0 ∨ b = -1 := by omega
  · refine ⟨_, _, rfl, rfl, ⟨⟨havl, hr, ?_⟩, ?_, nofun⟩⟩
    · omega
    · simp only [Tree.height, Bool.toNat_false]
      omega
  · refine ⟨_, _, rfl, rfl, ⟨⟨havl, hr, ?_⟩, ?_, fun _ => .inr (by simp [Tree.tilt])⟩⟩
    · omega
    · simp only [Tree.height, Bool.toNat_true]
      omega
  -- the left side was higher before: a rotation
  match l with
  | .nil => cases hheight
  | .node l1 e1 b1 r1 =>
    obtain ⟨hl1, hr1, hb1, hlow1, hhigh1⟩ := havl
    have htilt1 : h = 0 ∨ b1 ≠ 0 := htilt rfl
    simp only [Tree.height] at hheight
    obtain rfl | rfl : b1 = -1 ∨ b1 = 1 := by omega
    · refine ⟨_, _, rfl, by simp [Tree.toList], ⟨⟨hl1, ⟨hr1, hr, ?_⟩, ?_⟩, ?_, nofun⟩⟩
      · omega
      · simp only [Tree.height]
        omega
      · simp only [Tree.height, Bool.toNat_false]
        omega
    match r1 with
    | .nil => exact absurd hb1 (by simp only [Tree.height]; omega)
    | .node l2 e2 b2 r2 =>
      obtain ⟨hl2, hr2, hb2, hlow2, hhigh2⟩ := hr1
      simp only [Tree.height] at hb1 hheight
      refine ⟨_, _, rfl, by simp [Tree.toList], ⟨⟨⟨hl1, hl2, ?_⟩, ⟨hr2, hr, ?_⟩, ?_⟩, ?_, nofun⟩⟩
      · split_ifs <;> omega
      · split_ifs <;> omega
      · simp only [Tree.height]
        omega
      · simp only [Tree.height, Bool.toNat_false]
        omega

theorem insertRight_spec (hr : Grows h r true) (hl : l.Avl) (hb : b = h - l.height) (hlow : -1 ≤ b)
    (hhigh : b ≤ 1) :
    ∃ t grew, insertRight (.node l e b r) = some (t, grew) ∧
      t.toList = (Tree.node l e b r).toList ∧ Grows (max h l.height + 1) t grew := by
  have hb' : -b = l.mirror.height - h := by rw [Tree.height_mirror]; omega
  obtain ⟨t, grew, hres, hlist, hgrows⟩ :=
    insertLeft_spec (e := e) hr.mirror hl.mirror hb' (by omega) (by omega)
  rw [Tree.height_mirror] at hgrows
  refine ⟨t.mirror, grew, ?_, ?_, hgrows.mirror⟩
  · rw [← Tree.mirror_mirror (.node l e b r), insertRight_mirror, Tree.mirror, hres]
    rfl
  · rw [Tree.toList_mirror, hlist, ← Tree.toList_mirror, Tree.mirror, neg_neg,
      Tree.mirror_mirror, Tree.mirror_mirror]

theorem treeBalanceLeft_spec (hl : Shrinks h l true) (hr : r.Avl) (hb : b = r.height - h)
    (hlow : -1 ≤ b) (hhigh : b ≤ 1) :
    ∃ t shrunk, treeBalanceLeft (.node l e b r) = some (t, shrunk) ∧
      t.toList = (Tree.node l e b r).toList ∧ Shrinks (max h r.height + 1) t shrunk := by
  obtain ⟨havl, hheight⟩ := hl
  simp only [Bool.toNat_true] at hheight
  obtain rfl | rfl | rfl : b = -1 ∨ b = 0 ∨ b = 1 := by omega
  · refine ⟨_, _, rfl, rfl, ⟨⟨havl, hr, ?_⟩, ?_⟩⟩
    · omega
    · simp only [Tree.height, Bool.toNat_true]
      omega
  · refine ⟨_, _, rfl, rfl, ⟨⟨havl, hr, ?_⟩, ?_⟩⟩
    · omega
    · simp only [Tree.height, Bool.toNat_false]
      omega
  -- the right side was higher before: a rotation
  match r with
  | .nil => simp only [Tree.height] at hb; omega
  | .node l1 e1 b1 r1 =>
    obtain ⟨hl1, hr1, hb1, hlow1, hhigh1⟩ := hr
    simp only [Tree.height] at hb
    obtain rfl | rfl | rfl : b1 = 0 ∨ b1 = 1 ∨ b1 = -1 := by omega
    · refine ⟨_, _, rfl, by simp [Tree.toList], ⟨⟨⟨havl, hl1, ?_⟩, hr1, ?_⟩, ?_⟩⟩
      · omega
      · simp only [Tree.height]
        omega
      · simp only [Tree.height, Bool.toNat_false]
        omega
    · refine ⟨_, _, rfl, by simp [Tree.toList], ⟨⟨⟨havl, hl1, ?_⟩, hr1, ?_⟩, ?_⟩⟩
      · omega
      · simp only [Tree.height]
        omega
      · simp only [Tree.height, Bool.toNat_true]
        omega
    match l1 with
    | .nil => simp only [Tree.height] at hb1; omega
    | .node l2 e2 b2 r2 =>
      obtain ⟨hl2, hr2, hb2, hlow2, hhigh2⟩ := hl1
      simp only [Tree.height] at hb1 hb
      refine ⟨_, _, rfl, by simp [Tree.toList], ⟨⟨⟨havl, hl2, ?_⟩, ⟨hr2, hr1, ?_⟩, ?_⟩, ?_⟩⟩
      · split_ifs <;> omega
      · split_ifs <;> omega
      · simp only [Tree.height]
        omega
      · simp only [Tree.height, Bool.toNat_true]
        omega

theorem treeBalanceRight_spec (hr : Shrinks h r true) (hl : l.Avl) (hb : b = h - l.height)
    (hlow : -1 ≤ b) (hhigh : b ≤ 1) :
    ∃ t shrunk, treeBalanceRight (.node l e b r) = some (t, shrunk) ∧
      t.toList = (Tree.node l e b r).toList ∧ Shrinks (max h l.height + 1) t shrunk := by
  have hb' : -b = l.mirror.height - h := by rw [Tree.height_mirror]; omega
  obtain ⟨t, shrunk, hres, hlist, hshrinks⟩ :=
    treeBalanceLeft_spec (e := e) hr.mirror hl.mirror hb' (by omega) (by omega)
  rw [Tree.height_mirror] at hshrinks
  refine ⟨t.mirror, shrunk, ?_, ?_, hshrinks.mirror⟩
  · rw [← Tree.mirror_mirror (.node l e b r), treeBalanceRight_mirror, Tree.mirror, hres]
    rfl
  · rw [Tree.toList_mirror, hlist, ← Tree.toList_mirror, Tree.mirror, neg_neg,
      Tree.mirror_mirror, Tree.mirror_mirror]

/-! ## One step of the way back up -/

/-- The node of a frame is balanced with a child of height `h` in its open place. -/
structure Frame.Fits (f : Frame K V) (h : ℕ) : Prop where
  other : f.other.Avl
  balance : f.balance = match f.dir with
    | .left => (f.other.height : ℤ) - h
    | .right => (h : ℤ) - f.other.height
  low : -1 ≤ f.balance
  high : f.balance ≤ 1

theorem Tree.Avl.left (ht : (Tree.node l e b r).Avl) : Frame.Fits ⟨.left, e, b, r⟩ l.height :=
  ⟨ht.2.1, ht.2.2.1, ht.2.2.2.1, ht.2.2.2.2⟩

theorem Tree.Avl.right (ht : (Tree.node l e b r).Avl) : Frame.Fits ⟨.right, e, b, l⟩ r.height :=
  ⟨ht.1, ht.2.2.1, ht.2.2.2.1, ht.2.2.2.2⟩

theorem Frame.Fits.avl_plug (hf : f.Fits t.height) (ht : t.Avl) : (f.plug t).Avl := by
  obtain ⟨dir, e, b, other⟩ := f
  cases dir with
  | left => exact ⟨ht, hf.other, hf.balance, hf.low, hf.high⟩
  | right => exact ⟨hf.other, ht, hf.balance, hf.low, hf.high⟩

theorem Frame.height_plug (f : Frame K V) (t : Tree K V) :
    (f.plug t).height = max t.height f.other.height + 1 := by
  obtain ⟨dir, e, b, other⟩ := f
  cases dir with
  | left => rfl
  | right => exact congrArg (· + 1) (max_comm _ _)

theorem stepUp_insert (hf : f.Fits h) (ht : Grows h t grew) :
    ∃ t' grew', stepUp insertBalance f (some (t, grew)) = some (t', grew') ∧
      t'.toList = (f.plug t).toList ∧ Grows (max h f.other.height + 1) t' grew' := by
  cases grew with
  | false =>
    have hheight : t.height = h := ht.height
    subst hheight
    exact ⟨_, _, rfl, rfl, ⟨hf.avl_plug ht.avl, f.height_plug t, nofun⟩⟩
  | true =>
    obtain ⟨dir, e, b, other⟩ := f
    cases dir with
    | left => exact insertLeft_spec ht hf.other hf.balance hf.low hf.high
    | right => exact insertRight_spec ht hf.other hf.balance hf.low hf.high

theorem stepUp_delete (hf : f.Fits h) (ht : Shrinks h t shrunk) :
    ∃ t' shrunk', stepUp deleteBalance f (some (t, shrunk)) = some (t', shrunk') ∧
      t'.toList = (f.plug t).toList ∧ Shrinks (max h f.other.height + 1) t' shrunk' := by
  cases shrunk with
  | false =>
    have hheight : t.height = h := ht.height
    subst hheight
    exact ⟨_, _, rfl, rfl, ⟨hf.avl_plug ht.avl, f.height_plug t⟩⟩
  | true =>
    obtain ⟨dir, e, b, other⟩ := f
    cases dir with
    | left => exact treeBalanceLeft_spec ht hf.other hf.balance hf.low hf.high
    | right => exact treeBalanceRight_spec ht hf.other hf.balance hf.low hf.high

end Otp.Erts.DbTree
