import Mathlib

/-!
# Erlang terms and their order

The terms of the runtime system with as much of each as its comparison looks
at (`erts_cmp_compound` in `utils.c`, not exact). Numbers compare by value
whatever their type, so that an integer and a float can be equal without being
the same term; tuples compare by size first; lists are compared cell by cell.
Terms whose inside no function here looks at are leaves with a rank: two
leaves of a kind compare as their ranks do.

The result is that the comparison is a total preorder.
-/

namespace Otp.Erts

/-- A number: an integer of any size, or a float with its value and its sign bit. -/
inductive Number where
  | int (n : ℤ)
  | float (value : ℚ) (negative : Bool)
deriving DecidableEq, Repr

/-- What a number is compared by. -/
def Number.value : Number → ℚ
  | .int n => n
  | .float q _ => q

/-- The kinds of terms that are not looked into. -/
inductive LeafKind where
  | ref
  | externalRef
  | function
  | port
  | externalPort
  | pid
  | externalPid
  | record
  | map
deriving DecidableEq, Repr

/-- A term. A leaf has, besides its rank, an identity the comparison does not see. -/
inductive Term where
  | num (n : Number)
  | atom (name : List Char)
  | leaf (kind : LeafKind) (rank id : ℕ)
  | tuple (elements : List Term)
  | nil
  | cons (head tail : Term)
  | bits (bs : List Bool)

namespace Term

/-- `make_small` of an integer. -/
def int (n : ℤ) : Term := .num (.int n)

/-! ## Comparison -/

/-- number < atom < ref < fun < port < pid < tuple < record < map < nil < cons < binary. -/
def typeRank : Term → ℕ
  | .num _ => 0
  | .atom _ => 1
  | .leaf .ref _ _ => 2
  | .leaf .externalRef _ _ => 2
  | .leaf .function _ _ => 3
  | .leaf .port _ _ => 4
  | .leaf .externalPort _ _ => 4
  | .leaf .pid _ _ => 5
  | .leaf .externalPid _ _ => 5
  | .tuple _ => 6
  | .leaf .record _ _ => 7
  | .leaf .map _ _ => 8
  | .nil => 9
  | .cons _ _ => 10
  | .bits _ => 11

mutual

/-- `CMP(a, b)`. -/
def ertsCmp : Term → Term → Ordering
  | .num m, .num n => compare m.value n.value
  | .atom s, .atom t => compare s t
  | .leaf k m i, .leaf l n j =>
    (compare (typeRank (.leaf k m i)) (typeRank (.leaf l n j))).then (compare m n)
  | .tuple as, .tuple bs => (compare as.length bs.length).then (ertsCmpElements as bs)
  | .cons a as, .cons b bs => (ertsCmp a b).then (ertsCmp as bs)
  | .bits s, .bits t => compare s t
  | a, b => compare a.typeRank b.typeRank

/-- The elements of two tuples of one size, from the left. -/
def ertsCmpElements : List Term → List Term → Ordering
  | a :: as, b :: bs => (ertsCmp a b).then (ertsCmpElements as bs)
  | _, _ => .eq

end

/-! ## Terms of one rank -/

variable {a : Term}

theorem typeRank_eq_zero (h : a.typeRank = 0) : ∃ n, a = .num n := by
  fun_cases typeRank a <;> simp_all [typeRank]

theorem typeRank_eq_one (h : a.typeRank = 1) : ∃ s, a = .atom s := by
  fun_cases typeRank a <;> simp_all [typeRank]

theorem typeRank_eq_six (h : a.typeRank = 6) : ∃ as, a = .tuple as := by
  fun_cases typeRank a <;> simp_all [typeRank]

theorem typeRank_eq_nine (h : a.typeRank = 9) : a = .nil := by
  fun_cases typeRank a <;> simp_all [typeRank]

theorem typeRank_eq_ten (h : a.typeRank = 10) : ∃ b bs, a = .cons b bs := by
  fun_cases typeRank a <;> simp_all [typeRank]

theorem typeRank_eq_eleven (h : a.typeRank = 11) : ∃ s, a = .bits s := by
  fun_cases typeRank a <;> simp_all [typeRank]

theorem typeRank_eq_leaf {k : LeafKind} {m i : ℕ} (h : a.typeRank = (Term.leaf k m i).typeRank) :
    ∃ l n j, a = .leaf l n j := by
  fun_cases typeRank a <;> cases k <;> simp_all [typeRank]

/-- Terms of different types compare as their types do. -/
theorem ertsCmp_of_typeRank_ne {b : Term} (h : a.typeRank ≠ b.typeRank) :
    ertsCmp a b = compare a.typeRank b.typeRank := by
  fun_cases ertsCmp a b with
  | case3 k m i l n j =>
    have hne : compare (typeRank (.leaf k m i)) (typeRank (.leaf l n j)) ≠ .eq := by
      simpa using h
    generalize compare (typeRank (.leaf k m i)) (typeRank (.leaf l n j)) = o at hne ⊢
    cases o <;> simp_all
  | case7 => rfl
  | _ => exact absurd rfl h

/-! ## A total preorder -/

/-- How the results of comparing `a` with `b`, `b` with `c` and `a` with `c` hang together. -/
structure Chain (ab bc ac : Ordering) : Prop where
  left : ab = .eq → ac = bc
  right : bc = .eq → ac = ab
  lt : ab = .lt → bc = .lt → ac = .lt
  gt : ab = .gt → bc = .gt → ac = .gt

theorem Chain.compare {α : Type*} [Ord α] [Std.TransOrd α] (a b c : α) :
    Chain (compare a b) (compare b c) (compare a c) where
  left := fun h => Std.TransCmp.congr_left h
  right := fun h => (Std.TransCmp.congr_right h).symm
  lt := fun h h' => Std.TransCmp.lt_trans h h'
  gt := fun h h' => Std.TransCmp.gt_trans h h'

/-- The second comparison counts only where the first finds all three equal. -/
theorem Chain.then {ab bc ac ab' bc' ac' : Ordering} (h : Chain ab bc ac)
    (h' : ab = .eq → bc = .eq → Chain ab' bc' ac') :
    Chain (ab.then ab') (bc.then bc') (ac.then ac') := by
  obtain ⟨hl, hr, hlt, hgt⟩ := h
  cases ab <;> cases bc
  case eq.eq =>
    rw [hl rfl]
    exact h' rfl rfl
  case lt.gt | gt.lt => constructor <;> simp
  all_goals
    first
    | rw [hl rfl]
    | rw [hr rfl]
    | rw [hlt rfl rfl]
    | rw [hgt rfl rfl]
    constructor <;> simp

theorem ertsCmp_then_typeRank (a b : Term) :
    ertsCmp a b = (compare a.typeRank b.typeRank).then (ertsCmp a b) := by
  by_cases h : a.typeRank = b.typeRank
  · rw [h, Std.compare_self]
    rfl
  · have hne : compare a.typeRank b.typeRank ≠ .eq := by simpa using h
    rw [ertsCmp_of_typeRank_ne h]
    generalize compare a.typeRank b.typeRank = o at hne ⊢
    cases o <;> simp_all

mutual

theorem ertsCmp_swap (a b : Term) : ertsCmp a b = (ertsCmp b a).swap := by
  by_cases h : a.typeRank = b.typeRank
  case neg =>
    rw [ertsCmp_of_typeRank_ne h, ertsCmp_of_typeRank_ne (Ne.symm h)]
    exact Std.OrientedCmp.eq_swap
  case pos =>
    cases a with
    | num m =>
      obtain ⟨n, rfl⟩ := typeRank_eq_zero h.symm
      exact Std.OrientedOrd.eq_swap
    | atom s =>
      obtain ⟨t, rfl⟩ := typeRank_eq_one h.symm
      exact Std.OrientedOrd.eq_swap
    | leaf k m i =>
      obtain ⟨l, n, j, rfl⟩ := typeRank_eq_leaf h.symm
      simp only [ertsCmp]
      rw [Ordering.swap_then, ← Std.OrientedCmp.eq_swap, ← Std.OrientedCmp.eq_swap]
    | tuple as =>
      obtain ⟨bs, rfl⟩ := typeRank_eq_six h.symm
      simp only [ertsCmp]
      rw [Ordering.swap_then, ← Std.OrientedCmp.eq_swap, ← ertsCmpElements_swap as bs]
    | nil =>
      rw [typeRank_eq_nine h.symm]
      rfl
    | cons a as =>
      obtain ⟨b, bs, rfl⟩ := typeRank_eq_ten h.symm
      simp only [ertsCmp]
      rw [Ordering.swap_then, ← ertsCmp_swap a b, ← ertsCmp_swap as bs]
    | bits s =>
      obtain ⟨t, rfl⟩ := typeRank_eq_eleven h.symm
      exact Std.OrientedOrd.eq_swap

theorem ertsCmpElements_swap (as bs : List Term) :
    ertsCmpElements as bs = (ertsCmpElements bs as).swap := by
  cases as with
  | nil => cases bs <;> rfl
  | cons a as =>
    cases bs with
    | nil => rfl
    | cons b bs =>
      simp only [ertsCmpElements]
      rw [Ordering.swap_then, ← ertsCmp_swap a b, ← ertsCmpElements_swap as bs]

end

mutual

theorem ertsCmp_chain (a b c : Term) : Chain (ertsCmp a b) (ertsCmp b c) (ertsCmp a c) := by
  rw [ertsCmp_then_typeRank a b, ertsCmp_then_typeRank b c, ertsCmp_then_typeRank a c]
  refine (Chain.compare _ _ _).then ?_
  intro hab hbc
  -- three terms of one type
  have h : b.typeRank = a.typeRank := (Std.LawfulEqOrd.eq_of_compare hab).symm
  have h' : c.typeRank = a.typeRank := by
    have : b.typeRank = c.typeRank := Std.LawfulEqOrd.eq_of_compare hbc
    omega
  cases a with
  | num m =>
    obtain ⟨n, rfl⟩ := typeRank_eq_zero h
    obtain ⟨k, rfl⟩ := typeRank_eq_zero h'
    exact Chain.compare _ _ _
  | atom s =>
    obtain ⟨t, rfl⟩ := typeRank_eq_one h
    obtain ⟨u, rfl⟩ := typeRank_eq_one h'
    exact Chain.compare _ _ _
  | leaf k m i =>
    obtain ⟨l, n, j, rfl⟩ := typeRank_eq_leaf h
    obtain ⟨l', n', j', rfl⟩ := typeRank_eq_leaf h'
    exact (Chain.compare _ _ _).then fun _ _ => Chain.compare _ _ _
  | tuple as =>
    obtain ⟨bs, rfl⟩ := typeRank_eq_six h
    obtain ⟨cs, rfl⟩ := typeRank_eq_six h'
    simp only [ertsCmp]
    refine (Chain.compare _ _ _).then ?_
    intro hl hl'
    exact ertsCmpElements_chain as bs cs (by simpa using hl) (by simpa using hl')
  | nil =>
    rw [typeRank_eq_nine h, typeRank_eq_nine h']
    exact Chain.compare _ _ _
  | cons a as =>
    obtain ⟨b, bs, rfl⟩ := typeRank_eq_ten h
    obtain ⟨c, cs, rfl⟩ := typeRank_eq_ten h'
    simp only [ertsCmp]
    exact (ertsCmp_chain a b c).then fun _ _ => ertsCmp_chain as bs cs
  | bits s =>
    obtain ⟨t, rfl⟩ := typeRank_eq_eleven h
    obtain ⟨u, rfl⟩ := typeRank_eq_eleven h'
    exact Chain.compare _ _ _

theorem ertsCmpElements_chain (as bs cs : List Term) (h : as.length = bs.length)
    (h' : bs.length = cs.length) :
    Chain (ertsCmpElements as bs) (ertsCmpElements bs cs) (ertsCmpElements as cs) := by
  match as, bs, cs, h, h' with
  | [], [], [], _, _ =>
    exact ⟨fun _ => rfl, fun _ => rfl, by simp [ertsCmpElements], by simp [ertsCmpElements]⟩
  | a :: as, b :: bs, c :: cs, h, h' =>
    simp only [ertsCmpElements]
    exact (ertsCmp_chain a b c).then fun _ _ =>
      ertsCmpElements_chain as bs cs (by simpa using h) (by simpa using h')

end

instance : Std.TransCmp ertsCmp where
  eq_swap := ertsCmp_swap _ _
  isLE_trans {a b c} hab hbc := by
    obtain ⟨hl, hr, hlt, -⟩ := ertsCmp_chain a b c
    cases h : ertsCmp a b with
    | eq => rwa [hl h]
    | gt => simp [h] at hab
    | lt =>
      cases h' : ertsCmp b c with
      | eq => rw [hr h', h]; rfl
      | gt => simp [h'] at hbc
      | lt => rw [hlt h h']; rfl

end Term

end Otp.Erts
