import Otp.Lib.Ordset

/-!
# Orders with partial meets and joins

An order on the elements of a type that satisfy a predicate, with functions that
return the greatest lower or the least upper bound of two elements where a bound
exists. Lattices without a bottom or a top, such as flat orders and maps ordered
by what they know, are of this kind; adding the missing element gives a lattice.
-/

namespace Otp.Lib

variable {α β κ : Type*}

/-- `le` is a partial order on the elements that satisfy `P`. -/
structure OrderOn (P : α → Prop) (le : α → α → Prop) : Prop where
  refl : ∀ {x}, P x → le x x
  trans : ∀ {x y z}, P x → P y → P z → le x y → le y z → le x z
  antisymm : ∀ {x y}, P x → P y → le x y → le y x → x = y

/-- `f` returns the greatest lower bound of two elements that have a lower
bound. With `flip le` for `le`, the least upper bound. -/
structure BoundOn (P : α → Prop) (le : α → α → Prop) (f : α → α → Option α) : Prop where
  bound : ∀ {x y m}, P x → P y → f x y = some m → P m ∧ le m x ∧ le m y
  greatest : ∀ {x y z}, P x → P y → P z → le z x → le z y → ∃ m, f x y = some m ∧ le z m

/-- `m` is the greatest lower bound of `x` and `y`. -/
structure IsMeet (P : α → Prop) (le : α → α → Prop) (x y m : α) : Prop where
  mem : P m
  left : le m x
  right : le m y
  greatest : ∀ {z}, P z → le z x → le z y → le z m

/-- An order with partial meets `f` and partial joins `g`. -/
structure PartialLattice (P : α → Prop) (le : α → α → Prop) (f g : α → α → Option α) : Prop where
  order : OrderOn P le
  meet : BoundOn P le f
  join : BoundOn P (flip le) g

/-- An order with meets and joins of any two elements. -/
abbrev LatticeOn (P : α → Prop) (le : α → α → Prop) (inf sup : α → α → α) : Prop :=
  PartialLattice P le (fun x y => some (inf x y)) (fun x y => some (sup x y))

section Bounds

variable {P : α → Prop} {le : α → α → Prop} {f g : α → α → Option α} {x y z m : α} {Q : β → Prop}
  {e : β → α}

theorem OrderOn.dual (h : OrderOn P le) : OrderOn P (flip le) where
  refl hx := h.refl hx
  trans hx hy hz hxy hyz := h.trans hz hy hx hyz hxy
  antisymm hx hy hxy hyx := h.antisymm hx hy hyx hxy

/-- A total function returns bounds of any two elements. -/
theorem BoundOn.greatest_some {g : α → α → α} (hg : BoundOn P le fun x y => some (g x y)) (hx : P x)
    (hy : P y) (hz : P z) (hzx : le z x) (hzy : le z y) : le z (g x y) := by
  obtain ⟨m, hm, hle⟩ := hg.greatest hx hy hz hzx hzy
  exact Option.some.inj hm ▸ hle

theorem IsMeet.symm (h : IsMeet P le x y m) : IsMeet P le y x m :=
  ⟨h.mem, h.right, h.left, fun hz hzy hzx => h.greatest hz hzx hzy⟩

theorem BoundOn.of_isMeet {g : α → α → α} (h : ∀ {x y}, P x → P y → IsMeet P le x y (g x y)) :
    BoundOn P le fun x y => some (g x y) where
  bound {x y m} hx hy hm := by
    cases hm
    exact ⟨(h hx hy).mem, (h hx hy).left, (h hx hy).right⟩
  greatest hx hy hz hzx hzy := ⟨_, rfl, (h hx hy).greatest hz hzx hzy⟩

section

variable (h : OrderOn P le)

include h

/-- Bounds are unique. -/
theorem BoundOn.eq_of_le (hf : BoundOn P le f) (hx : P x) (hy : P y)
    (hm : f x y = some m) (hz : P z) (hzx : le z x) (hzy : le z y)
    (hmz : ∀ w, P w → le w x → le w y → le w z) : m = z := by
  obtain ⟨hP, hmx, hmy⟩ := hf.bound hx hy hm
  obtain ⟨m', hm', hzm⟩ := hf.greatest hx hy hz hzx hzy
  obtain rfl := Option.some.inj (hm.symm.trans hm')
  exact h.antisymm hP hz (hmz m hP hmx hmy) hzm

theorem BoundOn.comm (hf : BoundOn P le f) (hx : P x) (hy : P y) :
    f x y = f y x := by
  have hsub : ∀ {x y m : α}, P x → P y → f x y = some m → f y x = some m := by
    intro x y m hx hy hm
    obtain ⟨hP, hmx, hmy⟩ := hf.bound hx hy hm
    obtain ⟨m', hm', hle⟩ := hf.greatest hy hx hP hmy hmx
    obtain ⟨hP', hmy', hmx'⟩ := hf.bound hy hx hm'
    rw [hf.eq_of_le h hx hy hm hP' hmx' hmy' fun w hw hwx hwy => ?_]
    · exact hm'
    · obtain ⟨m'', hm'', hwm⟩ := hf.greatest hy hx hw hwy hwx
      obtain rfl := Option.some.inj (hm'.symm.trans hm'')
      exact hwm
  cases hm : f x y with
  | some m => exact (hsub hx hy hm).symm
  | none =>
    cases hm' : f y x with
    | none => rfl
    | some m => exact absurd (hsub hy hx hm') (by simp [hm])

/-- Functions that return one element on equal arguments need a look at
different ones only. -/
theorem BoundOn.of_ite [DecidableEq α] (hf : ∀ x y, f x y = if x = y then some x else g x y)
    (hbound : ∀ {x y m}, x ≠ y → P x → P y → g x y = some m → P m ∧ le m x ∧ le m y)
    (hgreatest : ∀ {x y z}, x ≠ y → P x → P y → P z → le z x → le z y →
      ∃ m, g x y = some m ∧ le z m) : BoundOn P le f where
  bound {x y m} hx hy hm := by
    rw [hf] at hm
    split_ifs at hm with hxy
    · cases hm
      exact ⟨hx, h.refl hx, hxy ▸ h.refl hx⟩
    · exact hbound hxy hx hy hm
  greatest {x y z} hx hy hz hzx hzy := by
    rw [hf]
    split_ifs with hxy
    · exact ⟨x, rfl, hzx⟩
    · exact hgreatest hxy hx hy hz hzx hzy

theorem BoundOn.of_ite_some [DecidableEq α] {j k : α → α → α}
    (hj : ∀ x y, j x y = if x = y then x else k x y)
    (hbound : ∀ {x y}, x ≠ y → P x → P y → P (k x y) ∧ le (k x y) x ∧ le (k x y) y)
    (hgreatest : ∀ {x y z}, x ≠ y → P x → P y → P z → le z x → le z y → le z (k x y)) :
    BoundOn P le fun x y => some (j x y) :=
  .of_ite (g := fun x y => some (k x y)) h (fun x y => by rw [hj, apply_ite some])
    (fun hxy hx hy hm => Option.some.inj hm ▸ hbound hxy hx hy)
    fun hxy hx hy hz hzx hzy => ⟨_, rfl, hgreatest hxy hx hy hz hzx hzy⟩

/-- An order carried back along an injective function. -/
theorem OrderOn.comap (hQ : ∀ {c}, Q c → P (e c))
    (hinj : ∀ {c d}, Q c → Q d → e c = e d → c = d) : OrderOn Q fun c d => le (e c) (e d) where
  refl hc := h.refl (hQ hc)
  trans hc hd he := h.trans (hQ hc) (hQ hd) (hQ he)
  antisymm hc hd hcd hdc := hinj hc hd (h.antisymm (hQ hc) (hQ hd) hcd hdc)

end

theorem IsMeet.comap {a b m : β} (h : IsMeet P le (e a) (e b) (e m)) (hQ : ∀ {c}, Q c → P (e c))
    (hm : Q m) : IsMeet Q (fun c d => le (e c) (e d)) a b m :=
  ⟨hm, h.left, h.right, fun hz => h.greatest (hQ hz)⟩

end Bounds

/-! ## Lattices -/

section Lattice

variable {P : α → Prop} {le : α → α → Prop} {inf sup : α → α → α}

/-- The elements that satisfy `P`, as a lattice. -/
abbrev LatticeOn.toLattice (h : LatticeOn P le inf sup) : Lattice {x // P x} where
  le x y := le x.1 y.1
  le_refl x := h.order.refl x.2
  le_trans x y z := h.order.trans x.2 y.2 z.2
  le_antisymm x y hxy hyx := Subtype.ext (h.order.antisymm x.2 y.2 hxy hyx)
  inf x y := ⟨inf x.1 y.1, (h.meet.bound x.2 y.2 rfl).1⟩
  inf_le_left x y := (h.meet.bound x.2 y.2 rfl).2.1
  inf_le_right x y := (h.meet.bound x.2 y.2 rfl).2.2
  le_inf x y z hxy hxz := h.meet.greatest_some y.2 z.2 x.2 hxy hxz
  sup x y := ⟨sup x.1 y.1, (h.join.bound x.2 y.2 rfl).1⟩
  le_sup_left x y := (h.join.bound x.2 y.2 rfl).2.1
  le_sup_right x y := (h.join.bound x.2 y.2 rfl).2.2
  sup_le x y z hxz hyz := h.join.greatest_some x.2 y.2 z.2 hxz hyz

variable {Q : β → Prop} {le' : β → β → Prop} {inf' sup' : β → β → β} {e : β → α}

theorem BoundOn.prod (h : BoundOn P le fun x y => some (inf x y))
    (h' : BoundOn Q le' fun x y => some (inf' x y)) :
    BoundOn (fun p : α × β => P p.1 ∧ Q p.2) (fun p q => le p.1 q.1 ∧ le' p.2 q.2)
      fun p q => some (inf p.1 q.1, inf' p.2 q.2) := by
  refine .of_isMeet fun hx hy => ?_
  obtain ⟨hP, hl, hr⟩ := h.bound hx.1 hy.1 rfl
  obtain ⟨hQ, hl', hr'⟩ := h'.bound hx.2 hy.2 rfl
  exact ⟨⟨hP, hQ⟩, ⟨hl, hl'⟩, ⟨hr, hr'⟩, fun hz hzx hzy =>
    ⟨h.greatest_some hx.1 hy.1 hz.1 hzx.1 hzy.1, h'.greatest_some hx.2 hy.2 hz.2 hzx.2 hzy.2⟩⟩

/-- Pairs of elements of two lattices. -/
theorem PartialLattice.prod (h : LatticeOn P le inf sup) (h' : LatticeOn Q le' inf' sup') :
    LatticeOn (fun p : α × β => P p.1 ∧ Q p.2) (fun p q => le p.1 q.1 ∧ le' p.2 q.2)
      (fun p q => (inf p.1 q.1, inf' p.2 q.2)) fun p q => (sup p.1 q.1, sup' p.2 q.2) where
  order.refl hx := ⟨h.order.refl hx.1, h'.order.refl hx.2⟩
  order.trans hx hy hz hxy hyz := ⟨h.order.trans hx.1 hy.1 hz.1 hxy.1 hyz.1,
    h'.order.trans hx.2 hy.2 hz.2 hxy.2 hyz.2⟩
  order.antisymm hx hy hxy hyx := Prod.ext (h.order.antisymm hx.1 hy.1 hxy.1 hyx.1)
    (h'.order.antisymm hx.2 hy.2 hxy.2 hyx.2)
  meet := h.meet.prod h'.meet
  join := h.join.prod h'.join

theorem BoundOn.comap (h : BoundOn P le fun x y => some (inf x y))
    (hinf : ∀ x y, e (inf' x y) = inf (e x) (e y)) :
    BoundOn (fun x => P (e x)) (fun x y => le (e x) (e y)) fun x y => some (inf' x y) where
  bound hx hy hm := by
    rw [← Option.some.inj hm, hinf]
    exact h.bound hx hy rfl
  greatest {x y z} hx hy hz hzx hzy := ⟨_, rfl, hinf x y ▸ h.greatest_some hx hy hz hzx hzy⟩

/-- A lattice carried back along an injective function. -/
theorem PartialLattice.comap (h : LatticeOn P le inf sup) (hinj : Function.Injective e)
    (hinf : ∀ x y, e (inf' x y) = inf (e x) (e y)) (hsup : ∀ x y, e (sup' x y) = sup (e x) (e y)) :
    LatticeOn (fun x => P (e x)) (fun x y => le (e x) (e y)) inf' sup' :=
  ⟨h.order.comap id fun _ _ heq => hinj heq, h.meet.comap hinf, h.join.comap hsup⟩

end Lattice

/-! ## Known and unknown values -/

section Flat

/-- An unknown value is above every known one. -/
def FlatLe (x y : Option α) : Prop := y = none ∨ x = y

variable {x : Option α}

theorem flatLe_some {b : α} : FlatLe x (some b) ↔ x = some b := by
  simp [FlatLe]

/-- Only the unknown value is above two different ones. -/
theorem FlatLe.eq_none {y z : Option α} (hx : FlatLe x z) (hy : FlatLe y z) (hne : x ≠ y) :
    z = none := by
  rcases hx with hz | rfl
  · exact hz
  · exact hy.resolve_right fun h => hne h.symm

theorem orderOn_flat : OrderOn (fun _ : Option α => True) FlatLe where
  refl _ := .inr rfl
  trans _ _ _ hxy hyz := by
    rcases hyz with rfl | rfl
    · exact .inl rfl
    · exact hxy
  antisymm _ _ hxy hyx := by
    rcases hxy with rfl | rfl
    · rcases hyx with rfl | rfl <;> rfl
    · rfl

end Flat

/-! ## A bottom below everything -/

section Bottom

/-- `none` is below every element. -/
def BotLe (le : α → α → Prop) : Option α → Option α → Prop
  | none, _ => True
  | some x, some y => le x y
  | some _, none => False

theorem BotLe.imp {le le' : α → α → Prop} {x y : Option α} (h : BotLe le x y)
    (hle : ∀ a ∈ x, ∀ b ∈ y, le a b → le' a b) : BotLe le' x y := by
  match x, y with
  | none, _ => trivial
  | some a, some b => exact hle a rfl b rfl h

/-- With a bottom for the missing meets, joins being total, there is a lattice. -/
theorem PartialLattice.withBot {P : α → Prop} {le : α → α → Prop} {f : α → α → Option α}
    {g : α → α → α} (h : PartialLattice P le f fun x y => some (g x y))
    {inf sup : Option α → Option α → Option α} (hinf : ∀ x y, inf (some x) (some y) = f x y)
    (hinf₁ : ∀ y, inf none y = none) (hinf₂ : ∀ x, inf x none = none)
    (hsup : ∀ x y, sup (some x) (some y) = some (g x y)) (hsup₁ : ∀ y, sup none y = y)
    (hsup₂ : ∀ x, sup x none = x) : LatticeOn (fun o => ∀ x ∈ o, P x) (BotLe le) inf sup := by
  have hsome : ∀ {x : α}, P x → ∀ y ∈ some x, P y := fun hx y hy => Option.some.inj hy ▸ hx
  have hrefl : ∀ {x : Option α}, (∀ a ∈ x, P a) → BotLe le x x := by
    intro x hx
    cases x with
    | none => trivial
    | some a => exact h.order.refl (hx a rfl)
  refine ⟨⟨hrefl, ?_, ?_⟩, ⟨?_, ?_⟩, ⟨?_, ?_⟩⟩
  · intro x y z hx hy hz hxy hyz
    match x, y, z with
    | none, _, _ => trivial
    | some x, some y, some z => exact h.order.trans (hx x rfl) (hy y rfl) (hz z rfl) hxy hyz
  · intro x y hx hy hxy hyx
    match x, y with
    | none, none => rfl
    | some x, some y => exact congrArg some (h.order.antisymm (hx x rfl) (hy y rfl) hxy hyx)
  · intro x y m hx hy hm
    cases hm
    match x, y with
    | none, _ =>
      rw [hinf₁]
      exact ⟨by simp, trivial, trivial⟩
    | some x, none =>
      rw [hinf₂]
      exact ⟨by simp, trivial, trivial⟩
    | some x, some y =>
      rw [hinf]
      cases hf : f x y with
      | none => exact ⟨by simp, trivial, trivial⟩
      | some m =>
        obtain ⟨hP, hmx, hmy⟩ := h.meet.bound (hx x rfl) (hy y rfl) hf
        exact ⟨hsome hP, hmx, hmy⟩
  · intro x y z hx hy hz hzx hzy
    refine ⟨_, rfl, ?_⟩
    match z, x, y with
    | none, _, _ => trivial
    | some z, some x, some y =>
      obtain ⟨m, hm, hle⟩ := h.meet.greatest (hx x rfl) (hy y rfl) (hz z rfl) hzx hzy
      rw [hinf, hm]
      exact hle
  · intro x y m hx hy hm
    cases hm
    match x, y with
    | none, y =>
      rw [hsup₁]
      exact ⟨hy, trivial, hrefl hy⟩
    | some x, none =>
      rw [hsup₂]
      exact ⟨hx, hrefl hx, trivial⟩
    | some x, some y =>
      rw [hsup]
      obtain ⟨hP, hxm, hym⟩ := h.join.bound (hx x rfl) (hy y rfl) rfl
      exact ⟨hsome hP, hxm, hym⟩
  · intro x y z hx hy hz hzx hzy
    refine ⟨_, rfl, ?_⟩
    match x, y, z with
    | none, y, z =>
      rw [hsup₁]
      exact hzy
    | some x, none, z =>
      rw [hsup₂]
      exact hzx
    | some x, some y, some z =>
      rw [hsup]
      exact h.join.greatest_some (hx x rfl) (hy y rfl) (hz z rfl) hzx hzy

end Bottom

/-! ## Maps -/

section Maps

open Otp.Lib.Ordset

variable [LinearOrder κ]

/-- A map with all the keys of another, and smaller values. -/
def MapLe (le : β → β → Prop) (m n : List (κ × β)) : Prop :=
  ∀ k y, (k, y) ∈ n → ∃ x, (k, x) ∈ m ∧ le x y

/-- A map whose entries satisfy `P`. -/
def MapOn (P : κ → β → Prop) (m : List (κ × β)) : Prop := IsMap m ∧ ∀ p ∈ m, P p.1 p.2

variable {P : κ → β → Prop} {le : β → β → Prop} {f : β → β → Option β} {g : κ → β → β → Option β}
  {m n r : List (κ × β)}

theorem orderOn_map (h : ∀ k, OrderOn (P k) le) : OrderOn (MapOn P) (MapLe le) where
  refl hm k y hy := ⟨y, hy, (h k).refl (hm.2 _ hy)⟩
  trans hx hy hz hxy hyz k c hc := by
    obtain ⟨b, hb, hbc⟩ := hyz k c hc
    obtain ⟨a, ha, hab⟩ := hxy k b hb
    exact ⟨a, ha, (h k).trans (hx.2 _ ha) (hy.2 _ hb) (hz.2 _ hc) hab hbc⟩
  antisymm := by
    have hsub : ∀ {m n : List (κ × β)}, MapOn P m → MapOn P n → MapLe le m n → MapLe le n m →
        ∀ p ∈ m, p ∈ n := by
      rintro m n hm hn hmn hnm ⟨k, x⟩ hx
      obtain ⟨y, hy, hyx⟩ := hnm k x hx
      obtain ⟨x', hx', hxy⟩ := hmn k y hy
      obtain rfl := hm.1.unique hx hx'
      obtain rfl : x = y := (h k).antisymm (hm.2 _ hx) (hn.2 _ hy) hxy hyx
      exact hy
    intro m n hm hn hmn hnm
    exact hm.1.ext hn.1 fun p => ⟨hsub hm hn hmn hnm p, hsub hn hm hnm hmn p⟩

/-- A merge of two maps is below both if merged values are below both values. -/
theorem mergeWith_below (hr : mergeWith f m n = some r) (hm : MapOn P m) (hn : MapOn P n)
    (hrefl : ∀ {k x}, P k x → le x x)
    (hf : ∀ {k x y u}, P k x → P k y → f x y = some u → le u x ∧ le u y) :
    MapLe le r m ∧ MapLe le r n := by
  obtain ⟨hmap, hval⟩ := mergeWith_eq_some hr
  have hval : ∀ {k u}, mergeValues f (m.lookup k) (n.lookup k) = some u → (k, u) ∈ r := fun hu =>
    (lookup_eq_some hmap).mp ((hval _).trans hu)
  have hboth : ∀ {k x y}, (k, x) ∈ m → (k, y) ∈ n → ∃ u, (k, u) ∈ r ∧ le u x ∧ le u y := by
    intro k x y hx hy
    have hv := (lookup_eq_some hm.1).mpr hx
    have hw := (lookup_eq_some hn.1).mpr hy
    cases hu : f x y with
    | none => cases (mergeWith_eq_none.mpr ⟨k, x, y, hv, hw, hu⟩).symm.trans hr
    | some u => exact ⟨u, hval (by rw [hv, hw]; exact hu), hf (hm.2 _ hx) (hn.2 _ hy) hu⟩
  refine ⟨fun k x hx => ?_, fun k y hy => ?_⟩
  · cases hw : n.lookup k with
    | none =>
      refine ⟨x, hval ?_, hrefl (hm.2 _ hx)⟩
      rw [(lookup_eq_some hm.1).mpr hx, hw]
      rfl
    | some w =>
      obtain ⟨u, hu, hux, -⟩ := hboth hx ((lookup_eq_some hn.1).mp hw)
      exact ⟨u, hu, hux⟩
  · cases hv : m.lookup k with
    | none =>
      refine ⟨y, hval ?_, hrefl (hn.2 _ hy)⟩
      rw [(lookup_eq_some hn.1).mpr hy, hv]
      rfl
    | some v =>
      obtain ⟨u, hu, -, huy⟩ := hboth ((lookup_eq_some hm.1).mp hv) hy
      exact ⟨u, hu, huy⟩

theorem mergeWith_bound (h : ∀ k, BoundOn (P k) le f) (ho : ∀ k, OrderOn (P k) le) :
    BoundOn (MapOn P) (MapLe le) (mergeWith f) where
  bound := by
    intro m n r hm hn hr
    obtain ⟨hmap, hval⟩ := mergeWith_eq_some hr
    refine ⟨⟨hmap, ?_⟩, mergeWith_below hr hm hn (ho _).refl fun hx hy hu =>
      ((h _).bound hx hy hu).2⟩
    rintro ⟨k, u⟩ hu
    have hu := hval k ▸ (lookup_eq_some hmap).mpr hu
    cases hv : m.lookup k <;> cases hw : n.lookup k <;> simp only [hv, hw, mergeValues] at hu
    · cases hu
    · exact Option.some.inj hu ▸ hn.2 _ ((lookup_eq_some hn.1).mp hw)
    · exact Option.some.inj hu ▸ hm.2 _ ((lookup_eq_some hm.1).mp hv)
    · exact ((h k).bound (hm.2 _ ((lookup_eq_some hm.1).mp hv))
        (hn.2 _ ((lookup_eq_some hn.1).mp hw)) hu).1
  greatest := by
    intro m n z hm hn hz hzm hzn
    -- the entries of `z` are below the entries of both maps
    obtain ⟨r, hr, hle⟩ := mergeWith_forall (f := f) (Q := fun k u => ∃ x, (k, x) ∈ z ∧ le x u) hm.1
      hn.1 (fun p hp => hzm _ _ hp) (fun p hp => hzn _ _ hp) (fun k v w hv hw => by
        obtain ⟨x, hx, hxv⟩ := hzm k v hv
        obtain ⟨x', hx', hxw⟩ := hzn k w hw
        obtain rfl := hz.1.unique hx hx'
        obtain ⟨u, hu, hxu⟩ := (h k).greatest (hm.2 _ hv) (hn.2 _ hw) (hz.2 _ hx) hxv hxw
        exact ⟨u, hu, x, hx, hxu⟩)
    exact ⟨r, hr, fun k y hy => hle (k, y) hy⟩

theorem interWith_above (hm : MapOn P m) (hn : MapOn P n)
    (hg : ∀ {k x y u}, P k x → P k y → g k x y = some u → P k u ∧ le x u ∧ le y u) :
    MapOn P (interWith g m n) ∧ MapLe le m (interWith g m n) ∧ MapLe le n (interWith g m n) := by
  have hentry : ∀ {k u}, (k, u) ∈ interWith g m n → ∃ x y, (k, x) ∈ m ∧ (k, y) ∈ n ∧
      P k u ∧ le x u ∧ le y u := by
    intro k u hu
    obtain ⟨x, y, hx, hy, hxy⟩ := mem_interWith.mp hu
    have hx := (lookup_eq_some hm.1).mp hx
    have hy := (lookup_eq_some hn.1).mp hy
    exact ⟨x, y, hx, hy, hg (hm.2 _ hx) (hn.2 _ hy) hxy⟩
  refine ⟨⟨isMap_interWith hm.1 hn.1, ?_⟩, fun k u hu => ?_, fun k u hu => ?_⟩
  · rintro ⟨k, u⟩ hu
    obtain ⟨x, y, -, -, hP, -⟩ := hentry hu
    exact hP
  · obtain ⟨x, y, hx, -, -, hxu, -⟩ := hentry hu
    exact ⟨x, hx, hxu⟩
  · obtain ⟨x, y, -, hy, -, -, hyu⟩ := hentry hu
    exact ⟨y, hy, hyu⟩

theorem interWith_bound (h : ∀ k, BoundOn (P k) (flip le) (g k)) :
    BoundOn (MapOn P) (flip (MapLe le)) fun m n => some (interWith g m n) where
  bound := by
    intro m n r hm hn hr
    cases hr
    exact interWith_above hm hn fun hx hy hu => (h _).bound hx hy hu
  greatest := by
    intro m n z hm hn hz hzm hzn
    refine ⟨_, rfl, fun k c hc => ?_⟩
    obtain ⟨v, hv, hvc⟩ := hzm k c hc
    obtain ⟨w, hw, hwc⟩ := hzn k c hc
    obtain ⟨u, hu, huc⟩ := (h k).greatest (hm.2 _ hv) (hn.2 _ hw) (hz.2 _ hc) hvc hwc
    exact ⟨u, mem_interWith.mpr ⟨v, w, (lookup_eq_some hm.1).mpr hv, (lookup_eq_some hn.1).mpr hw,
      hu⟩, huc⟩

/-- Maps with the values of a partial lattice: their meet has the keys of both,
their join the keys in common. -/
theorem PartialLattice.maps (h : ∀ k, PartialLattice (P k) le f (g k)) :
    PartialLattice (MapOn P) (MapLe le) (mergeWith f) fun m n => some (interWith g m n) :=
  ⟨orderOn_map fun k => (h k).order, mergeWith_bound (fun k => (h k).meet) fun k => (h k).order,
    interWith_bound fun k => (h k).join⟩

end Maps

end Otp.Lib
