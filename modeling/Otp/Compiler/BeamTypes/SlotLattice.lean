import Otp.Compiler.BeamTypes.RangeSound
import Otp.Compiler.BeamTypes.SlotBounds

/-!
# `glb/2` and `lub/2` as meets and joins

In each slot the canonical types form a partial lattice: `glb/2` is the meet where
the types have a common lower bound, `lub/2` the join.
-/

namespace Otp.Compiler.BeamTypes

open Otp.Lib Ordset

/-! ## Atoms -/

theorem atom_order : OrderOn AtomType.Canonical AtomType.Le where
  refl {a} _ := by
    cases a with
    | any => trivial
    | set s => exact List.Subset.refl s
  trans {a b c} _ _ _ hab hbc := by
    match a, b, c with
    | _, _, .any => trivial
    | .set s, .set t, .set u => exact List.Subset.trans hab hbc
  antisymm {a b} ha hb hab hba := by
    match a, b with
    | .any, .any => rfl
    | .set s, .set t => rw [ha.2.1.ext hb.2.1 fun x => ⟨@hab x, @hba x⟩]

theorem glbAtom_bound : BoundOn AtomType.Canonical AtomType.Le glbAtom := by
  refine .of_ite atom_order (fun _ _ => rfl) ?_ ?_
  · intro a b m hab ha hb hm
    match a, b with
    | .any, .any => exact absurd rfl hab
    | .any, .set s =>
      cases hm
      exact ⟨hb, trivial, List.Subset.refl s⟩
    | .set s, .any =>
      cases hm
      exact ⟨ha, List.Subset.refl s, trivial⟩
    | .set s, .set t =>
      simp only at hm
      split at hm
      · cases hm
      · rename_i hne
        cases hm
        refine ⟨⟨hne, isOrdset_intersection ha.2.1 t, ?_⟩, fun x hx => ?_, fun x hx => ?_⟩
        · exact (List.length_filter_le _ _).trans ha.2.2
        · exact (mem_intersection.mp hx).1
        · exact (mem_intersection.mp hx).2
  · intro a b z hab ha hb hz hza hzb
    match a, b, z with
    | .any, .any, _ => exact absurd rfl hab
    | .any, .set s, _ => exact ⟨_, rfl, hzb⟩
    | .set s, .any, _ => exact ⟨_, rfl, hza⟩
    | .set s, .set t, .set u =>
      have hsub : u ⊆ intersection s t := fun x hx =>
        mem_intersection.mpr ⟨hza hx, hzb hx⟩
      simp only
      split
      · rename_i hnil
        rw [hnil] at hsub
        exact absurd (List.subset_nil.mp hsub) hz.1
      · exact ⟨_, rfl, hsub⟩

theorem lubAtom_bound :
    BoundOn AtomType.Canonical (flip AtomType.Le) fun a b => some (lubAtom a b) := by
  refine .of_ite_some atom_order.dual (fun _ _ => rfl) ?_ ?_
  · intro a b hab ha hb
    have hany : AtomType.any.Canonical ∧ flip AtomType.Le AtomType.any a ∧
        flip AtomType.Le AtomType.any b := ⟨trivial, trivial, trivial⟩
    match a, b with
    | .any, _ | .set s, .any => exact hany
    | .set s, .set t =>
      simp only
      split_ifs with hlen
      · refine ⟨⟨fun hnil => ?_, isOrdset_union s t, hlen⟩, fun x hx => ?_, fun x hx => ?_⟩
        · obtain ⟨x, hx⟩ := List.exists_mem_of_ne_nil _ ha.1
          have := (mem_union (t := t)).mpr (.inl hx)
          rw [hnil] at this
          cases this
        · exact mem_union.mpr (.inl hx)
        · exact mem_union.mpr (.inr hx)
      · exact hany
  · intro a b z hab ha hb hz hza hzb
    match a, b, z with
    | _, _, .any => trivial
    | .set s, .set t, .set u =>
      -- the union is within a set below the limit
      have hsub : union s t ⊆ u := fun x hx =>
        (mem_union.mp hx).elim (@hza x) (@hzb x)
      have hnodup : (union s t).Nodup :=
        (isOrdset_union s t).imp fun h => ne_of_lt h
      have hlen : (union s t).length ≤ atomSetSize :=
        (hnodup.subperm hsub).length_le.trans hz.2.2
      simp only [if_pos hlen]
      exact hsub

theorem atom_lattice :
    PartialLattice AtomType.Canonical AtomType.Le glbAtom fun a b => some (lubAtom a b) :=
  ⟨atom_order, glbAtom_bound, lubAtom_bound⟩

/-! ## Numbers -/

theorem range_order : OrderOn NumRange.Valid NumRange.Le where
  refl _ _ hn := hn
  trans _ _ _ hrs hst n hn := hst n (hrs n hn)
  antisymm {r s} hr hs hrs hsr := by
    match r, s with
    | .any, _ => exact (hs.eq_any fun n => hrs n trivial).symm
    | .pair _ _, .any => exact hr.eq_any fun n => hsr n trivial
    | .pair a b, .pair c d =>
      have hrs' : ∀ n, a.LeInt n ∧ b.GeInt n → c.LeInt n ∧ d.GeInt n := hrs
      have hsr' : ∀ n, c.LeInt n ∧ d.GeInt n → a.LeInt n ∧ b.GeInt n := hsr
      -- compare the ends at integers next to them
      rcases hr.ends.1 with rfl | ⟨m, rfl⟩ <;> rcases hr.ends.2 with rfl | ⟨n, rfl⟩ <;>
      rcases hs.ends.1 with rfl | ⟨p, rfl⟩ <;> rcases hs.ends.2 with rfl | ⟨q, rfl⟩ <;>
      simp only [End.LeInt, End.GeInt, NumRange.Valid, true_and, and_true, NumRange.pair.injEq,
        End.int.injEq, reduceCtorEq, false_and, and_false] at hrs' hsr' hr hs ⊢
      · have := hrs' n le_rfl
        have := hsr' q le_rfl
        omega
      · have := hrs' (min n (p - 1)) (by omega)
        omega
      · have := hrs' (min n (p - 1)) (by omega)
        omega
      · have := hrs' (max m (q + 1)) (by omega)
        omega
      · have := hrs' m le_rfl
        have := hsr' p le_rfl
        omega
      · have := hrs' (max m (q + 1)) (by omega)
        omega
      · have := hsr' (min q (m - 1)) (by omega)
        omega
      · have := hsr' (max p (n + 1)) (by omega)
        omega
      · have := hrs' m (by omega)
        have := hrs' n (by omega)
        have := hsr' p (by omega)
        have := hsr' q (by omega)
        omega

variable {r s t : NumRange} {n : ℤ} {a b : End}

/-- Ranges with a meet have an integer in common. -/
theorem glbRanges_exists_mem (hr : r.Valid) (hs : s.Valid) (h : glbRanges r s = some t) :
    ∃ n, r.MemInt n ∧ s.MemInt n := by
  match r, s with
  | .any, _ =>
    obtain ⟨n, hn⟩ := hs.exists_mem
    exact ⟨n, trivial, hn⟩
  | .pair _ _, .any =>
    obtain ⟨n, hn⟩ := hr.exists_mem
    exact ⟨n, hn, trivial⟩
  | .pair a b, .pair c d =>
    rw [glbRanges] at h
    split_ifs at h with hc
    rcases hr.ends.1 with rfl | ⟨m, rfl⟩ <;> rcases hr.ends.2 with rfl | ⟨n, rfl⟩ <;>
    rcases hs.ends.1 with rfl | ⟨p, rfl⟩ <;> rcases hs.ends.2 with rfl | ⟨q, rfl⟩ <;>
    simp [infGe, infLe, End.termLe, NumRange.Valid, NumRange.MemInt, End.LeInt, End.GeInt]
      at hc hr hs ⊢
    -- the larger low end, or the smaller high end when neither has a low end
    all_goals first
      | exact ⟨min n q, by omega⟩
      | exact ⟨max m p, by omega⟩
      | exact ⟨p, by omega⟩
      | exact ⟨m, by omega⟩

/-- The meet of two ranges. -/
def glbIntRanges (r s : NumRange) : Option NumRange := (glbRanges r s).map integralRange

theorem glbRanges_valid (hr : r.Valid) (hs : s.Valid) (h : glbRanges r s = some t) :
    (integralRange t).Valid := by
  obtain ⟨n, hnr, hns⟩ := glbRanges_exists_mem hr hs h
  match r, s with
  | .any, .any =>
    cases h
    trivial
  | .any, .pair _ _ =>
    cases h
    exact integralRange_valid hs.ends.1 hs.ends.2 hns.1 hns.2
  | .pair _ _, .any =>
    cases h
    exact integralRange_valid hr.ends.1 hr.ends.2 hnr.1 hnr.2
  | .pair a b, .pair c d =>
    rw [glbRanges] at h
    split_ifs at h
    cases h
    exact integralRange_valid (infMax_ind hr.ends.1 hs.ends.1) (infMin_ind hr.ends.2 hs.ends.2)
      (((readsInt n).infMax_low hr.ends.1 hs.ends.1).mpr ⟨hnr.1, hns.1⟩)
      (((readsInt n).infMin_high hr.ends.2 hs.ends.2).mpr ⟨hnr.2, hns.2⟩)

theorem glbIntRanges_bound : BoundOn NumRange.Valid NumRange.Le glbIntRanges where
  bound {r s m} hr hs hm := by
    obtain ⟨t, ht, rfl⟩ := Option.map_eq_some_iff.mp hm
    have hmem : ∀ n, (integralRange t).MemInt n → r.MemInt n ∧ s.MemInt n := fun n hn =>
      ((readsInt n).glbRanges_iff hr hs ht).mp hn
    exact ⟨glbRanges_valid hr hs ht, fun n hn => (hmem n hn).1, fun n hn => (hmem n hn).2⟩
  greatest {r s z} hr hs hz hzr hzs := by
    obtain ⟨n, hn⟩ := hz.exists_mem
    obtain ⟨t, ht, -⟩ := (readsInt n).glbRanges_mem hr hs (hzr n hn) (hzs n hn)
    refine ⟨integralRange t, by rw [glbIntRanges, ht]; rfl, fun k hk => ?_⟩
    exact ((readsInt k).glbRanges_iff hr hs ht).mpr ⟨hzr k hk, hzs k hk⟩

/-- A range has no gaps. -/
theorem NumRange.Valid.convex (hr : r.Valid) {m k : ℤ} (hm : r.MemInt m) (hk : r.MemInt k)
    (hmn : m ≤ n) (hnk : n ≤ k) : r.MemInt n := by
  match r with
  | .any => trivial
  | .pair a b =>
    rcases hr.ends.1 with rfl | ⟨p, rfl⟩ <;> rcases hr.ends.2 with rfl | ⟨q, rfl⟩ <;>
    simp only [NumRange.MemInt, End.LeInt, End.GeInt, true_and, and_true] at hm hk ⊢ <;> omega

theorem NumRange.Valid.exists_le (h : (NumRange.pair a b).Valid) (ha : a.LeInt n) :
    ∃ m, (NumRange.pair a b).MemInt m ∧ m ≤ n := by
  rcases h.ends.1 with rfl | ⟨p, rfl⟩ <;> rcases h.ends.2 with rfl | ⟨q, rfl⟩
  · exact h.elim
  · exact ⟨min n q, ⟨trivial, min_le_right n q⟩, min_le_left n q⟩
  · exact ⟨p, ⟨le_refl p, trivial⟩, ha⟩
  · exact ⟨p, ⟨le_refl p, h⟩, ha⟩

theorem NumRange.Valid.exists_ge (h : (NumRange.pair a b).Valid) (hb : b.GeInt n) :
    ∃ m, (NumRange.pair a b).MemInt m ∧ n ≤ m := by
  rcases h.ends.1 with rfl | ⟨p, rfl⟩ <;> rcases h.ends.2 with rfl | ⟨q, rfl⟩
  · exact h.elim
  · exact ⟨q, ⟨trivial, le_refl q⟩, hb⟩
  · exact ⟨max n p, ⟨le_max_right n p, trivial⟩, le_max_left n p⟩
  · exact ⟨q, ⟨h, le_refl q⟩, hb⟩

/-- A member of the join lies between members of the two ranges. -/
theorem lubRanges_between (hr : r.Valid) (hs : s.Valid)
    (h : (integralRange (lubRanges r s)).MemInt n) :
    (∃ m ≤ n, r.MemInt m ∨ s.MemInt m) ∧ ∃ k ≥ n, r.MemInt k ∨ s.MemInt k := by
  match r, s with
  | .any, _ => exact ⟨⟨n, le_rfl, .inl trivial⟩, n, le_rfl, .inl trivial⟩
  | .pair _ _, .any => exact ⟨⟨n, le_rfl, .inr trivial⟩, n, le_rfl, .inr trivial⟩
  | .pair a b, .pair c d =>
    obtain ⟨ha, hb⟩ := hr.ends
    obtain ⟨hc, hd⟩ := hs.ends
    have h' := ((readsInt n).integralRange (infMin_ind ha hc) (infMax_ind hb hd)).mp h
    constructor
    · rcases ((readsInt n).infMin_low ha hc).mp h'.1 with hlow | hlow
      · obtain ⟨m, hm, hmn⟩ := hr.exists_le hlow
        exact ⟨m, hmn, .inl hm⟩
      · obtain ⟨m, hm, hmn⟩ := hs.exists_le hlow
        exact ⟨m, hmn, .inr hm⟩
    · rcases ((readsInt n).infMax_high hb hd).mp h'.2 with hhigh | hhigh
      · obtain ⟨k, hk, hnk⟩ := hr.exists_ge hhigh
        exact ⟨k, hnk, .inl hk⟩
      · obtain ⟨k, hk, hnk⟩ := hs.exists_ge hhigh
        exact ⟨k, hnk, .inr hk⟩

theorem range_lattice : PartialLattice NumRange.Valid NumRange.Le glbIntRanges
    fun r s => some (integralRange (lubRanges r s)) where
  order := range_order
  meet := glbIntRanges_bound
  join :=
    { bound := by
        intro r s m hr hs hm
        cases hm
        exact ⟨lubRanges_valid hr hs, fun n hn => (readsInt n).lubRanges_mem hr hs (.inl hn),
          fun n hn => (readsInt n).lubRanges_mem hr hs (.inr hn)⟩
      greatest := by
        intro r s z hr hs hz hrz hsz
        refine ⟨_, rfl, fun n hn => ?_⟩
        obtain ⟨⟨m, hmn, hm⟩, k, hnk, hk⟩ := lubRanges_between hr hs hn
        exact hz.convex (hm.elim (hrz m) (hsz m)) (hk.elim (hrz k) (hsz k)) hmn hnk }

theorem NumberType.Canonical.cases {a : NumberType} (h : a.Canonical) :
    ∃ r, r.Valid ∧ (a = .integer r ∨ a = .number r) := by
  cases a with
  | integer r => exact ⟨r, h, .inl rfl⟩
  | number r => exact ⟨r, h, .inr rfl⟩
  | float r => exact h.elim

theorem number_order : OrderOn NumberType.Canonical NumberType.Le where
  refl {a} ha := by
    obtain ⟨r, hr, rfl | rfl⟩ := ha.cases <;> exact range_order.refl hr
  trans {a b c} ha hb hc hab hbc := by
    obtain ⟨r, hr, rfl | rfl⟩ := ha.cases <;> obtain ⟨s, hs, rfl | rfl⟩ := hb.cases <;>
    obtain ⟨t, ht, rfl | rfl⟩ := hc.cases <;>
    first | exact range_order.trans hr hs ht hab hbc | exact hab.elim | exact hbc.elim
  antisymm {a b} ha hb hab hba := by
    obtain ⟨r, hr, rfl | rfl⟩ := ha.cases <;> obtain ⟨s, hs, rfl | rfl⟩ := hb.cases <;>
    first | rw [range_order.antisymm hr hs hab hba] | exact hab.elim | exact hba.elim

theorem glbNumber_bound : BoundOn NumberType.Canonical NumberType.Le glbNumber := by
  refine .of_ite number_order (fun _ _ => rfl) ?_ ?_
  · intro a b m hab ha hb hm
    obtain ⟨r, hr, rfl | rfl⟩ := ha.cases <;> obtain ⟨s, hs, rfl | rfl⟩ := hb.cases <;>
    (obtain ⟨t, ht, rfl⟩ := Option.map_eq_some_iff.mp hm
     exact range_lattice.meet.bound hr hs (by rw [glbIntRanges, ht]; rfl))
  · intro a b z hab ha hb hz hza hzb
    have hrange : ∀ {r s u : NumRange}, r.Valid → s.Valid → u.Valid → u.Le r → u.Le s →
        ∃ t, glbRanges r s = some t ∧ u.Le (integralRange t) := by
      intro r s u hr hs hu hur hus
      obtain ⟨m, hm, hle⟩ := range_lattice.meet.greatest hr hs hu hur hus
      obtain ⟨t, ht, rfl⟩ := Option.map_eq_some_iff.mp hm
      exact ⟨t, ht, hle⟩
    obtain ⟨r, hr, rfl | rfl⟩ := ha.cases <;> obtain ⟨s, hs, rfl | rfl⟩ := hb.cases <;>
    obtain ⟨u, hu, rfl | rfl⟩ := hz.cases <;>
    first
    | exact hza.elim
    | exact hzb.elim
    | (obtain ⟨t, ht, hle⟩ := hrange hr hs hu hza hzb
       simp only [integerFromRange, numberFromRange, ht, Option.map_some]
       exact ⟨_, rfl, hle⟩)

theorem lubNumber_bound :
    BoundOn NumberType.Canonical (flip NumberType.Le) fun a b => some (lubNumber a b) := by
  refine .of_ite_some number_order.dual (fun _ _ => rfl) ?_ ?_
  · intro a b hab ha hb
    obtain ⟨r, hr, rfl | rfl⟩ := ha.cases <;> obtain ⟨s, hs, rfl | rfl⟩ := hb.cases <;>
    exact range_lattice.join.bound hr hs rfl
  · intro a b z hab ha hb hz hza hzb
    obtain ⟨r, hr, rfl | rfl⟩ := ha.cases <;> obtain ⟨s, hs, rfl | rfl⟩ := hb.cases <;>
    obtain ⟨u, hu, rfl | rfl⟩ := hz.cases <;>
    first
    | exact hza.elim
    | exact hzb.elim
    | exact range_lattice.join.greatest_some hr hs hu hza hzb

theorem number_lattice : PartialLattice NumberType.Canonical NumberType.Le glbNumber
    fun a b => some (lubNumber a b) := ⟨number_order, glbNumber_bound, lubNumber_bound⟩

section Inner

variable {P : Typ → Prop} {le : Typ → Typ → Prop} {R J : Typ → Typ → Typ} {t u t' u' : Typ}
  {c : Typ × Typ} {a b : OtherType}

/-! ## Lists -/

theorem list_order (h : OrderOn P le) : OrderOn (ListType.Canonical P) (ListType.Le le) where
  refl {a} ha := by
    match a with
    | .nil => trivial
    | .cons _ _ | .list _ _ => exact ⟨h.refl ha.1.1, h.refl ha.2.1⟩
  trans {a b c} ha hb hc hab hbc := by
    match a, b, c with
    | .nil, .nil, .nil | .nil, .nil, .list _ _ | .nil, .list _ _, .list _ _ => trivial
    | .cons _ _, .cons _ _, .cons _ _ | .cons _ _, .cons _ _, .list _ _
    | .cons _ _, .list _ _, .list _ _ | .list _ _, .list _ _, .list _ _ =>
      exact ⟨h.trans ha.1.1 hb.1.1 hc.1.1 hab.1 hbc.1, h.trans ha.2.1 hb.2.1 hc.2.1 hab.2 hbc.2⟩
  antisymm {a b} ha hb hab hba := by
    match a, b with
    | .nil, .nil => rfl
    | .cons _ _, .cons _ _ | .list _ _, .list _ _ =>
      rw [h.antisymm ha.1.1 hb.1.1 hab.1 hba.1, h.antisymm ha.2.1 hb.2.1 hab.2 hba.2]

section

variable (h : Inner P le R J)

include h

theorem meetCells_greatest {x y : Typ} (ht : P t ∧ t ≠ .none)
    (hu : P u ∧ u ≠ .none) (ht' : P t' ∧ t' ≠ .none) (hu' : P u' ∧ u' ≠ .none)
    (hx : P x ∧ x ≠ .none) (hy : P y ∧ y ≠ .none) (hxy : le x t ∧ le y u)
      (hxy' : le x t' ∧ le y u') :
    ∃ c, meetCells R t u t' u' = some c ∧ le x c.1 ∧ le y c.2 := by
  obtain ⟨m, hm, hxm⟩ := h.notNone.meet.greatest ht ht' hx hxy.1 hxy'.1
  obtain ⟨n, hn, hyn⟩ := h.notNone.meet.greatest hu hu' hy hxy.2 hxy'.2
  exact ⟨(m, n), meetCells_eq_some.mpr ⟨hm, hn⟩, hxm, hyn⟩

theorem glbList_bound : BoundOn (ListType.Canonical P) (ListType.Le le) (glbList R) := by
  refine .of_ite (list_order h.lattice.order) (fun _ _ => rfl) ?_ ?_
  · intro a b m hab ha hb hm
    exact glbList_below h.meet_bound hab ha.good hb.good ((if_neg hab).trans hm)
  · intro a b z hab ha hb hz hza hzb
    match a, b, z with
    | .nil, .nil, _ => exact absurd rfl hab
    | .nil, .cons _ _, z | .cons _ _, .nil, z =>
      cases z <;> first | exact hza.elim | exact hzb.elim
    | .nil, .list _ _, .nil | .list _ _, .nil, .nil => exact ⟨_, rfl, trivial⟩
    | .cons _ _, .cons _ _, .cons _ _ | .cons _ _, .list _ _, .cons _ _ =>
      obtain ⟨c, hc, hle⟩ := meetCells_greatest h ha.1 ha.2 hb.1 hb.2 hz.1 hz.2 hza hzb
      simp only [hc, Option.map_some]
      exact ⟨_, rfl, hle⟩
    | .list _ _, .cons _ _, .cons _ _ =>
      obtain ⟨c, hc, hle⟩ := meetCells_greatest h hb.1 hb.2 ha.1 ha.2 hz.1 hz.2 hzb hza
      simp only [hc, Option.map_some]
      exact ⟨_, rfl, hle⟩
    | .list _ _, .list _ _, .nil =>
      simp only
      split <;> exact ⟨_, rfl, trivial⟩
    | .list _ _, .list _ _, .cons _ _ | .list _ _, .list _ _, .list _ _ =>
      obtain ⟨c, hc, hle⟩ := meetCells_greatest h ha.1 ha.2 hb.1 hb.2 hz.1 hz.2 hza hzb
      simp only [hc]
      exact ⟨_, rfl, hle⟩

theorem lubList_bound :
    BoundOn (ListType.Canonical P) (flip (ListType.Le le)) fun a b => some (lubList J a b) := by
  have hN := h.notNone
  refine .of_ite_some (list_order h.lattice.order).dual (fun _ _ => rfl) ?_ ?_
  · intro a b hab ha hb
    exact (show lubList J a b = _ from if_neg hab) ▸ lubList_above (J := J)
      (fun _ _ hx hy => hN.join.bound hx hy rfl) hN.order.refl hab ha hb
  · intro a b z hab ha hb hz hza hzb
    match a, b, z with
    | .nil, .nil, _ => exact absurd rfl hab
    | .nil, .cons _ _, .list _ _ | .nil, .list _ _, .list _ _ => exact hzb
    | .cons _ _, .nil, .list _ _ | .list _ _, .nil, .list _ _ => exact hza
    | .cons _ _, .cons _ _, .cons _ _ | .cons _ _, .cons _ _, .list _ _
    | .cons _ _, .list _ _, .list _ _ | .list _ _, .list _ _, .list _ _ =>
      exact ⟨hN.join.greatest_some ha.1 hb.1 hz.1 hza.1 hzb.1,
        hN.join.greatest_some ha.2 hb.2 hz.2 hza.2 hzb.2⟩
    | .list _ _, .cons _ _, .list _ _ =>
      exact ⟨hN.join.greatest_some hb.1 ha.1 hz.1 hzb.1 hza.1,
        hN.join.greatest_some hb.2 ha.2 hz.2 hzb.2 hza.2⟩

theorem list_lattice : PartialLattice (ListType.Canonical P)
    (ListType.Le le) (glbList R) fun a b => some (lubList J a b) :=
  ⟨list_order h.lattice.order, glbList_bound h, lubList_bound h⟩

end

/-! ## Other types -/

/-- Below identifiers there are only identifiers. -/
theorem OtherType.Le.isIdentifier (h : a.Le le b) (hb : b.isIdentifier = true) :
    a.isIdentifier = true := by
  cases h with
  | identifier ha => exact ha
  | pid => rfl
  | port => rfl
  | reference => rfl
  | _ => cases hb

theorem other_order (h : OrderOn P le) : OrderOn (OtherType.Good P) (OtherType.Le le) where
  refl := .refl h.refl
  trans {a b c} ha hb hc hab hbc := by
    cases hbc with
    | other => exact .other
    | identifier hi => exact .identifier (hab.isIdentifier hi)
    | pid | port | reference => exact hab
    | bitstring hu hp =>
      cases hab with
      | bitstring hu' hp' => exact .bitstring (hu.trans hu') fun h => hp' (hp h)
    | bsContext hu =>
      cases hab with
      | bsContext hu' => exact .bsContext (hu.trans hu')
    | bsMatchable hu =>
      cases hab with
      | bsMatchable hu' => exact .bsMatchable (hu.trans hu')
      | bitstringMatchable hu' => exact .bitstringMatchable (hu.trans hu')
      | contextMatchable hu' => exact .contextMatchable (hu.trans hu')
    | bitstringMatchable hu =>
      cases hab with
      | bitstring hu' _ => exact .bitstringMatchable (hu.trans hu')
    | contextMatchable hu =>
      cases hab with
      | bsContext hu' => exact .contextMatchable (hu.trans hu')
    | fn hn hg ht =>
      cases hab with
      | fn hn' hg' ht' =>
        exact .fn (orderOn_flat.trans trivial trivial trivial hn' hn)
          (orderOn_flat.trans trivial trivial trivial hg' hg) (h.trans ha.2 hb.2 hc.2 ht' ht)
    | map hk hv =>
      cases hab with
      | map hk' hv' =>
        exact .map (h.trans ha.1 hb.1 hc.1 hk' hk) (h.trans ha.2 hb.2 hc.2 hv' hv)
  antisymm {a b} ha hb hab hba := by
    cases hab with
    | other =>
      cases hba with
      | other => rfl
      | identifier hi => cases hi
    | identifier hi =>
      cases hba with
      | other => cases hi
      | identifier _ => rfl
    | bitstring hu hp =>
      cases hba with
      | bitstring hu' hp' => rw [Nat.dvd_antisymm hu hu', Bool.eq_iff_iff.mpr ⟨hp', hp⟩]
    | bsContext hu =>
      cases hba with
      | bsContext hu' => rw [Nat.dvd_antisymm hu hu']
    | bsMatchable hu =>
      cases hba with
      | bsMatchable hu' => rw [Nat.dvd_antisymm hu hu']
    | fn hn hg ht =>
      cases hba with
      | fn hn' hg' ht' =>
        rw [orderOn_flat.antisymm trivial trivial hn hn',
          orderOn_flat.antisymm trivial trivial hg hg', h.antisymm ha.2 hb.2 ht ht']
    | map hk hv =>
      cases hba with
      | map hk' hv' => rw [h.antisymm ha.1 hb.1 hk hk', h.antisymm ha.2 hb.2 hv hv']
    | bitstringMatchable _ | contextMatchable _ => cases hba
    | _ => rfl

theorem glbOther_bound (h : Inner P le R J) :
    BoundOn (OtherType.Good P) (OtherType.Le le) (glbOther R) := by
  have ho := other_order h.lattice.order
  have hself : ∀ a b, glbOther R a b = if a = b then some a else glbOther R a b := by
    intro a b
    split_ifs with hab
    · simp [glbOther, hab]
    · rfl
  refine .of_ite ho hself ?_ ?_
  · exact fun hab ha hb hm => glbOther_below h.meet_bound id h.lattice.order.refl hab ha hb hm
  · intro a b z hab ha hb hz hza hzb
    by_cases hao : a = .other
    · subst hao
      exact ⟨b, glbOther_other_left b, hzb⟩
    by_cases hbo : b = .other
    · subst hbo
      exact ⟨a, glbOther_other_right a, hza⟩
    by_cases hai : a = .identifier
    · subst hai
      have hbi : b.isIdentifier = true := by
        have hzi := hza.isIdentifier rfl
        cases hzb <;> first | rfl | exact absurd rfl hbo | cases hzi
      exact ⟨b, by rw [glbOther_identifier_left, if_pos hbi], hzb⟩
    by_cases hbi : b = .identifier
    · subst hbi
      have hai : a.isIdentifier = true := by
        have hzi := hzb.isIdentifier rfl
        cases hza <;> first | rfl | exact absurd rfl hao | cases hzi
      exact ⟨a, by rw [glbOther_identifier_right, if_pos hai], hza⟩
    unfold glbOther
    rw [if_neg hab]
    cases hza with
    | other | identifier => contradiction
    | bitstring hu hp =>
      cases hzb with
      | bitstring hu' hp' =>
        refine ⟨_, rfl, .bitstring (commonUnit_dvd.mpr ⟨hu, hu'⟩) fun h => ?_⟩
        exact ((Bool.or_eq_true _ _).mp h).elim hp hp'
      | bitstringMatchable hu' =>
        exact ⟨_, rfl, .bitstring (commonUnit_dvd.mpr ⟨hu, hu'⟩) hp⟩
      | _ => contradiction
    | bitstringMatchable hu =>
      cases hzb with
      | bitstring hu' hp' => exact ⟨_, rfl, .bitstring (commonUnit_dvd.mpr ⟨hu', hu⟩) hp'⟩
      | bitstringMatchable hu' =>
        exact ⟨_, rfl, .bitstringMatchable (commonUnit_dvd.mpr ⟨hu, hu'⟩)⟩
      | _ => contradiction
    | bsContext hu =>
      cases hzb with
      | bsContext hu' | contextMatchable hu' =>
        exact ⟨_, rfl, .bsContext (commonUnit_dvd.mpr ⟨hu, hu'⟩)⟩
      | _ => contradiction
    | contextMatchable hu =>
      cases hzb with
      | bsContext hu' => exact ⟨_, rfl, .bsContext (commonUnit_dvd.mpr ⟨hu', hu⟩)⟩
      | contextMatchable hu' =>
        exact ⟨_, rfl, .contextMatchable (commonUnit_dvd.mpr ⟨hu, hu'⟩)⟩
      | _ => contradiction
    | bsMatchable hu =>
      cases hzb with
      | bsMatchable hu' => exact ⟨_, rfl, .bsMatchable (commonUnit_dvd.mpr ⟨hu, hu'⟩)⟩
      | _ => contradiction
    | fn hn hg ht =>
      cases hzb with
      | fn hn' hg' ht' =>
        obtain ⟨n, hn, hzn⟩ := meetKnown_bound.greatest trivial trivial trivial hn hn'
        obtain ⟨g, hg, hzg⟩ := meetKnown_bound.greatest trivial trivial trivial hg hg'
        simp only [hn, hg]
        exact ⟨_, rfl, .fn hzn hzg (h.le_meet ha.2 hb.2 hz.2 ht ht')⟩
      | _ => contradiction
    | map hk hv =>
      cases hzb with
      | map hk' hv' =>
        exact ⟨_, rfl, .map (h.le_meet ha.1 hb.1 hz.1 hk hk') (h.le_meet ha.2 hb.2 hz.2 hv hv')⟩
      | _ => contradiction
    | _ => cases hzb <;> contradiction

theorem lubOther_bound (h : Inner P le R J) :
    BoundOn (OtherType.Good P) (flip (OtherType.Le le)) fun a b => some (lubOther J a b) := by
  have ho := other_order h.lattice.order
  refine .of_ite_some ho.dual (fun _ _ => rfl) ?_ ?_
  · intro a b hab ha hb
    exact (show lubOther J a b = _ from if_neg hab) ▸ lubOther_above h.join_bound hab ha hb
  · intro a b z hab ha hb hz hza hzb
    have hdvd : ∀ {u v w : ℕ}, w ∣ u → w ∣ v → w ∣ Nat.gcd u v := fun hu hv => Nat.dvd_gcd hu hv
    cases hza with
    | other => exact .other
    | identifier hi =>
      have hi' := hzb.isIdentifier rfl
      refine .identifier ?_
      cases a <;> cases hi <;> cases b <;> cases hi' <;> rfl
    | bitstring hu hp =>
      cases hzb with
      | bitstring hu' hp' =>
        exact .bitstring (hdvd hu hu') fun h => by simp [hp h, hp' h]
    | bitstringMatchable hu =>
      cases hzb with
      | bitstringMatchable hu' => exact .bitstringMatchable (hdvd hu hu')
      | contextMatchable hu' | bsMatchable hu' => exact .bsMatchable (hdvd hu hu')
    | bsContext hu =>
      cases hzb with
      | bsContext hu' => exact .bsContext (hdvd hu hu')
    | contextMatchable hu =>
      cases hzb with
      | contextMatchable hu' => exact .contextMatchable (hdvd hu hu')
      | bitstringMatchable hu' | bsMatchable hu' => exact .bsMatchable (hdvd hu hu')
    | bsMatchable hu =>
      cases hzb with
      | bitstringMatchable hu' | contextMatchable hu' | bsMatchable hu' =>
        exact .bsMatchable (hdvd hu hu')
    | fn hn hg ht =>
      cases hzb with
      | fn hn' hg' ht' =>
        have hle := h.join_le ha.2 hb.2 hz.2 ht ht'
        simp only
        split_ifs with hn'' hg''
        · exact .fn hn hg hle
        · exact .fn hn (.inl (hg.eq_none hg' hg'')) hle
        · -- an unknown arity leaves no target
          have harity := hn.eq_none hn' hn''
          refine .fn (.inl harity) (.inl (Option.eq_none_iff_forall_not_mem.mpr fun g hg => ?_)) hle
          obtain ⟨n, hn, -⟩ := hz.1 g hg
          rw [harity] at hn
          cases hn
    | map hk hv =>
      cases hzb with
      | map hk' hv' =>
        exact .map (h.join_le ha.1 hb.1 hz.1 hk hk') (h.join_le ha.2 hb.2 hz.2 hv hv')
    | _ => cases hzb; exact absurd rfl hab

theorem other_lattice (h : Inner P le R J) : PartialLattice (OtherType.Good P)
    (OtherType.Le le) (glbOther R) fun a b => some (lubOther J a b) :=
  ⟨other_order h.lattice.order, glbOther_bound h, lubOther_bound h⟩

end Inner

end Otp.Compiler.BeamTypes
