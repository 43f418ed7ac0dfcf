import Otp.Compiler.BeamTypes.TupleSetLattice

/-!
# The lattice of canonical types, one level

Canonical types other than `any` are determined by their slots, and `meet/2` and
`join/2` of two types work slot by slot. A union that `shrink_union/1` takes for
`any` is no canonical type, but everything above it is taken for `any` as well.
-/

namespace Otp.Compiler.BeamTypes

open Otp.Lib

variable {P : Typ → Prop} {le : Typ → Typ → Prop} {R J : Typ → Typ → Typ} {α : Type}
  {ord : α → α → Prop}

theorem slot_lattice {Q : α → Prop} {f : α → α → Option α} {g : α → α → α}
    (h : PartialLattice Q ord f fun x y => some (g x y)) :
    LatticeOn (fun o => ∀ x ∈ o, Q x) (BotLe ord) (glbSlot f) (lubSlot g) :=
  h.withBot (fun _ _ => rfl) (none_glbSlot f) (glbSlot_none f) (fun _ _ => rfl) (none_lubSlot g)
    (lubSlot_none g)

/-- Below a tuple whose elements are all known singletons there is no other. -/
theorem singleton_tuple_minimal (h : Inner P le R J) {a b : TupleType} (ha : a.Canonical P)
    (hb : b.Canonical P) (hab : a.Le le b) (hsing : b.isSingletonType = true) : a = b := by
  obtain ⟨hexact, hall⟩ := TupleType.isSingletonType_iff.mp hsing
  obtain ⟨hexact', hsize⟩ := hab.2.1 hexact
  refine (tuple_order h).antisymm ha hb hab ⟨hsize.le, fun _ => ⟨hexact, hsize.symm⟩, ?_⟩
  intro i x hx
  have hi := (ha.2 _ hx).1
  obtain ⟨u, hu, hsu⟩ := hall (i - 1) (by omega)
  rw [show i - 1 + 1 = i by omega] at hu
  obtain ⟨x', hx', hle⟩ := hab.2.2 i u hu
  obtain rfl := ha.1.unique hx hx'
  have hP := ha.2 _ hx
  obtain rfl : x = u := h.minimal hP.2.1 (hb.2 _ hu).2.1 hle hsu hP.2.2.1
  exact ⟨x, hu, h.lattice.order.refl hP.2.1⟩

theorem botLe_none {x : Option α} (h : BotLe ord x none) : x = none := by
  cases x with
  | none => rfl
  | some x => exact h.elim

theorem setLe_nil {l : List α} (h : SetLe ord l []) : l = [] :=
  List.eq_nil_iff_forall_not_mem.mpr fun x hx => by
    obtain ⟨y, hy, -⟩ := h x hx
    cases hy

theorem NativeRecordSet.Canonical.eq_none {s : NativeRecordSet} (hs : s.Canonical P)
    (h : s.Le le .none) : s = .none := by
  have hnil := hs.nativeRecords_toList
  rw [setLe_nil h] at hnil
  exact hnil.symm

theorem UnionType.eq_of_slots {a b : UnionType} (ha : a.atom = b.atom) (hl : a.list = b.list)
    (hn : a.number = b.number) (ht : a.tupleSet = b.tupleSet)
    (hr : a.nativeRecordSet = b.nativeRecordSet) (ho : a.other = b.other) : a = b := by
  cases a
  cases b
  simp_all

section Keys

variable [LinearOrder RecordKey] {t b a : Typ} {u w : UnionType}

/-! ## Slots -/

theorem union_lattice (h : Inner P le R J) :
    LatticeOn (UnionType.Canonical P) (UnionType.Le le) (meetSlots R) (joinSlots J) := by
  have hslots : LatticeOn _ _ (meetSlots R) (joinSlots J) := ((slot_lattice atom_lattice).prod
    ((slot_lattice (list_lattice h)).prod ((slot_lattice number_lattice).prod
      ((tupleSet_lattice h).prod ((nativeRecordSet_lattice h).prod
        (slot_lattice (other_lattice h))))))).comap (e := fun u : UnionType =>
      (u.atom, u.list, u.number, u.tupleSet, u.nativeRecordSet, u.other))
    (fun x y heq => ?_) (fun _ _ => rfl) fun _ _ => rfl
  · convert hslots using 1
    · funext u
      exact propext ⟨fun ⟨ha, hl, hn, ht, hr, ho⟩ => ⟨ha, hl, hn, ht, hr, ho⟩,
        fun ⟨ha, hl, hn, ht, hr, ho⟩ => ⟨ha, hl, hn, ht, hr, ho⟩⟩
    · funext u w
      exact propext ⟨fun ⟨ha, hl, hn, ht, hr, ho⟩ => ⟨ha, hl, hn, ht, hr, ho⟩,
        fun ⟨ha, hl, hn, ht, hr, ho⟩ => ⟨ha, hl, hn, ht, hr, ho⟩⟩
  · simp only [Prod.mk.injEq] at heq
    obtain ⟨ha, hl, hn, ht, hr, ho⟩ := heq
    exact UnionType.eq_of_slots ha hl hn ht hr ho

/-! ## Types and their slots -/

theorem slots_canonical (h : t.CanonicalStep P) (hany : t ≠ .any) : t.slots.Canonical P := by
  have hempty : UnionType.empty.Canonical P := by
    refine ⟨?_, ?_, ?_, ⟨trivial, ?_⟩, ⟨trivial, ?_⟩, ?_⟩ <;>
      simp [UnionType.empty, TupleSet.toList, NativeRecordSet.toList]
  have hsome : ∀ {α : Type} {Q : α → Prop} {x : α}, Q x → ∀ y ∈ some x, Q y :=
    fun hx y hy => Option.some.inj hy ▸ hx
  cases t with
  | any => exact absurd rfl hany
  | none => exact hempty
  | atom a => exact { hempty with atom := hsome h }
  | list l => exact { hempty with list := hsome h }
  | number n => exact { hempty with number := hsome h }
  | tuple t => exact { hempty with tupleSet := newTupleSet_canonical h }
  | record r =>
    exact { hempty with nativeRecordSet := ⟨trivial, List.forall_mem_singleton.mpr h⟩ }
  | other o => exact { hempty with other := hsome h }
  | union u => exact h.1

/-- A canonical type is the shrunken union of its slots. -/
theorem shrinkUnion_slots_canonical (h : t.CanonicalStep P) (hany : t ≠ .any) :
    shrinkUnion t.slots = t := by
  by_cases hu : ∃ u, t = .union u
  · obtain ⟨u, rfl⟩ := hu
    exact h.2
  · push Not at hu
    exact shrinkUnion_slots hany hu

/-- A shrunken union is a canonical type with the same slots. -/
theorem shrinkUnion_canonical (h : u.Canonical P) (hany : shrinkUnion u ≠ .any) :
    (shrinkUnion u).CanonicalStep P ∧ (shrinkUnion u).slots = u := by
  fun_cases shrinkUnion u with
  | case1 a => exact ⟨h.atom a rfl, rfl⟩
  | case2 l => exact ⟨h.list l rfl, rfl⟩
  | case3 n => exact ⟨h.number n rfl, rfl⟩
  | case4 t =>
    refine ⟨h.tupleSet.2 t (.head _), ?_⟩
    rw [Typ.slots, newTupleSet, show t.recordKey = none from h.tupleSet.1]
    rfl
  | case5 k t =>
    refine ⟨h.tupleSet.2 t (.head _), ?_⟩
    rw [Typ.slots, newTupleSet, h.tupleSet.1.2.2.2 (k, t) (.head _)]
    rfl
  | case6 r => exact ⟨h.nativeRecordSet.2 r (.head _), rfl⟩
  | case7 r => exact absurd h.nativeRecordSet.1.1 (by simp)
  | case8 o => exact ⟨h.other o rfl, rfl⟩
  | case9 => exact ⟨trivial, rfl⟩
  | case10 => exact absurd rfl hany
  | case11 =>
    refine ⟨⟨h, ?_⟩, rfl⟩
    rw [shrinkUnion.eq_11] <;> assumption

section

variable (h : Inner P le R J)

include h

/-- Above a union that is taken for `any`, every union is. -/
theorem shrinkUnion_any_of_le (hw : w.Canonical P) (hle : u.Le le w)
    (hany : shrinkUnion u = .any) : shrinkUnion w = .any := by
  obtain ⟨ha, hl, hn, ⟨es, ht⟩, ⟨e, c, hr⟩, ho⟩ := shrinkUnion_eq_any.mp hany
  obtain ⟨hla, hll, hln, hlt, hlr, hlo⟩ := hle
  rw [ha] at hla
  rw [hl] at hll
  rw [hn] at hln
  rw [ho] at hlo
  refine shrinkUnion_eq_any.mpr ⟨?_, ?_, ?_, ?_, ?_, ?_⟩
  · match hw' : w.atom, hla with
    | some .any, _ => rfl
  · match hw' : w.list, hll with
    | some (.list t t'), hll =>
      have hP := hw.list _ hw'
      rw [h.any_le hP.1.1 hll.1, h.any_le hP.2.1 hll.2]
  · cases hw' : w.number with
    | none =>
      rw [hw'] at hln
      exact hln.elim
    | some n =>
      rw [hw'] at hln
      obtain ⟨r, hr, rfl | rfl⟩ := (hw.number n hw').cases
      · exact hln.elim
      · rw [hr.eq_any fun n => hln n trivial]
  · -- the tuple above has no record key, so it stands alone
    obtain ⟨t, ht', hsize, hexact, -⟩ := hlt ⟨0, false, es⟩ (by rw [ht]; exact .head _)
    have hfalse : t.exact = false := Bool.eq_false_iff.mpr fun hx => (nomatch (hexact hx).1)
    have hkey : t.recordKey = none := by simp [TupleType.recordKey, hfalse]
    match hw' : w.tupleSet, ht' with
    | .tuple t', ht' =>
      obtain rfl := List.mem_singleton.mp ht'
      obtain ⟨size, exact, es'⟩ := t
      obtain rfl : size = 0 := Nat.le_zero.mp hsize
      obtain rfl : exact = false := hfalse
      exact ⟨es', rfl⟩
    | .records rs, ht' =>
      obtain ⟨r, hr, rfl⟩ := List.mem_map.mp ht'
      have hkeyed := hw.tupleSet
      rw [hw'] at hkeyed
      rw [hkeyed.keyedRecords.2 r hr] at hkey
      cases hkey
  · -- the record above has no name
    obtain ⟨r, hr', ⟨hname, -⟩, htype, -⟩ := hlr ⟨none, e, [], c⟩ (by rw [hr]; exact .head _)
    have hnone : r.name = none := hname.elim id Eq.symm
    have hnil : r.type = [] := List.eq_nil_iff_forall_not_mem.mpr fun f hf => by
      obtain ⟨x, hx, -⟩ := htype f.1 f.2 hf
      cases hx
    match hw' : w.nativeRecordSet, hr' with
    | .record r', hr' =>
      obtain rfl := List.mem_singleton.mp hr'
      obtain ⟨name, exported, fs, c'⟩ := r
      obtain rfl : name = none := hnone
      obtain rfl : fs = [] := hnil
      exact ⟨exported, c', rfl⟩
    | .records rs, hr' =>
      have hcanon := hw.nativeRecordSet
      rw [hw'] at hcanon
      exact absurd hnone (hcanon.1.named r hr')
  · match hw' : w.other, hlo with
    | some .other, _ => rfl

/-! ## Meets and joins of types, slot by slot -/

theorem meetTupleSets_newTupleSet {a b : TupleType} (ha : a.Canonical P) (hb : b.Canonical P) :
    meetTupleSets R (newTupleSet a) (newTupleSet b) =
      (glbTuples R a b).elim .none newTupleSet := by
  have hca := newTupleSet_canonical ha
  have hcb := newTupleSet_canonical hb
  have hmeet := meetTupleSets_isMeet h hca hcb
  have hmeet' : IsMeet (TupleSet.Canonical P) (TupleSet.Le le) (newTupleSet a) (newTupleSet b)
      ((glbTuples R a b).elim .none newTupleSet) := by
    have hkeySet {ts} := isMeet_keySet (u := ts) (glbTuples_bound h) hca.tuplesOn hcb.tuplesOn
    cases hm : glbTuples R a b with
    | none =>
      exact isMeet_tupleSet (hkeySet .nil (by simp) (by simp [toList_newTupleSet, hm])) rfl trivial
    | some t =>
      refine isMeet_tupleSet (hkeySet (keySorted_singleton t) (by simp) ?_) (toList_newTupleSet t)
        (newTupleSet_keyed t)
      simp [toList_newTupleSet, hm, eq_comm]
  exact (tupleSet_order h).antisymm hmeet.mem hmeet'.mem
    (hmeet'.greatest hmeet.mem hmeet.left hmeet.right)
    (hmeet.greatest hmeet'.mem hmeet'.left hmeet'.right)

theorem glb_eq {a b : Typ} (ha : a.CanonicalStep P) (hb : b.CanonicalStep P) (hane : a ≠ .any)
    (hbne : b ≠ .any) (hua : ∀ u, a ≠ .union u) (hub : ∀ u, b ≠ .union u) :
    glb R a b = shrinkUnion (meetSlots R a.slots b.slots) := by
  cases a <;> cases b <;> first
    | exact absurd rfl hane
    | exact absurd rfl hbne
    | exact absurd rfl (hua _)
    | exact absurd rfl (hub _)
    | skip
  case record.record a b =>
    simp only [glb, meetSlots, Typ.slots, UnionType.empty, glbSlot_none, meetTupleSets_none,
      meetNativeRecordSets]
    cases glbRecords R a b <;> rfl
  case tuple.tuple a b =>
    simp only [glb, meetSlots, Typ.slots, UnionType.empty, glbSlot_none,
      meetNativeRecordSets_none, meetTupleSets_newTupleSet h ha hb]
    cases glbTuples R a b with
    | none => rfl
    | some t => rcases newTupleSet_cases t with ⟨-, h⟩ | ⟨k, -, h⟩ <;> simp [h, shrinkUnion]
  all_goals simp [glb, meetSlots, Typ.slots, UnionType.empty, glbSlot]

theorem meetSlots_comm (hu : u.Canonical P) (hw : w.Canonical P) :
    meetSlots R u w = meetSlots R w u :=
  Option.some.inj ((union_lattice h).meet.comm (union_lattice h).order hu hw)

theorem joinSlots_comm (hu : u.Canonical P) (hw : w.Canonical P) :
    joinSlots J u w = joinSlots J w u :=
  Option.some.inj ((union_lattice h).join.comm (union_lattice h).order.dual hu hw)

theorem meetStep_eq (ha : a.CanonicalStep P) (hb : b.CanonicalStep P) (hane : a ≠ .any)
    (hbne : b ≠ .any) (hab : a ≠ b) :
    meetStep R a b = shrinkUnion (meetSlots R a.slots b.slots) := by
  unfold meetStep
  rw [if_neg hab]
  split
  · exact absurd rfl hane
  · exact absurd rfl hbne
  · exact meetUnions_eq _ hbne
  · rw [meetUnions_eq _ hane]
    exact congrArg shrinkUnion
      (meetSlots_comm h (slots_canonical hb hbne) (slots_canonical ha hane))
  · exact glb_eq h ha hb hane hbne ‹∀ u, a = .union u → False› ‹∀ u, b = .union u → False›

end

@[simp] theorem joinSlots_empty (u : UnionType) : joinSlots J u UnionType.empty = u := by
  obtain ⟨_, _, _, _, _, _⟩ := u
  simp [joinSlots, UnionType.empty]

section

variable (h : Inner P le R J)

include h

variable (ha : a.CanonicalStep P) (hb : b.CanonicalStep P)

include ha hb

theorem joinNormal_eq_of_canonical (hane : a ≠ .any) (hbne : b ≠ .any) (ha' : a ≠ .none)
    (hb' : b ≠ .none) (hua : ∀ u, a ≠ .union u) (hub : ∀ u, b ≠ .union u) :
    joinNormal J a b = shrinkUnion (joinSlots J a.slots b.slots) := by
  by_cases htuple : ∀ s t, a = .tuple s → b = .tuple t → s.recordKey = none → t.recordKey = none
  · exact joinNormal_eq J hane hbne ha' hb' hua hub htuple
  · -- a tuple without a record key is joined with one that has a key
    push Not at htuple
    obtain ⟨s, t, rfl, rfl, hs, ht⟩ := htuple
    obtain ⟨k, hk⟩ := Option.ne_none_iff_exists'.mp ht
    have hcomm : lubTuples J s t = lubTuples J t s :=
      Option.some.inj ((lubTuples_bound h).comm (tuple_order h).dual ha hb)
    simp [joinNormal, joinTuples, hs, hk, joinSlots, Typ.slots, UnionType.empty, newTupleSet,
      joinTupleSets, jtsTuple, shrinkUnion, hcomm]

theorem joinStep_eq (hane : a ≠ .any) (hbne : b ≠ .any) (hab : a ≠ b) :
    joinStep J a b = shrinkUnion (joinSlots J a.slots b.slots) := by
  have hca := slots_canonical ha hane
  have hcb := slots_canonical hb hbne
  unfold joinStep
  rw [if_neg hab]
  split
  · exact absurd rfl hbne
  · exact absurd rfl hane
  · exact (congrArg shrinkUnion (joinSlots_empty _)).trans
      (shrinkUnion_slots_canonical ha hane) |>.symm
  · rw [joinSlots_comm h hca hcb]
    exact (congrArg shrinkUnion (joinSlots_empty _)).trans
      (shrinkUnion_slots_canonical hb hbne) |>.symm
  · exact joinUnions_eq J _ hbne
  · rw [joinUnions_eq J _ hane]
    exact congrArg shrinkUnion (joinSlots_comm h hcb hca)
  · exact joinNormal_eq_of_canonical h ha hb hane hbne ‹a = .none → False› ‹b = .none → False›
      ‹∀ u, a = .union u → False› ‹∀ u, b = .union u → False›

/-! ## The order of types -/

omit ha hb in
theorem typ_order : OrderOn (Typ.CanonicalStep P) (Typ.Le le) where
  refl {a} ha := by
    by_cases hany : a = .any
    · exact .inl hany
    · exact .inr ⟨hany, (union_lattice h).order.refl (slots_canonical ha hany)⟩
  trans {a b c} ha hb hc hab hbc := by
    rcases hbc with rfl | ⟨hbne, hbc⟩
    · exact .inl rfl
    obtain ⟨hane, hab⟩ := hab.resolve_left hbne
    by_cases hcne : c = .any
    · exact .inl hcne
    · exact .inr ⟨hane, (union_lattice h).order.trans (slots_canonical ha hane)
        (slots_canonical hb hbne) (slots_canonical hc hcne) hab hbc⟩
  antisymm {a b} ha hb hab hba := by
    rcases hab with rfl | ⟨hane, hab⟩
    · rcases hba with rfl | ⟨hne, -⟩
      · rfl
      · exact absurd rfl hne
    obtain ⟨hbne, hba⟩ := hba.resolve_left hane
    have hslots := (union_lattice h).order.antisymm (slots_canonical ha hane)
      (slots_canonical hb hbne) hab hba
    rw [← shrinkUnion_slots_canonical ha hane, hslots, shrinkUnion_slots_canonical hb hbne]

theorem meetStep_isMeet :
    IsMeet (Typ.CanonicalStep P) (Typ.Le le) a b (meetStep R a b) := by
  have hrefl : ∀ {t : Typ}, t.CanonicalStep P → Typ.Le le t t := (typ_order h).refl
  by_cases hab : a = b
  · subst hab
    unfold meetStep
    rw [if_pos rfl]
    exact ⟨ha, hrefl ha, hrefl ha, fun _ hza _ => hza⟩
  by_cases hane : a = .any
  · subst hane
    unfold meetStep
    rw [if_neg hab]
    exact ⟨hb, .inl rfl, hrefl hb, fun _ _ hzb => hzb⟩
  by_cases hbne : b = .any
  · subst hbne
    have hmeet : meetStep R a .any = a := by
      unfold meetStep
      rw [if_neg hab]
      split <;> first | rfl | contradiction
    rw [hmeet]
    exact ⟨ha, hrefl ha, .inl rfl, fun _ hza _ => hza⟩
  rw [meetStep_eq h ha hb hane hbne hab]
  have hca := slots_canonical ha hane
  have hcb := slots_canonical hb hbne
  obtain ⟨hP, hl, hr⟩ := (union_lattice h).meet.bound hca hcb rfl
  -- what is below a type other than `any` is not taken for `any`
  have hany : shrinkUnion (meetSlots R a.slots b.slots) ≠ .any := fun hany => by
    have := shrinkUnion_any_of_le h hca hl hany
    rw [shrinkUnion_slots_canonical ha hane] at this
    exact hane this
  obtain ⟨hstep, hslots⟩ := shrinkUnion_canonical hP hany
  refine ⟨hstep, .inr ⟨hany, ?_⟩, .inr ⟨hany, ?_⟩, fun {z} hz hza hzb => ?_⟩
  · rwa [hslots]
  · rwa [hslots]
  · obtain ⟨hzne, hza⟩ := hza.resolve_left hane
    obtain ⟨-, hzb⟩ := hzb.resolve_left hbne
    refine .inr ⟨hzne, ?_⟩
    rw [hslots]
    exact (union_lattice h).meet.greatest_some hca hcb (slots_canonical hz hzne) hza hzb

theorem joinStep_isJoin :
    IsMeet (Typ.CanonicalStep P) (flip (Typ.Le le)) a b (joinStep J a b) := by
  have hrefl : ∀ {t : Typ}, t.CanonicalStep P → Typ.Le le t t := (typ_order h).refl
  by_cases hab : a = b
  · subst hab
    unfold joinStep
    rw [if_pos rfl]
    exact ⟨ha, hrefl ha, hrefl ha, fun _ hza _ => hza⟩
  have hne_any : ∀ {x z : Typ}, x = .any → flip (Typ.Le le) z x → z = .any := by
    rintro x z rfl (rfl | ⟨hne, -⟩)
    · rfl
    · exact absurd rfl hne
  by_cases hane : a = .any ∨ b = .any
  · have hjoin : joinStep J a b = .any := by
      unfold joinStep
      rw [if_neg hab]
      rcases hane with rfl | rfl
      · cases b <;> rfl
      · rfl
    rw [hjoin]
    exact ⟨trivial, .inl rfl, .inl rfl, fun _ hza hzb =>
      .inl (hane.elim (fun ha => hne_any ha hza) fun hb => hne_any hb hzb)⟩
  obtain ⟨hane, hbne⟩ := not_or.mp hane
  rw [joinStep_eq h ha hb hane hbne hab]
  have hca := slots_canonical ha hane
  have hcb := slots_canonical hb hbne
  obtain ⟨hP, hl, hr⟩ := (union_lattice h).join.bound hca hcb rfl
  have hleast : ∀ {z : Typ}, z.CanonicalStep P → flip (Typ.Le le) z a → flip (Typ.Le le) z b →
      z ≠ .any → (joinSlots J a.slots b.slots).Le le z.slots := fun hz hza hzb hzne =>
    (union_lattice h).join.greatest_some hca hcb (slots_canonical hz hzne)
      (hza.resolve_left hzne).2 (hzb.resolve_left hzne).2
  by_cases hany : shrinkUnion (joinSlots J a.slots b.slots) = .any
  · rw [hany]
    refine ⟨trivial, .inl rfl, .inl rfl, fun {z} hz hza hzb => .inl ?_⟩
    by_contra hzne
    have := shrinkUnion_any_of_le h (slots_canonical hz hzne) (hleast hz hza hzb hzne) hany
    rw [shrinkUnion_slots_canonical hz hzne] at this
    exact hzne this
  · obtain ⟨hstep, hslots⟩ := shrinkUnion_canonical hP hany
    refine ⟨hstep, .inr ⟨hane, ?_⟩, .inr ⟨hbne, ?_⟩, fun {z} hz hza hzb => ?_⟩
    · rwa [hslots]
    · rwa [hslots]
    · by_cases hzne : z = .any
      · exact .inl hzne
      · refine .inr ⟨hany, ?_⟩
        rw [hslots]
        exact hleast hz hza hzb hzne

end

/-! ## Singletons -/

theorem TupleSet.Canonical.eq_none {s : TupleSet} (hs : s.Canonical P) (h : s.Le le .none) :
    s = .none :=
  hs.ext ⟨trivial, by simp [TupleSet.toList]⟩ (setLe_nil h)

/-- Below a singleton there is only `none`. -/
theorem typ_minimal (h : Inner P le R J) {x : Typ} (hx : x.CanonicalStep P) (ht : t.CanonicalStep P)
    (hle : Typ.Le le x t) (hsing : t.isSingletonType = true) (hne : x ≠ .none) : x = t := by
  have htany : t ≠ .any := by
    rintro rfl
    cases hsing
  obtain ⟨hxany, hle⟩ := hle.resolve_left htany
  have hcx := slots_canonical hx hxany
  have hshrink := shrinkUnion_slots_canonical hx hxany
  suffices hslots : x.slots = t.slots by
    rw [← hshrink, hslots, shrinkUnion_slots_canonical ht htany]
  have hempty : x.slots ≠ UnionType.empty := by
    intro hempty
    rw [hempty] at hshrink
    exact hne hshrink.symm
  generalize x.slots = u at *
  obtain ⟨atom, list, number, tupleSet, nativeRecordSet, other⟩ := u
  obtain ⟨hla, hll, hln, hlt, hlr, hlo⟩ := hle
  have hfloat : ∀ f g, t ≠ .number (.float (.pair f g)) := by
    rintro f g rfl
    exact ht.elim
  rcases Typ.singleton_cases hfloat hsing with ⟨a, rfl⟩ | ⟨n, rfl⟩ | rfl | ⟨s, rfl, hs⟩ | rfl
  -- only the slot of the singleton is in use
  all_goals
    try obtain rfl := botLe_none hla
    try obtain rfl := botLe_none hll
    try obtain rfl := botLe_none hln
    try obtain rfl := hcx.tupleSet.eq_none hlt
    obtain rfl := hcx.nativeRecordSet.eq_none hlr
    try obtain rfl := botLe_none hlo
  · match atom, hla with
    | none, _ => exact absurd rfl hempty
    | some (.set s), hla =>
      have hs := hcx.atom _ rfl
      obtain ⟨b, hb⟩ := List.exists_mem_of_ne_nil s hs.1
      have hback : AtomType.Le (.set [a]) (.set s) := fun c hc => by
        rw [List.mem_singleton.mp hc, ← List.mem_singleton.mp (hla hb)]
        exact hb
      have ht' : AtomType.Canonical (.set [a]) := ht
      rw [atom_order.antisymm hs ht' hla hback]
      rfl
  · cases number with
    | none => exact absurd rfl hempty
    | some m =>
      obtain ⟨r, hr, rfl | rfl⟩ := (hcx.number m rfl).cases
      · obtain ⟨k, hk⟩ := hr.exists_mem
        have hback : NumRange.Le (.pair (.int n) (.int n)) r := fun i hi => by
          have hkn := hln k hk
          rw [show i = k from le_antisymm (hi.2.trans hkn.1) (hkn.2.trans hi.1)]
          exact hk
        have ht' : NumRange.Valid (.pair (.int n) (.int n)) := ht
        rw [range_order.antisymm hr ht' hln hback]
        rfl
      · exact hln.elim
  · cases other with
    | none => exact absurd rfl hempty
    | some o =>
      have ho := hcx.other o rfl
      have hlo' : OtherType.Le le o (.map .none .none) := hlo
      cases hlo' with
      | map hk hv =>
        rw [h.le_none ho.1 hk, h.le_none ho.2 hv]
        rfl
  · have hts : tupleSet.Canonical P := hcx.tupleSet
    have hlt : tupleSet.Le le (newTupleSet s) := hlt
    have hs' : s.Canonical P := ht
    have hback : (newTupleSet s).Le le tupleSet := by
      obtain ⟨t, hmem⟩ : ∃ t, t ∈ tupleSet.toList := by
        refine List.exists_mem_of_ne_nil _ fun hnil => hempty ?_
        rw [show tupleSet = .none from hts.ext ⟨trivial, by simp [TupleSet.toList]⟩ hnil]
        rfl
      obtain ⟨u, hu, htu⟩ := hlt t hmem
      rw [toList_newTupleSet] at hu
      obtain rfl := List.mem_singleton.mp hu
      obtain rfl := singleton_tuple_minimal h (hts.2 t hmem) hs' htu hs
      intro u hu
      rw [toList_newTupleSet] at hu
      obtain rfl := List.mem_singleton.mp hu
      exact ⟨u, hmem, (tuple_order h).refl hs'⟩
    rw [(tupleSet_order h).antisymm hts (newTupleSet_canonical hs') hlt hback]
    rfl
  · rcases list with _ | _ | _ | _
    · exact absurd rfl hempty
    · rfl
    all_goals exact hll.elim

/-- One level of types over inner types. -/
theorem inner_step (h : Inner P le R J) :
    Inner (Typ.CanonicalStep P) (Typ.Le le) (meetStep R) (joinStep J) where
  lattice := ⟨typ_order h, .of_isMeet fun ha hb => meetStep_isMeet h ha hb,
    .of_isMeet fun ha hb => joinStep_isJoin h ha hb⟩
  none_le {x} _ := by
    by_cases hx : x = .any
    · exact .inl hx
    · exact .inr ⟨by simp, trivial, trivial, trivial, fun _ ht => (nomatch ht),
        fun _ hr => (nomatch hr), trivial⟩
  le_none {x} hx hle := by
    obtain ⟨hany, hle⟩ := hle.resolve_left (by simp)
    have hslots : x.slots = UnionType.empty := by
      have hcx := slots_canonical hx hany
      exact UnionType.eq_of_slots (botLe_none hle.atom) (botLe_none hle.list)
        (botLe_none hle.number) (hcx.tupleSet.eq_none hle.tupleSet)
        (hcx.nativeRecordSet.eq_none hle.nativeRecordSet) (botLe_none hle.other)
    rw [← shrinkUnion_slots_canonical hx hany, hslots]
    rfl
  le_any _ := .inl rfl
  any_le _ hle := hle.resolve_right fun h => h.1 rfl
  minimal hx ht hle hsing hne := typ_minimal h hx ht hle hsing hne

end Keys

end Otp.Compiler.BeamTypes
