import Otp.Compiler.BeamTypes.MeetSound

/-!
# Soundness of `meet/2` on unions

`shrink_union/1` keeps the terms of a union, except that its clause for `any`
does not look at every field. A meet of unions that are not widened is not
widened either.
-/

namespace Otp.Compiler.BeamTypes

open Otp.Lib

variable {num : NumRange → Prop} {uni : UnionType → Prop} {P : Typ → Prop} {R : Typ → Typ → Typ}
  {u : UnionType} {v : Term} {a : NumberType} {b : Typ} {es : List (ℕ × Typ)} {ex : Exported}
  {c : Bool} {α : Type}

/-- `shrink_union/1` loses no term. -/
theorem shrinkUnion_complete (h : (Typ.union u).Has v) : (shrinkUnion u).Has v := by
  unfold shrinkUnion
  split <;> first | exact has_any v | exact h | (cases h <;> simp_all <;> subst_vars <;> simp_all)

/-- `shrink_union/1` adds terms in its clause for `any` only. -/
theorem shrinkUnion_lower (hany : shrinkUnion u ≠ .any) (h : (shrinkUnion u).Has v) :
    (Typ.union u).Has v := by
  unfold shrinkUnion at h hany
  split at h
  · exact .unionAtom rfl h
  · exact .unionList rfl h
  · exact .unionNumber rfl h
  · exact .unionTuple rfl h
  · exact .unionRecords rfl (.head _) h
  · exact .unionNative rfl h
  · exact .unionNatives rfl (.head _) h
  · exact .unionOther rfl h
  · exact absurd h (not_has_none v)
  · exact absurd rfl hany
  · exact h

/-- The unions that `shrink_union/1` takes for `any`. The fields `exported` and
`local_creation` of the native record, and the elements of the tuple, are not
looked at. -/
theorem shrinkUnion_eq_any : shrinkUnion u = .any ↔
    u.atom = some .any ∧ u.list = some (.list .any .any) ∧ u.number = some (.number .any) ∧
      (∃ es, u.tupleSet = .tuple ⟨0, false, es⟩) ∧
      (∃ ex c, u.nativeRecordSet = .record ⟨none, ex, [], c⟩) ∧ u.other = some .other := by
  constructor
  · intro h
    unfold shrinkUnion at h
    split at h <;> simp_all
  · obtain ⟨atom, list, number, tupleSet, nativeRecordSet, other⟩ := u
    rintro ⟨h1, h2, h3, ⟨es, h4⟩, ⟨ex, c, h5⟩, h6⟩
    subst h1 h2 h3 h4 h5 h6
    rfl

/-! ## No meet of other types is `any` -/

/-- `R` returns `any` only on `any`. -/
def MeetAny (P : Typ → Prop) (R : Typ → Typ → Typ) : Prop :=
  ∀ ⦃x y : Typ⦄, P x → P y → R x y = .any → x = .any

theorem glbAtom_eq_any {a b : AtomType} (h : glbAtom a b = some .any) : a = .any := by
  unfold glbAtom at h
  split_ifs at h with heq
  · exact Option.some.inj h
  · cases a with
    | any => rfl
    | set s =>
      cases b with
      | any => cases h
      | set t =>
        simp only at h
        split at h <;> cases h

theorem glbList_eq_any (hR : MeetAny P R) {a b : ListType} (ha : a.Good P) (hb : b.Good P)
    (h : glbList R a b = some (.list .any .any)) : a = .list .any .any := by
  unfold glbList at h
  split_ifs at h with heq
  · exact Option.some.inj h
  match a, b with
  | .list t u, .list t' u' =>
    rcases meetCells_cases R t u t' u' with ⟨hcells, -⟩ | hcells <;> simp only [hcells] at h
    · cases h
    · obtain ⟨ht, hu⟩ := ListType.list.inj (Option.some.inj h)
      rw [hR ha.1 hb.1 ht, hR ha.2 hb.2 hu]
  | .cons t u, .cons t' u' | .cons t u, .list t' u' | .list t u, .cons t' u' =>
    obtain ⟨c, -, hc⟩ := Option.map_eq_some_iff.mp h
    cases hc
  | .nil, .nil | .nil, .cons _ _ | .nil, .list _ _ | .cons _ _, .nil | .list _ _, .nil => cases h

theorem glbNumber_eq_any {b : NumberType} (ha : a.Valid NumRange.RoundsInward)
    (hb : b.Valid NumRange.RoundsInward) (h : glbNumber a b = some (.number .any)) :
    a = .number .any := by
  have hint : ∀ n : ℤ, a.Mem (.int n) := fun n =>
    (glbNumber_lower ha hb h (v := .int n) trivial).1
  have hfloat : a.Mem (.float .negZero) :=
    (glbNumber_lower ha hb h (v := .float .negZero) trivial).1
  cases a with
  | integer r => exact hfloat.elim
  | float r => exact (hint 0).elim
  | number r => rw [ha.1.eq_any hint]

theorem glbOther_eq_other {a b : OtherType} (h : glbOther R a b = some .other) : a = .other := by
  unfold glbOther at h
  split_ifs at h with heq
  · exact Option.some.inj h
  split at h <;> simp_all
  · split at h <;> cases h
  · split_ifs at h with h1
    · rw [Option.some.inj h] at h1
      cases h1
    · cases h
  · split_ifs at h with h1 h2
    · exact Option.some.inj h
    · exact h2

theorem glbTuples_size_zero {a b : TupleType} (h : glbTuples R a b = some ⟨0, false, es⟩) :
    ∃ es', a = ⟨0, false, es'⟩ := by
  unfold glbTuples at h
  split_ifs at h with heq hsize
  · exact ⟨es, Option.some.inj h⟩
  obtain ⟨es', -, hes⟩ := Option.map_eq_some_iff.mp h
  obtain ⟨size, exact, es''⟩ := a
  simp only [TupleType.mk.injEq, Bool.or_eq_false_iff] at hes
  obtain rfl : size = 0 := by omega
  exact ⟨es'', by rw [hes.2.1.1]⟩

/-- A meet without a name is a meet of records without names. -/
theorem glbRecords_name_none {a b r : RecordType} (h : glbRecords R a b = some r)
    (hr : r.name = none) : a.name = none ∧ b.name = none := by
  rcases glbRecords_eq_some.mp h with ⟨rfl, rfl⟩ | ⟨-, name, e, fs, hn, -, -, rfl⟩
  · exact ⟨hr, hr⟩
  subst hr
  exact (meetKnown_bound.bound trivial trivial hn).2.imp (·.elim id Eq.symm) (·.elim id Eq.symm)

theorem glbRecords_unnamed {a b : RecordType} (ha : Ordset.IsMap a.type)
    (h : glbRecords R a b = some ⟨none, ex, [], c⟩) : ∃ ex' c', a = ⟨none, ex', [], c'⟩ := by
  have hname := (glbRecords_name_none h rfl).1
  rcases glbRecords_eq_some.mp h with ⟨-, heq⟩ | ⟨-, name, e, fs, -, -, hfs, heq⟩
  · exact ⟨ex, c, heq.symm⟩
  obtain ⟨-, -, rfl, -⟩ := RecordType.mk.inj heq
  have htype : a.type = [] := by
    refine List.eq_nil_iff_forall_not_mem.mpr fun f hf => ?_
    -- a known field would be a field of the meet
    have hlookup := (Ordset.mergeWith_eq_some hfs).2 f.1
    rw [(Ordset.lookup_eq_some ha).mpr hf] at hlookup
    cases hb : b.type.lookup f.1 with
    | none =>
      rw [hb] at hlookup
      cases hlookup
    | some g =>
      rw [hb] at hlookup
      have hnone := (Ordset.mergeWith_eq_none (f := glbField R)).mpr
        ⟨f.1, f.2, g, (Ordset.lookup_eq_some ha).mpr hf, hb, hlookup.symm⟩
      cases hnone.symm.trans hfs
  obtain ⟨n, e', fs', c'⟩ := a
  exact ⟨e', c', by simp_all⟩

theorem meetNativeRecordSets_top {a b : NativeRecordSet} (ha : a.Good P) (hb : b.Good P)
    (hsa : a.Sorted) (hsb : b.Sorted) (h : meetNativeRecordSets R a b = .record ⟨none, ex, [], c⟩) :
    ∃ ex' c', a = .record ⟨none, ex', [], c'⟩ := by
  -- a meet with a record of a set has the name of that record
  have hmerge : ∀ {rsA rsB : List RecordType}, NamesSorted rsA →
    (NativeRecordSet.records rsB).Sorted →
      nativeRecords (mnrsMerge R rsA rsB) ≠ .record ⟨none, ex, [], c⟩ := by
    intro rsA rsB hA hB heq
    have hlist := congrArg NativeRecordSet.toList heq
    rw [toList_nativeRecords] at hlist
    obtain ⟨r, hr, s, hs, hrs⟩ := (mem_mnrsMerge hA hB.2 hB.named).mp
      (show ⟨none, ex, [], c⟩ ∈ mnrsMerge R rsA rsB from hlist ▸ List.mem_singleton.mpr rfl)
    exact hB.named s hs (glbRecords_name_none hrs rfl).2
  match a, b with
  | .none, _ | .record _, .none | .records _, .none => cases h
  | .record r, .record s =>
    have h : (glbRecords R r s).elim NativeRecordSet.none .record = _ := h
    cases ht : glbRecords R r s with
    | none =>
      rw [ht] at h
      cases h
    | some t =>
      rw [ht] at h
      cases h
      obtain ⟨ex', c', rfl⟩ := glbRecords_unnamed (show RecordType.Good P r from ha).1 ht
      exact ⟨ex', c', rfl⟩
  | .record r, .records rs => exact absurd h (hmerge (namesSorted_singleton r) hsb)
  | .records rs, .record r => exact absurd h (hmerge (namesSorted_singleton r) hsa)
  | .records rsA, .records rsB => exact absurd h (hmerge hsa.2 hsb)

theorem elim_ne_any {c : α → Typ} (o : Option α) (hc : ∀ x, c x ≠ .any) :
    o.elim .none c ≠ .any := by
  cases o with
  | none => simp
  | some x => exact hc x

/-- `glb/2` builds no `any`. -/
theorem glb_ne_any {a : Typ} (ha : a ≠ .any) (hb : b ≠ .any) : glb R a b ≠ .any := by
  unfold glb
  split
  · exact absurd rfl ha
  · exact absurd rfl hb
  all_goals first | exact elim_ne_any _ (by simp) | simp

theorem slot_of_has {t : Typ} (h : t.Has v) (hany : t ≠ .any) (hunion : ∀ u, t ≠ .union u) :
    t.slot = some v.kind := by
  cases t with
  | any => exact absurd rfl hany
  | none => exact absurd h (not_has_none v)
  | union u => exact absurd rfl (hunion u)
  | _ => rw [kind_of_slot h rfl]; rfl

theorem glbSlot_eq_some {f : α → α → Option α} {x y : Option α} {c : α}
    (h : glbSlot f x y = some c) :
    ∃ a, x = some a ∧ ∃ b, y = some b ∧ f a b = some c := by
  cases x with
  | none => cases h
  | some a =>
    cases y with
    | none => cases h
    | some b => exact ⟨a, rfl, b, rfl, h⟩

theorem glbAtom_complete : SlotComplete .atom AtomType.Valid glbAtom :=
  fun _ _ _ _ _ h1 h2 => glbAtom_has.mpr ⟨h1, h2⟩

theorem glbAtom_lower : SlotLower .atom AtomType.Valid glbAtom := fun _ _ _ _ _ => glbAtom_has.mp

theorem slot_glbNumber_complete : SlotComplete .number (NumberType.Valid num) glbNumber := by
  intro a b v ha hb h1 h2
  obtain ⟨c, hc, hv⟩ := glbNumber_complete ha hb (has_number.mp h1) (has_number.mp h2)
  exact ⟨c, hc, has_number.mpr hv⟩

theorem slot_glbNumber_lower :
    SlotLower .number (NumberType.Valid NumRange.RoundsInward) glbNumber := by
  rintro a b v ha hb ⟨c, hc, hv⟩
  exact (glbNumber_lower ha hb hc (has_number.mp hv)).imp has_number.mpr has_number.mpr

theorem glb_complete (hR : MeetComplete P R) {a : Typ} (ha : a.Good num uni P)
    (hb : b.Good num uni P) (hslot : a.slot = some v.kind) (hslot' : b.slot = some v.kind)
    (h1 : a.Has v) (h2 : b.Has v) : (glb R a b).Has v := by
  have hslots := hslot.trans hslot'.symm
  cases a <;> cases b <;> first | cases hslot | (cases hslots; done) | skip
  · exact has_elim.mpr (glbAtom_complete ha hb h1 h2)
  · exact has_elim.mpr (glbList_complete hR ha hb h1 h2)
  · exact has_elim.mpr (slot_glbNumber_complete ha hb h1 h2)
  · exact has_elim.mpr (glbTuples_complete hR ha hb h1 h2)
  · exact has_elim.mpr (glbRecords_complete hR ha hb h1 h2)
  · exact has_elim.mpr (glbOther_complete hR ha hb h1 h2)

theorem glb_lower (hR : MeetLower P R) {a : Typ} (ha : a.Good NumRange.RoundsInward uni P)
    (hb : b.Good NumRange.RoundsInward uni P) (h : (glb R a b).Has v) : a.Has v ∧ b.Has v := by
  unfold glb at h
  split at h
  · exact ⟨has_any v, h⟩
  · exact ⟨h, has_any v⟩
  · exact glbAtom_lower ha hb (has_elim.mp h)
  · exact glbList_lower hR ha hb (has_elim.mp h)
  · exact slot_glbNumber_lower ha hb (has_elim.mp h)
  · exact glbTuples_lower hR ha hb (has_elim.mp h)
  · exact glbRecords_lower hR ha hb (has_elim.mp h)
  · exact glbOther_lower hR ha hb (has_elim.mp h)
  · exact absurd h (not_has_none v)

theorem singletonUnique_within (n : ℕ) : SingletonUnique (WellFormedWithin num uni n) := by
  induction n with
  | zero => exact fun x y v hx => hx.elim
  | succ n ih => exact singletonUnique_good ih

theorem slots_good (h : b.Good num uni P) : b.slots.Good num P := by
  have hempty : UnionType.empty.Good num P :=
    ⟨by simp [UnionType.empty], by simp [UnionType.empty], by simp [UnionType.empty], trivial,
      trivial, by simp [UnionType.empty]⟩
  cases b with
  | any | none => exact hempty
  | atom a =>
    refine { hempty with atom := fun x hx => ?_ }
    cases hx
    exact h
  | list l =>
    refine { hempty with list := fun x hx => ?_ }
    cases hx
    exact h
  | number n =>
    refine { hempty with number := fun x hx => ?_ }
    cases hx
    exact h
  | tuple t => exact { hempty with tupleSet := newTupleSet_good h }
  | record r => exact { hempty with nativeRecordSet := h }
  | other o =>
    refine { hempty with other := fun x hx => ?_ }
    cases hx
    exact h
  | union u => exact h.2

/-- A type has the terms of its slots. -/
theorem has_slots (hany : b ≠ .any) : (Typ.union b.slots).Has v ↔ b.Has v := by
  by_cases hunion : ∃ u, b = .union u
  · obtain ⟨u, rfl⟩ := hunion
    exact Iff.rfl
  · push Not at hunion
    have hshrink := shrinkUnion_slots hany hunion
    exact ⟨fun h => hshrink ▸ shrinkUnion_complete h,
      fun h => shrinkUnion_lower (by rwa [hshrink]) (by rwa [hshrink])⟩

section Keys

variable [LinearOrder RecordKey] {a : UnionType}

/-- Unions in order that `shrink_union/1` does not widen. -/
def UnionType.Narrow (u : UnionType) : Prop := u.Ordered ∧ shrinkUnion u ≠ .any

theorem slots_ordered (huni : ∀ u, uni u → u.Ordered) (h : b.Good num uni P) : b.slots.Ordered := by
  cases b with
  | tuple t => exact ⟨newTupleSet_keyed t, trivial⟩
  | union u => exact huni u h.1
  | _ => exact ⟨trivial, trivial⟩

section

variable (hR : MeetComplete P R) (hP : SingletonUnique P) (ha : a.Good num P) (hoa : a.Ordered)
  (h1 : (Typ.union a).Has v)

include hR hP ha hoa h1

theorem meetSlots_complete {b : UnionType} (hb : b.Good num P) (hob : b.Ordered)
    (h2 : (Typ.union b).Has v) : (Typ.union (meetSlots R a b)).Has v := by
  rw [has_union] at h1 h2 ⊢
  cases hk : v.kind <;> rw [hk] at h1 h2
  · exact glbSlot_complete glbAtom_complete ha.atom hb.atom h1 h2
  · exact glbSlot_complete (glbList_complete hR) ha.list hb.list h1 h2
  · exact glbSlot_complete slot_glbNumber_complete ha.number hb.number h1 h2
  · exact meetTupleSets_complete hR hP ha.tupleSet hb.tupleSet hoa.tupleSet hob.tupleSet h1 h2
  · exact meetNativeRecordSets_complete hR ha.nativeRecordSet hb.nativeRecordSet
      hoa.nativeRecordSet hob.nativeRecordSet h1 h2
  · exact glbSlot_complete (glbOther_complete hR) ha.other hb.other h1 h2

theorem meetUnions_complete (huni : ∀ u, uni u → u.Ordered) (hb : b.Good num uni P)
    (hany : b ≠ .any) (h2 : b.Has v) : (meetUnions R a b).Has v := by
  rw [meetUnions_eq a hany]
  exact shrinkUnion_complete (meetSlots_complete hR hP ha hoa h1 (slots_good hb)
    (slots_ordered huni hb) ((has_slots hany).mpr h2))

end

theorem meetTupleSets_top {a b : TupleSet} (h : meetTupleSets R a b = .tuple ⟨0, false, es⟩) :
    ∃ es', a = .tuple ⟨0, false, es'⟩ := by
  have hrecords : ∀ rs, recordsOrNone rs ≠ .tuple ⟨0, false, es⟩ := by
    intro rs
    cases rs <;> simp [recordsOrNone]
  match a, b with
  | .none, _ | .tuple _, .none | .records _, .none => cases h
  | .tuple t, .tuple u =>
    have h : (glbTuples R t u).elim TupleSet.none newTupleSet = _ := h
    cases hw : glbTuples R t u with
    | none =>
      rw [hw] at h
      cases h
    | some w =>
      rw [hw, Option.elim_some, newTupleSet] at h
      split at h <;> cases h
      obtain ⟨es', rfl⟩ := glbTuples_size_zero hw
      exact ⟨es', rfl⟩
  | .tuple t, .records rs | .records rs, .tuple t | .records rsA, .records rsB =>
    exact absurd h (hrecords _)

/-- The meet of two unions is not widened if the unions are not. -/
theorem meetUnions_narrow (hR : MeetAny P R) {b : UnionType} (ha : a.Good NumRange.RoundsInward P)
    (hb : b.Good NumRange.RoundsInward P) (hna : a.Narrow) (hnb : b.Narrow) :
    meetUnions R a (.union b) ≠ .any := by
  intro h
  obtain ⟨h1, h2, h3, ⟨es, h4⟩, ⟨ex, c, h5⟩, h6⟩ := shrinkUnion_eq_any.mp h
  obtain ⟨x, hx, y, -, hxy⟩ := glbSlot_eq_some h1
  obtain ⟨l, hl, m, hm, hlm⟩ := glbSlot_eq_some h2
  obtain ⟨p, hp, q, hq, hpq⟩ := glbSlot_eq_some h3
  obtain ⟨o, ho, o', -, hoo⟩ := glbSlot_eq_some h6
  refine hna.2 (shrinkUnion_eq_any.mpr ⟨?_, ?_, ?_, meetTupleSets_top h4,
    meetNativeRecordSets_top ha.nativeRecordSet hb.nativeRecordSet hna.1.nativeRecordSet
      hnb.1.nativeRecordSet h5, ?_⟩)
  · rw [hx, glbAtom_eq_any hxy]
  · rw [hl, glbList_eq_any hR (ha.list l hl) (hb.list m hm) hlm]
  · rw [hp, glbNumber_eq_any (ha.number p hp) (hb.number q hq) hpq]
  · rw [ho, glbOther_eq_other hoo]

/-- The meet of a union with a type of one slot is not `any`. -/
theorem meetUnions_ne_any (hb : b ≠ .any) (hub : ∀ u, b ≠ .union u) : meetUnions R u b ≠ .any := by
  cases b with
  | any => exact absurd rfl hb
  | union b => exact absurd rfl (hub b)
  | none => simp [meetUnions]
  | tuple b | record b => exact fun h => by cases (shrinkUnion_eq_any.mp h).1
  | atom b | list b | number b | other b => exact elim_ne_any _ (by simp)

theorem meetUnions_not_any (hR : MeetAny P R) (ha : a.Good NumRange.RoundsInward P) (hna : a.Narrow)
    (hb : b.Good NumRange.RoundsInward UnionType.Narrow P) (hne : b ≠ .any) :
    meetUnions R a b ≠ .any := by
  cases b with
  | union b => exact meetUnions_narrow hR ha hb.2 hna hb.1
  | _ => exact meetUnions_ne_any hne (by simp)

theorem meetSlots_lower (hR : MeetLower P R) {b : UnionType} (ha : a.Good NumRange.RoundsInward P)
    (hb : b.Good NumRange.RoundsInward P) (hoa : a.Ordered) (hob : b.Ordered)
    (h : (Typ.union (meetSlots R a b)).Has v) : (Typ.union a).Has v ∧ (Typ.union b).Has v := by
  simp only [has_union] at h ⊢
  cases hk : v.kind <;> rw [hk] at h
  · exact glbSlot_lower glbAtom_lower ha.atom hb.atom h
  · exact glbSlot_lower (glbList_lower hR) ha.list hb.list h
  · exact glbSlot_lower slot_glbNumber_lower ha.number hb.number h
  · exact meetTupleSets_lower hR ha.tupleSet hb.tupleSet hoa.tupleSet hob.tupleSet h
  · exact meetNativeRecordSets_lower hR ha.nativeRecordSet hb.nativeRecordSet
      hoa.nativeRecordSet hob.nativeRecordSet h
  · exact glbSlot_lower (glbOther_lower hR) ha.other hb.other h

theorem meetUnions_lower (hR : MeetLower P R) (hany : MeetAny P R)
    (ha : a.Good NumRange.RoundsInward P) (hna : a.Narrow)
    (hb : b.Good NumRange.RoundsInward UnionType.Narrow P) (hne : b ≠ .any)
    (h : (meetUnions R a b).Has v) : (Typ.union a).Has v ∧ b.Has v := by
  have hnarrow := meetUnions_not_any hany ha hna hb hne
  rw [meetUnions_eq a hne] at h hnarrow
  exact (meetSlots_lower hR ha (slots_good hb) hna.1 (slots_ordered (fun _ h => h.1) hb)
    (shrinkUnion_lower hnarrow h)).imp id (has_slots hne).mp

/-! ## One level of `meet/2` -/

/-- The clauses of `meet/2`. -/
theorem meetStep_cases (R : Typ → Typ → Typ) (a b : Typ) :
    (a = b ∧ meetStep R a b = a) ∨ (a = .any ∧ meetStep R a b = b) ∨
      (b = .any ∧ meetStep R a b = a) ∨
      (∃ u, a = .union u ∧ b ≠ .any ∧ meetStep R a b = meetUnions R u b) ∨
      (∃ u, b = .union u ∧ a ≠ .any ∧ (∀ u, a ≠ .union u) ∧
        meetStep R a b = meetUnions R u a) ∨
      (a ≠ .any ∧ b ≠ .any ∧ (∀ u, a ≠ .union u) ∧ (∀ u, b ≠ .union u) ∧
        meetStep R a b = glb R a b) := by
  unfold meetStep
  split_ifs with heq
  · exact .inl ⟨heq, rfl⟩
  · cases a <;> cases b <;> simp_all

theorem meetStep_complete (hR : MeetComplete P R) (hP : SingletonUnique P)
    (huni : ∀ u, uni u → u.Ordered) : MeetComplete (Typ.Good num uni P) (meetStep R) := by
  intro a b v ha hb h1 h2
  rcases meetStep_cases R a b with ⟨-, h⟩ | ⟨-, h⟩ | ⟨-, h⟩ | ⟨u, rfl, hb', h⟩ |
    ⟨u, rfl, ha', -, h⟩ | ⟨ha', hb', hua, hub, h⟩ <;> rw [h]
  · exact h1
  · exact h2
  · exact h1
  · exact meetUnions_complete hR hP ha.2 (huni _ ha.1) h1 huni hb hb' h2
  · exact meetUnions_complete hR hP hb.2 (huni _ hb.1) h2 huni ha ha' h1
  · exact glb_complete hR ha hb (slot_of_has h1 ha' hua) (slot_of_has h2 hb' hub) h1 h2

theorem meetStep_lower (hR : MeetLower P R) (hany : MeetAny P R) :
    MeetLower (Typ.Good NumRange.RoundsInward UnionType.Narrow P) (meetStep R) := by
  intro a b v ha hb hv
  rcases meetStep_cases R a b with ⟨heq, h⟩ | ⟨heq, h⟩ | ⟨heq, h⟩ | ⟨u, rfl, hb', h⟩ |
    ⟨u, rfl, ha', -, h⟩ | ⟨-, -, -, -, h⟩ <;> rw [h] at hv
  · exact ⟨hv, heq ▸ hv⟩
  · exact ⟨heq ▸ has_any v, hv⟩
  · exact ⟨hv, heq ▸ has_any v⟩
  · exact meetUnions_lower hR hany ha.2 ha.1 hb hb' hv
  · exact (meetUnions_lower hR hany hb.2 hb.1 ha ha' hv).symm
  · exact glb_lower hR ha hb hv

theorem meetStep_any (hany : MeetAny P R) :
    MeetAny (Typ.Good NumRange.RoundsInward UnionType.Narrow P) (meetStep R) := by
  intro a b ha hb h
  rcases meetStep_cases R a b with ⟨-, h'⟩ | ⟨heq, -⟩ | ⟨-, h'⟩ | ⟨u, rfl, hb', h'⟩ |
    ⟨u, rfl, ha', hua, h'⟩ | ⟨ha', hb', -, -, h'⟩
  · exact h'.symm.trans h
  · exact heq
  · exact h'.symm.trans h
  · exact absurd (h'.symm.trans h) (meetUnions_not_any hany ha.2 ha.1 hb hb')
  · exact absurd (h'.symm.trans h) (meetUnions_ne_any ha' hua)
  · exact absurd (h'.symm.trans h) (glb_ne_any ha' hb')

/-! ## Every level -/

theorem meetWithin_complete (huni : ∀ u, uni u → u.Ordered) (n : ℕ) :
    MeetComplete (WellFormedWithin num uni n) (meetWithin n) := by
  induction n with
  | zero => exact fun x y v hx => hx.elim
  | succ n ih => exact meetStep_complete ih (singletonUnique_within n) huni

theorem meetWithin_any (n : ℕ) :
    MeetAny (WellFormedWithin NumRange.RoundsInward UnionType.Narrow n) (meetWithin n) := by
  induction n with
  | zero => exact fun x y hx => hx.elim
  | succ n ih => exact meetStep_any ih

theorem meetWithin_lower (n : ℕ) :
    MeetLower (WellFormedWithin NumRange.RoundsInward UnionType.Narrow n) (meetWithin n) := by
  induction n with
  | zero => exact fun x y v hx => hx.elim
  | succ n ih => exact meetStep_lower ih (meetWithin_any n)

/-- `meet/2` loses no common term. -/
theorem meet_complete : MeetComplete Typ.WellFormed meet := by
  rintro a b v ⟨n, ha⟩ ⟨m, hb⟩ h1 h2
  exact meetWithin_complete (fun _ h => h) _ (ha.within (by omega)) (hb.within (by omega)) h1 h2

/-- `meet/2` adds no term, on types whose ends and unions are not widened. -/
theorem meet_lower : MeetLower (Typ.WellFormedWith NumRange.RoundsInward
    UnionType.Narrow) meet := by
  rintro a b v ⟨n, ha⟩ ⟨m, hb⟩ h
  exact meetWithin_lower _ (ha.within (by omega)) (hb.within (by omega)) h

end Keys

end Otp.Compiler.BeamTypes
