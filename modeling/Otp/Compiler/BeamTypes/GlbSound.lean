import Otp.Compiler.BeamTypes.RangeSound
import Otp.Compiler.BeamTypes.SlotBounds

/-!
# Soundness of `glb/2`

The meets of two types of one slot, against the terms they describe. The inner
calls enter as a function `R` that is sound for the types that satisfy `P`.
-/

namespace Otp.Compiler.BeamTypes

open Otp.Lib

/-- `R` keeps every common term of two types that satisfy `P`. -/
def MeetComplete (P : Typ → Prop) (R : Typ → Typ → Typ) : Prop :=
  ∀ ⦃x y : Typ⦄ ⦃v : Term⦄, P x → P y → x.Has v → y.Has v → (R x y).Has v

/-- `R` adds no term to two types that satisfy `P`. -/
def MeetLower (P : Typ → Prop) (R : Typ → Typ → Typ) : Prop :=
  ∀ ⦃x y : Typ⦄ ⦃v : Term⦄, P x → P y → (R x y).Has v → x.Has v ∧ y.Has v

section Slots

variable {α : Type} {c : α → Typ} {v : Term} {f : α → α → Option α} {x y : Option α} {Q : α → Prop}

@[simp] theorem slotHas_none : ¬ SlotHas c none v := by
  simp [SlotHas]

@[simp] theorem slotHas_some {a : α} : SlotHas c (some a) v ↔ (c a).Has v := by
  simp [SlotHas]

theorem has_elim {o : Option α} : (o.elim .none c).Has v ↔ SlotHas c o v := by
  cases o <;> simp

/-- `f` keeps the common terms of values that satisfy `Q`. -/
def SlotComplete (c : α → Typ) (Q : α → Prop) (f : α → α → Option α) : Prop :=
  ∀ ⦃a b : α⦄ ⦃v : Term⦄, Q a → Q b → (c a).Has v → (c b).Has v → SlotHas c (f a b) v

/-- `f` adds no term to values that satisfy `Q`. -/
def SlotLower (c : α → Typ) (Q : α → Prop) (f : α → α → Option α) : Prop :=
  ∀ ⦃a b : α⦄ ⦃v : Term⦄, Q a → Q b → SlotHas c (f a b) v → (c a).Has v ∧ (c b).Has v

theorem glbSlot_complete (hf : SlotComplete c Q f) (ha : ∀ a ∈ x, Q a) (hb : ∀ b ∈ y, Q b)
    (hx : SlotHas c x v) (hy : SlotHas c y v) : SlotHas c (glbSlot f x y) v := by
  obtain ⟨a, rfl, hva⟩ := hx
  obtain ⟨b, rfl, hvb⟩ := hy
  exact hf (ha a rfl) (hb b rfl) hva hvb

theorem glbSlot_lower (hf : SlotLower c Q f) (ha : ∀ a ∈ x, Q a) (hb : ∀ b ∈ y, Q b)
    (h : SlotHas c (glbSlot f x y) v) : SlotHas c x v ∧ SlotHas c y v := by
  cases x with
  | none => exact absurd h slotHas_none
  | some a =>
    cases y with
    | none => exact absurd h slotHas_none
    | some b => exact (hf (ha a rfl) (hb b rfl) h).imp slotHas_some.mpr slotHas_some.mpr

end Slots

variable {t u : Typ} {v : Term}

theorem notNone_of_has (h : t.Has v) : t.notNone = some t := by
  cases t <;> first | rfl | exact absurd h (not_has_none v)

/-! ## Atoms -/

theorem glbAtom_has {a b : AtomType} :
    SlotHas .atom (glbAtom a b) v ↔ (Typ.atom a).Has v ∧ (Typ.atom b).Has v := by
  unfold glbAtom
  split_ifs with heq
  · subst heq
    simp
  · match a, b with
    | .any, .any => exact absurd rfl heq
    | .any, .set s | .set s, .any => cases v <;> simp [AtomType.Mem]
    | .set s1, .set s2 =>
      have hmem : ∀ x, x ∈ Ordset.intersection s1 s2 ↔ x ∈ s1 ∧ x ∈ s2 := fun x =>
        Ordset.mem_intersection
      cases hs : Ordset.intersection s1 s2 with
      | nil =>
        rw [hs] at hmem
        cases v <;> simp [AtomType.Mem, hs]
        exact fun h1 h2 => absurd ((hmem _).mpr ⟨h1, h2⟩) (by simp)
      | cons x s =>
        rw [hs] at hmem
        cases v <;> simp only [hs, slotHas_some, has_atom, AtomType.Mem, and_false]
        exact hmem _

/-! ## Lists -/

section Inner

variable {P : Typ → Prop} {R : Typ → Typ → Typ} {t' u' : Typ} {a b : RecordType} {β : Type}
  {o : OtherType} {arity arity' : Option ℕ} {target target' : Option (Atom × ℕ)} {ex : Bool}
  {x y : Option Typ} {w : Option Term}

theorem meetCells_cases (R : Typ → Typ → Typ) (t u t' u' : Typ) :
    (meetCells R t u t' u' = none ∧ (R t t' = .none ∨ R u u' = .none)) ∨
      meetCells R t u t' u' = some (R t t', R u u') := by
  unfold meetCells
  cases R t t' <;> cases R u u' <;> simp

theorem meet_cons_complete (hR : MeetComplete P R) (h : (ListType.cons t u).Good P)
    (h' : (ListType.cons t' u').Good P) (hv : (Typ.list (.cons t u)).Has v)
    (hv' : (Typ.list (.cons t' u')).Has v) :
    meetCells R t u t' u' = some (R t t', R u u') ∧
      (Typ.list (.cons (R t t') (R u u'))).Has v := by
  obtain ⟨⟨x, y, rfl⟩, ht, hu⟩ := has_cons.mp hv
  obtain ⟨-, ht', hu'⟩ := has_cons.mp hv'
  have hcells : ∀ e ∈ (Term.cons x y).elements, (R t t').Has e := fun e he =>
    hR h.1 h'.1 (ht e he) (ht' e he)
  have hterm := hR h.2 h'.2 hu hu'
  refine ⟨?_, has_cons.mpr ⟨⟨x, y, rfl⟩, hcells, hterm⟩⟩
  rcases meetCells_cases R t u t' u' with ⟨-, hnone | hnone⟩ | hsome
  · have := hcells x (by simp [Term.elements])
    rw [hnone] at this
    exact absurd this (not_has_none x)
  · rw [hnone] at hterm
    exact absurd hterm (not_has_none _)
  · exact hsome

theorem glbList_complete (hR : MeetComplete P R) :
    SlotComplete .list (ListType.Good P) (glbList R) := by
  intro a b v ha hb h1 h2
  unfold glbList
  split_ifs with heq
  · exact slotHas_some.mpr h1
  match a, b with
  | .nil, .nil => exact absurd rfl heq
  | .nil, .cons t u =>
    obtain rfl := has_nil.mp h1
    cases h2
  | .cons t u, .nil =>
    obtain rfl := has_nil.mp h2
    cases h1
  | .nil, .list t u => exact slotHas_some.mpr h1
  | .list t u, .nil => exact slotHas_some.mpr h2
  | .cons t u, .cons t' u' =>
    obtain ⟨hcells, hmem⟩ := meet_cons_complete hR ha hb h1 h2
    simp only [hcells]
    exact slotHas_some.mpr hmem
  | .cons t u, .list t' u' =>
    rcases has_list.mp h2 with rfl | h2
    · cases h1
    obtain ⟨hcells, hmem⟩ := meet_cons_complete hR ha hb h1 h2
    simp only [hcells]
    exact slotHas_some.mpr hmem
  | .list t u, .cons t' u' =>
    rcases has_list.mp h1 with rfl | h1
    · cases h2
    obtain ⟨hcells, hmem⟩ := meet_cons_complete hR hb ha h2 h1
    simp only [hcells]
    exact slotHas_some.mpr hmem
  | .list t u, .list t' u' =>
    rcases has_list.mp h1 with rfl | h1
    · rcases meetCells_cases R t u t' u' with ⟨hcells, -⟩ | hcells <;> simp only [hcells]
      · exact slotHas_some.mpr .nil
      · exact slotHas_some.mpr .listNil
    rcases has_list.mp h2 with rfl | h2
    · cases h1
    obtain ⟨hcells, hmem⟩ := meet_cons_complete hR ha hb h1 h2
    simp only [hcells]
    exact slotHas_some.mpr (.listCons hmem)

/-! ## The slot `other` -/

/-- Fields that agree with one value have a meet that agrees with it. -/
theorem meetKnown_complete [DecidableEq β] {x y : Option β} {w : β} (hx : ∀ m, x = some m → w = m)
    (hy : ∀ m, y = some m → w = m) : ∃ z, meetKnown x y = some z ∧ ∀ m, z = some m → w = m := by
  cases x with
  | none => cases y <;> exact ⟨_, rfl, hy⟩
  | some a =>
    obtain rfl := hx a rfl
    cases y with
    | none => exact ⟨_, rfl, hx⟩
    | some b =>
      obtain rfl := hy b rfl
      exact ⟨_, if_pos rfl, hx⟩

theorem OtherType.isIdentifier_has (h : o.isIdentifier = true) (hv : (Typ.other o).Has v) :
    (Typ.other .identifier).Has v := by
  cases o with
  | identifier => exact hv
  | pid =>
    obtain ⟨i, rfl⟩ := has_pid.mp hv
    exact .identifierPid i
  | port =>
    obtain ⟨i, rfl⟩ := has_port.mp hv
    exact .identifierPort i
  | reference =>
    obtain ⟨i, rfl⟩ := has_reference.mp hv
    exact .identifierReference i
  | _ => cases h

theorem OtherType.isIdentifier_or (h : (Typ.other .identifier).Has v) (hv : (Typ.other o).Has v) :
    o.isIdentifier = true ∨ o = .other := by
  obtain ⟨i, rfl | rfl | rfl⟩ := has_identifier.mp h <;> cases hv <;> simp [OtherType.isIdentifier]

theorem has_other_of (h : (Typ.other o).Has v) : (Typ.other .other).Has v :=
  .other (isOther_iff.mpr (kind_other h))

/-- The clauses of `glb/2` for `identifier` keep the terms of both types. -/
theorem glbIdentifier_has (hid : (Typ.other .identifier).Has v) (ho : (Typ.other o).Has v) :
    SlotHas .other (if o.isIdentifier then some o
      else if o = .other then some .identifier else none)
      v := by
  rcases o.isIdentifier_or hid ho with h | rfl
  · rw [if_pos h]
    exact slotHas_some.mpr ho
  · exact slotHas_some.mpr hid

section Bits

variable {u1 u2 : ℕ} {p p1 p2 : Bool} {v : Term}

theorem bitstring_common : (Typ.other (.bitstring (commonUnit u1 u2) p)).Has v ↔
    (Typ.other (.bitstring u1 p1)).Has v ∧ (Typ.other (.bitstring u2 p2)).Has v := by
  cases v <;> simp [has_bitstring, commonUnit_dvd]

theorem bitstring_matchable : (Typ.other (.bitstring (commonUnit u1 u2) p)).Has v ↔
    (Typ.other (.bitstring u1 p1)).Has v ∧ (Typ.other (.bsMatchable u2)).Has v := by
  cases v <;> simp [has_bitstring, has_bsMatchable, commonUnit_dvd]

theorem context_common : (Typ.other (.bsContext (commonUnit u1 u2))).Has v ↔
    (Typ.other (.bsContext u1)).Has v ∧ (Typ.other (.bsContext u2)).Has v := by
  cases v <;> simp [has_bsContext, commonUnit_dvd]

theorem context_matchable : (Typ.other (.bsContext (commonUnit u1 u2))).Has v ↔
    (Typ.other (.bsContext u1)).Has v ∧ (Typ.other (.bsMatchable u2)).Has v := by
  cases v <;> simp [has_bsContext, has_bsMatchable, commonUnit_dvd]

theorem matchable_common : (Typ.other (.bsMatchable (commonUnit u1 u2))).Has v ↔
    (Typ.other (.bsMatchable u1)).Has v ∧ (Typ.other (.bsMatchable u2)).Has v := by
  cases v <;> simp [has_bsMatchable, commonUnit_dvd]

end Bits

section

variable (hR : MeetComplete P R)

include hR

/-- A known target of a fun, and a known arity, meet as sets of terms. -/
theorem meet_fn_complete (ht : P t) (ht' : P t') (h1 : (Typ.other (.fn arity target t)).Has v)
    (h2 : (Typ.other (.fn arity' target' t')).Has v) :
    ∃ g n, meetKnown target target' = some g ∧ meetKnown arity arity' = some n ∧
      (Typ.other (.fn n g (R t t'))).Has v := by
  obtain ⟨m, g0, returns, rfl, hn1, hg1, hr1⟩ := has_fn.mp h1
  obtain ⟨_, _, _, hv, hn2, hg2, hr2⟩ := has_fn.mp h2
  cases hv
  obtain ⟨n, hn, hnm⟩ := meetKnown_complete hn1 hn2
  have hret : ∀ i w, returns i = some w → (R t t').Has w := fun i w hw =>
    hR ht ht' (hr1 i w hw) (hr2 i w hw)
  cases g0 with
  | none =>
    -- a fun made from an unknown function has no known target
    obtain rfl : target = none := Option.eq_none_iff_forall_ne_some.mpr fun g hg => by
      cases hg1 g hg
    obtain rfl : target' = none := Option.eq_none_iff_forall_ne_some.mpr fun g hg => by
      cases hg2 g hg
    exact ⟨none, n, rfl, hn, has_fn.mpr ⟨m, none, returns, rfl, hnm, by simp, hret⟩⟩
  | some g0 =>
    obtain ⟨g, hg, hgm⟩ := meetKnown_complete
      (fun x hx => Option.some.inj (hg1 x hx)) fun x hx => Option.some.inj (hg2 x hx)
    exact ⟨g, n, hg, hn, has_fn.mpr ⟨m, some g0, returns, rfl, hnm,
      fun x hx => congrArg some (hgm x hx), hret⟩⟩

theorem glbOther_complete : SlotComplete .other (OtherType.Good P) (glbOther R) := by
  intro a b v ha hb h1 h2
  unfold glbOther
  split_ifs with heq
  · exact slotHas_some.mpr h1
  split
  · exact slotHas_some.mpr (bitstring_common.mpr ⟨h1, h2⟩)
  · exact slotHas_some.mpr (bitstring_matchable.mpr ⟨h1, h2⟩)
  · exact slotHas_some.mpr (bitstring_matchable.mpr ⟨h2, h1⟩)
  · exact slotHas_some.mpr (context_common.mpr ⟨h1, h2⟩)
  · exact slotHas_some.mpr (context_matchable.mpr ⟨h1, h2⟩)
  · exact slotHas_some.mpr (context_matchable.mpr ⟨h2, h1⟩)
  · exact slotHas_some.mpr (matchable_common.mpr ⟨h1, h2⟩)
  · obtain ⟨g, n, hg, hn, hmem⟩ := meet_fn_complete hR ha.2 hb.2 h1 h2
    simp only [hg, hn]
    exact slotHas_some.mpr hmem
  · obtain ⟨es, rfl, hk, hw⟩ := has_map.mp h1
    obtain ⟨_, hes, hk', hw'⟩ := has_map.mp h2
    cases hes
    exact slotHas_some.mpr (.map (fun e he => hR ha.1 hb.1 (hk e he) (hk' e he))
      fun e he => hR ha.2 hb.2 (hw e he) (hw' e he))
  · exact glbIdentifier_has h1 h2
  · exact glbIdentifier_has h2 h1
  · exact slotHas_some.mpr h2
  · exact slotHas_some.mpr h1
  · -- no clause relates the types, and they have no common term
    cases h1 <;> cases h2 <;> grind

/-! ## Tuples -/

theorem glbTuples_complete : SlotComplete .tuple (TupleType.Good P) (glbTuples R) := by
  intro a b v ha hb h1 h2
  unfold glbTuples
  obtain ⟨vs, rfl, hs1, he1, hes1⟩ := has_tuple.mp h1
  obtain ⟨_, hvs, hs2, he2, hes2⟩ := has_tuple.mp h2
  cases hvs
  split_ifs with heq hsize
  · exact slotHas_some.mpr h1
  · rcases hsize with ⟨hexact, hlt⟩ | ⟨hexact, hlt⟩
    · have := he1 hexact
      omega
    · have := he2 hexact
      omega
  obtain ⟨es, hes, hall⟩ := Ordset.mergeWith_forall
    (f := fun type1 type2 => (R type1 type2).notNone)
    (Q := fun i t => 1 ≤ i ∧ ∃ w, vs[i - 1]? = some w ∧ t.Has w) ha.1 hb.1 hes1 hes2
    (fun i t u ht hu => by
      obtain ⟨hi, w, hw, htw⟩ := hes1 _ ht
      obtain ⟨-, w', hw', huw⟩ := hes2 _ hu
      obtain rfl : w = w' := Option.some.inj (hw.symm.trans hw')
      have := hR (ha.2 _ ht) (hb.2 _ hu) htw huw
      exact ⟨_, notNone_of_has this, hi, w, hw, this⟩)
  rw [glbElements, hes]
  refine slotHas_some.mpr (has_tuple.mpr ⟨vs, rfl, max_le hs1 hs2, fun hexact => ?_, hall⟩)
  rcases Bool.or_eq_true_iff.mp hexact with h | h
  · have := he1 h
    show vs.length = max a.size b.size
    omega
  · have := he2 h
    show vs.length = max a.size b.size
    omega

/-! ## Native records -/

omit hR in
theorem meetExported_complete {a b : Exported} (ha : a.Allows ex) (hb : b.Allows ex) :
    ∃ e, meetExported a b = some e ∧ e.Allows ex := by
  cases a <;> cases b <;> simp_all [meetExported, Exported.Allows]

theorem glbField_complete (hx : ∀ t, x = some t → P t) (hy : ∀ t, y = some t → P t)
    (h1 : FieldHas x w) (h2 : FieldHas y w) :
    ∃ z, glbField R x y = some z ∧ FieldHas z w := by
  match x, y, w with
  | none, none, none => exact ⟨none, rfl, trivial⟩
  | some t, some u, some w =>
    have := hR (hx t rfl) (hy u rfl) h1 h2
    exact ⟨some (R t u), by rw [glbField, notNone_of_has this]; rfl, this⟩

theorem glbRecords_complete :
    SlotComplete .record (RecordType.Good P) (glbRecords R) := by
  intro a b v ha hb h1 h2
  by_cases heq : a = b
  · exact ⟨a, glbRecords_eq_some.mpr (.inl ⟨heq, rfl⟩), h1⟩
  obtain ⟨name, ex, fields, rfl, hn1, hx1, hf1⟩ := has_record.mp h1
  obtain ⟨_, _, _, hv, hn2, hx2, hf2⟩ := has_record.mp h2
  cases hv
  obtain ⟨n, hn, hname⟩ := meetKnown_complete hn1 hn2
  obtain ⟨e, he, hex⟩ := meetExported_complete hx1 hx2
  obtain ⟨fs, hfs, hall⟩ := Ordset.mergeWith_forall (f := glbField R)
    (Q := fun k t => FieldHas t (fields.lookup k)) ha.1 hb.1 hf1 hf2
    (fun k t u ht hu => glbField_complete hR (ha.2 _ ht) (hb.2 _ hu) (hf1 _ ht) (hf2 _ hu))
  exact ⟨_, glbRecords_eq_some.mpr (.inr ⟨heq, n, e, fs, hn, he, hfs, rfl⟩),
    has_record.mpr ⟨_, _, _, rfl, hname, hex, hall⟩⟩

end

/-! ## Lower bounds -/

/-- Every term of the first type is a term of the second. -/
def Typ.Sub (t u : Typ) : Prop := ∀ v, t.Has v → u.Has v

theorem cons_mono (ht : ∀ w, t.Has w → t'.Has w) (hu : ∀ w, u.Has w → u'.Has w)
    (h : (Typ.list (.cons t u)).Has v) : (Typ.list (.cons t' u')).Has v := by
  obtain ⟨hshape, hes, hterm⟩ := has_cons.mp h
  exact has_cons.mpr ⟨hshape, fun e he => ht e (hes e he), hu _ hterm⟩

theorem ListType.Le.has {a b : ListType} (h : a.Le Typ.Sub b) (hv : (Typ.list a).Has v) :
    (Typ.list b).Has v := by
  match a, b, h with
  | .nil, .nil, _ => exact hv
  | .nil, .list _ _, _ => exact has_list.mpr (.inl (has_nil.mp hv))
  | .cons _ _, .cons _ _, h => exact cons_mono h.1 h.2 hv
  | .cons _ _, .list _ _, h => exact .listCons (cons_mono h.1 h.2 hv)
  | .list _ _, .list _ _, h => exact has_list.mpr ((has_list.mp hv).imp id (cons_mono h.1 h.2))

/-- The unit of a type that a match can start on. -/
def OtherType.unit : OtherType → Option ℕ
  | .bitstring u _ | .bsContext u | .bsMatchable u => some u
  | _ => none

theorem matchable_mono {d u : ℕ} (hu : o.unit = some u) (hd : d ∣ u)
    (h : (Typ.other o).Has v) : (Typ.other (.bsMatchable d)).Has v := by
  cases o <;> simp only [OtherType.unit, Option.some.injEq, reduceCtorEq] at hu <;> subst hu
  · obtain ⟨bits, rfl, hbits⟩ := has_bitstring.mp h
    exact .matchableBitstring (hd.trans hbits)
  · obtain ⟨bits, rfl, hbits⟩ := has_bsContext.mp h
    exact .matchableContext (hd.trans hbits)
  · obtain ⟨bits, hv, hbits⟩ := has_bsMatchable.mp h
    exact has_bsMatchable.mpr ⟨bits, hv, hd.trans hbits⟩

theorem OtherType.Le.has {a b : OtherType} (h : a.Le Typ.Sub b) (hv : (Typ.other a).Has v) :
    (Typ.other b).Has v := by
  cases h with
  | other => exact has_other_of hv
  | identifier h => exact OtherType.isIdentifier_has h hv
  | pid | port | reference => exact hv
  | bitstring hu _ =>
    obtain ⟨bits, rfl, hbits⟩ := has_bitstring.mp hv
    exact .bitstring (hu.trans hbits)
  | bsContext hu =>
    obtain ⟨bits, rfl, hbits⟩ := has_bsContext.mp hv
    exact .bsContext (hu.trans hbits)
  | bsMatchable hu | bitstringMatchable hu | contextMatchable hu => exact matchable_mono rfl hu hv
  | fn hn hg ht =>
    obtain ⟨n, g, returns, rfl, hn', hg', hret⟩ := has_fn.mp hv
    exact .fn (fun m hm => hn' m (flatLe_some.mp (hm ▸ hn)))
      (fun k hk => hg' k (flatLe_some.mp (hk ▸ hg))) fun i w hw => ht w (hret i w hw)
  | map hk hw =>
    obtain ⟨es, rfl, hks, hws⟩ := has_map.mp hv
    exact .map (fun e he => hk _ (hks e he)) fun e he => hw _ (hws e he)

theorem TupleType.Le.has {a b : TupleType} (h : a.Le Typ.Sub b) (hv : (Typ.tuple a).Has v) :
    (Typ.tuple b).Has v := by
  obtain ⟨vs, rfl, hsize, hexact, hes⟩ := has_tuple.mp hv
  refine has_tuple.mpr ⟨vs, rfl, h.1.trans hsize, fun hx => ?_, fun e he => ?_⟩
  · obtain ⟨hx, hsize⟩ := h.2.1 hx
    exact (hexact hx).trans hsize
  · obtain ⟨t, ht, hsub⟩ := h.2.2 e.1 e.2 he
    obtain ⟨hi, w, hw, htw⟩ := hes _ ht
    exact ⟨hi, w, hw, hsub w htw⟩

theorem RecordType.Le.has (h : a.Le Typ.Sub b) (hv : (Typ.record a).Has v) :
    (Typ.record b).Has v := by
  obtain ⟨name, ex, fields, rfl, hname, hex, hfs⟩ := has_record.mp hv
  refine has_record.mpr ⟨name, ex, fields, rfl,
    fun n hn => hname n (flatLe_some.mp (hn ▸ h.1.1)), ?_, fun f hf => ?_⟩
  · rcases h.1.2 with hb | hb
    · rw [hb]
      trivial
    · exact hb ▸ hex
  · obtain ⟨x, hx, hle⟩ := h.2.1 f.1 f.2 hf
    have hw := hfs _ hx
    match x, f.2, fields.lookup f.1, hle, hw with
    | none, none, none, _, _ => trivial
    | some t, some u, some w, hle, hw => exact hle w hw

/-- A function that returns bounds in an order which inclusion of terms follows. -/
theorem SlotLower.of_below {α : Type} {c : α → Typ} {f : α → α → Option α} {Q : α → Prop}
    {ord : α → α → Prop} (hself : ∀ a, f a a = some a)
    (hord : ∀ {a b v}, ord a b → (c a).Has v → (c b).Has v)
    (hf : ∀ {a b m}, a ≠ b → Q a → Q b → f a b = some m → ord m a ∧ ord m b) : SlotLower c Q f := by
  rintro a b v ha hb ⟨m, hm, hv⟩
  by_cases hab : a = b
  · subst hab
    cases (hself a).symm.trans hm
    exact ⟨hv, hv⟩
  · obtain ⟨hma, hmb⟩ := hf hab ha hb hm
    exact ⟨hord hma hv, hord hmb hv⟩

section

variable (hR : MeetLower P R)

include hR

theorem MeetLower.bounds : Bounds P (fun _ => True) Typ.Sub R := fun _ _ hx hy =>
  ⟨trivial, fun _ hv => (hR hx hy hv).1, fun _ hv => (hR hx hy hv).2⟩

theorem glbList_lower : SlotLower .list (ListType.Good P) (glbList R) :=
  .of_below (fun _ => if_pos rfl) ListType.Le.has fun hab ha hb hm =>
    (glbList_below hR.bounds hab ha hb hm).2

theorem glbOther_lower : SlotLower .other (OtherType.Good P) (glbOther R) :=
  .of_below (fun _ => if_pos rfl) OtherType.Le.has fun hab ha hb hm =>
    (glbOther_below hR.bounds (fun _ => trivial) (fun _ _ h => h) hab ha hb hm).2

theorem glbTuples_lower : SlotLower .tuple (TupleType.Good P) (glbTuples R) :=
  .of_below (fun _ => if_pos rfl) TupleType.Le.has fun hab ha hb hm =>
    glbTuples_below hR.bounds (fun _ _ h => h) hab ha hb hm

theorem glbRecords_lower : SlotLower .record (RecordType.Good P) (glbRecords R) :=
  .of_below (fun _ => if_pos rfl) RecordType.Le.has fun hab ha hb hm =>
    glbRecords_below hR.bounds (fun _ _ h => h) hab ha hb hm

end

end Inner

end Otp.Compiler.BeamTypes
