import Otp.Compiler.BeamTypes.LubSound
import Otp.Compiler.BeamTypes.UnionSound

/-!
# Soundness of `join/2`

A join has every term of both types. The order of the sets in a union plays no
part here.
-/

namespace Otp.Compiler.BeamTypes

open Otp.Lib List

variable {P : Typ → Prop} {R : Typ → Typ → Typ} {rs acc : List RecordType} {v : Term}
  {rsA rsB : List (RecordKey × TupleType)} {r : RecordType} {α : Type} {t : Typ} {f : α → α → α}
  {x : Option α} {y : Option α} (hR : Joins Typ.Has P R)

/-! ## Lists of types -/

section Covers

variable {c : α → Typ} {Q : α → Prop} {k l m n : List α} {a b : α}

/-- The types of `m` satisfy `Q` and have all the terms that those of `l` have. -/
def Covers (c : α → Typ) (Q : α → Prop) (l m : List α) : Prop :=
  (∀ a ∈ m, Q a) ∧ ∀ v, (∃ a ∈ l, (c a).Has v) → ∃ a ∈ m, (c a).Has v

theorem Covers.of_mem (h : ∀ a ∈ l, Q a) (hlm : ∀ a, a ∈ l ↔ a ∈ m) : Covers c Q l m :=
  ⟨fun a ha => h a ((hlm a).mpr ha), fun _ ⟨a, ha, hv⟩ => ⟨a, (hlm a).mp ha, hv⟩⟩

theorem Covers.trans (h : Covers c Q l m) (h' : (∀ a ∈ m, Q a) → Covers c Q m n) :
    Covers c Q l n := ⟨(h' h.1).1, fun v hv => (h' h.1).2 v (h.2 v hv)⟩

/-- A list with a further property `p` that has the terms of the second one. -/
theorem Covers.seq {p : Prop} (h : Covers c Q l m) (h' : (∀ a ∈ m, Q a) → p ∧ Covers c Q m n) :
    p ∧ Covers c Q l n := ⟨(h' h.1).1, h.trans fun h => (h' h).2⟩

/-- Two of the types are joined. -/
theorem Joins.covers (hf : Joins (fun a => (c a).Has) Q f) (h : ∀ x ∈ a :: b :: k, Q x) :
    Covers c Q (a :: b :: k) (f a b :: k) := by
  rw [forall_mem_cons, forall_mem_cons] at h
  obtain ⟨hQ, hupper⟩ := hf h.1 h.2.1
  refine ⟨forall_mem_cons.mpr ⟨hQ, h.2.2⟩, fun v hv => ?_⟩
  simp only [exists_mem_cons_iff, ← or_assoc] at hv ⊢
  exact hv.imp (hupper v) id

end Covers

/-! ## Sets of tuples -/

section Tuples

include hR

theorem jtsTuple_covers {rs : List (RecordKey × TupleType)} {acc : TupleType}
    (h : ∀ t ∈ acc :: rs.map Prod.snd, t.Good P) :
    Covers Typ.tuple (TupleType.Good P) (acc :: rs.map Prod.snd) [jtsTuple R rs acc] := by
  induction rs generalizing acc with
  | nil => exact .of_mem h fun _ => Iff.rfl
  | cons r rs ih =>
    have hmem : ∀ t, t ∈ acc :: r.2 :: rs.map Prod.snd ↔ t ∈ r.2 :: acc :: rs.map Prod.snd := by
      simp [or_left_comm]
    exact (Covers.of_mem h hmem).trans fun h => ((lubTuples_joins hR).covers h).trans ih

omit hR in
/-- Folding records into nothing starts from the first one. -/
theorem normalizeTupleSet_some (rs : List (RecordKey × TupleType)) (t : TupleType) :
    normalizeTupleSet R rs (some t) = some (jtsTuple R rs t) := by
  induction rs generalizing t with
  | nil => rfl
  | cons r rs ih => exact ih _

variable {acc : List (RecordKey × TupleType)}

omit hR in
/-- The three passes over a set that collapses are one. -/
theorem collapseRecords_eq {r : RecordKey × TupleType} {rs : List (RecordKey × TupleType)}
    (h : rsA ++ rsB ++ acc = r :: rs) :
    collapseRecords R rsA rsB acc = .tuple (jtsTuple R rs r.2) := by
  have hfold : normalizeTupleSet R acc (normalizeTupleSet R rsB (normalizeTupleSet R rsA none)) =
      normalizeTupleSet R (r :: rs) none := by
    simp only [normalizeTupleSet, ← h, foldl_append]
  rw [collapseRecords, hfold]
  exact congrArg (Option.elim · _ _) (normalizeTupleSet_some rs r.2)

/-- One tuple for all records has the terms of all of them. -/
theorem collapseRecords_covers (h : ∀ t ∈ (rsA ++ rsB ++ acc).map Prod.snd, t.Good P) :
    Covers Typ.tuple (TupleType.Good P) ((rsA ++ rsB ++ acc).map Prod.snd)
      (collapseRecords R rsA rsB acc).toList := by
  cases heq : rsA ++ rsB ++ acc with
  | nil => simp_all [collapseRecords, normalizeTupleSet, TupleSet.toList, Covers]
  | cons r rs =>
    rw [heq] at h
    rw [collapseRecords_eq heq]
    exact jtsTuple_covers hR h

variable [LinearOrder RecordKey]

/-- A merge of two record sets keeps the terms of both, and of the records that
are already merged. -/
theorem jtsRecords_covers {n : ℕ} (h : ∀ t ∈ (rsA ++ rsB ++ acc).map Prod.snd, t.Good P) :
    Covers Typ.tuple (TupleType.Good P) ((rsA ++ rsB ++ acc).map Prod.snd)
      (jtsRecords R rsA rsB n acc).toList := by
  fun_induction jtsRecords R rsA rsB n acc with
  | case1 n acc => exact .of_mem h (by simp [TupleSet.toList])
  | case3 a rsA keyB b rsB n acc hlimit ih =>
    have hmem : ∀ t, t ∈ ((keyB, a) :: rsA ++ (keyB, b) :: rsB ++ acc).map Prod.snd ↔
        t ∈ a :: b :: (rsA ++ rsB ++ acc).map Prod.snd := by
      grind
    refine (Covers.of_mem h hmem).trans fun h => ((lubTuples_joins hR).covers h).trans fun h =>
      (Covers.of_mem h ?_).trans ih
    grind
  | case4 keyA a rsA keyB b rsB n acc hlimit hne hlt ih
  | case5 keyA a rsA keyB b rsB n acc hlimit hne hlt ih
  | case7 r rsA n acc hlimit ih | case9 r rsB n acc hlimit ih =>
    refine (Covers.of_mem h ?_).trans ih
    grind
  | case2 keyA a rsA keyB b rsB n acc hlimit
  | case6 r rs n acc hlimit | case8 r rs n acc hlimit => exact collapseRecords_covers hR h

theorem joinTupleSets_covers {a b : TupleSet} (ha : a.Good P) (hb : b.Good P) :
    Covers Typ.tuple (TupleType.Good P) (a.toList ++ b.toList) (joinTupleSets R a b).toList := by
  have h : ∀ t ∈ a.toList ++ b.toList, t.Good P := forall_mem_append.mpr ⟨ha.mem, hb.mem⟩
  match a, b with
  | a, .none =>
    exact .of_mem h (by simp [TupleSet.toList])
  | .none, .tuple _ | .none, .records _ => exact .of_mem h fun _ => Iff.rfl
  | .tuple t, .tuple u => exact (lubTuples_joins hR).covers h
  | .tuple t, .records rs => exact jtsTuple_covers hR h
  | .records rs, .tuple t =>
    exact (Covers.of_mem h (by simp [TupleSet.toList, or_comm])).trans (jtsTuple_covers hR)
  | .records rsA, .records rsB =>
    rw [TupleSet.toList, TupleSet.toList, ← map_append, ← append_nil (rsA ++ rsB)] at *
    exact jtsRecords_covers hR h

theorem joinTupleSets_joins : Joins TupleSet.Has (TupleSet.Good P) (joinTupleSets R) := by
  intro a b ha hb
  obtain ⟨hgood, hupper⟩ := joinTupleSets_covers hR ha hb
  refine ⟨TupleSet.good_iff.mpr hgood, fun v hv => TupleSet.has_iff.mpr (hupper v ?_)⟩
  simpa only [mem_append, or_and_right, exists_or, ← TupleSet.has_iff] using hv

end Tuples

/-! ## Sets of native records -/

/-- A record without a name stands alone in its list. -/
def NamedOrSingle (rs : List RecordType) : Prop := (∀ r ∈ rs, r.name ≠ none) ∨ ∃ r, rs = [r]

section

variable (h : NamedOrSingle (r :: rs))

include h

theorem NamedOrSingle.tail : ∀ s ∈ rs, s.name ≠ none := by
  rcases h with h | ⟨s, hs⟩
  · exact fun s hs => h s (.tail _ hs)
  · obtain rfl := (List.cons.inj hs).2
    simp

theorem NamedOrSingle.eq_nil (hr : r.name = none) : rs = [] := by
  rcases h with h | ⟨s, hs⟩
  · exact absurd hr (h r (.head _))
  · exact (List.cons.inj hs).2

theorem NamedOrSingle.of_name (hr : r.name ≠ none) :
    ∀ s ∈ r :: rs, s.name ≠ none :=
  forall_mem_cons.mpr ⟨hr, h.tail⟩

end

theorem NamedOrSingle.reverse (h : NamedOrSingle rs) : NamedOrSingle rs.reverse := by
  rcases h with h | ⟨r, rfl⟩
  · exact .inl fun r hr => h r (mem_reverse.mp hr)
  · exact .inr ⟨r, rfl⟩

theorem NativeRecordSet.Good.namedOrSingle {s : NativeRecordSet} (h : s.Good P) :
    NamedOrSingle s.toList := by
  cases s with
  | none => exact .inl nofun
  | record r => exact .inr ⟨r, rfl⟩
  | records rs => exact .inl fun r hr => (h r hr).1

theorem nativeRecords_good (h : NamedOrSingle rs) (hgood : ∀ r ∈ rs, r.Good P) :
    (nativeRecords rs).Good P := by
  match rs with
  | [] => trivial
  | [r] => exact hgood r (.head _)
  | r :: s :: rs =>
    rcases h with h | ⟨t, ht⟩
    · exact fun x hx => ⟨h x hx, hgood x hx⟩
    · cases ht

section

include hR

/-- Records that are left over go into the accumulator with all their terms. -/
theorem jnrsRest_covers (hnamed : ∀ r ∈ rs, r.name ≠ none) (hsingle : NamedOrSingle acc)
    (h : ∀ r ∈ rs ++ acc, r.Good P) : NamedOrSingle (rs.foldl (jnrsRest R) acc) ∧
      Covers Typ.record (RecordType.Good P) (rs ++ acc) (rs.foldl (jnrsRest R) acc) := by
  induction rs generalizing acc with
  | nil => exact ⟨hsingle, .of_mem h fun _ => Iff.rfl⟩
  | cons a rs ih =>
    rw [forall_mem_cons] at hnamed
    -- one record goes in
    have hstep : NamedOrSingle (jnrsRest R acc a) ∧ Covers Typ.record (RecordType.Good P)
        (a :: rs ++ acc) (rs ++ jnrsRest R acc a) := by
      have hkeep : Covers Typ.record (RecordType.Good P) (a :: rs ++ acc) (rs ++ a :: acc) :=
        .of_mem h (by grind)
      unfold jnrsRest
      split
      · rename_i r
        split_ifs with hname
        · refine ⟨.inr ⟨_, rfl⟩, (Covers.of_mem h (m := a :: r :: rs) (by grind)).trans fun h =>
            ((lubNativeRecords_joins hR).covers h).trans fun h => .of_mem h (by grind)⟩
        · exact ⟨.inl (forall_mem_cons.mpr ⟨hnamed.1, by simpa using hname⟩), hkeep⟩
      · rename_i hne
        have hall : ∀ r ∈ acc, r.name ≠ none := by
          rcases hsingle with h | ⟨r, rfl⟩
          · exact h
          · exact (hne r rfl).elim
        exact ⟨.inl (forall_mem_cons.mpr ⟨hnamed.1, hall⟩), hkeep⟩
    exact hstep.2.seq (ih hnamed.2 hstep.1)

/-- A record that joins with the first of a list, before the others. -/
theorem jnrsRest_lub_covers {a b : RecordType} (hnamed : ∀ r ∈ rs, r.name ≠ none)
    (h : ∀ r ∈ a :: b :: rs, r.Good P) :
    NamedOrSingle (rs.foldl (jnrsRest R) [lubNativeRecords R a b]) ∧
      Covers Typ.record (RecordType.Good P) (a :: b :: rs)
        (rs.foldl (jnrsRest R) [lubNativeRecords R a b]) := by
  have hlub : Covers Typ.record (RecordType.Good P) (a :: b :: rs)
      (rs ++ [lubNativeRecords R a b]) :=
    ((lubNativeRecords_joins hR).covers h).trans fun h => .of_mem h (by grind)
  exact hlub.seq (jnrsRest_covers hR hnamed (.inr ⟨_, rfl⟩))

/-- One list of records is left: a record without a name is the whole list. -/
theorem jnrsRest_all_covers (hrs : NamedOrSingle rs) (hacc : ∀ r ∈ acc, r.name ≠ none)
    (h0 : (∀ r ∈ rs, r.name ≠ none) ∨ acc = []) (h : ∀ r ∈ rs ++ acc, r.Good P) :
    NamedOrSingle (rs.foldl (jnrsRest R) acc) ∧
      Covers Typ.record (RecordType.Good P) (rs ++ acc) (rs.foldl (jnrsRest R) acc) := by
  rcases h0 with h0 | rfl
  · exact jnrsRest_covers hR h0 (.inl hacc) h
  rcases hrs with hrs | ⟨r, rfl⟩
  · exact jnrsRest_covers hR hrs (.inl hacc) h
  · exact ⟨.inr ⟨r, rfl⟩, .of_mem h fun _ => Iff.rfl⟩

theorem jnrsMerge_covers {rsA rsB : List RecordType} (hA : NamedOrSingle rsA)
    (hB : NamedOrSingle rsB) (hacc : ∀ r ∈ acc, r.name ≠ none)
    (h0 : ((∀ r ∈ rsA, r.name ≠ none) ∧ ∀ r ∈ rsB, r.name ≠ none) ∨ acc = [])
    (h : ∀ r ∈ rsA ++ rsB ++ acc, r.Good P) : NamedOrSingle (jnrsMerge R rsA rsB acc) ∧
      Covers Typ.record (RecordType.Good P) (rsA ++ rsB ++ acc) (jnrsMerge R rsA rsB acc) := by
  fun_induction jnrsMerge R rsA rsB acc with
  | case1 a tsA b tsB acc ha =>
    -- the record without a name is the only one on its side, and the first merged
    obtain rfl : acc = [] := h0.elim (fun h => absurd ha (h.1 a (.head _))) id
    obtain rfl := hA.eq_nil ha
    rw [append_nil] at h ⊢
    exact jnrsRest_lub_covers hR hB.tail h
  | case2 a tsA b tsB acc ha hb =>
    obtain rfl : acc = [] := h0.elim (fun h => absurd hb (h.2 b (.head _))) id
    obtain rfl := hB.eq_nil hb
    exact (Covers.of_mem h (by grind)).seq (jnrsRest_lub_covers hR hA.tail)
  | case3 a tsA b tsB acc ha hb hname ih =>
    have hlub : Covers Typ.record (RecordType.Good P) (a :: tsA ++ b :: tsB ++ acc)
        (tsA ++ tsB ++ lubNativeRecords R a b :: acc) :=
      (Covers.of_mem h (m := a :: b :: (tsA ++ tsB ++ acc)) (by grind)).trans fun h =>
        ((lubNativeRecords_joins hR).covers h).trans fun h => .of_mem h (by grind)
    exact hlub.seq (ih (.inl hA.tail) (.inl hB.tail)
      (forall_mem_cons.mpr ⟨by rwa [lubNativeRecords_name hname], hacc⟩) (.inl ⟨hA.tail, hB.tail⟩))
  | case4 a tsA b tsB acc ha hb hname hlt ih =>
    exact (Covers.of_mem h (by grind)).seq
      (ih (.inl hA.tail) hB (forall_mem_cons.mpr ⟨ha, hacc⟩) (.inl ⟨hA.tail, hB.of_name hb⟩))
  | case5 a tsA b tsB acc ha hb hname hlt ih =>
    exact (Covers.of_mem h (by grind)).seq
      (ih hA (.inl hB.tail) (forall_mem_cons.mpr ⟨hb, hacc⟩) (.inl ⟨hA.of_name ha, hB.tail⟩))
  | case6 rsA acc =>
    rw [append_nil] at h ⊢
    exact jnrsRest_all_covers hR hA hacc (h0.imp And.left id) h
  | case7 rsB acc hne => exact jnrsRest_all_covers hR hB hacc (h0.imp And.right id) h

/-- A merge of two sets, from the start. -/
theorem jnrsMerge_nil_upper {a b : NativeRecordSet} (ha : a.Good P) (hb : b.Good P) :
    (nativeRecords (jnrsMerge R a.toList b.toList []).reverse).Good P ∧ ∀ v, a.Has v ∨ b.Has v →
      (nativeRecords (jnrsMerge R a.toList b.toList []).reverse).Has v := by
  obtain ⟨h1, h2, h3⟩ := jnrsMerge_covers hR ha.namedOrSingle hb.namedOrSingle (forall_mem_nil _)
    (.inr rfl) (by simpa [or_imp, forall_and] using And.intro ha.mem hb.mem)
  refine ⟨nativeRecords_good h1.reverse fun r hr => h2 r (mem_reverse.mp hr), fun v hv => ?_⟩
  simp only [NativeRecordSet.has_iff] at hv
  obtain ⟨r, hr, hvr⟩ := h3 v (by simpa [or_and_right, exists_or] using hv)
  exact nativeRecords_has.mpr ⟨r, mem_reverse.mpr hr, hvr⟩

theorem joinNativeRecordSets_joins :
    Joins NativeRecordSet.Has (NativeRecordSet.Good P) (joinNativeRecordSets R) := by
  intro a b ha hb
  match a, b with
  | .none, .none => exact ⟨trivial, fun v hv => hv.elim id id⟩
  | .record _, .none | .records _, .none => exact ⟨ha, fun v hv => hv.elim id False.elim⟩
  | .none, .record _ | .none, .records _ => exact ⟨hb, fun v hv => hv.elim False.elim id⟩
  | .record r, .record s =>
    rw [joinNativeRecordSets]
    split_ifs with hname
    · exact lubNativeRecords_joins hR ha hb
    · exact jnrsMerge_nil_upper hR ha hb
  | .record r, .records rs =>
    obtain ⟨hgood, hupper⟩ := jnrsMerge_nil_upper hR hb ha
    exact ⟨hgood, fun v hv => hupper v hv.symm⟩
  | .records rs, .record r | .records rsA, .records rsB => exact jnrsMerge_nil_upper hR ha hb

end

/-! ## Unions -/

theorem lubSlot_joins {Q : α → Prop} {c : α → Typ} (hf : Joins (fun a => (c a).Has) Q f)
    (hx : ∀ a ∈ x, Q a) (hy : ∀ b ∈ y, Q b) : (∀ a ∈ lubSlot f x y, Q a) ∧
      ∀ v, SlotHas c x v ∨ SlotHas c y v → SlotHas c (lubSlot f x y) v := by
  cases x with
  | none => exact ⟨by simpa using hy, fun v h => by simpa using h⟩
  | some a =>
    cases y with
    | none => exact ⟨hx, fun v h => by simpa using h⟩
    | some b =>
      obtain ⟨hQ, hupper⟩ := hf (hx a rfl) (hy b rfl)
      exact ⟨fun d hd => Option.some.inj hd ▸ hQ,
        fun v h => slotHas_some.mpr (hupper v (h.imp slotHas_some.mp slotHas_some.mp))⟩

/-- The conditions on types that joins rely on. -/
abbrev JoinGood (P : Typ → Prop) : Typ → Prop := Typ.Good (fun _ => True) (fun _ => True) P

theorem shrinkUnion_good {u : UnionType} (h : u.Good (fun _ => True) P) :
    JoinGood P (shrinkUnion u) := by
  unfold shrinkUnion
  split
  · exact h.atom _ rfl
  · exact h.list _ rfl
  · exact h.number _ rfl
  · exact h.tupleSet
  · exact h.tupleSet _ (.head _)
  · exact h.nativeRecordSet
  · exact (h.nativeRecordSet _ (.head _)).2
  · exact h.other _ rfl
  · trivial
  · trivial
  · exact ⟨trivial, h⟩

section Keys

variable [LinearOrder RecordKey] {a b : Typ}

include hR in
theorem joinSlots_joins : Joins (fun u => (Typ.union u).Has) (UnionType.Good (fun _ => True) P)
    (joinSlots R) := by
  intro a b ha hb
  obtain ⟨hga, hua⟩ := lubSlot_joins lubAtom_joins ha.atom hb.atom
  obtain ⟨hgl, hul⟩ := lubSlot_joins (lubList_joins hR) ha.list hb.list
  obtain ⟨hgn, hun⟩ := lubSlot_joins lubNumber_joins ha.number hb.number
  obtain ⟨hgt, hut⟩ := joinTupleSets_joins hR ha.tupleSet hb.tupleSet
  obtain ⟨hgr, hur⟩ := joinNativeRecordSets_joins hR ha.nativeRecordSet hb.nativeRecordSet
  obtain ⟨hgo, huo⟩ := lubSlot_joins (lubOther_joins hR) ha.other hb.other
  refine ⟨⟨hga, hgl, hgn, hgt, hgr, hgo⟩, fun v h => ?_⟩
  simp only [has_union] at h ⊢
  cases hk : v.kind <;> rw [hk] at h
  · exact hua v h
  · exact hul v h
  · exact hun v h
  · exact hut v h
  · exact hur v h
  · exact huo v h

include hR in
/-- Joins by slots. -/
theorem shrink_joinSlots_upper (ha : JoinGood P a) (hb : JoinGood P b) (ha' : a ≠ .any)
    (hb' : b ≠ .any) : JoinGood P (shrinkUnion (joinSlots R a.slots b.slots)) ∧
      ∀ v, a.Has v ∨ b.Has v → (shrinkUnion (joinSlots R a.slots b.slots)).Has v := by
  obtain ⟨hgood, hupper⟩ := joinSlots_joins hR (slots_good ha) (slots_good hb)
  refine ⟨shrinkUnion_good hgood, fun v hv => shrinkUnion_complete (hupper v ?_)⟩
  exact hv.imp (has_slots ha').mpr (has_slots hb').mpr

/-- The clauses of `join/2`. -/
theorem joinStep_cases (R : Typ → Typ → Typ) (a b : Typ) :
    (a = b ∧ joinStep R a b = a) ∨ joinStep R a b = .any ∨ (b = .none ∧ joinStep R a b = a) ∨
      (a = .none ∧ joinStep R a b = b) ∨
      (∃ u, a = .union u ∧ b ≠ .any ∧ joinStep R a b = joinUnions R u b) ∨
      (∃ u, b = .union u ∧ a ≠ .any ∧ joinStep R a b = joinUnions R u a) ∨
      (a ≠ .any ∧ b ≠ .any ∧ a ≠ .none ∧ b ≠ .none ∧ (∀ u, a ≠ .union u) ∧ (∀ u, b ≠ .union u) ∧
        joinStep R a b = joinNormal R a b) := by
  unfold joinStep
  split_ifs with heq
  · exact .inl ⟨heq, rfl⟩
  · cases a <;> cases b <;> simp_all

include hR in
theorem joinStep_joins : Joins Typ.Has (JoinGood P) (joinStep R) := by
  intro a b ha hb
  rcases joinStep_cases R a b with ⟨rfl, h⟩ | h | ⟨rfl, h⟩ | ⟨rfl, h⟩ | ⟨u, rfl, hb', h⟩ |
    ⟨u, rfl, ha', h⟩ | ⟨ha', hb', ha'', hb'', hua, hub, h⟩ <;> rw [h]
  · exact ⟨ha, fun v hv => hv.elim id id⟩
  · exact ⟨trivial, fun v _ => has_any v⟩
  · exact ⟨ha, fun v hv => hv.elim id fun hv => absurd hv (not_has_none v)⟩
  · exact ⟨hb, fun v hv => hv.elim (fun hv => absurd hv (not_has_none v)) id⟩
  · rw [joinUnions_eq R u hb']
    exact shrink_joinSlots_upper (a := .union u) hR ha hb (by simp) hb'
  · rw [joinUnions_eq R u ha']
    obtain ⟨hgood, hupper⟩ := shrink_joinSlots_upper (a := .union u) hR hb ha (by simp) ha'
    exact ⟨hgood, fun v hv => hupper v hv.symm⟩
  · by_cases htuple : ∀ s t, a = .tuple s → b = .tuple t → s.recordKey = none → t.recordKey = none
    · rw [joinNormal_eq R ha' hb' ha'' hb'' hua hub htuple]
      exact shrink_joinSlots_upper hR ha hb ha' hb'
    · -- a tuple without a record key and one with a key are joined as they stand
      push Not at htuple
      obtain ⟨s, t, rfl, rfl, hs, -⟩ := htuple
      have : joinNormal R (.tuple s) (.tuple t) = .tuple (lubTuples R s t) := by
        simp [joinNormal, joinTuples, hs]
      rw [this]
      exact lubTuples_joins hR ha hb

/-! ## Every level -/

theorem joinWithin_joins (n : ℕ) :
    Joins Typ.Has (WellFormedWithin (fun _ => True) (fun _ => True) n) (joinWithin n) := by
  induction n with
  | zero => exact fun x y hx => hx.elim
  | succ n ih => exact joinStep_joins ih

theorem joinWithin_upper (n : ℕ) :
    JoinUpper (WellFormedWithin (fun _ => True) (fun _ => True) n) (joinWithin n) ∧
      JoinClosed (WellFormedWithin (fun _ => True) (fun _ => True) n) (joinWithin n) :=
  ⟨fun _ _ v hx hy hv => (joinWithin_joins n hx hy).2 v hv,
    fun _ _ hx hy => (joinWithin_joins n hx hy).1⟩

end Keys

end Otp.Compiler.BeamTypes
