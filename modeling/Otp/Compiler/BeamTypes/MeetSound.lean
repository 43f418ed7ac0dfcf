import Otp.Compiler.BeamTypes.GlbSound

/-!
# Soundness of `meet/2`

Record keys are unambiguous: a term has at most one singleton type. So a meet of
two record sets may skip the records whose keys differ.
-/

namespace Otp.Compiler.BeamTypes

open Otp.Lib List Ordset

/-! ## Singleton types -/

variable {num : NumRange → Prop} {uni : UnionType → Prop} {P : Typ → Prop} {R : Typ → Typ → Typ}
  {t : TupleType} {a b r : RecordType} {v : Term} {k : RecordKey} {x y : Option RecordName}
  {rs rsA rsB : List RecordType} {s : TupleSet}

/-- The singleton types without ranges of floats. -/
theorem Typ.singleton_cases {t : Typ} (hfloat : ∀ f g, t ≠ .number (.float (.pair f g)))
    (h : t.isSingletonType = true) :
    (∃ a, t = .atom (.set [a])) ∨ (∃ n, t = .number (.integer (.pair (.int n) (.int n)))) ∨
      t = .other (.map .none .none) ∨ (∃ s, t = .tuple s ∧ s.isSingletonType = true) ∨
      t = .list .nil := by
  unfold Typ.isSingletonType at h
  split at h
  · exact .inl ⟨_, rfl⟩
  · exact absurd rfl (hfloat _ _)
  · obtain rfl := of_decide_eq_true h
    exact .inr (.inl ⟨_, rfl⟩)
  · exact .inr (.inr (.inl rfl))
  · exact .inr (.inr (.inr (.inl ⟨_, rfl, h⟩)))
  · exact .inr (.inr (.inr (.inr rfl)))
  · cases h

theorem Typ.Good.ne_floatRange {t : Typ} (h : t.Good num uni P) (f g : End) :
    t ≠ .number (.float (.pair f g)) := by
  rintro rfl
  exact nomatch (show NumRange.pair f g = NumRange.any from h)

theorem mem_singletonIndices {i : ℕ} {es : List (ℕ × Typ)} :
    i ∈ singletonIndices es ↔ ∃ t, (i, t) ∈ es ∧ t.isSingletonType = true := by
  induction es with
  | nil => simp [singletonIndices]
  | cons e es ih =>
    obtain ⟨j, s⟩ := e
    rw [singletonIndices, mem_append, ih, singletonIndex]
    by_cases hs : s.isSingletonType = true
    · simp only [hs, if_true, mem_cons, Prod.mk.injEq]
      constructor
      · rintro ((rfl | h) | ⟨t, ht, hsing⟩)
        · exact ⟨s, .inl ⟨rfl, rfl⟩, hs⟩
        · cases h
        · exact ⟨t, .inr ht, hsing⟩
      · rintro ⟨t, ⟨rfl, rfl⟩ | ht, hsing⟩
        · exact .inl (.inl rfl)
        · exact .inr ⟨t, ht, hsing⟩
    · simp only [hs, Bool.false_eq_true, if_false, not_mem_nil, false_or, mem_cons, Prod.mk.injEq]
      constructor
      · rintro ⟨t, ht, hsing⟩
        exact ⟨t, .inr ht, hsing⟩
      · rintro ⟨t, ⟨rfl, rfl⟩ | ht, hsing⟩
        · exact absurd hsing hs
        · exact ⟨t, ht, hsing⟩

theorem TupleType.isSingletonType_iff : t.isSingletonType = true ↔
    t.exact = true ∧ ∀ i < t.size, ∃ u, (i + 1, u) ∈ t.elements ∧ u.isSingletonType = true := by
  obtain ⟨size, exact, es⟩ := t
  simp [TupleType.isSingletonType, mem_singletonIndices]

/-- No term has two singleton types among those that satisfy `P`. -/
def SingletonUnique (P : Typ → Prop) : Prop :=
  ∀ ⦃x y : Typ⦄ ⦃v : Term⦄, P x → P y → x.isSingletonType = true → y.isSingletonType = true →
    x.Has v → y.Has v → x = y

/-- A singleton tuple type with a term knows every element of it, and no
other. -/
theorem singleton_tuple_element {vs : List Term} (hgood : t.Good P)
    (hsing : t.isSingletonType = true) (h : (Typ.tuple t).Has (.tuple vs)) :
    t.size = vs.length ∧ (∀ i < vs.length, ∃ u, (i + 1, u) ∈ t.elements) ∧
      ∀ e ∈ t.elements, e.2.isSingletonType = true ∧ ∃ i < vs.length, e.1 = i + 1 := by
  obtain ⟨_, hvs, -, hexact, hes⟩ := has_tuple.mp h
  cases hvs
  obtain ⟨hex, hall⟩ := TupleType.isSingletonType_iff.mp hsing
  have hlen := hexact hex
  refine ⟨hlen.symm, fun i hi => ?_, fun e he => ?_⟩
  · obtain ⟨u, hu, -⟩ := hall i (by omega)
    exact ⟨u, hu⟩
  · obtain ⟨hpos, w, hw, -⟩ := hes e he
    obtain ⟨hlt, -⟩ := List.getElem?_eq_some_iff.mp hw
    obtain ⟨u, hu, hs⟩ := hall (e.1 - 1) (by omega)
    have hidx : e.1 - 1 + 1 = e.1 := by omega
    rw [hidx] at hu
    exact ⟨hgood.1.unique hu he ▸ hs, e.1 - 1, hlt, hidx.symm⟩

theorem singleton_tuple_unique (hP : SingletonUnique P) {a b : TupleType} (ha : a.Good P)
    (hb : b.Good P) (hsa : a.isSingletonType = true) (hsb : b.isSingletonType = true)
    (h1 : (Typ.tuple a).Has v) (h2 : (Typ.tuple b).Has v) : a = b := by
  -- the elements of each side are elements of the other
  have hsub : ∀ {a b : TupleType}, a.Good P → b.Good P → a.isSingletonType = true →
      b.isSingletonType = true → (Typ.tuple a).Has v → (Typ.tuple b).Has v →
      ∀ e ∈ a.elements, e ∈ b.elements := by
    intro a b ha hb hsa hsb h1 h2 e he
    obtain ⟨vs, rfl, -, -, hes1⟩ := has_tuple.mp h1
    obtain ⟨_, hvs, -, -, hes2⟩ := has_tuple.mp h2
    cases hvs
    obtain ⟨hs, i, hi, hidx⟩ := (singleton_tuple_element ha hsa h1).2.2 e he
    obtain ⟨-, hknown, hsings⟩ := singleton_tuple_element hb hsb h2
    obtain ⟨u, hu⟩ := hknown i hi
    obtain ⟨-, w, hw, hew⟩ := hes1 e he
    obtain ⟨-, w', hw', huw⟩ := hes2 _ hu
    obtain rfl : w = w' := by
      rw [hidx] at hw
      exact Option.some.inj (hw.symm.trans hw')
    have := hP (ha.2 e he) (hb.2 _ hu) hs (hsings _ hu).1 hew huw
    rw [← Prod.mk.eta (p := e), hidx, this]
    exact hu
  have hes : a.elements = b.elements := ha.1.ext hb.1 fun e =>
    ⟨hsub ha hb hsa hsb h1 h2 e, hsub hb ha hsb hsa h2 h1 e⟩
  have hexact : a.exact = b.exact := by
    rw [(TupleType.isSingletonType_iff.mp hsa).1, (TupleType.isSingletonType_iff.mp hsb).1]
  obtain ⟨vs, rfl, -⟩ := has_tuple.mp h1
  have hsize : a.size = b.size :=
    (singleton_tuple_element ha hsa h1).1.trans (singleton_tuple_element hb hsb h2).1.symm
  obtain ⟨_, _, _⟩ := a
  obtain ⟨_, _, _⟩ := b
  simp_all

theorem singletonUnique_good (hP : SingletonUnique P) : SingletonUnique (Typ.Good num uni P) := by
  intro x y v hx hy hsx hsy h1 h2
  -- types of different slots have no common term
  have hne : ∀ {k k' : Kind}, x.slot = some k → y.slot = some k' → k ≠ k' → x = y :=
    fun hk hk' hne => absurd ((kind_of_slot h1 hk).symm.trans (kind_of_slot h2 hk')) hne
  rcases Typ.singleton_cases hx.ne_floatRange hsx with ⟨a, rfl⟩ | ⟨n, rfl⟩ | rfl |
    ⟨t, rfl, ht⟩ | rfl <;>
    rcases Typ.singleton_cases hy.ne_floatRange hsy with ⟨a', rfl⟩ | ⟨n', rfl⟩ | rfl |
      ⟨t', rfl, ht'⟩ | rfl <;>
    first | rfl | exact hne rfl rfl (by decide) | skip
  · cases v <;> simp_all [AtomType.Mem]
  · cases v <;> simp_all [NumberType.Mem, NumRange.MemInt, End.LeInt, End.GeInt]
    omega
  · exact congrArg Typ.tuple (singleton_tuple_unique hP hx hy ht ht' h1 h2)

section Pairs

variable {α : Type} {p : α → α → Prop} {a b : α} {l m : List α}

/-- An element without a partner may be left out. -/
theorem exists_pair_drop_left (h : ∀ y ∈ m, ¬ p a y) :
    (∃ x ∈ a :: l, ∃ y ∈ m, p x y) ↔ ∃ x ∈ l, ∃ y ∈ m, p x y := by
  rw [exists_mem_cons_iff]
  exact or_iff_right fun ⟨y, hy, hp⟩ => h y hy hp

theorem exists_pair_drop_right (h : ∀ x ∈ l, ¬ p x b) :
    (∃ x ∈ l, ∃ y ∈ b :: m, p x y) ↔ ∃ x ∈ l, ∃ y ∈ m, p x y := by
  refine exists_congr fun x => and_congr_right fun hx => ?_
  rw [exists_mem_cons_iff]
  exact or_iff_right (h x hx)

/-- Two elements that can only be partners of each other. -/
theorem exists_pair_heads (ha : ∀ y ∈ m, ¬ p a y) (hb : ∀ x ∈ l, ¬ p x b) :
    (∃ x ∈ a :: l, ∃ y ∈ b :: m, p x y) ↔ p a b ∨ ∃ x ∈ l, ∃ y ∈ m, p x y := by
  rw [exists_mem_cons_iff, exists_pair_drop_right hb, exists_mem_cons_iff]
  exact or_congr_left (or_iff_left fun ⟨y, hy, hp⟩ => ha y hy hp)

end Pairs

/-! ## Sets of tuples -/

theorem recordKey_eq_some : t.recordKey = some k ↔
    t.exact = true ∧ t.elements.lookup 1 = some k.2 ∧ k.2.isSingletonType = true ∧
      k.1 = t.size := by
  unfold TupleType.recordKey
  cases t.exact <;> cases t.elements.lookup 1 with
  | none => simp
  | some u => by_cases hu : u.isSingletonType = true <;> grind

/-- Tuples with a common term have the same record key. -/
theorem recordKey_unique (hP : SingletonUnique P) {a b : TupleType} {k' : RecordKey} (ha : a.Good P)
    (hb : b.Good P) (hka : a.recordKey = some k) (hkb : b.recordKey = some k')
    (h1 : (Typ.tuple a).Has v) (h2 : (Typ.tuple b).Has v) : k = k' := by
  obtain ⟨hexA, htagA, hsA, hsizeA⟩ := recordKey_eq_some.mp hka
  obtain ⟨hexB, htagB, hsB, hsizeB⟩ := recordKey_eq_some.mp hkb
  obtain ⟨vs, rfl, -, hlenA, hesA⟩ := has_tuple.mp h1
  obtain ⟨_, hvs, -, hlenB, hesB⟩ := has_tuple.mp h2
  cases hvs
  have hmemA := (lookup_eq_some ha.1).mp htagA
  have hmemB := (lookup_eq_some hb.1).mp htagB
  obtain ⟨-, w, hw, hvA⟩ := hesA _ hmemA
  obtain ⟨-, w', hw', hvB⟩ := hesB _ hmemB
  obtain rfl : w = w' := Option.some.inj (hw.symm.trans hw')
  refine Prod.ext ?_ (hP (ha.2 (1, k.2) hmemA) (hb.2 (1, k'.2) hmemB) hsA hsB hvA hvB)
  rw [hsizeA, hsizeB, ← hlenA hexA, hlenB hexB]

theorem toList_newTupleSet (t : TupleType) : (newTupleSet t).toList = [t] := by
  rcases newTupleSet_cases t with ⟨-, h⟩ | ⟨k, -, h⟩ <;> rw [h] <;> rfl

@[simp] theorem toList_recordsOrNone (rs : List (RecordKey × TupleType)) :
    (recordsOrNone rs).toList = rs.map Prod.snd := by
  cases rs <;> rfl

theorem TupleSet.has_iff : s.Has v ↔ ∃ t ∈ s.toList, (Typ.tuple t).Has v := by
  cases s with
  | none | tuple t => simp [TupleSet.Has, TupleSet.toList]
  | records rs => simp only [TupleSet.Has, TupleSet.toList, mem_map, exists_exists_and_eq_and]

theorem TupleSet.good_iff : s.Good P ↔ ∀ t ∈ s.toList, t.Good P := by
  cases s with
  | none => exact iff_of_true trivial nofun
  | tuple t => exact (forall_mem_singleton (p := TupleType.Good P)).symm
  | records rs => exact forall_mem_map.symm

theorem TupleSet.Good.mem (h : s.Good P) : ∀ t ∈ s.toList, t.Good P :=
  TupleSet.good_iff.mp h

theorem newTupleSet_good (h : t.Good P) : (newTupleSet t).Good P := by
  rw [TupleSet.good_iff, toList_newTupleSet]
  exact forall_mem_singleton.mpr h

section Keys

variable [LinearOrder RecordKey] {a b : TupleSet}

theorem newTupleSet_keyed (t : TupleType) : (newTupleSet t).Keyed := by
  unfold newTupleSet
  cases hk : t.recordKey with
  | none => exact hk
  | some k =>
    refine ⟨by simp, by simp, by simp [Ordset.IsMap, Ordset.IsOrdset, Ordset.keys], fun r hr => ?_⟩
    obtain rfl := mem_singleton.mp hr
    exact hk

/-- `mts_records/3` pairs the records of equal keys. -/
theorem mem_mtsRecords {rsA rsB : List (RecordKey × TupleType)} (hA : Ordset.IsMap rsA)
    (hB : Ordset.IsMap rsB) : (k, t) ∈ mtsRecords R rsA rsB ↔
      ∃ a ∈ rsA, ∃ b ∈ rsB, a.1 = k ∧ b.1 = k ∧ glbTuples R a.2 b.2 = some t := by
  fun_induction mtsRecords R rsA rsB with
  | case1 a rsA keyB b rsB hnone ih =>
    rw [isMap_cons] at hA hB
    rw [ih hA.2 hB.2, exists_pair_heads]
    · simp [hnone]
    · rintro y hy ⟨rfl, hk, -⟩
      exact (hB.1 y hy).ne' hk
    · rintro x hx ⟨hk, rfl, -⟩
      exact (hA.1 x hx).ne' hk
  | case2 a rsA keyB b rsB u hsome ih =>
    rw [isMap_cons] at hA hB
    rw [mem_cons, ih hA.2 hB.2, exists_pair_heads]
    · simp [hsome, eq_comm]
    · rintro y hy ⟨rfl, hk, -⟩
      exact (hB.1 y hy).ne' hk
    · rintro x hx ⟨hk, rfl, -⟩
      exact (hA.1 x hx).ne' hk
  | case3 keyA a rsA keyB b rsB hne hlt ih =>
    rw [ih (isMap_cons.mp hA).2 hB, exists_pair_drop_left]
    -- every key of the other set is larger
    rintro y hy ⟨rfl, hk, -⟩
    rcases mem_cons.mp hy with rfl | hy
    · exact hne hk.symm
    · exact (hlt.trans ((isMap_cons.mp hB).1 y hy)).ne' hk
  | case4 keyA a rsA keyB b rsB hne hlt ih =>
    rw [ih hA (isMap_cons.mp hB).2, exists_pair_drop_right]
    have hlt : keyB < keyA := lt_of_le_of_ne (not_lt.mp hlt) (Ne.symm hne)
    rintro x hx ⟨hk, rfl, -⟩
    rcases mem_cons.mp hx with rfl | hx
    · exact hne hk
    · exact (hlt.trans ((isMap_cons.mp hA).1 x hx)).ne' hk
  | case5 rsA rsB h =>
    cases rsA with
    | nil => simp
    | cons a rsA =>
      cases rsB with
      | nil => simp
      | cons b rsB => exact (h _ _ _ _ _ _ rfl rfl).elim

/-- The meet of two sets has the meets of their tuples, except for those of records with
different keys, taken in one of the two orders. -/
theorem meetTupleSets_pairs (ha : a.Keyed) (hb : b.Keyed) :
    ∃ x y, (x = a ∧ y = b ∨ x = b ∧ y = a) ∧ ∀ t, t ∈ (meetTupleSets R a b).toList ↔
      ∃ r ∈ x.toList, ∃ s ∈ y.toList, (∀ k k', r.recordKey = some k → s.recordKey = some k' →
        k = k') ∧ glbTuples R r s = some t := by
  have htuple : ∀ {rs : List (RecordKey × TupleType)} {u : TupleType}, u.recordKey = none → ∀ t,
      t ∈ (mtsTuple R rs u).toList ↔ ∃ r ∈ (TupleSet.records rs).toList, ∃ s ∈ [u],
        (∀ k k', r.recordKey = some k → s.recordKey = some k' → k = k') ∧
          glbTuples R r s = some t := by
    intro rs u hu t
    rw [mtsTuple, toList_recordsOrNone, map_filterMap]
    simp [-Prod.exists, TupleSet.toList, hu, Function.comp_def]
  match a, b with
  | .none, _ | .tuple _, .none | .records _, .none =>
    exact ⟨_, _, .inl ⟨rfl, rfl⟩, by simp [meetTupleSets, TupleSet.toList]⟩
  | .tuple t, .tuple u =>
    refine ⟨_, _, .inl ⟨rfl, rfl⟩, fun z => ?_⟩
    have hkey : t.recordKey = none := ha
    have hlist : (meetTupleSets R (.tuple t) (.tuple u)).toList = (glbTuples R t u).toList := by
      rw [meetTupleSets]
      cases glbTuples R t u with
      | none => rfl
      | some w => exact toList_newTupleSet w
    rw [hlist]
    simp [TupleSet.toList, hkey]
  | .tuple t, .records rs => exact ⟨_, _, .inr ⟨rfl, rfl⟩, htuple ha⟩
  | .records rs, .tuple t => exact ⟨_, _, .inl ⟨rfl, rfl⟩, htuple hb⟩
  | .records rsA, .records rsB =>
    refine ⟨_, _, .inl ⟨rfl, rfl⟩, fun t => ?_⟩
    rw [meetTupleSets, toList_recordsOrNone]
    simp only [TupleSet.toList, mem_map]
    constructor
    · rintro ⟨⟨k, t⟩, ht, rfl⟩
      obtain ⟨r, hr, s, hs, hrk, hsk, hrs⟩ := (mem_mtsRecords ha.2.2.1 hb.2.2.1).mp ht
      refine ⟨_, ⟨r, hr, rfl⟩, _, ⟨s, hs, rfl⟩, fun k k' hk hk' => ?_, hrs⟩
      rw [ha.2.2.2 r hr, hrk] at hk
      rw [hb.2.2.2 s hs, hsk] at hk'
      exact Option.some.inj (hk.symm.trans hk')
    · rintro ⟨_, ⟨r, hr, rfl⟩, _, ⟨s, hs, rfl⟩, hkey, hrs⟩
      have heq := hkey _ _ (ha.2.2.2 r hr) (hb.2.2.2 s hs)
      exact ⟨(r.1, t), (mem_mtsRecords ha.2.2.1 hb.2.2.1).mpr
        ⟨r, hr, s, hs, rfl, heq.symm, hrs⟩, rfl⟩

theorem meetTupleSets_complete (hR : MeetComplete P R) (hP : SingletonUnique P) (ha : a.Good P)
    (hb : b.Good P) (hka : a.Keyed) (hkb : b.Keyed) (h1 : a.Has v) (h2 : b.Has v) :
    (meetTupleSets R a b).Has v := by
  obtain ⟨x, y, hxy, hmem⟩ := meetTupleSets_pairs (R := R) hka hkb
  obtain ⟨hx, hy, h1, h2⟩ : x.Good P ∧ y.Good P ∧ x.Has v ∧ y.Has v := by
    obtain ⟨rfl, rfl⟩ | ⟨rfl, rfl⟩ := hxy
    · exact ⟨ha, hb, h1, h2⟩
    · exact ⟨hb, ha, h2, h1⟩
  obtain ⟨r, hr, hvr⟩ := TupleSet.has_iff.mp h1
  obtain ⟨s, hs, hvs⟩ := TupleSet.has_iff.mp h2
  obtain ⟨t, ht, hvt⟩ := glbTuples_complete hR (hx.mem r hr) (hy.mem s hs) hvr hvs
  exact TupleSet.has_iff.mpr ⟨t, (hmem t).mpr ⟨r, hr, s, hs, fun k k' hk hk' =>
    recordKey_unique hP (hx.mem r hr) (hy.mem s hs) hk hk' hvr hvs, ht⟩, hvt⟩

theorem meetTupleSets_lower (hR : MeetLower P R) (ha : a.Good P) (hb : b.Good P) (hka : a.Keyed)
    (hkb : b.Keyed) (h : (meetTupleSets R a b).Has v) : a.Has v ∧ b.Has v := by
  obtain ⟨x, y, hxy, hmem⟩ := meetTupleSets_pairs (R := R) hka hkb
  have hlower : x.Good P → y.Good P → x.Has v ∧ y.Has v := by
    intro hx hy
    obtain ⟨t, ht, hvt⟩ := TupleSet.has_iff.mp h
    obtain ⟨r, hr, s, hs, -, hrs⟩ := (hmem t).mp ht
    have := glbTuples_lower hR (hx.mem r hr) (hy.mem s hs) ⟨t, hrs, hvt⟩
    exact this.imp (fun hv => TupleSet.has_iff.mpr ⟨r, hr, hv⟩) fun hv =>
      TupleSet.has_iff.mpr ⟨s, hs, hv⟩
  obtain ⟨rfl, rfl⟩ | ⟨rfl, rfl⟩ := hxy
  · exact hlower ha hb
  · exact (hlower hb ha).symm

end Keys

/-! ## Sets of native records -/

theorem nameLt_iff : nameLt x y = true ↔ ∃ n m, x = some n ∧ y = some m ∧ n < m := by
  cases x <;> cases y <;> simp [nameLt]

/-- The name of a record as its key. -/
def RecordType.nameKey (r : RecordType) : WithBot RecordName := r.name

theorem nameLt_iff_key : nameLt a.name b.name = true ↔ a.nameKey ≠ ⊥ ∧ a.nameKey < b.nameKey := by
  rw [nameLt_iff, RecordType.nameKey, RecordType.nameKey]
  cases a.name with
  | none => exact ⟨fun ⟨_, _, h, _⟩ => (nomatch h), fun h => absurd rfl h.1⟩
  | some n =>
    cases b.name with
    | none => exact ⟨fun ⟨_, _, _, h, _⟩ => (nomatch h), fun h => absurd h.2 not_lt_bot⟩
    | some m =>
      constructor
      · rintro ⟨_, _, ⟨⟩, ⟨⟩, hlt⟩
        exact ⟨WithBot.coe_ne_bot, WithBot.coe_lt_coe.mpr hlt⟩
      · exact fun h => ⟨n, m, rfl, rfl, WithBot.coe_lt_coe.mp h.2⟩

theorem nameLt_trans {c : RecordType} (hab : nameLt a.name b.name = true)
    (hbc : nameLt b.name c.name = true) : nameLt a.name c.name = true := by
  rw [nameLt_iff_key] at hab hbc ⊢
  exact ⟨hab.1, hab.2.trans hbc.2⟩

theorem nameLt_of_ne (ha : a.name ≠ none) (hb : b.name ≠ none) (hne : a.name ≠ b.name)
    (hlt : nameLt a.name b.name ≠ true) : nameLt b.name a.name = true :=
  nameLt_iff_key.mpr
    ⟨hb, lt_of_le_of_ne (not_lt.mp fun h => hlt (nameLt_iff_key.mpr ⟨ha, h⟩)) hne.symm⟩

/-- Records with different names have no meet. -/
theorem glbRecords_of_name_ne (ha : a.name ≠ none) (hb : b.name ≠ none) (hne : a.name ≠ b.name) :
    glbRecords R a b = none := by
  obtain ⟨n, hn⟩ := Option.ne_none_iff_exists'.mp ha
  obtain ⟨m, hm⟩ := Option.ne_none_iff_exists'.mp hb
  have hab : a ≠ b := fun h => hne (by rw [h])
  have hnm : n ≠ m := fun h => hne (by rw [hn, hm, h])
  simp [glbRecords, hab, hn, hm, meetKnown, hnm]

theorem glbRecords_of_nameLt (h : nameLt a.name b.name = true ∨ nameLt b.name a.name = true) :
    glbRecords R a b ≠ some r := by
  refine Option.eq_none_iff_forall_ne_some.mp ?_ r
  rcases h with h | h <;> obtain ⟨n, m, hn, hm, hlt⟩ := nameLt_iff.mp h
  · exact glbRecords_of_name_ne (by simp [hn]) (by simp [hm]) (by simp [hn, hm, hlt.ne])
  · exact glbRecords_of_name_ne (by simp [hm]) (by simp [hn]) (by simp [hn, hm, hlt.ne'])

theorem namesSorted_cons : NamesSorted (r :: rs) ↔
    (∀ s ∈ rs, nameLt r.name s.name = true) ∧ NamesSorted rs := pairwise_cons

/-- The heads of two sorted lists that stand at the same name have no meet with
the records behind them. -/
theorem glbRecords_behind (hA : NamesSorted (a :: rsA)) (hB : NamesSorted (b :: rsB))
    (hb : b.name ≠ none) (hname : ¬ (a.name ≠ b.name ∧ a.name ≠ none ∧ b.name ≠ none))
    (hsingle : ¬ (a.name = none ∧ rsA = [])) :
    (∀ x ∈ rsA, glbRecords R x b ≠ some r) ∧ ∀ y ∈ rsB, glbRecords R a y ≠ some r := by
  rw [namesSorted_cons] at hA hB
  have ha : a.name ≠ none := by
    intro hnone
    obtain ⟨x, hx⟩ := exists_mem_of_ne_nil rsA fun h => hsingle ⟨hnone, h⟩
    obtain ⟨n, m, hn, -⟩ := nameLt_iff.mp (hA.1 x hx)
    simp [hnone] at hn
  have heq : a.name = b.name := by
    by_contra hne
    exact hname ⟨hne, ha, hb⟩
  exact ⟨fun x hx => glbRecords_of_nameLt (.inr (heq ▸ hA.1 x hx)),
    fun y hy => glbRecords_of_nameLt (.inl (heq ▸ hB.1 y hy))⟩

/-- `mnrs_merge/3` finds every meet of two records of the sets. -/
theorem mem_mnrsMerge (hA : NamesSorted rsA) (hB : NamesSorted rsB)
    (hnamed : ∀ b ∈ rsB, b.name ≠ none) :
    r ∈ mnrsMerge R rsA rsB ↔ ∃ a ∈ rsA, ∃ b ∈ rsB, glbRecords R a b = some r := by
  fun_induction mnrsMerge R rsA rsB with
  | case1 a rsA b rsB hne hlt ih =>
    rw [ih (namesSorted_cons.mp hA).2 hB hnamed, exists_pair_drop_left]
    -- every name of the other set is larger
    exact forall_mem_cons.mpr ⟨glbRecords_of_nameLt (.inl hlt), fun y hy =>
      glbRecords_of_nameLt (.inl (nameLt_trans hlt ((namesSorted_cons.mp hB).1 y hy)))⟩
  | case2 a rsA b rsB hne hlt ih =>
    rw [ih hA (namesSorted_cons.mp hB).2 fun b hb => hnamed b (.tail _ hb), exists_pair_drop_right]
    have hlt := nameLt_of_ne hne.2.1 hne.2.2 hne.1 hlt
    exact forall_mem_cons.mpr ⟨glbRecords_of_nameLt (.inr hlt), fun x hx =>
      glbRecords_of_nameLt (.inr (nameLt_trans hlt ((namesSorted_cons.mp hA).1 x hx)))⟩
  | case3 a rsA b rsB hname hsingle u hu ih =>
    obtain ⟨-, rfl⟩ := hsingle
    rw [mem_cons, ih hA (namesSorted_cons.mp hB).2 fun b hb => hnamed b (.tail _ hb)]
    simp [hu, @eq_comm _ r u]
  | case4 a rsA b rsB hname hsingle hnone ih =>
    obtain ⟨-, rfl⟩ := hsingle
    rw [ih hA (namesSorted_cons.mp hB).2 fun b hb => hnamed b (.tail _ hb)]
    simp [hnone]
  | case5 a rsA b rsB hname hsingle u hu ih =>
    obtain ⟨hxb, hay⟩ := glbRecords_behind hA hB (hnamed b (.head _)) hname hsingle
    rw [mem_cons, ih (namesSorted_cons.mp hA).2 (namesSorted_cons.mp hB).2 fun b hb =>
      hnamed b (.tail _ hb), exists_pair_heads hay hxb, hu, Option.some.injEq, eq_comm]
  | case6 a rsA b rsB hname hsingle hnone ih =>
    obtain ⟨hxb, hay⟩ := glbRecords_behind hA hB (hnamed b (.head _)) hname hsingle
    rw [ih (namesSorted_cons.mp hA).2 (namesSorted_cons.mp hB).2 fun b hb =>
      hnamed b (.tail _ hb), exists_pair_heads hay hxb, hnone]
    simp
  | case7 rsA rsB h =>
    cases rsA with
    | nil => simp
    | cons a rsA =>
      cases rsB with
      | nil => simp
      | cons b rsB => exact (h _ _ _ _ rfl rfl).elim

theorem namesSorted_iff : NamesSorted rs ↔ KeySorted RecordType.nameKey rs := by
  unfold NamesSorted KeySorted
  simp only [nameLt_iff_key]

/-- In a set of several records all have names. -/
theorem NativeRecordSet.Sorted.named (h : (NativeRecordSet.records rs).Sorted) :
    ∀ r ∈ rs, r.name ≠ Option.none := by
  intro r hr hnone
  have hsingle := (namesSorted_iff.mp h.2).eq_singleton hr hnone
  have := h.1
  simp [hsingle] at this

theorem glbRecords_name (h : glbRecords R a b = some r) (hb : b.name ≠ none) :
    r.name = b.name := by
  obtain ⟨rfl, rfl⟩ | ⟨-, name, _, _, hname, -, -, rfl⟩ := glbRecords_eq_some.mp h
  · rfl
  · exact (meetKnown_bound.bound trivial trivial hname).2.2.resolve_left hb

/-- The names of a meet are names of the second set. -/
theorem mnrsMerge_names (hB : ∀ b ∈ rsB, b.name ≠ none) :
    ((mnrsMerge R rsA rsB).map RecordType.name).Sublist (rsB.map RecordType.name) := by
  fun_induction mnrsMerge R rsA rsB with
  | case1 a rsA b rsB hne hlt ih => exact ih hB
  | case2 a rsA b rsB hne hlt ih | case4 a rsA b rsB hname hsingle hnone ih
  | case6 a rsA b rsB hname hsingle hnone ih =>
    exact (ih fun x hx => hB x (.tail _ hx)).cons _
  | case3 a rsA b rsB hname hsingle u hu ih | case5 a rsA b rsB hname hsingle u hu ih =>
    rw [map_cons, glbRecords_name hu (hB b (.head _))]
    exact (ih fun x hx => hB x (.tail _ hx)).cons_cons _
  | case7 rsA rsB h => exact nil_sublist _

theorem namesSorted_mnrsMerge (h : NamesSorted rsB) (hB : ∀ b ∈ rsB, b.name ≠ none) :
    NamesSorted (mnrsMerge R rsA rsB) := by
  have hmap : (rsB.map RecordType.name).Pairwise fun x y => nameLt x y = true :=
    pairwise_map.mpr h
  exact pairwise_map.mp (hmap.sublist (mnrsMerge_names hB))

@[simp] theorem toList_nativeRecords (rs : List RecordType) : (nativeRecords rs).toList = rs := by
  match rs with
  | [] | [_] | _ :: _ :: _ => rfl

theorem NativeRecordSet.has_iff {s : NativeRecordSet} :
    s.Has v ↔ ∃ r ∈ s.toList, (Typ.record r).Has v := by
  cases s <;> simp [NativeRecordSet.Has, NativeRecordSet.toList]

theorem NativeRecordSet.Good.mem {s : NativeRecordSet} (h : s.Good P) :
    ∀ r ∈ s.toList, r.Good P := by
  cases s with
  | none => nofun
  | record r => exact forall_mem_singleton.mpr h
  | records rs => exact fun r hr => (h r hr).2

theorem nativeRecords_has : (nativeRecords rs).Has v ↔ ∃ r ∈ rs, (Typ.record r).Has v := by
  rw [NativeRecordSet.has_iff, toList_nativeRecords]

theorem namesSorted_singleton (r : RecordType) : NamesSorted [r] := pairwise_singleton _ r

/-- The meet of two sets has the meets of their records, taken in one of the two orders. -/
theorem meetNativeRecordSets_pairs {a b : NativeRecordSet} (ha : a.Sorted) (hb : b.Sorted) :
    ∃ x y rs, (x = a ∧ y = b ∨ x = b ∧ y = a) ∧ meetNativeRecordSets R a b = nativeRecords rs ∧
      NamesSorted rs ∧ ∀ t, t ∈ rs ↔ ∃ r ∈ x.toList, ∃ s ∈ y.toList, glbRecords R r s = some t := by
  match a, b with
  | .none, _ | .record _, .none | .records _, .none =>
    exact ⟨_, _, [], .inl ⟨rfl, rfl⟩, rfl, .nil, by simp [NativeRecordSet.toList]⟩
  | .record r, .record s =>
    refine ⟨_, _, (glbRecords R r s).toList, .inl ⟨rfl, rfl⟩, ?_, ?_, ?_⟩
    · rw [meetNativeRecordSets]
      cases glbRecords R r s <;> rfl
    · cases glbRecords R r s <;> simp [NamesSorted]
    · simp [NativeRecordSet.toList]
  | .record r, .records rs =>
    exact ⟨_, _, _, .inl ⟨rfl, rfl⟩, rfl, namesSorted_mnrsMerge hb.2 hb.named, fun _ =>
      mem_mnrsMerge (namesSorted_singleton r) hb.2 hb.named⟩
  | .records rs, .record r =>
    exact ⟨_, _, _, .inr ⟨rfl, rfl⟩, rfl, namesSorted_mnrsMerge ha.2 ha.named, fun _ =>
      mem_mnrsMerge (namesSorted_singleton r) ha.2 ha.named⟩
  | .records rsA, .records rsB =>
    exact ⟨_, _, _, .inl ⟨rfl, rfl⟩, rfl, namesSorted_mnrsMerge hb.2 hb.named, fun _ =>
      mem_mnrsMerge ha.2 hb.2 hb.named⟩

theorem meetNativeRecordSets_complete (hR : MeetComplete P R) {a b : NativeRecordSet}
    (ha : a.Good P) (hb : b.Good P) (hsa : a.Sorted) (hsb : b.Sorted) (h1 : a.Has v)
      (h2 : b.Has v) :
    (meetNativeRecordSets R a b).Has v := by
  obtain ⟨x, y, rs, hxy, heq, -, hmem⟩ := meetNativeRecordSets_pairs (R := R) hsa hsb
  obtain ⟨hx, hy, h1, h2⟩ : x.Good P ∧ y.Good P ∧ x.Has v ∧ y.Has v := by
    obtain ⟨rfl, rfl⟩ | ⟨rfl, rfl⟩ := hxy
    · exact ⟨ha, hb, h1, h2⟩
    · exact ⟨hb, ha, h2, h1⟩
  obtain ⟨r, hr, hvr⟩ := NativeRecordSet.has_iff.mp h1
  obtain ⟨s, hs, hvs⟩ := NativeRecordSet.has_iff.mp h2
  obtain ⟨t, ht, hvt⟩ := glbRecords_complete hR (hx.mem r hr) (hy.mem s hs) hvr hvs
  rw [heq]
  exact nativeRecords_has.mpr ⟨t, (hmem t).mpr ⟨r, hr, s, hs, ht⟩, hvt⟩

theorem meetNativeRecordSets_lower (hR : MeetLower P R) {a b : NativeRecordSet} (ha : a.Good P)
    (hb : b.Good P) (hsa : a.Sorted) (hsb : b.Sorted) (h : (meetNativeRecordSets R a b).Has v) :
    a.Has v ∧ b.Has v := by
  obtain ⟨x, y, rs, hxy, heq, -, hmem⟩ := meetNativeRecordSets_pairs (R := R) hsa hsb
  have hlower : x.Good P → y.Good P → x.Has v ∧ y.Has v := by
    intro hx hy
    obtain ⟨t, ht, hvt⟩ := nativeRecords_has.mp (heq ▸ h)
    obtain ⟨r, hr, s, hs, hrs⟩ := (hmem t).mp ht
    have := glbRecords_lower hR (hx.mem r hr) (hy.mem s hs) ⟨t, hrs, hvt⟩
    exact this.imp (fun hv => NativeRecordSet.has_iff.mpr ⟨r, hr, hv⟩) fun hv =>
      NativeRecordSet.has_iff.mpr ⟨s, hs, hv⟩
  obtain ⟨rfl, rfl⟩ | ⟨rfl, rfl⟩ := hxy
  · exact hlower ha hb
  · exact (hlower hb ha).symm

end Otp.Compiler.BeamTypes
