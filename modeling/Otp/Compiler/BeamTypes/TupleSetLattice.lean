import Otp.Compiler.BeamTypes.RecordSetLattice

/-!
# Meets and joins of sets of tuples

The tuples of a record set have different record keys. A tuple without a key
stands alone, and so does the tuple that a set above the limit becomes.
-/

namespace Otp.Compiler.BeamTypes

open Otp.Lib List Ordset

variable {P : Typ → Prop} {le : Typ → Typ → Prop} {R J : Typ → Typ → Typ} {a b t : TupleType}
  {rs rsA rsB acc : List (RecordKey × TupleType)}

/-! ## Record keys -/

section

variable (h : Inner P le R J) (ha : a.Canonical P) (hb : b.Canonical P)

include h ha hb

/-- A tuple below one with a record key has this key. -/
theorem TupleType.Le.recordKey_eq {k : RecordKey} (hab : a.Le le b) (hk : b.recordKey = some k) :
    a.recordKey = some k := by
  obtain ⟨hexact, htag, hsing, hsize⟩ := recordKey_eq_some.mp hk
  have htag' := (lookup_eq_some hb.1).mp htag
  obtain ⟨x, hx, hle⟩ := hab.2.2 1 k.2 htag'
  have hxP := ha.2 _ hx
  obtain rfl : x = k.2 := h.minimal hxP.2.1 (hb.2 _ htag').2.1 hle hsing hxP.2.2.1
  obtain ⟨hexact', hsize'⟩ := hab.2.1 hexact
  exact recordKey_eq_some.mpr
    ⟨hexact', (lookup_eq_some ha.1).mpr hx, hsing, hsize.trans hsize'.symm⟩

/-- A tuple above one without a record key has none. -/
theorem recordKey_none_of_le (hab : a.Le le b) (hk : a.recordKey = none) : b.recordKey = none := by
  refine Option.eq_none_iff_forall_not_mem.mpr fun k hbk => ?_
  rw [TupleType.Le.recordKey_eq h ha hb hab hbk] at hk
  cases hk

theorem lubTuples_recordKey (hab : a.recordKey = b.recordKey) :
    (lubTuples J a b).recordKey = a.recordKey := by
  obtain ⟨hP, hle, -⟩ := (lubTuples_bound h).bound ha hb rfl
  cases hk : a.recordKey with
  | none => exact recordKey_none_of_le h ha hP hle hk
  | some k =>
    by_cases heq : a = b
    · rw [lubTuples, if_pos heq, hk]
    obtain ⟨hexA, htagA, hsing, hsizeA⟩ := recordKey_eq_some.mp hk
    obtain ⟨hexB, htagB, -, hsizeB⟩ := recordKey_eq_some.mp (hab ▸ hk)
    have hsize : a.size = b.size := hsizeA.symm.trans hsizeB
    have htagP := ha.2 _ ((lookup_eq_some ha.1).mp htagA)
    rw [lubTuples_eq ha hb heq]
    refine recordKey_eq_some.mpr ⟨by simp [hexA, hexB, hsize], ?_, hsing, by simp [hsizeB, hsize]⟩
    refine (lookup_eq_some (isMap_interWith ha.1 hb.1)).mpr ?_
    refine mem_interWith.mpr ⟨k.2, k.2, htagA, htagB, ?_⟩
    rw [h.join_self htagP.2.1]
    exact setTupleElement_eq_some.mpr ⟨rfl, htagP.2.2.1, htagP.2.2.2, htagP.1.2.2⟩

end

/-- The record key of a tuple as its key in a set. -/
def TupleType.setKey (t : TupleType) : WithBot RecordKey := t.recordKey

theorem setKey_mono (h : Inner P le R J) (ha : a.Canonical P) (hb : b.Canonical P)
    (hab : a.Le le b) (hk : b.setKey ≠ ⊥) : a.setKey = b.setKey := by
  obtain ⟨k, hk⟩ := Option.ne_none_iff_exists'.mp hk
  exact (TupleType.Le.recordKey_eq h ha hb hab hk).trans hk.symm

/-- `jts_tuple/2` joins all tuples. -/
theorem jtsTuple_isLubOf (h : Inner P le R J) (hrs : ∀ r ∈ rs, r.2.Canonical P)
    (ht : t.Canonical P) :
    IsLubOf (TupleType.Canonical P) (TupleType.Le le) (t :: rs.map Prod.snd) (jtsTuple J rs t) := by
  have hmap : jtsTuple J rs t = (rs.map Prod.snd).foldl (fun acc x => lubTuples J x acc) t := by
    rw [jtsTuple, foldl_map]
  rw [hmap]
  refine isLubOf_foldl (tuple_order h) (lubTuples_bound h) (fun x hx => ?_) ht
  obtain ⟨r, hr, rfl⟩ := mem_map.mp hx
  exact hrs r hr

/-- A set that collapses becomes the join of its tuples. -/
theorem collapseRecords_isLubOf (h : Inner P le R J)
    (hrs : ∀ r ∈ rsA ++ rsB ++ acc, r.2.Canonical P) (hne : rsA ++ rsB ≠ []) :
    ∃ t, collapseRecords J rsA rsB acc = .tuple t ∧
      IsLubOf (TupleType.Canonical P) (TupleType.Le le) ((rsA ++ rsB ++ acc).map Prod.snd) t := by
  obtain ⟨r, rs, heq⟩ : ∃ r rs, rsA ++ rsB ++ acc = r :: rs :=
    exists_cons_of_ne_nil (append_ne_nil_of_left_ne_nil hne acc)
  refine ⟨jtsTuple J rs r.2, collapseRecords_eq heq, ?_⟩
  rw [heq] at hrs ⊢
  exact jtsTuple_isLubOf h (fun s hs => hrs s (.tail _ hs)) (hrs r (.head _))

/-- The tuples of a record set determine its keys. -/
theorem records_ext {rs' : List (RecordKey × TupleType)} (h : ∀ r ∈ rs, r.2.recordKey = some r.1)
    (h' : ∀ r ∈ rs', r.2.recordKey = some r.1) (heq : rs.map Prod.snd = rs'.map Prod.snd) :
    rs = rs' := by
  induction rs generalizing rs' with
  | nil => simpa using heq.symm
  | cons r rs ih =>
    obtain ⟨r', rs', rfl⟩ : ∃ r' l, rs' = r' :: l := by
      cases rs' with
      | nil => cases heq
      | cons r' l => exact ⟨r', l, rfl⟩
    obtain ⟨hr, hrs⟩ := List.cons.inj heq
    rw [ih (fun s hs => h s (.tail _ hs)) (fun s hs => h' s (.tail _ hs)) hrs]
    have hkey := (h r (.head _)).symm.trans (hr ▸ h' r' (.head _))
    rw [show r = r' from Prod.ext (Option.some.inj hkey) hr]

section Keys

variable [LinearOrder RecordKey] {s a b : TupleSet} {n : ℕ}

/-! ## Sets as lists -/

/-- Sets of canonical tuples, as lists. -/
abbrev TuplesOn (P : Typ → Prop) : List TupleType → Prop :=
  KeySetOn (TupleType.Canonical P) TupleType.setKey (· ≤ tupleSetLimit + 1)

/-- A record set: a map from the record keys of its tuples. -/
def KeyedRecords (rs : List (RecordKey × TupleType)) : Prop :=
  Ordset.IsMap rs ∧ ∀ r ∈ rs, r.2.recordKey = some r.1

theorem KeyedRecords.keySorted (h : KeyedRecords rs) :
    KeySorted TupleType.setKey (rs.map Prod.snd) := by
  refine pairwise_map.mpr (List.Pairwise.imp_of_mem ?_ (pairwise_map.mp h.1))
  intro r s hr hs hlt
  have hr' : r.2.setKey = (r.1 : WithBot RecordKey) := h.2 r hr
  have hs' : s.2.setKey = (s.1 : WithBot RecordKey) := h.2 s hs
  rw [hr', hs']
  exact ⟨WithBot.coe_ne_bot, WithBot.coe_lt_coe.mpr hlt⟩

theorem TupleSet.Canonical.keyedRecords (h : (TupleSet.records rs).Canonical P) :
    KeyedRecords rs := ⟨h.1.2.2.1, h.1.2.2.2⟩

theorem TupleSet.Canonical.mem (h : (TupleSet.records rs).Canonical P) :
    ∀ r ∈ rs, r.2.Canonical P := fun r hr =>
  h.2 r.2 (mem_map_of_mem hr)

/-- The tuples of a keyed set. -/
theorem TupleSet.Keyed.tuples (h : s.Keyed) :
    KeySorted TupleType.setKey s.toList ∧ s.toList.length ≤ tupleSetLimit + 1 := by
  cases s with
  | none => exact ⟨.nil, Nat.zero_le _⟩
  | tuple t => exact ⟨keySorted_singleton t, by simp [TupleSet.toList]⟩
  | records rs => exact ⟨KeyedRecords.keySorted h.2.2, by simpa [TupleSet.toList] using h.2.1⟩

theorem TupleSet.Canonical.tuplesOn (h : s.Canonical P) : TuplesOn P s.toList :=
  ⟨h.2, h.1.tuples.1, h.1.tuples.2⟩

theorem TupleSet.Canonical.ext {t : TupleSet} (hs : s.Canonical P) (ht : t.Canonical P)
    (h : s.toList = t.toList) : s = t := by
  -- a tuple with a record key is in a record set
  have hne : ∀ {u : TupleType} {rs : List (RecordKey × TupleType)}, u.recordKey = Option.none →
      (∀ r ∈ rs, r.2.recordKey = some r.1) → [u] ≠ rs.map Prod.snd := by
    intro u rs hu hrs heq
    obtain ⟨r, hr, rfl⟩ := mem_map.mp (heq ▸ mem_singleton.mpr rfl)
    rw [hrs r hr] at hu
    cases hu
  match s, t with
  | .none, .none => rfl
  | .none, .records rs => exact absurd (map_eq_nil_iff.mp h.symm) ht.1.1
  | .records rs, .none => exact absurd (map_eq_nil_iff.mp h) hs.1.1
  | .tuple t, .tuple u => rw [singleton_inj.mp h]
  | .tuple t, .records rs => exact absurd h (hne hs.1 ht.1.2.2.2)
  | .records rs, .tuple t => exact absurd h.symm (hne ht.1 hs.1.2.2.2)
  | .records rs, .records rs' => rw [records_ext hs.1.2.2.2 ht.1.2.2.2 h]

theorem tupleSet_order (h : Inner P le R J) : OrderOn (TupleSet.Canonical P) (TupleSet.Le le) :=
  (orderOn_keySet (tuple_order h) (setKey_mono h)).comap
    (fun hs => hs.tuplesOn) fun hs ht => hs.ext ht

theorem isMeet_tupleSet {ord : List TupleType → List TupleType → Prop} {m : TupleSet}
    {ts : List TupleType} (h : IsMeet (TuplesOn P) ord a.toList b.toList ts) (hts : m.toList = ts)
    (hm : m.Keyed) : IsMeet (TupleSet.Canonical P) (fun s t => ord s.toList t.toList) a b m := by
  subst hts
  exact h.comap (fun hs => hs.tuplesOn) ⟨hm, h.mem.mem⟩

theorem newTupleSet_canonical (h : t.Canonical P) : (newTupleSet t).Canonical P := by
  refine ⟨newTupleSet_keyed t, ?_⟩
  rw [toList_newTupleSet]
  exact forall_mem_singleton.mpr h

theorem recordsOrNone_keyed (h : KeyedRecords rs) (hlen : rs.length ≤ tupleSetLimit + 1) :
    (recordsOrNone rs).Keyed := by
  cases rs with
  | nil => trivial
  | cons r rs => exact ⟨by simp, hlen, h.1, h.2⟩

/-! ## Meets -/

theorem mtsTuple_keyed (h : Inner P le R J) (hrs : (TupleSet.records rs).Canonical P)
    (ht : t.Canonical P) :
    KeyedRecords (rs.filterMap fun r => (glbTuples R r.2 t).map (r.1, ·)) := by
  constructor
  · have hsub : (keys (rs.filterMap fun r => (glbTuples R r.2 t).map (r.1, ·))).Sublist
        (keys rs) := by
      clear hrs
      induction rs with
      | nil => exact List.Sublist.slnil
      | cons r rs ih =>
        rw [filterMap_cons]
        cases glbTuples R r.2 t with
        | none => exact ih.cons _
        | some u => exact ih.cons_cons _
    exact List.Pairwise.sublist hsub hrs.keyedRecords.1
  · intro u hu
    obtain ⟨r, hr, hru⟩ := mem_filterMap.mp hu
    obtain ⟨v, hv, rfl⟩ := Option.map_eq_some_iff.mp hru
    have hrP := hrs.mem r hr
    obtain ⟨hP, hle, -⟩ := (glbTuples_bound h).bound hrP ht hv
    exact TupleType.Le.recordKey_eq h hP hrP hle (hrs.keyedRecords.2 r hr)

/-- The keys of a meet are keys of the second set. -/
theorem mtsRecords_keys (rsA rsB : List (RecordKey × TupleType)) :
    (keys (mtsRecords R rsA rsB)).Sublist (keys rsB) := by
  fun_induction mtsRecords R rsA rsB with
  | case1 a rsA keyB b rsB hnone ih => exact ih.cons _
  | case2 a rsA keyB b rsB u hsome ih => exact ih.cons_cons _
  | case3 keyA a rsA keyB b rsB hne hlt ih => exact ih
  | case4 keyA a rsA keyB b rsB hne hlt ih => exact ih.cons _
  | case5 rsA rsB h => exact nil_sublist _

section

variable (h : Inner P le R J) (ha : a.Canonical P) (hb : b.Canonical P)

include h ha hb

theorem meetTupleSets_keyed :
    (meetTupleSets R a b).Keyed := by
  have htuple : ∀ {rs : List (RecordKey × TupleType)} {t : TupleType},
      (TupleSet.records rs).Canonical P → (TupleSet.tuple t).Canonical P →
      (mtsTuple R rs t).Keyed := fun hrs ht =>
    recordsOrNone_keyed (mtsTuple_keyed h hrs (ht.2 _ (.head _)))
      ((length_filterMap_le _ _).trans hrs.1.2.1)
  match a, b with
  | .none, _ | .tuple _, .none | .records _, .none => trivial
  | .tuple t, .tuple u =>
    rw [meetTupleSets]
    cases glbTuples R t u with
    | none => trivial
    | some t => exact newTupleSet_keyed t
  | .tuple t, .records rs => exact htuple hb ha
  | .records rs, .tuple t => exact htuple ha hb
  | .records rsA, .records rsB =>
    refine recordsOrNone_keyed ⟨List.Pairwise.sublist (mtsRecords_keys rsA rsB) hb.1.2.2.1, ?_⟩ ?_
    · rintro ⟨k, t⟩ ht
      obtain ⟨r, hr, s, hs, rfl, -, hrs⟩ := (mem_mtsRecords ha.1.2.2.1 hb.1.2.2.1).mp ht
      obtain ⟨htP, hle, -⟩ := (glbTuples_bound h).bound (ha.mem r hr) (hb.mem s hs) hrs
      exact TupleType.Le.recordKey_eq h htP (ha.mem r hr) hle (ha.keyedRecords.2 r hr)
    · have := (mtsRecords_keys (R := R) rsA rsB).length_le
      simp only [Ordset.keys, length_map] at this
      exact this.trans hb.1.2.1

theorem meetTupleSets_isMeet :
    IsMeet (TupleSet.Canonical P) (TupleSet.Le le) a b (meetTupleSets R a b) := by
  have hkeyed := meetTupleSets_keyed h ha hb
  obtain ⟨x, y, hxy, hmem⟩ := meetTupleSets_pairs (R := R) ha.1 hb.1
  have hmeet : x.Canonical P → y.Canonical P → IsMeet (TupleSet.Canonical P) (TupleSet.Le le) x y
      (meetTupleSets R a b) := by
    intro hx hy
    refine isMeet_tupleSet (isMeet_keySet (glbTuples_bound h) hx.tuplesOn hy.tuplesOn
      hkeyed.tuples.1 hkeyed.tuples.2 fun t => (hmem t).trans ?_) rfl hkeyed
    constructor
    · exact fun ⟨r, hr, s, hs, _, hrs⟩ => ⟨r, hr, s, hs, hrs⟩
    · -- a meet has the record keys of both tuples
      rintro ⟨r, hr, s, hs, hrs⟩
      refine ⟨r, hr, s, hs, fun k k' hk hk' => ?_, hrs⟩
      obtain ⟨ht, hl, hl'⟩ := (glbTuples_bound h).bound (hx.2 r hr) (hy.2 s hs) hrs
      have h1 := TupleType.Le.recordKey_eq h ht (hx.2 r hr) hl hk
      exact Option.some.inj (h1.symm.trans (TupleType.Le.recordKey_eq h ht (hy.2 s hs) hl' hk'))
  obtain ⟨rfl, rfl⟩ | ⟨rfl, rfl⟩ := hxy
  · exact hmeet ha hb
  · exact (hmeet hb ha).symm

end

/-! ## Joins -/

/-- The join of two records with the same key. -/
def lubKeyed (join : Typ → Typ → Typ) (r s : RecordKey × TupleType) : RecordKey × TupleType :=
  (r.1, lubTuples join r.2 s.2)

/-- `res` is the merge of two record sets behind the records in `acc`, of which
there are `n`, or the join of all tuples above the limit. -/
def MergesTo (P : Typ → Prop) (le : Typ → Typ → Prop) (join : Typ → Typ → Typ)
    (rsA rsB : List (RecordKey × TupleType)) (n : ℕ) (acc : List (RecordKey × TupleType))
    (res : TupleSet) : Prop :=
  (n + (mergeBy Prod.fst (lubKeyed join) rsA rsB).length ≤ tupleSetLimit + 1 →
    res = .records (acc.reverse ++ mergeBy Prod.fst (lubKeyed join) rsA rsB)) ∧
  (tupleSetLimit + 1 < n + (mergeBy Prod.fst (lubKeyed join) rsA rsB).length →
    ∃ t, res = .tuple t ∧ IsLubOf (TupleType.Canonical P) (TupleType.Le le)
      ((rsA ++ rsB ++ acc).map Prod.snd) t)

section

variable {rsA' rsB' : List (RecordKey × TupleType)} {r : RecordKey × TupleType} {res : TupleSet}
  (hmerge : mergeBy Prod.fst (lubKeyed J) rsA rsB = r :: mergeBy Prod.fst (lubKeyed J) rsA' rsB')

include hmerge

/-- One record goes to the accumulator. -/
theorem MergesTo.step (h : MergesTo P le J rsA' rsB' (n + 1) (r :: acc) res)
    (hbound : ∀ {w}, TupleType.Canonical P w →
      ((∀ x ∈ (rsA' ++ rsB' ++ r :: acc).map Prod.snd, TupleType.Le le x w) ↔
        ∀ x ∈ (rsA ++ rsB ++ acc).map Prod.snd, TupleType.Le le x w)) :
    MergesTo P le J rsA rsB n acc res := by
  unfold MergesTo
  rw [hmerge, length_cons]
  refine ⟨fun hle => ?_, fun hlt => ?_⟩
  · rw [h.1 (by omega)]
    simp
  · obtain ⟨t, ht, hlub⟩ := h.2 (by omega)
    exact ⟨t, ht, hlub.congr hbound⟩

/-- A record that is moved as it is. -/
theorem MergesTo.move (hrs : ∀ r ∈ rsA ++ rsB ++ acc, r.2.Canonical P)
    (hmem : ∀ x, x ∈ rsA' ++ rsB' ++ r :: acc ↔ x ∈ rsA ++ rsB ++ acc)
    (h : (∀ x ∈ rsA' ++ rsB' ++ r :: acc, x.2.Canonical P) →
      MergesTo P le J rsA' rsB' (n + 1) (r :: acc) res) : MergesTo P le J rsA rsB n acc res :=
  (h fun x hx => hrs x ((hmem x).mp hx)).step hmerge fun _ => by simp only [forall_mem_map, hmem]

end

/-- `jts_records/4` merges the records by key, and collapses above the limit. -/
theorem jtsRecords_mergesTo (h : Inner P le R J) (hn : n ≤ tupleSetLimit + 1)
    (hrs : ∀ r ∈ rsA ++ rsB ++ acc, r.2.Canonical P) :
    MergesTo P le J rsA rsB n acc (jtsRecords J rsA rsB n acc) := by
  have hlub := lubTuples_bound h
  have hcollapse : ∀ {rsA rsB acc : List (RecordKey × TupleType)} {n : ℕ},
      (∀ r ∈ rsA ++ rsB ++ acc, r.2.Canonical P) → tupleSetLimit < n → rsA ++ rsB ≠ [] →
      MergesTo P le J rsA rsB n acc (collapseRecords J rsA rsB acc) := by
    intro rsA rsB acc n hrs hlimit hne
    refine ⟨fun hle => absurd hle ?_, fun _ => collapseRecords_isLubOf h hrs hne⟩
    have hlen : rsA.length ≤ (mergeBy Prod.fst (lubKeyed J) rsA rsB).length ∧
        rsB.length ≤ (mergeBy Prod.fst (lubKeyed J) rsA rsB).length := le_length_mergeBy rsA rsB
    have hpos : 0 < rsA.length + rsB.length := by
      rw [← length_append]
      exact length_pos_of_ne_nil hne
    omega
  fun_induction jtsRecords J rsA rsB n acc with
  | case1 n acc =>
    refine ⟨fun _ => by simp, fun hlt => absurd hlt ?_⟩
    simpa using hn
  | case2 keyA a rsA keyB b rsB n acc hlimit | case6 r rsA n acc hlimit
  | case8 r rsB n acc hlimit => exact hcollapse hrs hlimit (by simp)
  | case3 a rsA keyB b rsB n acc hlimit ih =>
    have ha : a.Canonical P := hrs (keyB, a) (by simp)
    have hb : b.Canonical P := hrs (keyB, b) (by simp)
    refine MergesTo.step ?_ (ih (by omega) fun r hr => ?_) fun {w} hw => ?_
    · rw [mergeBy_cons, if_pos rfl]
      rfl
    · simp only [mem_append, mem_cons] at hr
      rcases hr with (hr | hr) | rfl | hr
      · exact hrs r (by simp [hr])
      · exact hrs r (by simp [hr])
      · exact (hlub.bound ha hb rfl).1
      · exact hrs r (by simp [hr])
    · simp only [map_append, map_cons, forall_mem_append, forall_mem_cons,
        hlub.le_iff (tuple_order h) ha hb hw]
      constructor
      · rintro ⟨⟨hA, hB⟩, ⟨haw, hbw⟩, hacc⟩
        exact ⟨⟨⟨haw, hA⟩, hbw, hB⟩, hacc⟩
      · rintro ⟨⟨⟨haw, hA⟩, hbw, hB⟩, hacc⟩
        exact ⟨⟨hA, hB⟩, ⟨haw, hbw⟩, hacc⟩
  | case4 keyA a rsA keyB b rsB n acc hlimit hne hlt ih =>
    refine MergesTo.move ?_ hrs (by grind) (ih (by omega))
    rw [mergeBy_cons, if_neg hne, if_pos hlt]
  | case5 keyA a rsA keyB b rsB n acc hlimit hne hlt ih =>
    refine MergesTo.move ?_ hrs (by grind) (ih (by omega))
    rw [mergeBy_cons, if_neg hne, if_neg hlt]
  | case7 r rs n acc hlimit ih | case9 r rs n acc hlimit ih =>
    exact MergesTo.move (by simp) hrs (by grind) (ih (by omega))

theorem map_mergeBy_lubKeyed (hA : ∀ r ∈ rsA, r.2.recordKey = some r.1)
    (hB : ∀ r ∈ rsB, r.2.recordKey = some r.1) :
    (mergeBy Prod.fst (lubKeyed J) rsA rsB).map Prod.snd =
      mergeBy TupleType.setKey (lubTuples J) (rsA.map Prod.snd) (rsB.map Prod.snd) := by
  have hkey : ∀ {r : RecordKey × TupleType}, r.2.recordKey = some r.1 →
      r.2.setKey = (r.1 : WithBot RecordKey) := id
  refine map_mergeBy (fun x hx y hy => ?_) (fun x hx y hy => ?_) fun _ _ => rfl
  · rw [hkey (hA x hx), hkey (hB y hy), WithBot.coe_inj]
  · rw [hkey (hA x hx), hkey (hB y hy), WithBot.coe_lt_coe]

section

variable (h : Inner P le R J) (hA : (TupleSet.records rsA).Canonical P)
  (hB : (TupleSet.records rsB).Canonical P)

include h hA hB

theorem keyedRecords_mergeBy :
    KeyedRecords (mergeBy Prod.fst (lubKeyed J) rsA rsB) := by
  have hsA : SortedBy Prod.fst rsA := pairwise_map.mp hA.keyedRecords.1
  have hsB : SortedBy Prod.fst rsB := pairwise_map.mp hB.keyedRecords.1
  refine ⟨pairwise_map.mpr (sortedBy_mergeBy hsA hsB fun _ _ _ _ _ => rfl), fun r hr => ?_⟩
  rcases (mem_mergeBy hsA hsB).mp hr with ⟨hr, -⟩ | ⟨hr, -⟩ | ⟨x, hx, y, hy, hxy, rfl⟩
  · exact hA.keyedRecords.2 r hr
  · exact hB.keyedRecords.2 r hr
  · have hkx := hA.keyedRecords.2 x hx
    have hky := hB.keyedRecords.2 y hy
    refine (lubTuples_recordKey h (hA.mem x hx) (hB.mem y hy) ?_).trans hkx
    rw [hkx, hky, hxy]

theorem joinRecordSets_isJoin :
    IsMeet (TupleSet.Canonical P) (flip (TupleSet.Le le)) (.records rsA) (.records rsB)
      (jtsRecords J rsA rsB 0 []) := by
  have hrs : ∀ r ∈ rsA ++ rsB ++ [], r.2.Canonical P := by
    intro r hr
    rw [append_nil, mem_append] at hr
    exact hr.elim (hA.mem r) (hB.mem r)
  have hspec := jtsRecords_mergesTo h (Nat.zero_le _) hrs
  have hmap := map_mergeBy_lubKeyed (J := J) hA.keyedRecords.2 hB.keyedRecords.2
  have hlen := congrArg List.length hmap
  rw [length_map] at hlen
  by_cases hsize : (mergeBy Prod.fst (lubKeyed J) rsA rsB).length ≤ tupleSetLimit + 1
  · rw [hspec.1 (by omega), reverse_nil, nil_append]
    have hkeys : ∀ {rs : List (RecordKey × TupleType)}, (∀ r ∈ rs, r.2.recordKey = some r.1) →
        ∀ t ∈ rs.map Prod.snd, t.setKey ≠ ⊥ := by
      intro rs hrs t ht
      obtain ⟨r, hr, rfl⟩ := mem_map.mp ht
      exact Option.ne_none_iff_exists'.mpr ⟨_, hrs r hr⟩
    have hjoin := isJoin_merge (tuple_order h) (lubTuples_bound h) (setKey_mono h)
      (lubTuples_recordKey h) hA.tuplesOn hB.tuplesOn
      (hkeys hA.keyedRecords.2) (hkeys hB.keyedRecords.2) (by
        show (mergeBy TupleType.setKey (lubTuples J) (rsA.map Prod.snd)
          (rsB.map Prod.snd)).length ≤ _
        rw [← hlen]
        exact hsize)
    have hkeyed := keyedRecords_mergeBy h hA hB
    refine isMeet_tupleSet hjoin hmap ⟨fun hnil => ?_, hsize, hkeyed.1, hkeyed.2⟩
    have hlenA : rsA.length ≤ (mergeBy Prod.fst (lubKeyed J) rsA rsB).length :=
      (le_length_mergeBy rsA rsB).1
    rw [hnil] at hlenA
    exact hA.1.1 (length_eq_zero_iff.mp (Nat.le_zero.mp hlenA))
  · obtain ⟨t, ht, hlub⟩ := hspec.2 (by omega)
    rw [append_nil, map_append] at hlub
    have hjoin := isJoin_collapse (setKey_mono h) (lubTuples_recordKey h) hA.tuplesOn
      hB.tuplesOn (by simp)
      (fun hmn hn => hmn.trans hn) hlub (.inr (by
        show ¬ (mergeBy TupleType.setKey (lubTuples J) (rsA.map Prod.snd)
          (rsB.map Prod.snd)).length ≤ _
        rw [← hlen]
        exact hsize))
    rw [ht]
    refine isMeet_tupleSet hjoin rfl (Option.eq_none_iff_forall_not_mem.mpr fun k hk => hsize ?_)
    -- otherwise all tuples have the same record key
    have hone : (mergeBy TupleType.setKey (lubTuples J) (rsA.map Prod.snd)
        (rsB.map Prod.snd)).length ≤ [t].length := by
      refine mergeBy_length_le hA.tuplesOn.sorted.sortedBy hB.tuplesOn.sorted.sortedBy
        (fun x hx y hy => lubTuples_recordKey h (hA.2 x hx) (hB.2 y hy))
          fun x hx => ⟨t, .head _, ?_⟩
      have hxP : x.Canonical P := (mem_append.mp hx).elim (hA.2 x) (hB.2 x)
      exact setKey_mono h hxP hlub.mem (hlub.upper x hx) (Option.ne_none_iff_exists'.mpr ⟨k, hk⟩)
    rw [hlen]
    exact hone.trans (by simp)

end

theorem joinTupleSets_isJoin (h : Inner P le R J) (ha : a.Canonical P) (hb : b.Canonical P) :
    IsMeet (TupleSet.Canonical P) (flip (TupleSet.Le le)) a b (joinTupleSets J a b) := by
  have hself : ∀ {s : TupleSet}, s.Canonical P →
      IsMeet (TupleSet.Canonical P) (flip (TupleSet.Le le)) s .none s := fun hs =>
    ⟨hs, (tupleSet_order h).refl hs, fun _ hx => (nomatch hx), fun _ hsz _ => hsz⟩
  -- a tuple without a key takes in the other set
  have htuple : ∀ {t r : TupleType} {s : TupleSet}, (TupleSet.tuple t).Canonical P → s.Canonical P →
      IsLubOf (TupleType.Canonical P) (TupleType.Le le) ((TupleSet.tuple t).toList ++ s.toList) r →
      IsMeet (TupleSet.Canonical P) (flip (TupleSet.Le le)) (.tuple t) s (.tuple r) := by
    intro t r s ht hs hr
    refine isMeet_tupleSet (isJoin_collapse (setKey_mono h) (lubTuples_recordKey h) ht.tuplesOn
      hs.tuplesOn (by simp)
      (fun hmn hn => hmn.trans hn) hr (.inl ⟨t, .head _, ht.1⟩)) rfl ?_
    exact recordKey_none_of_le h (ht.2 t (.head _)) hr.mem (hr.upper t (.head _)) ht.1
  match a, b with
  | a, .none =>
    exact hself ha
  | .none, .tuple _ | .none, .records _ => exact (hself hb).symm
  | .tuple a, .tuple b =>
    have hPa := ha.2 a (.head _)
    have hPb := hb.2 b (.head _)
    have hlub := lubTuples_bound h
    refine htuple ha hb ((isLubOf_singleton (tuple_order h) (hlub.bound hPa hPb rfl).1).congr
      fun {w} hw => ?_)
    simp [TupleSet.toList, hlub.le_iff (tuple_order h) hPa hPb hw]
  | .tuple t, .records rs => exact htuple ha hb (jtsTuple_isLubOf h hb.mem (ha.2 t (.head _)))
  | .records rs, .tuple t =>
    exact (htuple hb ha (jtsTuple_isLubOf h ha.mem (hb.2 t (.head _)))).symm
  | .records rsA, .records rsB => exact joinRecordSets_isJoin h ha hb

/-- Sets of tuples form a lattice. -/
theorem tupleSet_lattice (h : Inner P le R J) : LatticeOn (TupleSet.Canonical P) (TupleSet.Le le)
    (meetTupleSets R) (joinTupleSets J) :=
  ⟨tupleSet_order h, .of_isMeet fun ha hb => meetTupleSets_isMeet h ha hb,
    .of_isMeet fun ha hb => joinTupleSets_isJoin h ha hb⟩

end Keys

end Otp.Compiler.BeamTypes
