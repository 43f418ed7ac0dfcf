import Otp.Compiler.BeamTypes.JoinSound
import Otp.Compiler.BeamTypes.TupleLattice

/-!
# Meets and joins of sets of native records

The records of a set have different names, and only a record that stands alone
may have none. `mnrs_merge/3` and `jnrs_merge/3` are meets and joins of such sets.
-/

namespace Otp.Compiler.BeamTypes

open Otp.Lib List

variable {P : Typ → Prop} {le : Typ → Typ → Prop} {R J : Typ → Typ → Typ} {r s : RecordType}
  {rs rsA rsB acc : List RecordType} {a b : NativeRecordSet}

/-- A record below one with a name has this name. -/
theorem RecordType.Le.nameKey_eq (h : r.Le le s) (hs : s.nameKey ≠ ⊥) :
    r.nameKey = s.nameKey := h.1.1.resolve_left hs

/-- Sets of canonical records, as lists. -/
abbrev RecordsOn (P : Typ → Prop) : List RecordType → Prop :=
  KeySetOn (RecordType.Canonical P) RecordType.nameKey fun _ => True

theorem NativeRecordSet.Canonical.recordsOn {s : NativeRecordSet} (h : s.Canonical P) :
    RecordsOn P s.toList := by
  refine ⟨h.2, ?_, trivial⟩
  cases s with
  | none => exact .nil
  | record r => exact keySorted_singleton r
  | records rs => exact namesSorted_iff.mp h.1.2

theorem NativeRecordSet.Canonical.nativeRecords_toList {s : NativeRecordSet} (h : s.Canonical P) :
    nativeRecords s.toList = s := by
  match s with
  | .none | .record _ | .records (_ :: _ :: _) => rfl
  | .records [] | .records [_] => exact absurd h.1.1 (by simp)

theorem RecordsOn.canonical (h : RecordsOn P rs) : (nativeRecords rs).Canonical P := by
  refine ⟨?_, by simpa using h.mem⟩
  match rs with
  | [] | [_] => trivial
  | _ :: _ :: _ => exact ⟨by simp, namesSorted_iff.mpr h.sorted⟩

theorem nativeRecordSet_order (h : Inner P le R J) :
    OrderOn (NativeRecordSet.Canonical P) (NativeRecordSet.Le le) :=
  (orderOn_keySet (record_order h) fun _ _ hle => hle.nameKey_eq).comap
    (fun hs => hs.recordsOn) fun hs ht heq => by
      rw [← hs.nativeRecords_toList, heq, ht.nativeRecords_toList]

/-- A bound of the lists of two sets gives a bound of the sets. -/
theorem isMeet_nativeRecords {ord : List RecordType → List RecordType → Prop}
    (h : IsMeet (RecordsOn P) ord a.toList b.toList rs) :
    IsMeet (NativeRecordSet.Canonical P) (fun s t => ord s.toList t.toList) a b
      (nativeRecords rs) :=
  IsMeet.comap (by simpa using h) (fun hs => hs.recordsOn) (RecordsOn.canonical h.mem)

/-! ## Meets -/

theorem meetNativeRecordSets_isMeet (h : Inner P le R J) (ha : a.Canonical P) (hb : b.Canonical P) :
    IsMeet (NativeRecordSet.Canonical P) (NativeRecordSet.Le le) a b
      (meetNativeRecordSets R a b) := by
  obtain ⟨x, y, rs, hxy, heq, hsorted, hmem⟩ := meetNativeRecordSets_pairs (R := R) ha.1 hb.1
  have hmeet : x.Canonical P → y.Canonical P → IsMeet (NativeRecordSet.Canonical P)
      (NativeRecordSet.Le le) x y (nativeRecords rs) := fun hx hy =>
    isMeet_nativeRecords (isMeet_keySet (glbRecords_bound h) hx.recordsOn hy.recordsOn
      (namesSorted_iff.mp hsorted) trivial hmem)
  rw [heq]
  obtain ⟨rfl, rfl⟩ | ⟨rfl, rfl⟩ := hxy
  · exact hmeet ha hb
  · exact (hmeet hb ha).symm

/-! ## Joins -/

theorem nameKey_lt_iff (hr : r.name ≠ none) : r.nameKey < s.nameKey ↔ nameLt r.name s.name = true :=
  ⟨fun hlt => nameLt_iff_key.mpr ⟨hr, hlt⟩, fun h => (nameLt_iff_key.mp h).2⟩

/-- Named records are kept. -/
theorem foldl_jnrsRest_named (hacc : ∀ r ∈ acc, r.name ≠ none) (hrs : ∀ r ∈ rs, r.name ≠ none) :
    rs.foldl (jnrsRest J) acc = rs.reverse ++ acc := by
  induction rs generalizing acc with
  | nil => rfl
  | cons a rs ih =>
    have hstep : jnrsRest J acc a = a :: acc := by
      unfold jnrsRest
      split
      · exact if_neg (hacc _ (.head _))
      · rfl
    rw [foldl_cons, hstep, ih (forall_mem_cons.mpr ⟨hrs a (.head _), hacc⟩)
      fun r hr => hrs r (.tail _ hr)]
    simp

theorem jnrsMerge_named (hA : ∀ r ∈ rsA, r.name ≠ none) (hB : ∀ r ∈ rsB, r.name ≠ none)
    (hacc : ∀ r ∈ acc, r.name ≠ none) :
    (jnrsMerge J rsA rsB acc).reverse =
      acc.reverse ++ mergeBy RecordType.nameKey (lubNativeRecords J) rsA rsB := by
  fun_induction jnrsMerge J rsA rsB acc with
  | case1 a tsA b tsB acc ha => exact absurd ha (hA a (.head _))
  | case2 a tsA b tsB acc ha hb => exact absurd hb (hB b (.head _))
  | case3 a tsA b tsB acc ha hb hab ih =>
    rw [ih (fun r hr => hA r (.tail _ hr)) (fun r hr => hB r (.tail _ hr))
      (forall_mem_cons.mpr ⟨by rwa [lubNativeRecords_name hab], hacc⟩)]
    rw [mergeBy_cons, if_pos (show a.nameKey = b.nameKey from hab)]
    simp
  | case4 a tsA b tsB acc ha hb hab hlt ih =>
    rw [ih (fun r hr => hA r (.tail _ hr)) hB (forall_mem_cons.mpr ⟨ha, hacc⟩)]
    rw [mergeBy_cons, if_neg (show a.nameKey ≠ b.nameKey from hab),
      if_pos ((nameKey_lt_iff ha).mpr hlt)]
    simp
  | case5 a tsA b tsB acc ha hb hab hlt ih =>
    rw [ih hA (fun r hr => hB r (.tail _ hr)) (forall_mem_cons.mpr ⟨hb, hacc⟩)]
    rw [mergeBy_cons, if_neg (show a.nameKey ≠ b.nameKey from hab),
      if_neg fun h => hlt ((nameKey_lt_iff ha).mp h)]
    simp
  | case6 rsA acc =>
    rw [foldl_jnrsRest_named hacc hA]
    simp
  | case7 rsB acc h =>
    rw [foldl_jnrsRest_named hacc hB]
    simp

theorem lubNativeRecords_unnamed {a : RecordType} (h : a.name = none ∨ r.name = none) :
    (lubNativeRecords J a r).name = none := by
  unfold lubNativeRecords
  split_ifs with heq hname
  · subst heq
    exact h.elim id id
  · exact h.elim id fun hr => hname.trans hr
  · rfl

/-- Everything goes into a record without a name. -/
theorem foldl_jnrsRest_unnamed (hr : r.name = none) :
    rs.foldl (jnrsRest J) [r] = [rs.foldl (fun acc x => lubNativeRecords J x acc) r] := by
  induction rs generalizing r with
  | nil => rfl
  | cons a rs ih =>
    rw [foldl_cons, foldl_cons, jnrsRest, if_pos hr, ih (lubNativeRecords_unnamed (.inr hr))]

section

variable (h : Inner P le R J) (hA : RecordsOn P rsA) (hB : RecordsOn P rsB) (hneA : rsA ≠ [])
  (hneB : rsB ≠ [])

include h hA hB hneA hneB

/-- A record without a name takes in all others. -/
theorem jnrsMerge_unnamed (hnone : ∃ r ∈ rsA ++ rsB, r.name = none) :
    ∃ r, jnrsMerge J rsA rsB [] = [r] ∧
      IsLubOf (RecordType.Canonical P) (RecordType.Le le) (rsA ++ rsB) r := by
  have ho := record_order h
  have hg := lubNativeRecords_bound h
  obtain ⟨a, tsA, rfl⟩ := exists_cons_of_ne_nil hneA
  obtain ⟨b, tsB, rfl⟩ := exists_cons_of_ne_nil hneB
  have hPa := hA.mem a (.head _)
  have hPb := hB.mem b (.head _)
  -- a record without a name stands alone in its set
  have hhead : a.name = none ∨ b.name = none := by
    obtain ⟨r, hr, hrn⟩ := hnone
    rcases mem_append.mp hr with hr | hr
    · exact .inl ((List.cons.inj (hA.sorted.eq_singleton hr hrn)).1 ▸ hrn)
    · exact .inr ((List.cons.inj (hB.sorted.eq_singleton hr hrn)).1 ▸ hrn)
  rw [jnrsMerge]
  split_ifs with ha hb
  · have hsingle : tsA = [] := by simpa using hA.sorted.eq_singleton (.head _) ha
    rw [foldl_jnrsRest_unnamed (lubNativeRecords_unnamed (.inl ha))]
    refine ⟨_, rfl, (isLubOf_foldl ho hg (fun x hx => hB.mem x (.tail _ hx))
      (hg.bound hPa hPb rfl).1).congr fun {w} hw => ?_⟩
    simp [hsingle, BoundOn.le_iff ho hg hPa hPb hw, and_assoc]
  · have hsingle : tsB = [] := by simpa using hB.sorted.eq_singleton (.head _) hb
    rw [foldl_jnrsRest_unnamed (lubNativeRecords_unnamed (.inl hb))]
    refine ⟨_, rfl, (isLubOf_foldl ho hg (fun x hx => hA.mem x (.tail _ hx))
      (hg.bound hPb hPa rfl).1).congr fun {w} hw => ?_⟩
    rw [hsingle, forall_mem_cons, forall_mem_append, forall_mem_cons,
      BoundOn.le_iff ho hg hPb hPa hw, forall_mem_singleton, and_assoc, and_comm]
  · exact absurd hhead (not_or.mpr ⟨ha, hb⟩)
  · exact absurd hhead (not_or.mpr ⟨ha, hb⟩)
  · exact absurd hhead (not_or.mpr ⟨ha, hb⟩)

theorem isJoin_jnrsMerge :
    IsMeet (RecordsOn P) (flip (SetLe (RecordType.Le le))) rsA rsB
      (jnrsMerge J rsA rsB []).reverse := by
  have hmono : ∀ {x y : RecordType}, x.Canonical P → y.Canonical P → x.Le le y → y.nameKey ≠ ⊥ →
      x.nameKey = y.nameKey := fun _ _ hle => hle.nameKey_eq
  have hkey : ∀ {x y : RecordType}, x.Canonical P → y.Canonical P → x.nameKey = y.nameKey →
      (lubNativeRecords J x y).nameKey = x.nameKey := fun _ _ => lubNativeRecords_name
  by_cases hnone : ∃ r ∈ rsA ++ rsB, r.name = none
  · obtain ⟨r, hr, hlub⟩ := jnrsMerge_unnamed h hA hB hneA hneB hnone
    rw [hr]
    exact isJoin_collapse hmono hkey hA hB trivial (fun _ _ => trivial) hlub (.inl hnone)
  · push Not at hnone
    have hnA := fun r hr => hnone r (mem_append_left _ hr)
    have hnB := fun r hr => hnone r (mem_append_right _ hr)
    rw [jnrsMerge_named hnA hnB (by simp)]
    exact isJoin_merge (record_order h) (lubNativeRecords_bound h) hmono hkey hA hB hnA hnB trivial

end

theorem NativeRecordSet.Canonical.toList_ne_nil {s : NativeRecordSet} (h : s.Canonical P)
    (hs : s ≠ .none) : s.toList ≠ [] := by
  intro hnil
  have := h.nativeRecords_toList
  rw [hnil] at this
  exact hs this.symm

theorem joinNativeRecordSets_isJoin (h : Inner P le R J) (ha : a.Canonical P) (hb : b.Canonical P) :
    IsMeet (NativeRecordSet.Canonical P) (flip (NativeRecordSet.Le le)) a b
      (joinNativeRecordSets J a b) := by
  have hself : ∀ {s : NativeRecordSet}, s.Canonical P →
      IsMeet (NativeRecordSet.Canonical P) (flip (NativeRecordSet.Le le)) s .none s := fun hs =>
    ⟨hs, (nativeRecordSet_order h).refl hs, fun _ hx => (nomatch hx), fun _ hsz _ => hsz⟩
  have hmerge : ∀ {s t : NativeRecordSet}, s.Canonical P → t.Canonical P → s ≠ .none → t ≠ .none →
      IsMeet (NativeRecordSet.Canonical P) (flip (NativeRecordSet.Le le)) s t
        (nativeRecords (jnrsMerge J s.toList t.toList []).reverse) := fun hs ht hs' ht' =>
    isMeet_nativeRecords (isJoin_jnrsMerge h hs.recordsOn ht.recordsOn (hs.toList_ne_nil hs')
      (ht.toList_ne_nil ht'))
  match a, b with
  | a, .none =>
    exact hself ha
  | .none, .record _ | .none, .records _ => exact (hself hb).symm
  | .record a, .record b =>
    have heq : joinNativeRecordSets J (.record a) (.record b) =
        nativeRecords (jnrsMerge J [a] [b] []).reverse := by
      rw [joinNativeRecordSets]
      split_ifs with hab
      · by_cases ha : a.name = none <;> simp [jnrsMerge, ← hab, ha, nativeRecords]
      · rfl
    rw [heq]
    exact hmerge ha hb (by simp) (by simp)
  | .record a, .records rs => exact (hmerge hb ha (by simp) (by simp)).symm
  | .records rs, .record b | .records rsA, .records rsB => exact hmerge ha hb (by simp) (by simp)

/-- Sets of native records form a lattice. -/
theorem nativeRecordSet_lattice (h : Inner P le R J) : LatticeOn (NativeRecordSet.Canonical P)
    (NativeRecordSet.Le le) (meetNativeRecordSets R) (joinNativeRecordSets J) :=
  ⟨nativeRecordSet_order h, .of_isMeet fun ha hb => meetNativeRecordSets_isMeet h ha hb,
    .of_isMeet fun ha hb => joinNativeRecordSets_isJoin h ha hb⟩

end Otp.Compiler.BeamTypes
