import Otp.Compiler.BeamTypes.LubSound
import Otp.Compiler.BeamTypes.SlotLattice

/-!
# `glb/2` and `lub/2` of tuples and native records

The elements of a tuple and the fields of a record are maps ordered by what they
know, so their meets and joins come from those of the inner types.
-/

namespace Otp.Compiler.BeamTypes

open Otp.Lib

variable {P : Typ → Prop} {le : Typ → Typ → Prop} {R J : Typ → Typ → Typ} {n m : ℕ}
  {a b : TupleType}

/-! ## Tuples -/

theorem ElementOn.mono {i : ℕ} {t : Typ} (h : ElementOn P n i t) (hnm : n ≤ m) :
    ElementOn P m i t := ⟨⟨h.1.1, h.1.2.1.trans hnm, h.1.2.2⟩, h.2⟩

theorem mapOn_element_mono {es : List (ℕ × Typ)} (h : MapOn (ElementOn P n) es) (hnm : n ≤ m) :
    MapOn (ElementOn P m) es := ⟨h.1, fun e he => (h.2 e he).mono hnm⟩

section

variable (h : Inner P le R J)

include h

theorem element_lattice (n i : ℕ) :
    PartialLattice (ElementOn P n i) le (fun t u => (R t u).notNone)
      fun t u => setTupleElement i (J t u) where
  order := ⟨fun ht => h.lattice.order.refl ht.2.1,
    fun ht hu hv => h.lattice.order.trans ht.2.1 hu.2.1 hv.2.1,
    fun ht hu => h.lattice.order.antisymm ht.2.1 hu.2.1⟩
  meet :=
    { bound := by
        intro t u m ht hu hm
        obtain ⟨⟨hP, hnone⟩, hmt, hmu⟩ :=
          h.notNone.meet.bound ⟨ht.2.1, ht.2.2.1⟩ ⟨hu.2.1, hu.2.2.1⟩ hm
        exact ⟨⟨ht.1, hP, hnone, h.ne_any_of_le ht.2.1 hmt ht.2.2.2⟩, hmt, hmu⟩
      greatest := by
        intro t u z ht hu hz hzt hzu
        exact h.notNone.meet.greatest ⟨ht.2.1, ht.2.2.1⟩ ⟨hu.2.1, hu.2.2.1⟩ ⟨hz.2.1, hz.2.2.1⟩
          hzt hzu }
  join :=
    { bound := by
        intro t u m ht hu hm
        obtain ⟨rfl, hnone, hany, -⟩ := setTupleElement_eq_some.mp hm
        obtain ⟨hP, htm, hum⟩ := h.join_bound ht.2.1 hu.2.1
        exact ⟨⟨ht.1, hP, hnone, hany⟩, htm, hum⟩
      greatest := by
        intro t u z ht hu hz htz huz
        obtain ⟨hP, htm, -⟩ := h.join_bound ht.2.1 hu.2.1
        have hle := h.join_le ht.2.1 hu.2.1 hz.2.1 htz huz
        refine ⟨_, setTupleElement_eq_some.mpr ⟨rfl, ?_, ?_, ht.1.2.2⟩, hle⟩
        · exact h.ne_none_of_le ht.2.1 htm ht.2.2.1
        · exact h.ne_any_of_le hz.2.1 hle hz.2.2.2 }

theorem elements_lattice (n : ℕ) :
    PartialLattice (MapOn (ElementOn P n)) (MapLe le) (glbElements R)
      fun es fs => some (lubElements J es fs) :=
  PartialLattice.maps fun i => element_lattice h n i

theorem tuple_order : OrderOn (TupleType.Canonical P) (TupleType.Le le) where
  refl {a} ha := ⟨le_rfl, fun hx => ⟨hx, rfl⟩, (elements_lattice h _).order.refl ha⟩
  trans {a b c} ha hb hc hab hbc := by
    refine ⟨hbc.1.trans hab.1, fun hx => ?_, ?_⟩
    · obtain ⟨hxb, hsb⟩ := hbc.2.1 hx
      obtain ⟨hxa, hsa⟩ := hab.2.1 hxb
      exact ⟨hxa, hsa.trans hsb⟩
    · exact (elements_lattice h a.size).order.trans ha (mapOn_element_mono hb hab.1)
        (mapOn_element_mono hc (hbc.1.trans hab.1)) hab.2.2 hbc.2.2
  antisymm {a b} ha hb hab hba := by
    obtain ⟨size, exact, es⟩ := a
    obtain ⟨size', exact', es'⟩ := b
    obtain rfl : size = size' := le_antisymm hba.1 hab.1
    obtain rfl : exact = exact' :=
      Bool.eq_iff_iff.mpr ⟨fun hx => (hba.2.1 hx).1, fun hx => (hab.2.1 hx).1⟩
    obtain rfl : es = es' := (elements_lattice h size).order.antisymm ha hb hab.2.2 hba.2.2
    rfl

theorem glbTuples_bound :
    BoundOn (TupleType.Canonical P) (TupleType.Le le) (glbTuples R) := by
  refine .of_ite (tuple_order h) (fun _ _ => rfl) ?_ ?_
  · intro a b m hab ha hb hm
    refine ⟨?_, glbTuples_below h.meet_bound h.lattice.order.refl hab ha.good hb.good
      ((if_neg hab).trans hm)⟩
    split_ifs at hm
    obtain ⟨es, hes, rfl⟩ := Option.map_eq_some_iff.mp hm
    exact ((elements_lattice h (max a.size b.size)).meet.bound
      (mapOn_element_mono ha (le_max_left _ _)) (mapOn_element_mono hb (le_max_right _ _)) hes).1
  · intro a b z hab ha hb hz hza hzb
    obtain ⟨es, hes, hle⟩ := (elements_lattice h z.size).meet.greatest
      (mapOn_element_mono ha hza.1) (mapOn_element_mono hb hzb.1) hz hza.2.2 hzb.2.2
    have hxa : a.exact = true → b.size ≤ a.size := fun hx => (hza.2.1 hx).2 ▸ hzb.1
    have hxb : b.exact = true → a.size ≤ b.size := fun hx => (hzb.2.1 hx).2 ▸ hza.1
    have hsize : ¬((a.exact ∧ a.size < b.size) ∨ (b.exact ∧ b.size < a.size)) := by
      push Not
      exact ⟨hxa, hxb⟩
    rw [if_neg hsize, hes]
    refine ⟨_, rfl, max_le hza.1 hzb.1, fun hx => ?_, hle⟩
    rcases (Bool.or_eq_true _ _).mp hx with hx | hx
    · exact ⟨(hza.2.1 hx).1, (hza.2.1 hx).2.trans (max_eq_left (hxa hx)).symm⟩
    · exact ⟨(hzb.2.1 hx).1, (hzb.2.1 hx).2.trans (max_eq_right (hxb hx)).symm⟩

end

/-- The elements in common are within the smaller size. -/
theorem lubElements_le (ha : a.Canonical P) (hb : b.Canonical P) {e : ℕ × Typ}
    (he : e ∈ lubElements J a.elements b.elements) : e.1 ≤ min a.size b.size := by
  obtain ⟨x, y, hx, hy, -⟩ := Ordset.mem_interWith.mp he
  exact le_min (ha.2 _ ((Ordset.lookup_eq_some ha.1).mp hx)).1.2.1
    (hb.2 _ ((Ordset.lookup_eq_some hb.1).mp hy)).1.2.1

theorem lubTuples_eq (ha : a.Canonical P) (hb : b.Canonical P) (hab : a ≠ b) :
    lubTuples J a b = ⟨min a.size b.size, decide (a.size = b.size) && (a.exact && b.exact),
      lubElements J a.elements b.elements⟩ := by
  have hfilter : ∀ n, min a.size b.size ≤ n →
      lubTupleElements J n a.elements b.elements = lubElements J a.elements b.elements :=
    fun n hn => List.filter_eq_self.mpr fun e he =>
      decide_eq_true ((lubElements_le ha hb he).trans hn)
  unfold lubTuples
  rw [if_neg hab]
  split_ifs with hsize
  · rw [hfilter a.size (min_le_left _ _)]
    simp [hsize]
  · rw [hfilter _ le_rfl]
    simp [hsize]

variable (h : Inner P le R J)

include h

theorem lubTuples_bound :
    BoundOn (TupleType.Canonical P) (flip (TupleType.Le le)) fun a b => some (lubTuples J a b) := by
  have heq : ∀ a b : TupleType, lubTuples J a b = if a = b then a else lubTuples J a b := by
    intro a b
    split_ifs with hab
    · simp [lubTuples, hab]
    · rfl
  refine .of_ite_some (tuple_order h).dual heq ?_ ?_
  · intro a b hab ha hb
    refine ⟨?_, (lubTuples_above h.join_bound hab ha.good hb.good).2⟩
    rw [lubTuples_eq ha hb hab]
    obtain ⟨hP, -⟩ := (elements_lattice h (max a.size b.size)).join.bound
      (mapOn_element_mono ha (le_max_left _ _)) (mapOn_element_mono hb (le_max_right _ _)) rfl
    refine ⟨hP.1, fun e he => ?_⟩
    have he' := hP.2 e he
    exact ⟨⟨he'.1.1, lubElements_le ha hb he, he'.1.2.2⟩, he'.2⟩
  · intro a b z hab ha hb hz hza hzb
    rw [lubTuples_eq ha hb hab]
    refine ⟨le_min hza.1 hzb.1, fun hx => ?_, ?_⟩
    · obtain ⟨hxa, hsa⟩ := hza.2.1 hx
      obtain ⟨hxb, hsb⟩ := hzb.2.1 hx
      simp [hxa, hxb, hsa, hsb]
    · have hsize := le_max_left a.size b.size
      exact (elements_lattice h (max a.size b.size)).join.greatest_some
        (mapOn_element_mono ha hsize) (mapOn_element_mono hb (le_max_right _ _))
        (mapOn_element_mono hz (hza.1.trans hsize)) hza.2.2 hzb.2.2

/-! ## Native records -/

theorem field_lattice :
    PartialLattice (FieldOn P) (FieldLe le) (glbField R) (lubField J) := by
  have hN := h.notNone
  have hrecord : ∀ {t : Typ}, t ≠ .none → setRecordField t = some t := by
    intro t ht
    cases t <;> first | rfl | exact absurd rfl ht
  refine ⟨⟨?_, ?_, ?_⟩, ⟨?_, ?_⟩, ⟨?_, ?_⟩⟩
  · intro x hx
    match x with
    | none => trivial
    | some t => exact hN.order.refl hx
  · intro x y z hx hy hz hxy hyz
    match x, y, z with
    | none, none, none => trivial
    | some t, some u, some v => exact hN.order.trans hx hy hz hxy hyz
  · intro x y hx hy hxy hyx
    match x, y with
    | none, none => rfl
    | some t, some u => rw [hN.order.antisymm hx hy hxy hyx]
  · intro x y m hx hy hm
    match x, y, hm with
    | none, none, hm =>
      cases hm
      exact ⟨trivial, trivial, trivial⟩
    | some t, some u, hm =>
      obtain ⟨s, hs, rfl⟩ := Option.map_eq_some_iff.mp hm
      exact hN.meet.bound hx hy hs
  · intro x y z hx hy hz hzx hzy
    match x, y, z with
    | none, none, none => exact ⟨_, rfl, trivial⟩
    | some t, some u, some v =>
      obtain ⟨s, hs, hle⟩ := hN.meet.greatest hx hy hz hzx hzy
      exact ⟨some s, by rw [glbField, hs]; rfl, hle⟩
  · intro x y m hx hy hm
    rcases x with _ | t <;> rcases y with _ | u
    · cases hm
      exact ⟨trivial, trivial, trivial⟩
    · cases hm
    · cases hm
    · obtain ⟨hP, hl, hr⟩ := hN.join.bound hx hy rfl
      rw [lubField, hrecord hP.2] at hm
      cases hm
      exact ⟨hP, hl, hr⟩
  · intro x y z hx hy hz hzx hzy
    rcases x with _ | t <;> rcases y with _ | u <;> rcases z with _ | v
    · exact ⟨_, rfl, trivial⟩
    on_goal 7 =>
      obtain ⟨hP, -⟩ := hN.join.bound hx hy rfl
      refine ⟨some (J t u), by rw [lubField, hrecord hP.2], ?_⟩
      exact hN.join.greatest_some hx hy hz hzx hzy
    all_goals first | exact hzx.elim | exact hzy.elim

theorem fields_lattice :
    PartialLattice (MapOn fun _ : Atom => FieldOn P) (MapLe (FieldLe le)) (glbRecordElements R)
      fun es fs => some (lubFields J es fs) :=
  PartialLattice.maps fun _ => field_lattice h

theorem record_order :
    OrderOn (RecordType.Canonical P) (RecordType.Le le) where
  refl ha := ⟨⟨.inr rfl, .inr rfl⟩, (fields_lattice h).order.refl ha, id⟩
  trans ha hb hc hab hbc :=
    ⟨⟨orderOn_flat.trans trivial trivial trivial hab.1.1 hbc.1.1,
      exported_lattice.order.trans trivial trivial trivial hab.1.2 hbc.1.2⟩,
      (fields_lattice h).order.trans ha hb hc hab.2.1 hbc.2.1, fun hx => hab.2.2 (hbc.2.2 hx)⟩
  antisymm {a b} ha hb hab hba := by
    obtain ⟨name, exported, fs, c⟩ := a
    obtain ⟨name', exported', fs', c'⟩ := b
    obtain rfl : name = name' := orderOn_flat.antisymm trivial trivial hab.1.1 hba.1.1
    obtain rfl : exported = exported' :=
      exported_lattice.order.antisymm trivial trivial hab.1.2 hba.1.2
    obtain rfl : fs = fs' := (fields_lattice h).order.antisymm ha hb hab.2.1 hba.2.1
    obtain rfl : c = c' := Bool.eq_iff_iff.mpr ⟨hba.2.2, hab.2.2⟩
    rfl

theorem glbRecords_bound :
    BoundOn (RecordType.Canonical P) (RecordType.Le le) (glbRecords R) := by
  refine .of_ite (record_order h) (fun _ _ => rfl) ?_ ?_
  · intro a b m hab ha hb hm
    refine ⟨?_, glbRecords_below h.meet_bound h.lattice.order.refl hab ha.good hb.good
      ((if_neg hab).trans hm)⟩
    simp only [Option.bind_eq_bind, Option.bind_eq_some_iff] at hm
    obtain ⟨name, -, exported, -, fs, hfs, ⟨⟩⟩ := hm
    exact ((fields_lattice h).meet.bound ha hb hfs).1
  · intro a b z hab ha hb hz hza hzb
    obtain ⟨name, hname, hzn⟩ :=
      meetKnown_bound.greatest trivial trivial trivial hza.1.1 hzb.1.1
    obtain ⟨exported, hexported, hze⟩ :=
      exported_lattice.meet.greatest trivial trivial trivial hza.1.2 hzb.1.2
    obtain ⟨fs, hfs, hzf⟩ := (fields_lattice h).meet.greatest ha hb hz hza.2.1 hzb.2.1
    rw [hname, hexported, hfs]
    refine ⟨_, rfl, ⟨hzn, hze⟩, hzf, fun hx => ?_⟩
    exact ((Bool.or_eq_true _ _).mp hx).elim hza.2.2 hzb.2.2

theorem lubNativeRecords_bound :
    BoundOn (RecordType.Canonical P) (flip (RecordType.Le le))
      fun a b => some (lubNativeRecords J a b) := by
  refine .of_ite_some (record_order h).dual (fun _ _ => rfl) ?_ ?_
  · intro a b hab ha hb
    obtain ⟨-, hea, heb⟩ := exported_lattice.join.bound trivial trivial rfl
    obtain ⟨hP, hfa, hfb⟩ := (fields_lattice h).join.bound ha hb rfl
    have hname : FlatLe a.name (if a.name = b.name then a.name else none) ∧
        FlatLe b.name (if a.name = b.name then a.name else none) := by
      split_ifs with hn
      · exact ⟨.inr rfl, .inr hn.symm⟩
      · exact ⟨.inl rfl, .inl rfl⟩
    exact ⟨hP, ⟨⟨hname.1, hea⟩, hfa, fun hx => ((Bool.and_eq_true _ _).mp hx).1⟩,
      ⟨hname.2, heb⟩, hfb, fun hx => ((Bool.and_eq_true _ _).mp hx).2⟩
  · intro a b z hab ha hb hz hza hzb
    refine ⟨⟨?_, ?_⟩, ?_, fun hx => by simp [hza.2.2 hx, hzb.2.2 hx]⟩
    · split_ifs with hn
      · exact hza.1.1
      · exact .inl (hza.1.1.eq_none hzb.1.1 hn)
    · exact exported_lattice.join.greatest_some trivial trivial trivial hza.1.2 hzb.1.2
    · exact (fields_lattice h).join.greatest_some ha hb hz hza.2.1 hzb.2.1

end Otp.Compiler.BeamTypes
