import Otp.Compiler.BeamTypes.GlbSound

/-!
# Soundness of `lub/2`

The joins of two types of one slot have the terms of both. Joins fold over
records, so the inner calls must also return types to which the argument applies
again: `JoinClosed`.
-/

namespace Otp.Compiler.BeamTypes

open Otp.Lib Ordset

/-- `R` has every term of two types that satisfy `P`. -/
def JoinUpper (P : Typ → Prop) (R : Typ → Typ → Typ) : Prop :=
  ∀ ⦃x y : Typ⦄ ⦃v : Term⦄, P x → P y → x.Has v ∨ y.Has v → (R x y).Has v

/-- `R` stays within the types that satisfy `P`. -/
def JoinClosed (P : Typ → Prop) (R : Typ → Typ → Typ) : Prop :=
  ∀ ⦃x y : Typ⦄, P x → P y → P (R x y)

/-- `f` stays within the values that satisfy `Q`, and returns one with all the terms
that its arguments have. -/
def Joins {α : Type} (has : α → Term → Prop) (Q : α → Prop) (f : α → α → α) : Prop :=
  ∀ ⦃x y : α⦄, Q x → Q y → Q (f x y) ∧ ∀ v, has x v ∨ has y v → has (f x y) v

variable {P : Typ → Prop} {R : Typ → Typ → Typ} {a b : RecordType} {v : Term} {t u : Typ}
  (hR : Joins Typ.Has P R)

/-! ## Atoms and numbers -/

theorem lubAtom_joins : Joins (fun a => (Typ.atom a).Has) AtomType.Valid lubAtom := by
  intro a b ha hb
  have hany : ∀ v, (Typ.atom a).Has v ∨ (Typ.atom b).Has v → (Typ.atom .any).Has v := by
    intro v h
    have hk : v.kind = .atom := h.elim kind_atom kind_atom
    cases v <;> first | exact has_atom.mpr trivial | cases hk
  unfold lubAtom
  split_ifs with heq
  · exact ⟨ha, fun v h => h.elim id fun h => heq ▸ h⟩
  · split
    · rename_i s1 s2
      simp only
      split_ifs
      · refine ⟨⟨fun hnil => ?_, isOrdset_union _ _⟩, fun v h => ?_⟩
        · obtain ⟨x, hx⟩ := List.exists_mem_of_ne_nil _ ha.1
          have := (mem_union (t := s2)).mpr (.inl hx)
          rw [hnil] at this
          cases this
        · cases v <;> simp_all [AtomType.Mem]
      · exact ⟨trivial, hany⟩
    · exact ⟨trivial, hany⟩

/-- Ranges of `#t_number{}` are under no further condition here. -/
theorem lubNumber_joins :
    Joins (fun a => (Typ.number a).Has) (NumberType.Valid fun _ => True) lubNumber := by
  intro a b ha hb
  refine ⟨?_, fun v h => has_number.mpr (lubNumber_upper ha hb (h.imp has_number.mp has_number.mp))⟩
  unfold lubNumber
  split_ifs with heq
  · exact ha
  match a, b with
  | .float r1, .float r2 =>
    exact absurd (by rw [show r1 = .any from ha, show r2 = .any from hb]) heq
  | .float r1, .integer r2 | .float r1, .number r2 =>
    obtain rfl : r1 = .any := ha
    exact ⟨trivial, trivial⟩
  | .integer r1, .float r2 | .number r1, .float r2 =>
    obtain rfl : r2 = .any := hb
    cases r1 <;> exact ⟨trivial, trivial⟩
  | .integer r1, .integer r2 => exact lubRanges_valid ha hb
  | .integer r1, .number r2 => exact ⟨lubRanges_valid ha hb.1, trivial⟩
  | .number r1, .number r2 => exact ⟨lubRanges_valid ha.1 hb.1, trivial⟩
  | .number r1, .integer r2 => exact ⟨lubRanges_valid ha.1 hb, trivial⟩

/-! ## Lists, tuples and other types -/

theorem Joins.bounds (hR : Joins Typ.Has P R) : Bounds P P (flip Typ.Sub) R := fun _ _ hx hy =>
  have ⟨hP, hupper⟩ := hR hx hy
  ⟨hP, fun v hv => hupper v (.inl hv), fun v hv => hupper v (.inr hv)⟩

theorem Joins.of_above {α : Type} {c : α → Typ} {f : α → α → α} {Q : α → Prop} {ord : α → α → Prop}
    (hself : ∀ a, f a a = a) (hord : ∀ {a b v}, ord a b → (c a).Has v → (c b).Has v)
    (hf : ∀ {a b}, a ≠ b → Q a → Q b → Q (f a b) ∧ ord a (f a b) ∧ ord b (f a b)) :
    Joins (fun a => (c a).Has) Q f := by
  intro a b ha hb
  by_cases hab : a = b
  · subst hab
    rw [hself]
    exact ⟨ha, fun v h => h.elim id id⟩
  · obtain ⟨hQ, hal, hbl⟩ := hf hab ha hb
    exact ⟨hQ, fun v h => h.elim (hord hal) (hord hbl)⟩

section

include hR

theorem lubList_joins : Joins (fun a => (Typ.list a).Has) (ListType.Good P) (lubList R) :=
  .of_above (fun _ => if_pos rfl) ListType.Le.has (lubList_above hR.bounds fun _ _ h => h)

theorem lubOther_joins : Joins (fun a => (Typ.other a).Has) (OtherType.Good P) (lubOther R) :=
  .of_above (fun _ => if_pos rfl) OtherType.Le.has (lubOther_above hR.bounds)

theorem lubTuples_joins : Joins (fun a => (Typ.tuple a).Has) (TupleType.Good P) (lubTuples R) :=
  .of_above (fun _ => if_pos rfl) TupleType.Le.has (lubTuples_above hR.bounds)

end

/-! ## Native records -/

theorem joinExported_upper {a b : Exported} {ex : Bool} (h : a.Allows ex ∨ b.Allows ex) :
    (joinExported a b).Allows ex := by
  unfold joinExported
  split_ifs with heq
  · subst heq
    exact h.elim id id
  · trivial

theorem setRecordField_has (h : t.Has v) : setRecordField t = some t := by
  cases t <;> first | rfl | exact absurd h (not_has_none v)

theorem setRecordField_eq_some (h : setRecordField t = some u) : t = u := by
  cases t <;> simp_all [setRecordField]

include hR in
theorem lubField_upper {x y z : Option Typ} {w : Option Term} (hx : ∀ t, x = some t → P t)
    (hy : ∀ t, y = some t → P t) (h : lubField R x y = some z) (hw : FieldHas x w ∨ FieldHas y w) :
    FieldHas z w := by
  match x, y with
  | none, none =>
    cases h
    exact hw.elim id id
  | some t, some u =>
    cases h
    cases w with
    | none => exact (hw.elim id id).elim
    | some w =>
      have := (hR (hx t rfl) (hy u rfl)).2 w hw
      rw [setRecordField_has this]
      exact this

theorem lubNativeRecords_name (h : a.name = b.name) : (lubNativeRecords R a b).name = a.name := by
  unfold lubNativeRecords
  split_ifs <;> simp [h]

include hR in
theorem lubNativeRecords_joins :
    Joins (fun a => (Typ.record a).Has) (RecordType.Good P) (lubNativeRecords R) := by
  intro a b ha hb
  by_cases heq : a = b
  · rw [lubNativeRecords, if_pos heq]
    exact ⟨ha, fun v h => h.elim id fun h => heq ▸ h⟩
  rw [lubNativeRecords, if_neg heq]
  have hmem : ∀ {k x}, (k, x) ∈ lubFields R a.type b.type → ∃ y z, (k, y) ∈ a.type ∧
      (k, z) ∈ b.type ∧ lubField R y z = some x := by
    intro k x hx
    obtain ⟨y, z, hy, hz, hyz⟩ := mem_interWith.mp hx
    exact ⟨y, z, (lookup_eq_some ha.1).mp hy, (lookup_eq_some hb.1).mp hz, hyz⟩
  refine ⟨⟨isMap_interWith ha.1 hb.1, ?_⟩, fun v h => ?_⟩
  · rintro ⟨k, x⟩ hx t rfl
    obtain ⟨y, z, hy, hz, hyz⟩ := hmem hx
    match y, z with
    | none, none => cases hyz
    | some y, some z =>
      obtain rfl := setRecordField_eq_some (Option.some.inj hyz)
      exact (hR (ha.2 _ hy y rfl) (hb.2 _ hz z rfl)).1
  obtain ⟨name, ex, fields, rfl⟩ : ∃ name ex fields, v = .record name ex fields := by
    rcases h with h | h <;> obtain ⟨name, ex, fields, rfl, -⟩ := has_record.mp h <;>
      exact ⟨name, ex, fields, rfl⟩
  -- what both types say, for a term of one of them
  have hcases : ((∀ n, a.name = some n → name = n) ∧ a.exported.Allows ex ∧
        ∀ f ∈ a.type, FieldHas f.2 (fields.lookup f.1)) ∨
      ((∀ n, b.name = some n → name = n) ∧ b.exported.Allows ex ∧
        ∀ f ∈ b.type, FieldHas f.2 (fields.lookup f.1)) := by
    refine h.imp (fun h => ?_) fun h => ?_ <;> obtain ⟨_, _, _, hv, hrest⟩ := has_record.mp h <;>
      obtain ⟨rfl, rfl, rfl⟩ := Term.record.inj hv <;> exact hrest
  refine has_record.mpr ⟨name, ex, fields, rfl, fun n hn => ?_, ?_, ?_⟩
  · split_ifs at hn with hname
    rcases hcases with ⟨hn', -⟩ | ⟨hn', -⟩
    · exact hn' n hn
    · exact hn' n (hname ▸ hn)
  · exact joinExported_upper (hcases.imp (fun h => h.2.1) fun h => h.2.1)
  · rintro ⟨k, x⟩ hx
    obtain ⟨y, z, hy, hz, hyz⟩ := hmem hx
    exact lubField_upper hR (ha.2 _ hy) (hb.2 _ hz) hyz
      (hcases.imp (fun h => h.2.2 _ hy) fun h => h.2.2 _ hz)

end Otp.Compiler.BeamTypes
