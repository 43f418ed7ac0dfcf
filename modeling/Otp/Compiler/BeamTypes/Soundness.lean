import Otp.Compiler.BeamTypes.JoinSound

/-!
# `meet/2` and `join/2` against the terms of their types

The field `exported` of a native record type is part of what the type says: the
meet of a record type that is exported with one that is not is `none`.
-/

namespace Otp.Compiler.BeamTypes

open Otp.Lib

section Levels

variable {num num' : NumRange → Prop} {uni uni' : UnionType → Prop} {P : Typ → Prop} {t : Typ}

theorem NumberType.Valid.mono {n : NumberType} (h : n.Valid num) (hnum : ∀ r, num r → num' r) :
    n.Valid num' := by
  cases n with
  | number r => exact ⟨h.1, hnum r h.2⟩
  | _ => exact h

variable (hnum : ∀ r, num r → num' r) (huni : ∀ u, uni u → uni' u)

include hnum huni

theorem Typ.Good.mono (h : t.Good num uni P) : t.Good num' uni' P := by
  cases t with
  | number n => exact NumberType.Valid.mono h hnum
  | union u =>
    exact ⟨huni u h.1, { h.2 with number := fun n hn => (h.2.number n hn).mono hnum }⟩
  | _ => exact h

/-- Further conditions on ranges and unions may be dropped. -/
theorem WellFormedWithin.mono {n : ℕ} (h : WellFormedWithin num uni n t) :
    WellFormedWithin num' uni' n t := by
  induction n generalizing t with
  | zero => exact h
  | succ n ih => exact Typ.Good.mono hnum huni (Typ.Good.imp h fun x _ hx => ih hx)

theorem Typ.WellFormedWith.mono (h : t.WellFormedWith num uni) : t.WellFormedWith num' uni' := by
  obtain ⟨n, h⟩ := h
  exact ⟨n, h.mono hnum huni⟩

end Levels

section Keys

variable [LinearOrder RecordKey]

/-- `join/2` has every term of both types. -/
theorem join_upper : JoinUpper Typ.WellFormed join := by
  intro a b v ha hb h
  have hweaken : ∀ {t : Typ}, t.WellFormed →
      t.WellFormedWith (fun _ => True) (fun _ => True) := fun ht =>
    ht.mono (fun _ h => h) fun _ _ => trivial
  obtain ⟨n, ha⟩ := hweaken ha
  obtain ⟨m, hb⟩ := hweaken hb
  exact (joinWithin_upper _).1 (ha.within (by omega)) (hb.within (by omega)) h

end Keys

/-- Native records of one name that are exported, or not. -/
def exportedRecord (exported : Exported) : Typ :=
  .record ⟨some ("m", "r"), exported, [], false⟩

/-- With `exported` ignored, two record types have a common term that their meet
has not. -/
theorem meet_exported_disjoint :
    ∃ v : Term, Mem (fun _ _ => True) (exportedRecord .yes) v ∧
      Mem (fun _ _ => True) (exportedRecord .no) v ∧
      ∀ [LinearOrder RecordKey], (exportedRecord .yes).WellFormed ∧
        (exportedRecord .no).WellFormed ∧
        ¬ Mem (fun _ _ => True) (meet (exportedRecord .yes) (exportedRecord .no)) v := by
  refine ⟨.record ("m", "r") true [], ?_, ?_, ?_⟩
  · exact .record (fun n hn => Option.some.inj hn) trivial (by simp) (by simp)
  · exact .record (fun n hn => Option.some.inj hn) trivial (by simp) (by simp)
  · intro _
    have hgood : ∀ e, (exportedRecord e).WellFormed := fun e =>
      ⟨1, by simp [Ordset.IsMap, Ordset.IsOrdset, Ordset.keys], by simp⟩
    refine ⟨hgood .yes, hgood .no, ?_⟩
    have hmeet : meet (exportedRecord .yes) (exportedRecord .no) = .none := by
      rfl
    intro hmem
    cases hmem

/-- `meet/2` loses no common term, `join/2` loses no term of either type, and
`meet/2` adds no term where neither a range of `#t_number{}` is widened by the
conversion of its ends to floats nor a union by `shrink_union/1`. -/
theorem meet_join_sound [LinearOrder RecordKey] {a b : Typ} (ha : a.WellFormed)
    (hb : b.WellFormed) :
    (∀ v, a.Has v → b.Has v → (meet a b).Has v) ∧ (∀ v, a.Has v ∨ b.Has v → (join a b).Has v) ∧
      (a.WellFormedWith NumRange.RoundsInward UnionType.Narrow →
        b.WellFormedWith NumRange.RoundsInward UnionType.Narrow →
        ∀ v, (meet a b).Has v → a.Has v ∧ b.Has v) :=
  ⟨fun _ h1 h2 => meet_complete ha hb h1 h2, fun _ h => join_upper ha hb h,
    fun ha' hb' _ h => meet_lower ha' hb' h⟩

/-- The integers that are the value of a float are not moved. -/
theorem roundsInward_of_isDouble {m n : ℤ} (hm : Double.IsDouble m) (hn : Double.IsDouble n) :
    (NumRange.pair (.int m) (.int n)).RoundsInward := by
  constructor
  · intro k q hk hq
    cases hk
    exact Double.le_ofInt hq hm le_rfl
  · intro k q hk hq
    cases hk
    exact Double.ofInt_le hq hn le_rfl

/-- The numbers from `0` to `1`. -/
def unitRange : Typ := .number (.number (.pair (.int 0) (.int 1)))

/-- Atoms and floats. -/
def atomOrFloat : Typ :=
  .union { UnionType.empty with atom := some .any, number := some (.float .any) }

/-- Some order of the record keys. -/
noncomputable abbrev keyOrder : LinearOrder RecordKey :=
  @linearOrderOfSTO RecordKey WellOrderingRel _ (Classical.decRel _)

theorem unitRange_wellFormed (uni : UnionType → Prop) :
    unitRange.WellFormedWith NumRange.RoundsInward uni :=
  ⟨1, show (0 : ℤ) ≤ 1 by decide,
    roundsInward_of_isDouble (by simpa using Double.zero_isDouble) (by simpa using one_isDouble)⟩

theorem atomOrFloat_wellFormed [LinearOrder RecordKey] :
    atomOrFloat.WellFormedWith NumRange.RoundsInward UnionType.Narrow := by
  refine ⟨1, ⟨⟨trivial, trivial⟩, by simp [UnionType.empty, shrinkUnion]⟩, ?_⟩
  constructor <;> simp [UnionType.empty, AtomType.Valid, NumberType.Valid, TupleSet.Good,
    NativeRecordSet.Good]

theorem meet_join_sound_at :
    letI := keyOrder
    (∀ v, unitRange.Has v → atomOrFloat.Has v → (meet unitRange atomOrFloat).Has v) ∧
      (∀ v, unitRange.Has v ∨ atomOrFloat.Has v → (join unitRange atomOrFloat).Has v) ∧
      ∀ v, (meet unitRange atomOrFloat).Has v → unitRange.Has v ∧ atomOrFloat.Has v := by
  let := keyOrder
  obtain ⟨h1, h2, h3⟩ := meet_join_sound
    (.mono (fun _ _ => trivial) (fun _ h => h) (unitRange_wellFormed _))
    (.mono (fun _ _ => trivial) (fun _ h => h.1) atomOrFloat_wellFormed)
  exact ⟨h1, h2, h3 (unitRange_wellFormed _) atomOrFloat_wellFormed⟩

end Otp.Compiler.BeamTypes
