import Otp.Compiler.BeamTypes.MeetJoin

/-!
# Types as unions

Every type but `any` is a union of slots, possibly with one slot in use. Meets and
joins that involve a union work slot by slot, and `shrink_union/1` turns the
result back into a type.
-/

namespace Otp.Compiler.BeamTypes

/-- The slots of a type other than `any`. -/
def Typ.slots : Typ → UnionType
  | .atom a => { UnionType.empty with atom := some a }
  | .list l => { UnionType.empty with list := some l }
  | .number n => { UnionType.empty with number := some n }
  | .tuple t => { UnionType.empty with tupleSet := newTupleSet t }
  | .record r => { UnionType.empty with nativeRecordSet := .record r }
  | .other o => { UnionType.empty with other := some o }
  | .union u => u
  | .none | .any => UnionType.empty

theorem newTupleSet_cases (t : TupleType) :
    (t.recordKey = none ∧ newTupleSet t = .tuple t) ∨
      ∃ k, t.recordKey = some k ∧ newTupleSet t = .records [(k, t)] := by
  unfold newTupleSet
  cases t.recordKey with
  | none => exact .inl ⟨rfl, rfl⟩
  | some k => exact .inr ⟨k, rfl, rfl⟩

/-- `shrink_union/1` undoes the expansion of a type into slots. -/
theorem shrinkUnion_slots {t : Typ} (hany : t ≠ .any) (hunion : ∀ u, t ≠ .union u) :
    shrinkUnion t.slots = t := by
  cases t with
  | any => exact absurd rfl hany
  | union u => exact absurd rfl (hunion u)
  | tuple t =>
    rcases newTupleSet_cases t with ⟨-, h⟩ | ⟨k, -, h⟩ <;> rw [Typ.slots, h] <;> rfl
  | _ => rfl

/-- The number of slots in use. -/
def UnionType.inUse (u : UnionType) : ℕ :=
  u.atom.isSome.toNat + u.list.isSome.toNat + u.number.isSome.toNat +
    (decide (u.tupleSet ≠ .none)).toNat + (decide (u.nativeRecordSet ≠ .none)).toNat +
    u.other.isSome.toNat

/-- A union with several slots in use, but not all, does not shrink. -/
theorem shrinkUnion_of_inUse {u : UnionType} (h : 2 ≤ u.inUse) (h' : u.inUse < 6) :
    shrinkUnion u = .union u := by
  unfold shrinkUnion
  split <;> simp [UnionType.inUse] at h h' ⊢

@[simp] theorem shrinkUnion_atom (o : Option AtomType) :
    shrinkUnion ⟨o, none, none, .none, .none, none⟩ = o.elim .none .atom := by
  cases o <;> rfl

@[simp] theorem shrinkUnion_list (o : Option ListType) :
    shrinkUnion ⟨none, o, none, .none, .none, none⟩ = o.elim .none .list := by
  cases o <;> rfl

@[simp] theorem shrinkUnion_number (o : Option NumberType) :
    shrinkUnion ⟨none, none, o, .none, .none, none⟩ = o.elim .none .number := by
  cases o <;> rfl

@[simp] theorem shrinkUnion_other (o : Option OtherType) :
    shrinkUnion ⟨none, none, none, .none, .none, o⟩ = o.elim .none .other := by
  cases o <;> rfl

section Meet

variable {R : Typ → Typ → Typ} {α : Type}

@[simp] theorem glbSlot_none (f : α → α → Option α) (x : Option α) : glbSlot f x none = none := by
  cases x <;> rfl

@[simp] theorem none_glbSlot (f : α → α → Option α) (x : Option α) : glbSlot f none x = none := by
  cases x <;> rfl

@[simp] theorem meetNativeRecordSets_none (a : NativeRecordSet) :
    meetNativeRecordSets R a .none = .none := by
  cases a <;> rfl

@[simp] theorem none_meetNativeRecordSets (a : NativeRecordSet) :
    meetNativeRecordSets R .none a = .none := by
  cases a <;> rfl

variable [LinearOrder RecordKey] {b : Typ}

@[simp] theorem meetTupleSets_none (a : TupleSet) : meetTupleSets R a .none = .none := by
  cases a <;> rfl

@[simp] theorem none_meetTupleSets (a : TupleSet) : meetTupleSets R .none a = .none := by
  cases a <;> rfl

/-- Meets, slot by slot. -/
def meetSlots (meet : Typ → Typ → Typ) (a b : UnionType) : UnionType :=
  ⟨glbSlot glbAtom a.atom b.atom, glbSlot (glbList meet) a.list b.list,
    glbSlot glbNumber a.number b.number, meetTupleSets meet a.tupleSet b.tupleSet,
    meetNativeRecordSets meet a.nativeRecordSet b.nativeRecordSet,
    glbSlot (glbOther meet) a.other b.other⟩

theorem meetUnions_eq (a : UnionType) (hb : b ≠ .any) :
    meetUnions R a b = shrinkUnion (meetSlots R a b.slots) := by
  cases b with
  | any => exact absurd rfl hb
  | union b => rfl
  | _ => simp [meetUnions, meetSlots, Typ.slots, UnionType.empty]

end Meet

section Join

variable (R : Typ → Typ → Typ) {α : Type}

@[simp] theorem lubSlot_none (f : α → α → α) (x : Option α) : lubSlot f x none = x := by
  cases x <;> rfl

@[simp] theorem none_lubSlot (f : α → α → α) (x : Option α) : lubSlot f none x = x := by
  cases x <;> rfl

@[simp] theorem joinNativeRecordSets_none (a : NativeRecordSet) :
    joinNativeRecordSets R a .none = a := by
  cases a <;> rfl

@[simp] theorem none_joinNativeRecordSets (a : NativeRecordSet) :
    joinNativeRecordSets R .none a = a := by
  cases a <;> rfl

/-- Two native records are joined as sets of one record. -/
theorem joinRecords_eq (a b : RecordType) : joinRecords R a b =
    shrinkUnion { UnionType.empty with
      nativeRecordSet := joinNativeRecordSets R (.record a) (.record b) } := by
  unfold joinRecords joinNativeRecordSets
  split_ifs <;> simp_all [jnrsMerge, nativeRecords, jnrsRest, shrinkUnion, UnionType.empty]

section Keys

variable [LinearOrder RecordKey] {b : Typ}

@[simp] theorem joinTupleSets_none (a : TupleSet) : joinTupleSets R a .none = a := by
  cases a <;> rfl

@[simp] theorem none_joinTupleSets (a : TupleSet) : joinTupleSets R .none a = a := by
  cases a <;> rfl

/-- Two tuples are joined as sets of one tuple, but for the order in which a
tuple without a record key meets one with a key. -/
theorem joinTuples_eq {a b : TupleType} (h : a.recordKey = none → b.recordKey = none) :
    joinTuples R a b = shrinkUnion { UnionType.empty with
      tupleSet := joinTupleSets R (newTupleSet a) (newTupleSet b) } := by
  unfold joinTuples
  rcases newTupleSet_cases a with ⟨ha, ha'⟩ | ⟨k, ha, ha'⟩ <;>
  rcases newTupleSet_cases b with ⟨hb, hb'⟩ | ⟨k', hb, hb'⟩ <;> rw [ha, hb, ha', hb']
  · rfl
  · rw [h ha] at hb
    cases hb
  · rfl
  · simp only [joinTupleSets]
    split_ifs with hk hlt
    · simp [jtsRecords, hk, tupleSetLimit, shrinkUnion, UnionType.empty]
    · simp [jtsRecords, hk, hlt, tupleSetLimit, shrinkUnion, UnionType.empty]
    · simp [jtsRecords, hk, hlt, tupleSetLimit, shrinkUnion, UnionType.empty]

/-- Joins, slot by slot. -/
def joinSlots (a b : UnionType) : UnionType :=
  ⟨lubSlot lubAtom a.atom b.atom, lubSlot (lubList R) a.list b.list,
    lubSlot lubNumber a.number b.number, joinTupleSets R a.tupleSet b.tupleSet,
    joinNativeRecordSets R a.nativeRecordSet b.nativeRecordSet,
    lubSlot (lubOther R) a.other b.other⟩

theorem joinUnions_eq (a : UnionType) (hb : b ≠ .any) :
    joinUnions R a b = shrinkUnion (joinSlots R a b.slots) := by
  cases b with
  | any => exact absurd rfl hb
  | union b => rfl
  | none =>
    obtain ⟨_, _, _, _, _, _⟩ := a
    simp [joinUnions, joinSlots, Typ.slots, UnionType.empty]
  | _ => simp [joinUnions, joinSlots, Typ.slots, UnionType.empty]

/-- Types of different slots are joined in a union. -/
theorem joinNormal_eq {a : Typ} (ha : a ≠ .any) (hb : b ≠ .any) (ha' : a ≠ .none) (hb' : b ≠ .none)
    (hua : ∀ u, a ≠ .union u) (hub : ∀ u, b ≠ .union u)
    (htuple : ∀ s t, a = .tuple s → b = .tuple t → s.recordKey = none → t.recordKey = none) :
    joinNormal R a b = shrinkUnion (joinSlots R a.slots b.slots) := by
  have hset : ∀ t : TupleType, newTupleSet t ≠ .none := by
    intro t
    rcases newTupleSet_cases t with ⟨-, h⟩ | ⟨k, -, h⟩ <;> simp [h]
  cases a <;> cases b <;> first
    | exact absurd rfl ‹_›
    | exact absurd rfl (hua _)
    | exact absurd rfl (hub _)
    | exact joinTuples_eq R (htuple _ _ rfl rfl)
    | exact joinRecords_eq R _ _
    | rfl
    | skip
  -- two slots are in use
  all_goals
    simp only [joinNormal, joinSlots, Typ.slots, UnionType.empty, lubSlot_none, none_lubSlot,
      joinTupleSets_none, none_joinTupleSets, joinNativeRecordSets_none, none_joinNativeRecordSets]
    rw [shrinkUnion_of_inUse] <;> simp [UnionType.inUse, hset]

end Keys

end Join

end Otp.Compiler.BeamTypes
