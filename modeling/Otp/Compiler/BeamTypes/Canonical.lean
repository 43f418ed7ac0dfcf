import Otp.Compiler.BeamTypes.Slots
import Otp.Compiler.BeamTypes.WellFormed
import Otp.Lib.KeyedSets

/-!
# Canonical types and their order

Several types that `verified_type/1` accepts describe the same terms: a list type
whose element type is `none`, a tuple type with an element `any` or behind the
limit, a set of more atoms than `meet/2` and `join/2` keep, a union with a single
slot in use. Canonical types are those that the constructors of the compiler and
`meet/2` and `join/2` build. `Typ.Le` is the order on them, level by level like
`WellFormedWithin`.
-/

namespace Otp.Compiler.BeamTypes

open Otp.Lib

section Levels

variable (P : Typ → Prop) (le : Typ → Typ → Prop)

/-! ## The slots -/

def AtomType.Canonical : AtomType → Prop
  | .any => True
  | .set s => s ≠ [] ∧ Ordset.IsOrdset s ∧ s.length ≤ atomSetSize

def AtomType.Le : AtomType → AtomType → Prop
  | _, .any => True
  | .set s, .set t => s ⊆ t
  | .any, .set _ => False

/-- Ranges of integers are ordered by the integers in them. -/
def NumRange.Le (r s : NumRange) : Prop := ∀ n, r.MemInt n → s.MemInt n

/-- No floats. -/
def NumberType.Canonical : NumberType → Prop
  | .integer r | .number r => r.Valid
  | .float _ => False

def NumberType.Le : NumberType → NumberType → Prop
  | .integer r, .integer s | .integer r, .number s | .number r, .number s => r.Le s
  | _, _ => False

def ListType.Canonical : ListType → Prop
  | .nil => True
  | .cons t u | .list t u => (P t ∧ t ≠ .none) ∧ P u ∧ u ≠ .none

def ListType.Le : ListType → ListType → Prop
  | .nil, .nil | .nil, .list _ _ => True
  | .cons t u, .cons t' u' | .cons t u, .list t' u' | .list t u, .list t' u' => le t t' ∧ le u u'
  | _, _ => False

/-- An appendable bitstring is below others. -/
inductive OtherType.Le : OtherType → OtherType → Prop
  | other {o} : OtherType.Le o .other
  | identifier {o} (h : o.isIdentifier = true) : OtherType.Le o .identifier
  | pid : OtherType.Le .pid .pid
  | port : OtherType.Le .port .port
  | reference : OtherType.Le .reference .reference
  | bitstring {u u' p p'} (hu : u' ∣ u) (hp : p' = true → p = true) :
      OtherType.Le (.bitstring u p) (.bitstring u' p')
  | bsContext {u u'} (hu : u' ∣ u) : OtherType.Le (.bsContext u) (.bsContext u')
  | bsMatchable {u u'} (hu : u' ∣ u) : OtherType.Le (.bsMatchable u) (.bsMatchable u')
  | bitstringMatchable {u u' p} (hu : u' ∣ u) : OtherType.Le (.bitstring u p) (.bsMatchable u')
  | contextMatchable {u u'} (hu : u' ∣ u) : OtherType.Le (.bsContext u) (.bsMatchable u')
  | fn {arity arity' target target' t t'} (ha : FlatLe arity arity') (hg : FlatLe target target')
      (ht : le t t') : OtherType.Le (.fn arity target t) (.fn arity' target' t')
  | map {k k' v v'} (hk : le k k') (hv : le v v') : OtherType.Le (.map k v) (.map k' v')

/-- The elements that a type of tuples with at least `size` elements may know. -/
def ElementOn (size i : ℕ) (t : Typ) : Prop :=
  (1 ≤ i ∧ i ≤ size ∧ i ≤ tupleElementLimit) ∧ P t ∧ t ≠ .none ∧ t ≠ .any

def TupleType.Canonical (t : TupleType) : Prop := MapOn (ElementOn P t.size) t.elements

def TupleType.Le (a b : TupleType) : Prop :=
  b.size ≤ a.size ∧ (b.exact = true → a.exact = true ∧ a.size = b.size) ∧
    MapLe le a.elements b.elements

/-- A field that is missing, or present with a type. -/
def FieldOn : Option Typ → Prop
  | none => True
  | some t => P t ∧ t ≠ .none

def FieldLe : Option Typ → Option Typ → Prop
  | none, none => True
  | some t, some u => le t u
  | _, _ => False

def RecordType.Canonical (r : RecordType) : Prop := MapOn (fun _ => FieldOn P) r.type

def Exported.Le (a b : Exported) : Prop := b = .unknown ∨ a = b

/-- A record that is only created locally is below others. -/
def RecordType.Le (a b : RecordType) : Prop :=
  (FlatLe a.name b.name ∧ a.exported.Le b.exported) ∧ MapLe (FieldLe le) a.type b.type ∧
    (b.localCreation = true → a.localCreation = true)

/-! ## Sets and unions -/

def TupleSet.toList : TupleSet → List TupleType
  | .none => []
  | .tuple t => [t]
  | .records rs => rs.map Prod.snd

def NativeRecordSet.toList : NativeRecordSet → List RecordType
  | .none => []
  | .record r => [r]
  | .records rs => rs

def TupleSet.Le (a b : TupleSet) : Prop := SetLe (TupleType.Le le) a.toList b.toList

def NativeRecordSet.Canonical (s : NativeRecordSet) : Prop :=
  s.Sorted ∧ ∀ r ∈ s.toList, r.Canonical P

def NativeRecordSet.Le (a b : NativeRecordSet) : Prop := SetLe (RecordType.Le le) a.toList b.toList

structure UnionType.Le (a b : UnionType) : Prop where
  atom : BotLe AtomType.Le a.atom b.atom
  list : BotLe (ListType.Le le) a.list b.list
  number : BotLe NumberType.Le a.number b.number
  tupleSet : a.tupleSet.Le le b.tupleSet
  nativeRecordSet : a.nativeRecordSet.Le le b.nativeRecordSet
  other : BotLe (OtherType.Le le) a.other b.other

/-- Everything is below `any`, and other types are ordered by their slots. -/
def Typ.Le (a b : Typ) : Prop := b = .any ∨ (a ≠ .any ∧ a.slots.Le le b.slots)

section Keys

variable [LinearOrder RecordKey]

def TupleSet.Canonical (s : TupleSet) : Prop := s.Keyed ∧ ∀ t ∈ s.toList, t.Canonical P

structure UnionType.Canonical (u : UnionType) : Prop where
  atom : ∀ a ∈ u.atom, a.Canonical
  list : ∀ l ∈ u.list, l.Canonical P
  number : ∀ n ∈ u.number, n.Canonical
  tupleSet : u.tupleSet.Canonical P
  nativeRecordSet : u.nativeRecordSet.Canonical P
  other : ∀ o ∈ u.other, o.Good P

/-- A union has at least two slots in use, and is not taken for `any`. -/
def Typ.CanonicalStep : Typ → Prop
  | .any | .none => True
  | .atom a => a.Canonical
  | .list l => l.Canonical P
  | .number n => n.Canonical
  | .tuple t => t.Canonical P
  | .record r => r.Canonical P
  | .other o => o.Good P
  | .union u => u.Canonical P ∧ shrinkUnion u = .union u

end Keys

end Levels

section Keys

variable [LinearOrder RecordKey]

/-- Canonical types nested less than `n` levels deep. -/
def CanonicalWithin : ℕ → Typ → Prop
  | 0 => fun _ => False
  | n + 1 => Typ.CanonicalStep (CanonicalWithin n)

/-- Canonical types. -/
def Typ.Canonical (t : Typ) : Prop := ∃ n, CanonicalWithin n t

end Keys

/-- The order on types nested less than `n` levels deep. -/
def leWithin : ℕ → Typ → Typ → Prop
  | 0 => fun _ _ => False
  | n + 1 => Typ.Le (leWithin n)

/-- `R` returns bounds, which satisfy `Q`, of types that satisfy `P`. -/
def Bounds (P Q : Typ → Prop) (le : Typ → Typ → Prop) (R : Typ → Typ → Typ) : Prop :=
  ∀ ⦃x y⦄, P x → P y → Q (R x y) ∧ le (R x y) x ∧ le (R x y) y

/-- What the order, the meet and the join of inner types must satisfy. Below a
singleton there is only `none`. -/
structure Inner (P : Typ → Prop) (le : Typ → Typ → Prop) (meet join : Typ → Typ → Typ) : Prop where
  lattice : LatticeOn P le meet join
  none_le : ∀ {x}, P x → le .none x
  le_none : ∀ {x}, P x → le x .none → x = .none
  le_any : ∀ {x}, P x → le x .any
  any_le : ∀ {x}, P x → le .any x → x = .any
  minimal : ∀ {x t}, P x → P t → le x t → t.isSingletonType = true → x ≠ .none → x = t

section Inner

variable {P : Typ → Prop} {le : Typ → Typ → Prop} {R J : Typ → Typ → Typ} {x y z : Typ}

theorem ListType.Canonical.good {l : ListType} (h : l.Canonical P) : l.Good P :=
  ListType.Good.imp h fun _ _ ht => ht.1

theorem TupleType.Canonical.good {t : TupleType} (h : t.Canonical P) : t.Good P :=
  ⟨h.1, fun e he => (h.2 e he).2.1⟩

theorem RecordType.Canonical.good {r : RecordType} (h : r.Canonical P) : r.Good P :=
  ⟨h.1, fun f hf t ht => (show FieldOn P (some t) from ht ▸ h.2 f hf).1⟩

section

variable (h : Inner P le R J)

include h

theorem Inner.meet_bound : Bounds P P le R := fun _ _ hx hy => h.lattice.meet.bound hx hy rfl

theorem Inner.le_meet (hx : P x) (hy : P y) (hz : P z) (hzx : le z x)
    (hzy : le z y) : le z (R x y) :=
  h.lattice.meet.greatest_some hx hy hz hzx hzy

theorem Inner.join_bound : Bounds P P (flip le) J := fun _ _ hx hy => h.lattice.join.bound hx hy rfl

theorem Inner.join_le (hx : P x) (hy : P y) (hz : P z) (hxz : le x z)
    (hyz : le y z) : le (J x y) z :=
  h.lattice.join.greatest_some hx hy hz hxz hyz

theorem Inner.join_self (hx : P x) : J x x = x := by
  obtain ⟨hP, hle, -⟩ := h.join_bound hx hx
  have hrefl := h.lattice.order.refl hx
  exact h.lattice.order.antisymm hP hx (h.join_le hx hx hx hrefl hrefl) hle

/-- Above a type other than `none` there is no `none`. -/
theorem Inner.ne_none_of_le (hx : P x) (hxy : le x y) (hne : x ≠ .none) : y ≠ .none := by
  rintro rfl
  exact hne (h.le_none hx hxy)

theorem Inner.ne_any_of_le (hy : P y) (hxy : le x y) (hne : y ≠ .any) : x ≠ .any := by
  rintro rfl
  exact hne (h.any_le hy hxy)

/-- Types other than `none`, whose meet may be absent. -/
theorem Inner.notNone :
    PartialLattice (fun x => P x ∧ x ≠ .none) le (fun x y => (R x y).notNone)
      fun x y => some (J x y) := by
  have hnotNone : ∀ {t : Typ}, t ≠ .none → t.notNone = some t := by
    intro t ht
    cases t <;> first | rfl | exact absurd rfl ht
  refine ⟨⟨fun hx => h.lattice.order.refl hx.1,
    fun hx hy hz => h.lattice.order.trans hx.1 hy.1 hz.1,
    fun hx hy => h.lattice.order.antisymm hx.1 hy.1⟩, ⟨?_, ?_⟩, ⟨?_, ?_⟩⟩
  · intro x y m hx hy hm
    have hne : R x y ≠ .none := by
      intro hnone
      simp [hnone, Typ.notNone] at hm
    obtain rfl := Option.some.inj ((hnotNone hne).symm.trans hm)
    obtain ⟨hP, hmx, hmy⟩ := h.meet_bound hx.1 hy.1
    exact ⟨⟨hP, hne⟩, hmx, hmy⟩
  · intro x y z hx hy hz hzx hzy
    have hle := h.le_meet hx.1 hy.1 hz.1 hzx hzy
    exact ⟨_, hnotNone (h.ne_none_of_le hz.1 hle hz.2), hle⟩
  · intro x y m hx hy hm
    cases hm
    obtain ⟨hP, hxm, hym⟩ := h.join_bound hx.1 hy.1
    exact ⟨⟨hP, h.ne_none_of_le hx.1 hxm hx.2⟩, hxm, hym⟩
  · intro x y z hx hy hz hxz hyz
    exact ⟨_, rfl, h.join_le hx.1 hy.1 hz.1 hxz hyz⟩

end

end Inner

end Otp.Compiler.BeamTypes
