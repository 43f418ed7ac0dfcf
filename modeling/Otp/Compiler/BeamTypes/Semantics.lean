import Otp.Compiler.BeamTypes.MeetJoin

/-!
# The terms a type describes

`Mem` reads a type as a set of terms. A fun is described by its arity, the
function it was made from and the results it can return; a match context by the
bits that are left; a native record by its name, its fields and whether its
definition is exported. The flags `appendable` and `local_creation` say how a
value came about and are not read.
-/

namespace Otp.Compiler.BeamTypes

open Otp.Lib

/-- Erlang terms, as far as types tell them apart. -/
inductive Term where
  | atom (a : Atom)
  | int (n : ℤ)
  | float (f : Flt)
  | nil
  | cons (head tail : Term)
  | tuple (elements : List Term)
  | map (entries : List (Term × Term))
  | fn (arity : ℕ) (target : Option (Atom × ℕ)) (returns : ℕ → Option Term)
  | bitstring (bits : List Bool)
  | bsContext (bits : List Bool)
  | pid (id : ℕ)
  | port (id : ℕ)
  | reference (id : ℕ)
  | record (name : RecordName) (exported : Bool) (fields : List (Atom × Term))

/-- The elements of a list, proper or not. -/
def Term.elements : Term → List Term
  | .cons x y => x :: y.elements
  | _ => []

/-- What stands after the last element of a list. -/
def Term.terminator : Term → Term
  | .cons _ y => y.terminator
  | v => v

/-- The terms of the slot `other`. -/
def Term.IsOther : Term → Prop
  | .map _ | .fn _ _ _ | .bitstring _ | .bsContext _ | .pid _ | .port _ | .reference _ => True
  | _ => False

def AtomType.Mem : AtomType → Term → Prop
  | .any, .atom _ => True
  | .set s, .atom a => a ∈ s
  | _, _ => False

/-! ## Numbers -/

/-- The integer is not below the end. -/
def End.LeInt : End → ℤ → Prop
  | .negInf, _ => True
  | .int m, n => m ≤ n
  | .float f, n => f.toRat ≤ n
  | .posInf, _ => False

/-- The integer is not above the end. -/
def End.GeInt : End → ℤ → Prop
  | .negInf, _ => False
  | .int m, n => n ≤ m
  | .float f, n => (n : ℚ) ≤ f.toRat
  | .posInf, _ => True

/-- The float is not below the end. -/
def End.LeFloat : End → Flt → Prop
  | .negInf, _ => True
  | .int m, f => (m : ℚ) ≤ f.toRat
  | .float g, f => g.totalLe f
  | .posInf, _ => False

/-- The float is not above the end. -/
def End.GeFloat : End → Flt → Prop
  | .negInf, _ => False
  | .int m, f => f.toRat ≤ m
  | .float g, f => f.totalLe g
  | .posInf, _ => True

def NumRange.MemInt : NumRange → ℤ → Prop
  | .any, _ => True
  | .pair min max, n => min.LeInt n ∧ max.GeInt n

def NumRange.MemFloat : NumRange → Flt → Prop
  | .any, _ => True
  | .pair min max, f => min.LeFloat f ∧ max.GeFloat f

def NumberType.Mem : NumberType → Term → Prop
  | .integer r, .int n | .number r, .int n => r.MemInt n
  | .float r, .float f | .number r, .float f => r.MemFloat f
  | _, _ => False

/-! ## Types -/

/-- What the field `exported` says about the definition of a record. -/
def Exported.Allows : Exported → Bool → Prop
  | .unknown, _ => True
  | .yes, b => b = true
  | .no, b => b = false

/-- Membership of a term in a type. The parameter says which record
definitions a value of the field `exported` allows. -/
inductive Mem (allows : Exported → Bool → Prop) : Typ → Term → Prop where
  | any (v : Term) : Mem allows .any v
  | atom {a : AtomType} {v : Term} : a.Mem v → Mem allows (.atom a) v
  | number {n : NumberType} {v : Term} : n.Mem v → Mem allows (.number n) v
  | nil : Mem allows (.list .nil) .nil
  | cons {t u : Typ} {x y : Term} :
      (∀ e ∈ (Term.cons x y).elements, Mem allows t e) →
      Mem allows u (Term.cons x y).terminator → Mem allows (.list (.cons t u)) (.cons x y)
  | listNil {t u : Typ} : Mem allows (.list (.list t u)) .nil
  | listCons {t u : Typ} {v : Term} :
      Mem allows (.list (.cons t u)) v → Mem allows (.list (.list t u)) v
  | fn {arity : Option ℕ} {target : Option (Atom × ℕ)} {t : Typ} {n : ℕ}
      {target' : Option (Atom × ℕ)} {returns : ℕ → Option Term} :
      (∀ m, arity = some m → n = m) → (∀ g, target = some g → target' = some g) →
      (∀ i v, returns i = some v → Mem allows t v) →
      Mem allows (.other (.fn arity target t)) (.fn n target' returns)
  | map {k w : Typ} {es : List (Term × Term)} :
      (∀ e ∈ es, Mem allows k e.1) → (∀ e ∈ es, Mem allows w e.2) →
      Mem allows (.other (.map k w)) (.map es)
  | bitstring {u : ℕ} {p : Bool} {bits : List Bool} :
      u ∣ bits.length → Mem allows (.other (.bitstring u p)) (.bitstring bits)
  | bsContext {u : ℕ} {bits : List Bool} :
      u ∣ bits.length → Mem allows (.other (.bsContext u)) (.bsContext bits)
  | matchableBitstring {u : ℕ} {bits : List Bool} :
      u ∣ bits.length → Mem allows (.other (.bsMatchable u)) (.bitstring bits)
  | matchableContext {u : ℕ} {bits : List Bool} :
      u ∣ bits.length → Mem allows (.other (.bsMatchable u)) (.bsContext bits)
  | pid (i : ℕ) : Mem allows (.other .pid) (.pid i)
  | port (i : ℕ) : Mem allows (.other .port) (.port i)
  | reference (i : ℕ) : Mem allows (.other .reference) (.reference i)
  | identifierPid (i : ℕ) : Mem allows (.other .identifier) (.pid i)
  | identifierPort (i : ℕ) : Mem allows (.other .identifier) (.port i)
  | identifierReference (i : ℕ) : Mem allows (.other .identifier) (.reference i)
  | other {v : Term} : v.IsOther → Mem allows (.other .other) v
  | tuple {t : TupleType} {vs : List Term} :
      t.size ≤ vs.length → (t.exact = true → vs.length = t.size) →
      (∀ e ∈ t.elements, 1 ≤ e.1 ∧ e.1 ≤ vs.length) →
      (∀ e ∈ t.elements, ∀ v, vs[e.1 - 1]? = some v → Mem allows e.2 v) →
      Mem allows (.tuple t) (.tuple vs)
  | record {r : RecordType} {name : RecordName} {ex : Bool} {fields : List (Atom × Term)} :
      (∀ n, r.name = some n → name = n) → allows r.exported ex →
      (∀ f ∈ r.type, (f.2 = none ↔ fields.lookup f.1 = none)) →
      (∀ f ∈ r.type, ∀ t, f.2 = some t → ∀ v, fields.lookup f.1 = some v → Mem allows t v) →
      Mem allows (.record r) (.record name ex fields)
  | unionAtom {u : UnionType} {a : AtomType} {v : Term} :
      u.atom = some a → Mem allows (.atom a) v → Mem allows (.union u) v
  | unionList {u : UnionType} {l : ListType} {v : Term} :
      u.list = some l → Mem allows (.list l) v → Mem allows (.union u) v
  | unionNumber {u : UnionType} {n : NumberType} {v : Term} :
      u.number = some n → Mem allows (.number n) v → Mem allows (.union u) v
  | unionTuple {u : UnionType} {t : TupleType} {v : Term} :
      u.tupleSet = .tuple t → Mem allows (.tuple t) v → Mem allows (.union u) v
  | unionRecords {u : UnionType} {rs : List (RecordKey × TupleType)} {r : RecordKey × TupleType}
      {v : Term} : u.tupleSet = .records rs → r ∈ rs → Mem allows (.tuple r.2) v →
      Mem allows (.union u) v
  | unionNative {u : UnionType} {r : RecordType} {v : Term} :
      u.nativeRecordSet = .record r → Mem allows (.record r) v → Mem allows (.union u) v
  | unionNatives {u : UnionType} {rs : List RecordType} {r : RecordType} {v : Term} :
      u.nativeRecordSet = .records rs → r ∈ rs → Mem allows (.record r) v →
      Mem allows (.union u) v
  | unionOther {u : UnionType} {o : OtherType} {v : Term} :
      u.other = some o → Mem allows (.other o) v → Mem allows (.union u) v

/-- The terms of a type, with `exported` read as a property of the record. -/
abbrev Typ.Has (t : Typ) (v : Term) : Prop := Mem Exported.Allows t v

/-! ## Inversion -/

@[simp] theorem has_any (v : Term) : Typ.any.Has v := .any v

@[simp] theorem not_has_none (v : Term) : ¬ Typ.none.Has v := nofun

variable {a : AtomType} {v : Term} {n : NumberType} {t : Typ} {u : ℕ} {r : RecordType}

@[simp] theorem has_atom : (Typ.atom a).Has v ↔ a.Mem v := by
  refine ⟨fun h => ?_, .atom⟩
  cases h with
  | atom h => exact h

@[simp] theorem has_number : (Typ.number n).Has v ↔ n.Mem v := by
  refine ⟨fun h => ?_, .number⟩
  cases h with
  | number h => exact h

@[simp] theorem has_nil : (Typ.list .nil).Has v ↔ v = .nil := by
  constructor
  · intro h
    cases h
    rfl
  · rintro rfl
    exact .nil

theorem has_cons {u : Typ} : (Typ.list (.cons t u)).Has v ↔
    (∃ x y, v = .cons x y) ∧ (∀ e ∈ v.elements, t.Has e) ∧ u.Has v.terminator := by
  constructor
  · intro h
    cases h with
    | cons ht hu => exact ⟨⟨_, _, rfl⟩, ht, hu⟩
  · rintro ⟨⟨x, y, rfl⟩, ht, hu⟩
    exact .cons ht hu

theorem has_list {u : Typ} : (Typ.list (.list t u)).Has v ↔
    v = .nil ∨ (Typ.list (.cons t u)).Has v := by
  constructor
  · intro h
    cases h with
    | listNil => exact .inl rfl
    | listCons h => exact .inr h
  · rintro (rfl | h)
    · exact .listNil
    · exact .listCons h

theorem has_fn {arity : Option ℕ} {target : Option (Atom × ℕ)} :
    (Typ.other (.fn arity target t)).Has v ↔ ∃ n target' returns, v = .fn n target' returns ∧
      (∀ m, arity = some m → n = m) ∧ (∀ g, target = some g → target' = some g) ∧
      ∀ i w, returns i = some w → t.Has w := by
  constructor
  · intro h
    cases h with
    | fn h1 h2 h3 => exact ⟨_, _, _, rfl, h1, h2, h3⟩
  · rintro ⟨n, target', returns, rfl, h1, h2, h3⟩
    exact .fn h1 h2 h3

theorem has_map {k w : Typ} : (Typ.other (.map k w)).Has v ↔
    ∃ es, v = .map es ∧ (∀ e ∈ es, k.Has e.1) ∧ ∀ e ∈ es, w.Has e.2 := by
  constructor
  · intro h
    cases h with
    | map h1 h2 => exact ⟨_, rfl, h1, h2⟩
  · rintro ⟨es, rfl, h1, h2⟩
    exact .map h1 h2

theorem has_bitstring {p : Bool} : (Typ.other (.bitstring u p)).Has v ↔
    ∃ bits, v = .bitstring bits ∧ u ∣ bits.length := by
  constructor
  · intro h
    cases h with
    | bitstring h => exact ⟨_, rfl, h⟩
  · rintro ⟨bits, rfl, h⟩
    exact .bitstring h

theorem has_bsContext : (Typ.other (.bsContext u)).Has v ↔
    ∃ bits, v = .bsContext bits ∧ u ∣ bits.length := by
  constructor
  · intro h
    cases h with
    | bsContext h => exact ⟨_, rfl, h⟩
  · rintro ⟨bits, rfl, h⟩
    exact .bsContext h

theorem has_bsMatchable : (Typ.other (.bsMatchable u)).Has v ↔
    ∃ bits, (v = .bitstring bits ∨ v = .bsContext bits) ∧ u ∣ bits.length := by
  constructor
  · intro h
    cases h with
    | matchableBitstring h => exact ⟨_, .inl rfl, h⟩
    | matchableContext h => exact ⟨_, .inr rfl, h⟩
  · rintro ⟨bits, rfl | rfl, h⟩
    · exact .matchableBitstring h
    · exact .matchableContext h

@[simp] theorem has_pid : (Typ.other .pid).Has v ↔ ∃ i, v = .pid i := by
  constructor
  · intro h
    cases h
    exact ⟨_, rfl⟩
  · rintro ⟨i, rfl⟩
    exact .pid i

@[simp] theorem has_port : (Typ.other .port).Has v ↔ ∃ i, v = .port i := by
  constructor
  · intro h
    cases h
    exact ⟨_, rfl⟩
  · rintro ⟨i, rfl⟩
    exact .port i

@[simp] theorem has_reference : (Typ.other .reference).Has v ↔ ∃ i, v = .reference i := by
  constructor
  · intro h
    cases h
    exact ⟨_, rfl⟩
  · rintro ⟨i, rfl⟩
    exact .reference i

@[simp] theorem has_identifier : (Typ.other .identifier).Has v ↔
    ∃ i, v = .pid i ∨ v = .port i ∨ v = .reference i := by
  constructor
  · intro h
    cases h
    · exact ⟨_, .inl rfl⟩
    · exact ⟨_, .inr (.inl rfl)⟩
    · exact ⟨_, .inr (.inr rfl)⟩
  · rintro ⟨i, rfl | rfl | rfl⟩
    · exact .identifierPid i
    · exact .identifierPort i
    · exact .identifierReference i

theorem has_tuple {t : TupleType} : (Typ.tuple t).Has v ↔ ∃ vs, v = .tuple vs ∧
    t.size ≤ vs.length ∧ (t.exact = true → vs.length = t.size) ∧
    ∀ e ∈ t.elements, 1 ≤ e.1 ∧ ∃ w, vs[e.1 - 1]? = some w ∧ e.2.Has w := by
  constructor
  · intro h
    cases h with
    | @tuple _ vs h1 h2 h3 h4 =>
      refine ⟨_, rfl, h1, h2, fun e he => ?_⟩
      have hlen : e.1 - 1 < vs.length := by
        have := h3 e he
        omega
      exact ⟨(h3 e he).1, _, List.getElem?_eq_getElem hlen,
        h4 e he _ (List.getElem?_eq_getElem hlen)⟩
  · rintro ⟨vs, rfl, h1, h2, h3⟩
    refine .tuple h1 h2 (fun e he => ?_) fun e he v hv => ?_
    · obtain ⟨h, w, hw, -⟩ := h3 e he
      obtain ⟨hlen, -⟩ := List.getElem?_eq_some_iff.mp hw
      omega
    · obtain ⟨-, w, hw, hmem⟩ := h3 e he
      rw [hv] at hw
      exact Option.some.inj hw ▸ hmem

/-- What a field of a record type says about the value of the field. -/
def FieldHas (t : Option Typ) (v : Option Term) : Prop :=
  match t, v with
  | none, none => True
  | some t, some v => t.Has v
  | _, _ => False

theorem has_record : (Typ.record r).Has v ↔
    ∃ name ex fields, v = .record name ex fields ∧ (∀ n, r.name = some n → name = n) ∧
      r.exported.Allows ex ∧ ∀ f ∈ r.type, FieldHas f.2 (fields.lookup f.1) := by
  constructor
  · intro h
    cases h with
    | @record _ name ex fields h1 h2 h3 h4 =>
      refine ⟨_, _, _, rfl, h1, h2, fun f hf => ?_⟩
      have hnone := h3 f hf
      have hsome := h4 f hf
      cases hf2 : f.2 <;> cases hl : fields.lookup f.1 <;> simp_all [FieldHas]
  · rintro ⟨name, ex, fields, rfl, h1, h2, h3⟩
    refine .record h1 h2 (fun f hf => ?_) fun f hf t ht v hv => ?_
    · have := h3 f hf
      cases hf2 : f.2 <;> cases hl : fields.lookup f.1 <;> simp_all [FieldHas]
    · have := h3 f hf
      rwa [ht, hv] at this

/-! ## Unions -/

/-- The slots of a union, and the kinds of terms. -/
inductive Kind where
  | atom
  | list
  | number
  | tuple
  | record
  | other
  deriving DecidableEq

def Term.kind : Term → Kind
  | .atom _ => .atom
  | .int _ | .float _ => .number
  | .nil | .cons _ _ => .list
  | .tuple _ => .tuple
  | .record _ _ _ => .record
  | _ => .other

theorem kind_atom (h : (Typ.atom a).Has v) : v.kind = .atom := by
  rw [has_atom] at h
  cases a <;> cases v <;> first | rfl | exact h.elim

theorem kind_number (h : (Typ.number n).Has v) : v.kind = .number := by
  rw [has_number] at h
  cases n <;> cases v <;> first | rfl | exact h.elim

theorem kind_list {l : ListType} (h : (Typ.list l).Has v) : v.kind = .list := by
  cases h with
  | nil => rfl
  | cons _ _ => rfl
  | listNil => rfl
  | listCons h =>
    cases h
    rfl

theorem kind_tuple {t : TupleType} (h : (Typ.tuple t).Has v) : v.kind = .tuple := by
  cases h
  rfl

theorem kind_record (h : (Typ.record r).Has v) : v.kind = .record := by
  cases h
  rfl

theorem isOther_iff : v.IsOther ↔ v.kind = .other := by
  cases v <;> simp [Term.IsOther, Term.kind]

theorem kind_other {o : OtherType} (h : (Typ.other o).Has v) : v.kind = .other := by
  cases h
  case other h => exact isOther_iff.mp h
  all_goals rfl

/-- The slot of a union that a type goes into. -/
def Typ.slot : Typ → Option Kind
  | .atom _ => some .atom
  | .list _ => some .list
  | .number _ => some .number
  | .tuple _ => some .tuple
  | .record _ => some .record
  | .other _ => some .other
  | _ => Option.none

/-- A type of one slot has terms of the kind of the slot. -/
theorem kind_of_slot {k : Kind} (h : t.Has v) (hk : t.slot = some k) : v.kind = k := by
  cases t <;> simp only [Typ.slot, Option.some.injEq, reduceCtorEq] at hk <;> subst hk
  · exact kind_atom h
  · exact kind_list h
  · exact kind_number h
  · exact kind_tuple h
  · exact kind_record h
  · exact kind_other h

/-- A slot that holds a type of the term. -/
def SlotHas {α : Type} (f : α → Typ) (s : Option α) (v : Term) : Prop := ∃ a ∈ s, (f a).Has v

def TupleSet.Has : TupleSet → Term → Prop
  | .none, _ => False
  | .tuple t, v => (Typ.tuple t).Has v
  | .records rs, v => ∃ r ∈ rs, (Typ.tuple r.2).Has v

def NativeRecordSet.Has : NativeRecordSet → Term → Prop
  | .none, _ => False
  | .record r, v => (Typ.record r).Has v
  | .records rs, v => ∃ r ∈ rs, (Typ.record r).Has v

/-- A union has a term through the slot of its kind. -/
theorem has_union {u : UnionType} : (Typ.union u).Has v ↔
    match v.kind with
    | .atom => SlotHas .atom u.atom v
    | .list => SlotHas .list u.list v
    | .number => SlotHas .number u.number v
    | .tuple => u.tupleSet.Has v
    | .record => u.nativeRecordSet.Has v
    | .other => SlotHas .other u.other v := by
  constructor
  · intro h
    cases h with
    | unionAtom hs h =>
      rw [kind_atom h]
      exact ⟨_, hs, h⟩
    | unionList hs h =>
      rw [kind_list h]
      exact ⟨_, hs, h⟩
    | unionNumber hs h =>
      rw [kind_number h]
      exact ⟨_, hs, h⟩
    | unionTuple hs h =>
      rw [kind_tuple h]
      rw [hs]
      exact h
    | unionRecords hs hr h =>
      rw [kind_tuple h]
      rw [hs]
      exact ⟨_, hr, h⟩
    | unionNative hs h =>
      rw [kind_record h]
      rw [hs]
      exact h
    | unionNatives hs hr h =>
      rw [kind_record h]
      rw [hs]
      exact ⟨_, hr, h⟩
    | unionOther hs h =>
      rw [kind_other h]
      exact ⟨_, hs, h⟩
  · intro h
    cases hk : v.kind <;> rw [hk] at h <;> simp only at h
    · obtain ⟨a, ha, h⟩ := h
      exact .unionAtom ha h
    · obtain ⟨a, ha, h⟩ := h
      exact .unionList ha h
    · obtain ⟨a, ha, h⟩ := h
      exact .unionNumber ha h
    · cases hs : u.tupleSet <;> rw [hs] at h
      · exact h.elim
      · exact .unionTuple hs h
      · obtain ⟨r, hr, h⟩ := h
        exact .unionRecords hs hr h
    · cases hs : u.nativeRecordSet <;> rw [hs] at h
      · exact h.elim
      · exact .unionNative hs h
      · obtain ⟨r, hr, h⟩ := h
        exact .unionNatives hs hr h
    · obtain ⟨a, ha, h⟩ := h
      exact .unionOther ha h

end Otp.Compiler.BeamTypes
