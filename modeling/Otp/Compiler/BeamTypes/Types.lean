import Otp.Lib.Double

/-!
# The types of the compiler (`beam_types.erl`)

The source writes a type as a record or an atom; the slots of `#t_union{}`
group these by the kind of term they describe, and the macros
`?IS_LIST_TYPE` and `?IS_NUMBER_TYPE` do the same in guards. The groups are
separate inductive types here, so a union cannot hold a type in a slot of
another kind.

Erlang maps with types as values (`elements` of a tuple, `type` of a native
record) are association lists sorted by key.
-/

namespace Otp.Compiler.BeamTypes

open Otp.Lib

abbrev Atom := String

/-! ## Numbers -/

/-- A float: the rational values of doubles and `-0.0`, which differs from
`+0.0`. -/
inductive Flt where
  | negZero
  | num (q : {q : ℚ // Double.IsDouble q})
  deriving DecidableEq

/-- An end of a range: `'-inf'`, `'+inf'` or a number. -/
inductive End where
  | negInf
  | int (n : ℤ)
  | float (f : Flt)
  | posInf
  deriving DecidableEq

/-- The `elements` of a numeric type. -/
inductive NumRange where
  | any
  | pair (min max : End)
  deriving DecidableEq

/-! ## Types -/

/-- `#t_atom{}`. -/
inductive AtomType where
  | any
  | set (elements : List Atom)
  deriving DecidableEq

/-- `#t_integer{}`, `#t_float{}` and `#t_number{}`. -/
inductive NumberType where
  | integer (elements : NumRange)
  | float (elements : NumRange)
  | number (elements : NumRange)
  deriving DecidableEq

/-- The field `exported` of `#t_record{}`. -/
inductive Exported where
  | unknown
  | yes
  | no
  deriving DecidableEq, Repr

/-- A name of a native record, ordered by module and then by record. -/
abbrev RecordName := Atom ×ₗ Atom

mutual
/-- `type()`. -/
inductive Typ where
  | any
  | none
  | atom (a : AtomType)
  | list (l : ListType)
  | number (n : NumberType)
  | tuple (t : TupleType)
  | record (r : RecordType)
  | other (o : OtherType)
  | union (u : UnionType)

/-- `nil`, `#t_cons{}` and `#t_list{}`. -/
inductive ListType where
  | nil
  | cons (type terminator : Typ)
  | list (type terminator : Typ)

/-- `other_type()` and the type `other`. An absent arity or target is
`any`. -/
inductive OtherType where
  | fn (arity : Option ℕ) (target : Option (Atom × ℕ)) (type : Typ)
  | map (superKey superValue : Typ)
  | bitstring (sizeUnit : ℕ) (appendable : Bool)
  | bsContext (tailUnit : ℕ)
  | bsMatchable (tailUnit : ℕ)
  | pid
  | port
  | reference
  | identifier
  | other

/-- `#t_tuple{}`. -/
structure TupleType where
  size : ℕ
  exact : Bool
  elements : List (ℕ × Typ)

/-- `#t_record{}`, a native record. The name is absent where it is `nil`; a
field is absent where it is `missing`. -/
structure RecordType where
  name : Option RecordName
  exported : Exported
  type : List (Atom × Option Typ)
  localCreation : Bool

/-- `tuple_set()`, with `none`. -/
inductive TupleSet where
  | none
  | tuple (t : TupleType)
  | records (rs : List ((ℕ × Typ) × TupleType))

/-- `native_record_set()`, with `none`. -/
inductive NativeRecordSet where
  | none
  | record (r : RecordType)
  | records (rs : List RecordType)

/-- `#t_union{}`. -/
structure UnionType where
  atom : Option AtomType
  list : Option ListType
  number : Option NumberType
  tupleSet : TupleSet
  nativeRecordSet : NativeRecordSet
  other : Option OtherType
end

/-- `record_key()`: the size and the tag of a record. -/
abbrev RecordKey := ℕ × Typ

def atomSetSize : ℕ := 5

def tupleElementLimit : ℕ := 12

def tupleSetLimit : ℕ := 12

/-- `#t_union{}` with every slot at its default. -/
def UnionType.empty : UnionType := ⟨none, none, none, .none, .none, none⟩

/-! ## Nesting -/

mutual
/-- The number of levels of types inside a type. -/
def Typ.depth : Typ → ℕ
  | .any | .none | .atom _ | .number _ => 0
  | .list l => l.depth
  | .tuple t => t.depth
  | .record r => r.depth
  | .other o => o.depth
  | .union u => u.depth
termination_by structural t => t
def ListType.depth : ListType → ℕ
  | .nil => 0
  | .cons t u | .list t u => max t.depth u.depth + 1
termination_by structural l => l
def OtherType.depth : OtherType → ℕ
  | .fn _ _ t => t.depth + 1
  | .map k v => max k.depth v.depth + 1
  | _ => 0
termination_by structural o => o
def TupleType.depth : TupleType → ℕ
  | .mk _ _ es => elementsDepth es
termination_by structural t => t
def elementsDepth : List (ℕ × Typ) → ℕ
  | [] => 0
  | e :: es => max (elementDepth e) (elementsDepth es)
termination_by structural es => es
def elementDepth : ℕ × Typ → ℕ
  | (_, t) => t.depth + 1
termination_by structural e => e
def RecordType.depth : RecordType → ℕ
  | .mk _ _ fs _ => fieldsDepth fs
termination_by structural r => r
def fieldsDepth : List (Atom × Option Typ) → ℕ
  | [] => 0
  | f :: fs => max (fieldDepth f) (fieldsDepth fs)
termination_by structural fs => fs
def fieldDepth : Atom × Option Typ → ℕ
  | (_, t) => optDepth t
termination_by structural f => f
def optDepth : Option Typ → ℕ
  | none => 0
  | some t => t.depth + 1
termination_by structural t => t
def TupleSet.depth : TupleSet → ℕ
  | .none => 0
  | .tuple t => t.depth
  | .records rs => recordsDepth rs
termination_by structural s => s
def recordsDepth : List ((ℕ × Typ) × TupleType) → ℕ
  | [] => 0
  | r :: rs => max (recordDepth r) (recordsDepth rs)
termination_by structural rs => rs
def recordDepth : (ℕ × Typ) × TupleType → ℕ
  | (_, t) => t.depth
termination_by structural r => r
def NativeRecordSet.depth : NativeRecordSet → ℕ
  | .none => 0
  | .record r => r.depth
  | .records rs => nativeRecordsDepth rs
termination_by structural s => s
def nativeRecordsDepth : List RecordType → ℕ
  | [] => 0
  | r :: rs => max r.depth (nativeRecordsDepth rs)
termination_by structural rs => rs
def UnionType.depth : UnionType → ℕ
  | .mk _ l _ ts rs o => max (optListDepth l) (max ts.depth (max rs.depth (optOtherDepth o)))
termination_by structural u => u
def optListDepth : Option ListType → ℕ
  | none => 0
  | some l => l.depth
termination_by structural l => l
def optOtherDepth : Option OtherType → ℕ
  | none => 0
  | some o => o.depth
termination_by structural o => o
end

/-! ## Equality

`T =:= T` decides the first clause of `meet/2`, `join/2`, `glb/2` and `lub/2`.
-/

mutual
def Typ.decEq : (a b : Typ) → Decidable (a = b)
  | .any, .any => isTrue rfl
  | .any, .none | .any, .atom _ | .any, .list _ | .any, .number _ | .any, .tuple _
  | .any, .record _ | .any, .other _ | .any, .union _ => isFalse (by simp)
  | .none, .none => isTrue rfl
  | .none, .any | .none, .atom _ | .none, .list _ | .none, .number _ | .none, .tuple _
  | .none, .record _ | .none, .other _ | .none, .union _ => isFalse (by simp)
  | .atom a, .atom a' =>
    @decidable_of_iff _ (a = a') (by simp) inferInstance
  | .atom _, .any | .atom _, .none | .atom _, .list _ | .atom _, .number _ | .atom _, .tuple _
  | .atom _, .record _ | .atom _, .other _ | .atom _, .union _ => isFalse (by simp)
  | .list l, .list l' =>
    @decidable_of_iff _ (l = l') (by simp) (ListType.decEq l l')
  | .list _, .any | .list _, .none | .list _, .atom _ | .list _, .number _ | .list _, .tuple _
  | .list _, .record _ | .list _, .other _ | .list _, .union _ => isFalse (by simp)
  | .number n, .number n' =>
    @decidable_of_iff _ (n = n') (by simp) inferInstance
  | .number _, .any | .number _, .none | .number _, .atom _ | .number _, .list _
  | .number _, .tuple _ | .number _, .record _ | .number _, .other _ | .number _, .union _ =>
    isFalse (by simp)
  | .tuple t, .tuple t' =>
    @decidable_of_iff _ (t = t') (by simp) (TupleType.decEq t t')
  | .tuple _, .any | .tuple _, .none | .tuple _, .atom _ | .tuple _, .list _
  | .tuple _, .number _ | .tuple _, .record _ | .tuple _, .other _ | .tuple _, .union _ =>
    isFalse (by simp)
  | .record r, .record r' =>
    @decidable_of_iff _ (r = r') (by simp) (RecordType.decEq r r')
  | .record _, .any | .record _, .none | .record _, .atom _ | .record _, .list _
  | .record _, .number _ | .record _, .tuple _ | .record _, .other _ | .record _, .union _ =>
    isFalse (by simp)
  | .other o, .other o' =>
    @decidable_of_iff _ (o = o') (by simp) (OtherType.decEq o o')
  | .other _, .any | .other _, .none | .other _, .atom _ | .other _, .list _
  | .other _, .number _ | .other _, .tuple _ | .other _, .record _ | .other _, .union _ =>
    isFalse (by simp)
  | .union u, .union u' =>
    @decidable_of_iff _ (u = u') (by simp) (UnionType.decEq u u')
  | .union _, .any | .union _, .none | .union _, .atom _ | .union _, .list _
  | .union _, .number _ | .union _, .tuple _ | .union _, .record _ | .union _, .other _ =>
    isFalse (by simp)
termination_by structural a => a
def ListType.decEq : (a b : ListType) → Decidable (a = b)
  | .nil, .nil => isTrue rfl
  | .nil, .cons _ _ | .nil, .list _ _ => isFalse (by simp)
  | .cons t u, .cons t' u' =>
    @decidable_of_iff _ (t = t' ∧ u = u') (by simp)
      (@instDecidableAnd _ _ (Typ.decEq t t') (Typ.decEq u u'))
  | .cons _ _, .nil | .cons _ _, .list _ _ => isFalse (by simp)
  | .list t u, .list t' u' =>
    @decidable_of_iff _ (t = t' ∧ u = u') (by simp)
      (@instDecidableAnd _ _ (Typ.decEq t t') (Typ.decEq u u'))
  | .list _ _, .nil | .list _ _, .cons _ _ => isFalse (by simp)
termination_by structural a => a
def OtherType.decEq : (a b : OtherType) → Decidable (a = b)
  | .fn a g t, .fn a' g' t' =>
    @decidable_of_iff _ (a = a' ∧ g = g' ∧ t = t') (by simp)
      (@instDecidableAnd _ _ inferInstance (@instDecidableAnd _ _ inferInstance (Typ.decEq t t')))
  | .fn _ _ _, .map _ _ | .fn _ _ _, .bitstring _ _ | .fn _ _ _, .bsContext _
  | .fn _ _ _, .bsMatchable _ | .fn _ _ _, .pid | .fn _ _ _, .port | .fn _ _ _, .reference
  | .fn _ _ _, .identifier | .fn _ _ _, .other => isFalse (by simp)
  | .map k v, .map k' v' =>
    @decidable_of_iff _ (k = k' ∧ v = v') (by simp)
      (@instDecidableAnd _ _ (Typ.decEq k k') (Typ.decEq v v'))
  | .map _ _, .fn _ _ _ | .map _ _, .bitstring _ _ | .map _ _, .bsContext _
  | .map _ _, .bsMatchable _ | .map _ _, .pid | .map _ _, .port | .map _ _, .reference
  | .map _ _, .identifier | .map _ _, .other => isFalse (by simp)
  | .bitstring s p, .bitstring s' p' =>
    @decidable_of_iff _ (s = s' ∧ p = p') (by simp)
      (@instDecidableAnd _ _ inferInstance inferInstance)
  | .bitstring _ _, .fn _ _ _ | .bitstring _ _, .map _ _ | .bitstring _ _, .bsContext _
  | .bitstring _ _, .bsMatchable _ | .bitstring _ _, .pid | .bitstring _ _, .port
  | .bitstring _ _, .reference | .bitstring _ _, .identifier | .bitstring _ _, .other =>
    isFalse (by simp)
  | .bsContext s, .bsContext s' =>
    @decidable_of_iff _ (s = s') (by simp) inferInstance
  | .bsContext _, .fn _ _ _ | .bsContext _, .map _ _ | .bsContext _, .bitstring _ _
  | .bsContext _, .bsMatchable _ | .bsContext _, .pid | .bsContext _, .port
  | .bsContext _, .reference | .bsContext _, .identifier | .bsContext _, .other => isFalse (by simp)
  | .bsMatchable s, .bsMatchable s' =>
    @decidable_of_iff _ (s = s') (by simp) inferInstance
  | .bsMatchable _, .fn _ _ _ | .bsMatchable _, .map _ _ | .bsMatchable _, .bitstring _ _
  | .bsMatchable _, .bsContext _ | .bsMatchable _, .pid | .bsMatchable _, .port
  | .bsMatchable _, .reference | .bsMatchable _, .identifier | .bsMatchable _, .other =>
    isFalse (by simp)
  | .pid, .pid => isTrue rfl
  | .pid, .fn _ _ _ | .pid, .map _ _ | .pid, .bitstring _ _ | .pid, .bsContext _
  | .pid, .bsMatchable _ | .pid, .port | .pid, .reference | .pid, .identifier | .pid, .other =>
    isFalse (by simp)
  | .port, .port => isTrue rfl
  | .port, .fn _ _ _ | .port, .map _ _ | .port, .bitstring _ _ | .port, .bsContext _
  | .port, .bsMatchable _ | .port, .pid | .port, .reference | .port, .identifier
  | .port, .other => isFalse (by simp)
  | .reference, .reference => isTrue rfl
  | .reference, .fn _ _ _ | .reference, .map _ _ | .reference, .bitstring _ _
  | .reference, .bsContext _ | .reference, .bsMatchable _ | .reference, .pid
  | .reference, .port | .reference, .identifier | .reference, .other => isFalse (by simp)
  | .identifier, .identifier => isTrue rfl
  | .identifier, .fn _ _ _ | .identifier, .map _ _ | .identifier, .bitstring _ _
  | .identifier, .bsContext _ | .identifier, .bsMatchable _ | .identifier, .pid
  | .identifier, .port | .identifier, .reference | .identifier, .other => isFalse (by simp)
  | .other, .other => isTrue rfl
  | .other, .fn _ _ _ | .other, .map _ _ | .other, .bitstring _ _ | .other, .bsContext _
  | .other, .bsMatchable _ | .other, .pid | .other, .port | .other, .reference
  | .other, .identifier => isFalse (by simp)
termination_by structural a => a
def TupleType.decEq : (a b : TupleType) → Decidable (a = b)
  | .mk s e es, .mk s' e' es' =>
    @decidable_of_iff _ (s = s' ∧ e = e' ∧ es = es') (by simp)
      (@instDecidableAnd _ _ inferInstance
        (@instDecidableAnd _ _ inferInstance (decEqElements es es')))
termination_by structural a => a
def RecordType.decEq : (a b : RecordType) → Decidable (a = b)
  | .mk n e fs c, .mk n' e' fs' c' =>
    @decidable_of_iff _ (n = n' ∧ e = e' ∧ fs = fs' ∧ c = c') (by simp)
      (@instDecidableAnd _ _ inferInstance (@instDecidableAnd _ _ inferInstance
        (@instDecidableAnd _ _ (decEqFields fs fs') inferInstance)))
termination_by structural a => a
def TupleSet.decEq : (a b : TupleSet) → Decidable (a = b)
  | .none, .none => isTrue rfl
  | .none, .tuple _ | .none, .records _ => isFalse (by simp)
  | .tuple t, .tuple t' =>
    @decidable_of_iff _ (t = t') (by simp) (TupleType.decEq t t')
  | .tuple _, .none | .tuple _, .records _ => isFalse (by simp)
  | .records rs, .records rs' =>
    @decidable_of_iff _ (rs = rs') (by simp) (decEqRecords rs rs')
  | .records _, .none | .records _, .tuple _ => isFalse (by simp)
termination_by structural a => a
def NativeRecordSet.decEq : (a b : NativeRecordSet) → Decidable (a = b)
  | .none, .none => isTrue rfl
  | .none, .record _ | .none, .records _ => isFalse (by simp)
  | .record r, .record r' =>
    @decidable_of_iff _ (r = r') (by simp) (RecordType.decEq r r')
  | .record _, .none | .record _, .records _ => isFalse (by simp)
  | .records rs, .records rs' =>
    @decidable_of_iff _ (rs = rs') (by simp) (decEqNativeRecords rs rs')
  | .records _, .none | .records _, .record _ => isFalse (by simp)
termination_by structural a => a
def UnionType.decEq : (a b : UnionType) → Decidable (a = b)
  | .mk a l n t r o, .mk a' l' n' t' r' o' =>
    @decidable_of_iff _ (a = a' ∧ l = l' ∧ n = n' ∧ t = t' ∧ r = r' ∧ o = o') (by simp)
      (@instDecidableAnd _ _ inferInstance (@instDecidableAnd _ _ (decEqOptList l l')
        (@instDecidableAnd _ _ inferInstance (@instDecidableAnd _ _ (TupleSet.decEq t t')
          (@instDecidableAnd _ _ (NativeRecordSet.decEq r r') (decEqOptOther o o'))))))
termination_by structural a => a
def decEqElements : (a b : List (ℕ × Typ)) → Decidable (a = b)
  | [], [] => isTrue rfl
  | x :: xs, y :: ys =>
    @decidable_of_iff _ (x = y ∧ xs = ys) (by simp)
      (@instDecidableAnd _ _ (decEqElement x y) (decEqElements xs ys))
  | [], _ :: _ | _ :: _, [] => isFalse (by simp)
termination_by structural a => a
def decEqElement : (a b : ℕ × Typ) → Decidable (a = b)
  | (x, y), (x', y') =>
    @decidable_of_iff _ (x = x' ∧ y = y') (by simp)
      (@instDecidableAnd _ _ inferInstance (Typ.decEq y y'))
termination_by structural a => a
def decEqFields : (a b : List (Atom × Option Typ)) → Decidable (a = b)
  | [], [] => isTrue rfl
  | x :: xs, y :: ys =>
    @decidable_of_iff _ (x = y ∧ xs = ys) (by simp)
      (@instDecidableAnd _ _ (decEqField x y) (decEqFields xs ys))
  | [], _ :: _ | _ :: _, [] => isFalse (by simp)
termination_by structural a => a
def decEqField : (a b : Atom × Option Typ) → Decidable (a = b)
  | (x, y), (x', y') =>
    @decidable_of_iff _ (x = x' ∧ y = y') (by simp)
      (@instDecidableAnd _ _ inferInstance (decEqOptTyp y y'))
termination_by structural a => a
def decEqOptTyp : (a b : Option Typ) → Decidable (a = b)
  | none, none => isTrue rfl
  | some x, some y => @decidable_of_iff _ (x = y) (by simp) (Typ.decEq x y)
  | none, some _ | some _, none => isFalse (by simp)
termination_by structural a => a
def decEqOptList : (a b : Option ListType) → Decidable (a = b)
  | none, none => isTrue rfl
  | some x, some y => @decidable_of_iff _ (x = y) (by simp) (ListType.decEq x y)
  | none, some _ | some _, none => isFalse (by simp)
termination_by structural a => a
def decEqOptOther : (a b : Option OtherType) → Decidable (a = b)
  | none, none => isTrue rfl
  | some x, some y => @decidable_of_iff _ (x = y) (by simp) (OtherType.decEq x y)
  | none, some _ | some _, none => isFalse (by simp)
termination_by structural a => a
def decEqRecords : (a b : List ((ℕ × Typ) × TupleType)) → Decidable (a = b)
  | [], [] => isTrue rfl
  | x :: xs, y :: ys =>
    @decidable_of_iff _ (x = y ∧ xs = ys) (by simp)
      (@instDecidableAnd _ _ (decEqRecord x y) (decEqRecords xs ys))
  | [], _ :: _ | _ :: _, [] => isFalse (by simp)
termination_by structural a => a
def decEqRecord : (a b : (ℕ × Typ) × TupleType) → Decidable (a = b)
  | (x, y), (x', y') =>
    @decidable_of_iff _ (x = x' ∧ y = y') (by simp)
      (@instDecidableAnd _ _ (decEqElement x x') (TupleType.decEq y y'))
termination_by structural a => a
def decEqNativeRecords : (a b : List RecordType) → Decidable (a = b)
  | [], [] => isTrue rfl
  | x :: xs, y :: ys =>
    @decidable_of_iff _ (x = y ∧ xs = ys) (by simp)
      (@instDecidableAnd _ _ (RecordType.decEq x y) (decEqNativeRecords xs ys))
  | [], _ :: _ | _ :: _, [] => isFalse (by simp)
termination_by structural a => a
end

instance : DecidableEq Typ := Typ.decEq
instance : DecidableEq ListType := ListType.decEq
instance : DecidableEq OtherType := OtherType.decEq
instance : DecidableEq TupleType := TupleType.decEq
instance : DecidableEq RecordType := RecordType.decEq
instance : DecidableEq TupleSet := TupleSet.decEq
instance : DecidableEq NativeRecordSet := NativeRecordSet.decEq
instance : DecidableEq UnionType := UnionType.decEq

end Otp.Compiler.BeamTypes
