import Otp.Compiler.BeamTypes.Ranges
import Otp.Lib.Ordset

/-!
# `meet/2` and `join/2` (`beam_types.erl`)

`glb/2` and `lub/2` call `meet/2` and `join/2` on the types inside a type. The
functions below take that inner call as an argument, one level at a time;
`meetWithin` and `joinWithin` tie the knot with a bound on the number of
levels, and `meet` and `join` supply a bound that suffices.

`erts_internal:cmp_term/2` is a total order on terms; on record keys it enters
as the instance of `LinearOrder RecordKey`. `verified_type/1` returns its
argument or raises; it is left out of these definitions and stated on its own.
-/

namespace Otp.Compiler.BeamTypes

open Otp.Lib

/-! ## Record keys and unions -/

mutual
/-- `is_singleton_type/1`. -/
def Typ.isSingletonType : Typ → Bool
  | .atom (.set [_]) => true
  | .number (.float (.pair (.float f) (.float g))) => decide (f = g)
  | .number (.integer (.pair (.int m) (.int n))) => decide (m = n)
  | .other (.map .none .none) => true
  | .tuple t => t.isSingletonType
  | .list .nil => true
  | _ => false
termination_by structural t => t
/-- The clause of `get_singleton_value/1` for tuples: all elements are known,
and each is a singleton. -/
def TupleType.isSingletonType : TupleType → Bool
  | .mk size exact es => exact && (List.range size).all fun i => i + 1 ∈ singletonIndices es
termination_by structural t => t
def singletonIndices : List (ℕ × Typ) → List ℕ
  | [] => []
  | e :: es => singletonIndex e ++ singletonIndices es
termination_by structural es => es
def singletonIndex : ℕ × Typ → List ℕ
  | (i, t) => if t.isSingletonType then [i] else []
termination_by structural e => e
end

/-- `record_key/1`. -/
def TupleType.recordKey (t : TupleType) : Option RecordKey :=
  if t.exact then
    match t.elements.lookup 1 with
    | some tag => if tag.isSingletonType then some (t.size, tag) else none
    | none => none
  else none

/-- `new_tuple_set/1`. -/
def newTupleSet (t : TupleType) : TupleSet :=
  match t.recordKey with
  | none => .tuple t
  | some key => .records [(key, t)]

/-- `shrink_union/1`. -/
def shrinkUnion : UnionType → Typ
  | ⟨some a, none, none, .none, .none, none⟩ => .atom a
  | ⟨none, some l, none, .none, .none, none⟩ => .list l
  | ⟨none, none, some n, .none, .none, none⟩ => .number n
  | ⟨none, none, none, .tuple t, .none, none⟩ => .tuple t
  | ⟨none, none, none, .records [(_, t)], .none, none⟩ => .tuple t
  | ⟨none, none, none, .none, .record r, none⟩ => .record r
  | ⟨none, none, none, .none, .records [r], none⟩ => .record r
  | ⟨none, none, none, .none, .none, some o⟩ => .other o
  | ⟨none, none, none, .none, .none, none⟩ => .none
  | ⟨some .any, some (.list .any .any), some (.number .any), .tuple ⟨0, false, _⟩,
      .record ⟨none, _, [], _⟩, some .other⟩ => .any
  | u => .union u

/-! ## Greatest lower bounds of normal types -/

def glbAtom (a b : AtomType) : Option AtomType :=
  if a = b then some a
  else
    match a, b with
    | .set s1, .set s2 =>
      match Ordset.intersection s1 s2 with
      | [] => none
      | s => some (.set s)
    | .set s, .any | .any, .set s => some (.set s)
    | .any, .any => some .any

section Meet

variable (meet : Typ → Typ → Typ)

/-- Meets of the element and the terminator types of two lists; absent where
one of them is `none`. -/
def meetCells (typeA termA typeB termB : Typ) : Option (Typ × Typ) :=
  match meet typeA typeB, meet termA termB with
  | .none, _ => none
  | _, .none => none
  | type, term => some (type, term)

/-- The clauses of `glb/2` for list types. -/
def glbList (a b : ListType) : Option ListType :=
  if a = b then some a
  else
    match a, b with
    | .cons t u, .cons t' u' | .cons t u, .list t' u' =>
      (meetCells meet t u t' u').map fun c => .cons c.1 c.2
    | .list t' u', .cons t u => (meetCells meet t u t' u').map fun c => .cons c.1 c.2
    | .list t u, .list t' u' =>
      -- `[]` is left where the element types are incompatible
      match meetCells meet t u t' u' with
      | none => some .nil
      | some c => some (.list c.1 c.2)
    | .list _ _, .nil | .nil, .list _ _ => some .nil
    | .nil, .nil => some .nil
    | .cons _ _, .nil | .nil, .cons _ _ => none

/-- `lcm/2` of two units, written out in each clause of the source. -/
def commonUnit (u1 u2 : ℕ) : ℕ := u1 * u2 / Nat.gcd u1 u2

/-- Meet of an optional field, absent where it is `any`; `none` where two
known values differ. -/
def meetKnown {α : Type} [DecidableEq α] : Option α → Option α → Option (Option α)
  | some x, some y => if x = y then some (some x) else none
  | some x, none | none, some x => some (some x)
  | none, none => some none

def OtherType.isIdentifier : OtherType → Bool
  | .identifier | .pid | .port | .reference => true
  | _ => false

/-- The clauses of `glb/2` for the slot `other`. Every type of the slot passes
`is_other/1`. -/
def glbOther (a b : OtherType) : Option OtherType :=
  if a = b then some a
  else
    match a, b with
    | .bitstring u1 p1, .bitstring u2 p2 => some (.bitstring (commonUnit u1 u2) (p1 || p2))
    | .bitstring u1 p, .bsMatchable u2 | .bsMatchable u2, .bitstring u1 p =>
      some (.bitstring (commonUnit u1 u2) p)
    | .bsContext u1, .bsContext u2 | .bsContext u1, .bsMatchable u2
    | .bsMatchable u2, .bsContext u1 => some (.bsContext (commonUnit u1 u2))
    | .bsMatchable u1, .bsMatchable u2 => some (.bsMatchable (commonUnit u1 u2))
    | .fn arityA targetA typeA, .fn arityB targetB typeB =>
      -- a known arity or target is copied to the other side first
      match meetKnown targetA targetB, meetKnown arityA arityB with
      | some target, some arity => some (.fn arity target (meet typeA typeB))
      | _, _ => none
    | .map k v, .map k' v' => some (.map (meet k k') (meet v v'))
    | .identifier, t | t, .identifier =>
      if t.isIdentifier then some t else if t = .other then some .identifier else none
    | .other, t | t, .other => some t
    | _, _ => none

/-- A type other than `none`. -/
def Typ.notNone : Typ → Option Typ
  | .none => Option.none
  | t => some t

/-- `glb_elements/2`. The source goes through the sorted keys of both maps and
gives up at the first pair of elements without a meet. -/
def glbElements (es1 es2 : List (ℕ × Typ)) : Option (List (ℕ × Typ)) :=
  Ordset.mergeWith (fun type1 type2 => (meet type1 type2).notNone) es1 es2

/-- `glb_tuples/2`, with the first clause of `glb/2`. -/
def glbTuples (a b : TupleType) : Option TupleType :=
  if a = b then some a
  else if (a.exact ∧ a.size < b.size) ∨ (b.exact ∧ b.size < a.size) then none
  else
    (glbElements meet a.elements b.elements).map fun es =>
      ⟨max a.size b.size, a.exact || b.exact, es⟩

/-- The values of a field in `glb_record_elements_1/4`. -/
def glbField : Option Typ → Option Typ → Option (Option Typ)
  | some type1, some type2 => (meet type1 type2).notNone.map some
  | none, none => some none
  | _, _ => none

def glbRecordElements (es1 es2 : List (Atom × Option Typ)) : Option (List (Atom × Option Typ)) :=
  Ordset.mergeWith (glbField meet) es1 es2

def meetExported : Exported → Exported → Option Exported
  | .unknown, e => some e
  | .yes, .no => none
  | .yes, _ => some .yes
  | .no, .yes => none
  | .no, _ => some .no

/-- `glb_records/2`, with the first clause of `glb/2`. -/
def glbRecords (a b : RecordType) : Option RecordType :=
  if a = b then some a
  else do
    let name ← meetKnown a.name b.name
    let exported ← meetExported a.exported b.exported
    let type ← glbRecordElements meet a.type b.type
    some ⟨name, exported, type, a.localCreation || b.localCreation⟩

/-- `glb/2` on a slot of a union that may be `none`. -/
def glbSlot {α : Type} (f : α → α → Option α) : Option α → Option α → Option α
  | some a, some b => f a b
  | _, _ => none

/-- `glb/2`. Types of different slots have no common instance. -/
def glb : Typ → Typ → Typ
  | .any, t | t, .any => t
  | .atom a, .atom b => (glbAtom a b).elim .none .atom
  | .list a, .list b => (glbList meet a b).elim .none .list
  | .number a, .number b => (glbNumber a b).elim .none .number
  | .tuple a, .tuple b => (glbTuples meet a b).elim .none .tuple
  | .record a, .record b => (glbRecords meet a b).elim .none .record
  | .other a, .other b => (glbOther meet a b).elim .none .other
  | _, _ => .none

/-! ## Meets of sets and unions -/

/-- The last clauses of `mts_tuple/3` and `mts_records/3`. -/
def recordsOrNone : List (RecordKey × TupleType) → TupleSet
  | [] => .none
  | rs => .records rs

def mtsTuple (records : List (RecordKey × TupleType)) (tuple : TupleType) : TupleSet :=
  recordsOrNone (records.filterMap fun r => (glbTuples meet r.2 tuple).map (r.1, ·))

section Keys

variable [LinearOrder RecordKey]

/-- `mts_records/3`, without the accumulator. -/
def mtsRecords : List (RecordKey × TupleType) → List (RecordKey × TupleType) →
    List (RecordKey × TupleType)
  | (keyA, a) :: rsA, (keyB, b) :: rsB =>
    if keyA = keyB then
      match glbTuples meet a b with
      | none => mtsRecords rsA rsB
      | some t => (keyA, t) :: mtsRecords rsA rsB
    else if keyA < keyB then mtsRecords rsA ((keyB, b) :: rsB)
    else mtsRecords ((keyA, a) :: rsA) rsB
  | _, _ => []
termination_by rsA rsB => rsA.length + rsB.length

def meetTupleSets : TupleSet → TupleSet → TupleSet
  | .none, _ | _, .none => .none
  | .tuple a, .tuple b => (glbTuples meet a b).elim .none newTupleSet
  | .tuple tuple, .records records | .records records, .tuple tuple => mtsTuple meet records tuple
  | .records rsA, .records rsB => recordsOrNone (mtsRecords meet rsA rsB)

end Keys

/-- `N1 < N2` on names other than `nil`. -/
def nameLt : Option RecordName → Option RecordName → Bool
  | some n1, some n2 => decide (n1 < n2)
  | _, _ => false

/-- `mnrs_merge/3`, without the accumulator. -/
def mnrsMerge : List RecordType → List RecordType → List RecordType
  | a :: rsA, b :: rsB =>
    if a.name ≠ b.name ∧ a.name ≠ none ∧ b.name ≠ none then
      -- drop the name that does not occur in the other set
      if nameLt a.name b.name then mnrsMerge rsA (b :: rsB) else mnrsMerge (a :: rsA) rsB
    else if a.name = none ∧ rsA = [] then
      match glbRecords meet a b with
      | some t => t :: mnrsMerge [a] rsB
      | none => mnrsMerge [a] rsB
    else
      match glbRecords meet a b with
      | some t => t :: mnrsMerge rsA rsB
      | none => mnrsMerge rsA rsB
  | _, _ => []
termination_by rsA rsB => rsA.length + rsB.length
decreasing_by all_goals simp_all; try omega

/-- The last clause of `mnrs_merge/3` and of `jnrs_merge/3`. -/
def nativeRecords : List RecordType → NativeRecordSet
  | [] => .none
  | [r] => .record r
  | rs => .records rs

def meetNativeRecordSets : NativeRecordSet → NativeRecordSet → NativeRecordSet
  | .none, _ | _, .none => .none
  | .record a, .record b => (glbRecords meet a b).elim .none .record
  | .record record, .records records | .records records, .record record =>
    nativeRecords (mnrsMerge meet [record] records)
  | .records recordsA, .records recordsB => nativeRecords (mnrsMerge meet recordsA recordsB)

section Keys

variable [LinearOrder RecordKey]

/-- `meet_unions/2`. -/
def meetUnions (a : UnionType) : Typ → Typ
  | .union b =>
    shrinkUnion ⟨glbSlot glbAtom a.atom b.atom, glbSlot (glbList meet) a.list b.list,
      glbSlot glbNumber a.number b.number, meetTupleSets meet a.tupleSet b.tupleSet,
      meetNativeRecordSets meet a.nativeRecordSet b.nativeRecordSet,
      glbSlot (glbOther meet) a.other b.other⟩
  | .atom b => (glbSlot glbAtom a.atom (some b)).elim .none .atom
  | .number b => (glbSlot glbNumber a.number (some b)).elim .none .number
  | .list b => (glbSlot (glbList meet) a.list (some b)).elim .none .list
  | .tuple b =>
    shrinkUnion { UnionType.empty with
      tupleSet := meetTupleSets meet a.tupleSet (newTupleSet b) }
  | .record b =>
    shrinkUnion { UnionType.empty with
      nativeRecordSet := meetNativeRecordSets meet a.nativeRecordSet (.record b) }
  | .other b => (glbSlot (glbOther meet) a.other (some b)).elim .none .other
  | .none => .none
  | .any => a.other.elim .none .other

/-- `meet/2`, with the call for inner types as an argument. -/
def meetStep (a b : Typ) : Typ :=
  if a = b then a
  else
    match a, b with
    | .any, t | t, .any => t
    | .union a, b => meetUnions meet a b
    | a, .union b => meetUnions meet b a
    | a, b => glb meet a b

end Keys

end Meet

/-! ## Least upper bounds of normal types -/

def lubAtom (a b : AtomType) : AtomType :=
  if a = b then a
  else
    match a, b with
    | .set s1, .set s2 =>
      let s := Ordset.union s1 s2
      if s.length ≤ atomSetSize then .set s else .any
    | _, _ => .any

/-- `set_tuple_element/3` on an index that is not yet in the map: the element
that is added. -/
def setTupleElement (index : ℕ) : Typ → Option Typ
  | .none | .any => none
  | type => if tupleElementLimit < index then none else some type

/-- `set_record_field/3`: the value that is added. -/
def setRecordField : Typ → Option Typ
  | .none => none
  | type => some type

section Join

variable (join : Typ → Typ → Typ)

/-- The clauses of `lub/2` for list types. -/
def lubList (a b : ListType) : ListType :=
  if a = b then a
  else
    match a, b with
    | .cons t u, .cons t' u' => .cons (join t t') (join u u')
    | .cons t u, .list t' u' | .list t' u', .cons t u | .list t u, .list t' u' =>
      .list (join t t') (join u u')
    | .cons t u, .nil | .nil, .cons t u | .nil, .list t u | .list t u, .nil => .list t u
    | .nil, .nil => .nil

/-- The clauses of `lub/2` for the slot `other`. -/
def lubOther (a b : OtherType) : OtherType :=
  if a = b then a
  else
    match a, b with
    | .bitstring u1 p1, .bitstring u2 p2 => .bitstring (Nat.gcd u1 u2) (p1 && p2)
    | .bsContext u1, .bsContext u2 => .bsContext (Nat.gcd u1 u2)
    | .bitstring u1 _, .bsContext u2 | .bitstring u1 _, .bsMatchable u2
    | .bsContext u1, .bitstring u2 _ | .bsContext u1, .bsMatchable u2
    | .bsMatchable u1, .bsMatchable u2 | .bsMatchable u1, .bitstring u2 _
    | .bsMatchable u1, .bsContext u2 => .bsMatchable (Nat.gcd u1 u2)
    | .fn arityA targetA typeA, .fn arityB targetB typeB =>
      if arityA = arityB then
        .fn arityA (if targetA = targetB then targetA else none) (join typeA typeB)
      else .fn none none (join typeA typeB)
    | .map k v, .map k' v' => .map (join k k') (join v v')
    | a, b => if a.isIdentifier && b.isIdentifier then .identifier else .other

def lubElements (es1 es2 : List (ℕ × Typ)) : List (ℕ × Typ) :=
  Ordset.interWith (fun key type1 type2 => setTupleElement key (join type1 type2)) es1 es2

def lubTupleElements (minSize : ℕ) (esA esB : List (ℕ × Typ)) : List (ℕ × Typ) :=
  (lubElements join esA esB).filter fun e => e.1 ≤ minSize

/-- The clauses of `lub/2` for tuples. -/
def lubTuples (a b : TupleType) : TupleType :=
  if a = b then a
  else if a.size = b.size then
    ⟨a.size, a.exact && b.exact, lubTupleElements join a.size a.elements b.elements⟩
  else
    ⟨min a.size b.size, false, lubTupleElements join (min a.size b.size) a.elements b.elements⟩

/-- The values of a field in `lub_fields_1/4`; a field that only one record
has is dropped. -/
def lubField : Option Typ → Option Typ → Option (Option Typ)
  | some type1, some type2 => some (setRecordField (join type1 type2))
  | none, none => some none
  | _, _ => none

def lubFields (es1 es2 : List (Atom × Option Typ)) : List (Atom × Option Typ) :=
  Ordset.interWith (fun _ => lubField join) es1 es2

def joinExported (a b : Exported) : Exported := if a = b then a else .unknown

/-- `lub_native_records/2`, with the first clause of `lub/2`. -/
def lubNativeRecords (a b : RecordType) : RecordType :=
  if a = b then a
  else
    ⟨if a.name = b.name then a.name else none, joinExported a.exported b.exported,
      lubFields join a.type b.type, a.localCreation && b.localCreation⟩

/-- `lub/2` on a slot of a union that may be `none`. -/
def lubSlot {α : Type} (f : α → α → α) : Option α → Option α → Option α
  | some a, some b => some (f a b)
  | a, none => a
  | none, b => b

/-! ## Joins of sets and unions -/

/-- `jts_tuple/2`, and `normalize_tuple_set/2` on a record set. -/
def jtsTuple (records : List (RecordKey × TupleType)) (acc : TupleType) : TupleType :=
  records.foldl (fun acc r => lubTuples join r.2 acc) acc

/-- `normalize_tuple_set/2` on a record set and a type that may be `none`. -/
def normalizeTupleSet (records : List (RecordKey × TupleType)) (b : Option TupleType) :
    Option TupleType :=
  records.foldl (fun acc r => lubSlot (lubTuples join) (some r.2) acc) b

/-- The clause of `jts_records/4` for a set above the limit: the records that are
left and those already merged become one tuple. The source asserts that the
result is a tuple; one of the lists is not empty where this is used. -/
def collapseRecords (rsA rsB acc : List (RecordKey × TupleType)) : TupleSet :=
  let a := normalizeTupleSet join rsA none
  let b := normalizeTupleSet join rsB a
  (normalizeTupleSet join acc b).elim .none .tuple

section Keys

variable [LinearOrder RecordKey]

/-- `jts_records/4`. The accumulator holds the last record first. -/
def jtsRecords : List (RecordKey × TupleType) → List (RecordKey × TupleType) → ℕ →
    List (RecordKey × TupleType) → TupleSet
  | [], [], _, acc => .records acc.reverse
  | (keyA, a) :: rsA, (keyB, b) :: rsB, n, acc =>
    if tupleSetLimit < n then collapseRecords join ((keyA, a) :: rsA) ((keyB, b) :: rsB) acc
    else if keyA = keyB then jtsRecords rsA rsB (n + 1) ((keyA, lubTuples join a b) :: acc)
    else if keyA < keyB then jtsRecords rsA ((keyB, b) :: rsB) (n + 1) ((keyA, a) :: acc)
    else jtsRecords ((keyA, a) :: rsA) rsB (n + 1) ((keyB, b) :: acc)
  | r :: rsA, [], n, acc =>
    if tupleSetLimit < n then collapseRecords join (r :: rsA) [] acc
    else jtsRecords rsA [] (n + 1) (r :: acc)
  | [], r :: rsB, n, acc =>
    if tupleSetLimit < n then collapseRecords join [] (r :: rsB) acc
    else jtsRecords [] rsB (n + 1) (r :: acc)
termination_by rsA rsB => rsA.length + rsB.length

def joinTupleSets : TupleSet → TupleSet → TupleSet
  | a, .none => a
  | .none, b => b
  | .tuple a, .tuple b => .tuple (lubTuples join a b)
  | .tuple tuple, .records records | .records records, .tuple tuple =>
    .tuple (jtsTuple join records tuple)
  | .records rsA, .records rsB => jtsRecords join rsA rsB 0 []

end Keys

/-- The clauses of `jnrs_merge/3` for a record that is left over: it goes into
a record without a name, and is kept beside named ones. -/
def jnrsRest (acc : List RecordType) (a : RecordType) : List RecordType :=
  match acc with
  | [r] => if r.name = none then [lubNativeRecords join a r] else a :: acc
  | _ => a :: acc

/-- `jnrs_merge/3`. The accumulator holds the last record first. -/
def jnrsMerge : List RecordType → List RecordType → List RecordType → List RecordType
  | a :: tsA, b :: tsB, acc =>
    if a.name = none then tsB.foldl (jnrsRest join) [lubNativeRecords join a b]
    else if b.name = none then tsA.foldl (jnrsRest join) [lubNativeRecords join b a]
    else if a.name = b.name then jnrsMerge tsA tsB (lubNativeRecords join a b :: acc)
    else if nameLt a.name b.name then jnrsMerge tsA (b :: tsB) (a :: acc)
    else jnrsMerge (a :: tsA) tsB (b :: acc)
  | rsA, [], acc => rsA.foldl (jnrsRest join) acc
  | [], rsB, acc => rsB.foldl (jnrsRest join) acc
termination_by rsA rsB => rsA.length + rsB.length

def joinNativeRecordSets : NativeRecordSet → NativeRecordSet → NativeRecordSet
  | a, .none => a
  | .none, b => b
  | .record a, .record b =>
    if a.name = b.name then .record (lubNativeRecords join a b)
    else nativeRecords (jnrsMerge join [a] [b] []).reverse
  | .record record, .records records | .records records, .record record =>
    nativeRecords (jnrsMerge join records [record] []).reverse
  | .records recordsA, .records recordsB =>
    nativeRecords (jnrsMerge join recordsA recordsB []).reverse

section Keys

variable [LinearOrder RecordKey]

/-- `join_unions/2`. -/
def joinUnions (a : UnionType) : Typ → Typ
  | .union b =>
    shrinkUnion ⟨lubSlot lubAtom a.atom b.atom, lubSlot (lubList join) a.list b.list,
      lubSlot lubNumber a.number b.number, joinTupleSets join a.tupleSet b.tupleSet,
      joinNativeRecordSets join a.nativeRecordSet b.nativeRecordSet,
      lubSlot (lubOther join) a.other b.other⟩
  | .atom b => shrinkUnion { a with atom := lubSlot lubAtom a.atom (some b) }
  | .list b => shrinkUnion { a with list := lubSlot (lubList join) a.list (some b) }
  | .number b => shrinkUnion { a with number := lubSlot lubNumber a.number (some b) }
  | .tuple b =>
    shrinkUnion { a with tupleSet := joinTupleSets join a.tupleSet (newTupleSet b) }
  | .record b =>
    shrinkUnion { a with
      nativeRecordSet := joinNativeRecordSets join a.nativeRecordSet (.record b) }
  | .other b => shrinkUnion { a with other := lubSlot (lubOther join) a.other (some b) }
  | .none => shrinkUnion a
  | .any => .any

/-- The clause of `join/2` for two tuples. -/
def joinTuples (a b : TupleType) : Typ :=
  match a.recordKey, b.recordKey with
  | some keyA, some keyB =>
    if keyA = keyB then .tuple (lubTuples join a b)
    else if keyA < keyB then
      .union { UnionType.empty with tupleSet := .records [(keyA, a), (keyB, b)] }
    else .union { UnionType.empty with tupleSet := .records [(keyB, b), (keyA, a)] }
  | _, _ => .tuple (lubTuples join a b)

/-- The clauses of `join/2` for two native records. -/
def joinRecords (a b : RecordType) : Typ :=
  if a.name = none then .record (lubNativeRecords join a b)
  else if b.name = none then .record (lubNativeRecords join b a)
  else if a.name = b.name then .record (lubNativeRecords join a b)
  else if nameLt a.name b.name then
    .union { UnionType.empty with nativeRecordSet := .records [a, b] }
  else .union { UnionType.empty with nativeRecordSet := .records [b, a] }

/-- The clauses of `join/2` marked as union creation. A pair that stands in
the other order is exchanged by the source first. -/
def joinNormal : Typ → Typ → Typ
  | .atom a, .atom b => .atom (lubAtom a b)
  | .list a, .list b => .list (lubList join a b)
  | .number a, .number b => .number (lubNumber a b)
  | .tuple a, .tuple b => joinTuples join a b
  | .record a, .record b => joinRecords join a b
  | .other a, .other b => .other (lubOther join a b)
  | .atom a, .list b | .list b, .atom a => .union { UnionType.empty with atom := a, list := b }
  | .atom a, .number b | .number b, .atom a =>
    .union { UnionType.empty with atom := a, number := b }
  | .atom a, .tuple b | .tuple b, .atom a =>
    .union { UnionType.empty with atom := a, tupleSet := newTupleSet b }
  | .atom a, .record b | .record b, .atom a =>
    .union { UnionType.empty with atom := a, nativeRecordSet := .record b }
  | .atom a, .other b | .other b, .atom a =>
    .union { UnionType.empty with atom := a, other := b }
  | .list a, .number b | .number b, .list a =>
    .union { UnionType.empty with list := a, number := b }
  | .list a, .tuple b | .tuple b, .list a =>
    .union { UnionType.empty with list := a, tupleSet := newTupleSet b }
  | .list a, .record b | .record b, .list a =>
    .union { UnionType.empty with list := a, nativeRecordSet := .record b }
  | .list a, .other b | .other b, .list a =>
    .union { UnionType.empty with list := a, other := b }
  | .number a, .tuple b | .tuple b, .number a =>
    .union { UnionType.empty with number := a, tupleSet := newTupleSet b }
  | .number a, .record b | .record b, .number a =>
    .union { UnionType.empty with number := a, nativeRecordSet := .record b }
  | .number a, .other b | .other b, .number a =>
    .union { UnionType.empty with number := a, other := b }
  | .tuple a, .record b | .record b, .tuple a =>
    .union { UnionType.empty with tupleSet := newTupleSet a, nativeRecordSet := .record b }
  | .tuple a, .other b | .other b, .tuple a =>
    .union { UnionType.empty with tupleSet := newTupleSet a, other := b }
  | .record a, .other b | .other b, .record a =>
    .union { UnionType.empty with nativeRecordSet := .record a, other := b }
  -- the other pairs are handled before
  | _, _ => .any

/-- `join/2`, with the call for inner types as an argument. -/
def joinStep (a b : Typ) : Typ :=
  if a = b then a
  else
    match a, b with
    | _, .any | .any, _ => .any
    | t, .none | .none, t => t
    | .union a, b => joinUnions join a b
    | a, .union b => joinUnions join b a
    | a, b => joinNormal join a b

end Keys

end Join

/-! ## The entry points -/

section Entry

variable [LinearOrder RecordKey]

/-- `meet/2` on types nested less than `n` levels deep. -/
def meetWithin : ℕ → Typ → Typ → Typ
  | 0 => fun _ _ => .none
  | n + 1 => meetStep (meetWithin n)

/-- `join/2` on types nested less than `n` levels deep. -/
def joinWithin : ℕ → Typ → Typ → Typ
  | 0 => fun _ _ => .any
  | n + 1 => joinStep (joinWithin n)

/-- `meet/2`. -/
def meet (a b : Typ) : Typ := meetWithin (max a.depth b.depth + 1) a b

/-- `join/2`. -/
def join (a b : Typ) : Typ := joinWithin (max a.depth b.depth + 1) a b

end Entry

end Otp.Compiler.BeamTypes
