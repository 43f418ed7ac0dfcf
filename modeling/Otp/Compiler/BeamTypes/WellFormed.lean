import Otp.Compiler.BeamTypes.Semantics

/-!
# Well-formed types

`Good` says what a type must satisfy at its outermost level: the checks of
`verified_type/1` and the representation of maps, which Erlang's own types give
in the source. `WellFormedWith` asks for it at every level. Two parameters leave
room for further conditions, on the ranges of `#t_number{}` and on unions;
`WellFormed` uses the second for the order of the sets in a union.
-/

namespace Otp.Compiler.BeamTypes

open Otp.Lib

/-- The ranges of integers that `verified_normal_type/1` accepts. -/
def NumRange.Valid : NumRange → Prop
  | .any | .pair .negInf (.int _) | .pair (.int _) .posInf => True
  | .pair (.int m) (.int n) => m ≤ n
  | _ => False

def AtomType.Valid : AtomType → Prop
  | .any => True
  | .set s => s ≠ [] ∧ Ordset.IsOrdset s

section Good

variable (num : NumRange → Prop) (uni : UnionType → Prop) (P : Typ → Prop)

/-- No float has a range. -/
def NumberType.Valid : NumberType → Prop
  | .integer r => r.Valid
  | .float r => r = .any
  | .number r => r.Valid ∧ num r

def ListType.Good : ListType → Prop
  | .nil => True
  | .cons t u | .list t u => P t ∧ P u

def OtherType.Good : OtherType → Prop
  | .fn arity target t =>
    (∀ g, target = some g → ∃ n, arity = some n ∧ n ≤ g.2) ∧ P t
  | .map k v => P k ∧ P v
  | .bitstring u _ | .bsContext u | .bsMatchable u => 1 ≤ u
  | _ => True

def TupleType.Good (t : TupleType) : Prop :=
  Ordset.IsMap t.elements ∧ ∀ e ∈ t.elements, P e.2

def RecordType.Good (r : RecordType) : Prop :=
  Ordset.IsMap r.type ∧ ∀ f ∈ r.type, ∀ t, f.2 = some t → P t

/-- The records of a set have names. -/
def NativeRecordSet.Good : NativeRecordSet → Prop
  | .none => True
  | .record r => r.Good P
  | .records rs => ∀ r ∈ rs, r.name ≠ Option.none ∧ r.Good P

def TupleSet.Good : TupleSet → Prop
  | .none => True
  | .tuple t => t.Good P
  | .records rs => ∀ r ∈ rs, r.2.Good P

structure UnionType.Good (u : UnionType) : Prop where
  atom : ∀ a ∈ u.atom, a.Valid
  list : ∀ l ∈ u.list, l.Good P
  number : ∀ n ∈ u.number, n.Valid num
  tupleSet : u.tupleSet.Good P
  nativeRecordSet : u.nativeRecordSet.Good P
  other : ∀ o ∈ u.other, o.Good P

def Typ.Good : Typ → Prop
  | .any | .none => True
  | .atom a => a.Valid
  | .list l => l.Good P
  | .number n => n.Valid num
  | .tuple t => t.Good P
  | .record r => r.Good P
  | .other o => o.Good P
  | .union u => uni u ∧ u.Good num P

/-- Well-formedness of types nested less than `n` levels deep. -/
def WellFormedWithin : ℕ → Typ → Prop
  | 0 => fun _ => False
  | n + 1 => Typ.Good num uni (WellFormedWithin n)

def Typ.WellFormedWith (t : Typ) : Prop := ∃ n, WellFormedWithin num uni n t

end Good

/-! ## The sets of a union -/

/-- Named records in the order of their names. -/
def NamesSorted (rs : List RecordType) : Prop :=
  rs.Pairwise fun r s => nameLt r.name s.name = true

def NativeRecordSet.Sorted : NativeRecordSet → Prop
  | .records rs => 2 ≤ rs.length ∧ NamesSorted rs
  | _ => True

section Keys

variable [LinearOrder RecordKey]

/-- A tuple outside a record set has no record key, a record set is a map from
the keys of its tuples. -/
def TupleSet.Keyed : TupleSet → Prop
  | .none => True
  | .tuple t => t.recordKey = Option.none
  | .records rs => rs ≠ [] ∧ rs.length ≤ tupleSetLimit + 1 ∧ Ordset.IsMap rs ∧
      ∀ r ∈ rs, r.2.recordKey = some r.1

/-- Both sets of a union are in the order that merges rely on. -/
structure UnionType.Ordered (u : UnionType) : Prop where
  tupleSet : u.tupleSet.Keyed
  nativeRecordSet : u.nativeRecordSet.Sorted

/-- The types that `verified_type/1` accepts, without ranges of floats. -/
abbrev Typ.WellFormed (t : Typ) : Prop := t.WellFormedWith (fun _ => True) UnionType.Ordered

end Keys

/-! ## Levels -/

/-- A maximum that is taken along a list is no smaller than any of its elements. -/
theorem le_foldMax {α : Type*} {f : α → ℕ} {F : List α → ℕ}
    (hF : ∀ a l, F (a :: l) = max (f a) (F l)) {a : α} {l : List α} (h : a ∈ l) : f a ≤ F l := by
  induction l with
  | nil => cases h
  | cons b l ih =>
    rw [hF]
    rcases List.mem_cons.mp h with rfl | h
    · exact le_max_left _ _
    · exact (ih h).trans (le_max_right _ _)

variable {t : Typ} {r : RecordType}

theorem elementDepth_le {es : List (ℕ × Typ)} {e : ℕ × Typ} (h : e ∈ es) :
    e.2.depth + 1 ≤ elementsDepth es := by
  obtain ⟨_, _⟩ := e
  exact le_foldMax (f := elementDepth) (fun _ _ => rfl) h

theorem fieldDepth_le {fs : List (Atom × Option Typ)} {f : Atom × Option Typ} (h : f ∈ fs)
    (ht : f.2 = some t) : t.depth + 1 ≤ fieldsDepth fs := by
  obtain ⟨a, _⟩ := f
  subst ht
  exact le_foldMax (f := fieldDepth) (fun _ _ => rfl) h

theorem recordDepth_le {rs : List (RecordKey × TupleType)} {r : RecordKey × TupleType}
    (h : r ∈ rs) : r.2.depth ≤ recordsDepth rs := by
  obtain ⟨_, _⟩ := r
  exact le_foldMax (f := recordDepth) (fun _ _ => rfl) h

theorem nativeRecordDepth_le {rs : List RecordType} (h : r ∈ rs) :
    r.depth ≤ nativeRecordsDepth rs :=
  le_foldMax (fun _ _ => rfl) h

variable {num : NumRange → Prop} {uni : UnionType → Prop} {P Q : Typ → Prop}

theorem ListType.Good.imp {l : ListType} (h : l.Good P)
    (hPQ : ∀ t, t.depth < l.depth → P t → Q t) : l.Good Q := by
  cases l with
  | nil => trivial
  | cons t u | list t u =>
    rw [ListType.depth] at hPQ
    exact ⟨hPQ t (by omega) h.1, hPQ u (by omega) h.2⟩

theorem OtherType.Good.imp {o : OtherType} (h : o.Good P)
    (hPQ : ∀ t, t.depth < o.depth → P t → Q t) : o.Good Q := by
  cases o with
  | fn arity target t =>
    rw [OtherType.depth] at hPQ
    exact ⟨h.1, hPQ t (by omega) h.2⟩
  | map k v =>
    rw [OtherType.depth] at hPQ
    exact ⟨hPQ k (by omega) h.1, hPQ v (by omega) h.2⟩
  | _ => exact h

theorem TupleType.Good.imp {t : TupleType} (h : t.Good P)
    (hPQ : ∀ x, x.depth < t.depth → P x → Q x) : t.Good Q := by
  obtain ⟨size, exact, es⟩ := t
  exact ⟨h.1, fun e he => hPQ _ (elementDepth_le he) (h.2 e he)⟩

theorem RecordType.Good.imp (h : r.Good P) (hPQ : ∀ x, x.depth < r.depth → P x → Q x) :
    r.Good Q := by
  obtain ⟨name, exported, fs, c⟩ := r
  exact ⟨h.1, fun f hf t ht => hPQ _ (fieldDepth_le hf ht) (h.2 f hf t ht)⟩

theorem NativeRecordSet.Good.imp {s : NativeRecordSet} (h : s.Good P)
    (hPQ : ∀ x, x.depth < s.depth → P x → Q x) : s.Good Q := by
  cases s with
  | none => trivial
  | record r => exact RecordType.Good.imp h hPQ
  | records rs =>
    refine fun r hr => ⟨(h r hr).1, (h r hr).2.imp fun x hx => ?_⟩
    exact hPQ x (hx.trans_le (nativeRecordDepth_le hr))

theorem TupleSet.Good.imp {s : TupleSet} (h : s.Good P)
    (hPQ : ∀ x, x.depth < s.depth → P x → Q x) : s.Good Q := by
  cases s with
  | none => trivial
  | tuple t => exact TupleType.Good.imp h hPQ
  | records rs =>
    refine fun r hr => (h r hr).imp fun x hx => ?_
    exact hPQ x (hx.trans_le (recordDepth_le hr))

theorem UnionType.depth_le (u : UnionType) : (∀ l ∈ u.list, l.depth ≤ u.depth) ∧
    u.tupleSet.depth ≤ u.depth ∧ u.nativeRecordSet.depth ≤ u.depth ∧
      ∀ o ∈ u.other, o.depth ≤ u.depth := by
  obtain ⟨_, _, _, _, _, _⟩ := u
  simp +contextual [UnionType.depth, optListDepth, optOtherDepth]

/-- One level of well-formedness only looks at types nested less deep. -/
theorem Typ.Good.imp (h : t.Good num uni P) (hPQ : ∀ x, x.depth < t.depth → P x → Q x) :
    t.Good num uni Q := by
  cases t with
  | list l => exact ListType.Good.imp h hPQ
  | tuple t => exact TupleType.Good.imp h hPQ
  | record r => exact RecordType.Good.imp h hPQ
  | other o => exact OtherType.Good.imp h hPQ
  | union u =>
    have hu : ∀ {n}, n ≤ u.depth → ∀ x, x.depth < n → P x → Q x :=
      fun hn x hx => hPQ x (hx.trans_le hn)
    obtain ⟨hlist, htuple, hrecord, hother⟩ := u.depth_le
    exact ⟨h.1, h.2.atom, fun l hl => (h.2.list l hl).imp (hu (hlist l hl)), h.2.number,
      h.2.tupleSet.imp (hu htuple), h.2.nativeRecordSet.imp (hu hrecord),
      fun o ho => (h.2.other o ho).imp (hu (hother o ho))⟩
  | _ => exact h

/-- The number of levels looked at does not matter once it exceeds the
depth. -/
theorem WellFormedWithin.within {n m : ℕ} (h : WellFormedWithin num uni n t) (hm : t.depth < m) :
    WellFormedWithin num uni m t := by
  induction m generalizing n t with
  | zero => omega
  | succ m ih =>
    cases n with
    | zero => exact h.elim
    | succ n => exact Typ.Good.imp h fun x hx hP => ih hP (by omega)

end Otp.Compiler.BeamTypes
