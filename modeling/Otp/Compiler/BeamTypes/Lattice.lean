import Otp.Compiler.BeamTypes.Soundness
import Otp.Compiler.BeamTypes.TypeLattice

/-!
# The lattice of canonical types

The levels are put together: `meet/2` and `join/2` are the meet and the join of an
order on canonical types, so the laws of a lattice hold. They do not hold for all
types that `verified_type/1` accepts.
-/

namespace Otp.Compiler.BeamTypes

open Otp.Lib

variable {P Q : Typ → Prop} {le le' : Typ → Typ → Prop}

/-! ## The number of levels -/

section Order

variable (hle : ∀ {x y}, P x → P y → le x y → le' x y)

include hle

theorem ListType.Le.mono {a b : ListType} (ha : a.Canonical P) (hb : b.Canonical P)
    (h : a.Le le b) : a.Le le' b := by
  match a, b with
  | .nil, .nil | .nil, .list _ _ => trivial
  | .cons _ _, .cons _ _ | .cons _ _, .list _ _ | .list _ _, .list _ _ =>
    exact ⟨hle ha.1.1 hb.1.1 h.1, hle ha.2.1 hb.2.1 h.2⟩

theorem OtherType.Le.mono {a b : OtherType} (ha : a.Good P) (hb : b.Good P) (h : a.Le le b) :
    a.Le le' b := by
  cases h with
  | fn hn hg ht => exact .fn hn hg (hle ha.2 hb.2 ht)
  | map hk hv => exact .map (hle ha.1 hb.1 hk) (hle ha.2 hb.2 hv)
  | other => exact .other
  | identifier h => exact .identifier h
  | pid => exact .pid
  | port => exact .port
  | reference => exact .reference
  | bitstring hu hp => exact .bitstring hu hp
  | bsContext hu => exact .bsContext hu
  | bsMatchable hu => exact .bsMatchable hu
  | bitstringMatchable hu => exact .bitstringMatchable hu
  | contextMatchable hu => exact .contextMatchable hu

theorem TupleType.Le.mono {a b : TupleType} (ha : a.Canonical P) (hb : b.Canonical P)
    (h : a.Le le b) : a.Le le' b := by
  refine ⟨h.1, h.2.1, fun i y hy => ?_⟩
  obtain ⟨x, hx, hxy⟩ := h.2.2 i y hy
  exact ⟨x, hx, hle (ha.2 _ hx).2.1 (hb.2 _ hy).2.1 hxy⟩

theorem RecordType.Le.mono {a b : RecordType} (ha : a.Canonical P) (hb : b.Canonical P)
    (h : a.Le le b) : a.Le le' b := by
  refine ⟨h.1, fun k y hy => ?_, h.2.2⟩
  obtain ⟨x, hx, hxy⟩ := h.2.1 k y hy
  refine ⟨x, hx, ?_⟩
  have hPx := ha.2 _ hx
  have hPy := hb.2 _ hy
  match x, y with
  | none, none => trivial
  | some _, some _ => exact hle hPx.1 hPy.1 hxy

end Order

theorem ListType.Canonical.imp {l : ListType} (h : l.Canonical P)
    (hPQ : ∀ t, t.depth < l.depth → P t → Q t) : l.Canonical Q := by
  cases l with
  | nil => trivial
  | cons t u | list t u =>
    rw [ListType.depth] at hPQ
    exact ⟨⟨hPQ t (by omega) h.1.1, h.1.2⟩, hPQ u (by omega) h.2.1, h.2.2⟩

theorem TupleType.Canonical.imp {t : TupleType} (h : t.Canonical P)
    (hPQ : ∀ x, x.depth < t.depth → P x → Q x) : t.Canonical Q := by
  obtain ⟨size, exact, es⟩ := t
  refine ⟨h.1, fun e he => ?_⟩
  obtain ⟨hi, hP, hne⟩ := h.2 e he
  exact ⟨hi, hPQ _ (elementDepth_le he) hP, hne⟩

theorem RecordType.Canonical.imp {r : RecordType} (h : r.Canonical P)
    (hPQ : ∀ x, x.depth < r.depth → P x → Q x) : r.Canonical Q := by
  obtain ⟨name, exported, fs, c⟩ := r
  refine ⟨h.1, fun f hf => ?_⟩
  have hfP := h.2 f hf
  cases hx : f.2 with
  | none => trivial
  | some t =>
    rw [hx] at hfP
    exact ⟨hPQ t (fieldDepth_le hf hx) hfP.1, hfP.2⟩

theorem NativeRecordSet.Canonical.imp {s : NativeRecordSet} (h : s.Canonical P)
    (hPQ : ∀ x, x.depth < s.depth → P x → Q x) : s.Canonical Q := by
  refine ⟨h.1, fun r hr => (h.2 r hr).imp fun x hx => hPQ x (hx.trans_le ?_)⟩
  cases s with
  | none => cases hr
  | record r' => rw [List.mem_singleton.mp hr, NativeRecordSet.depth]
  | records rs => exact nativeRecordDepth_le hr

section Keys

variable [LinearOrder RecordKey] {a b t : Typ} {n m k : ℕ}

/-- The order of types only looks at the order of inner types. -/
theorem Typ.Le.mono (hle : ∀ {x y}, P x → P y → le x y → le' x y) (ha : a.CanonicalStep P)
    (hb : b.CanonicalStep P) (h : Typ.Le le a b) : Typ.Le le' a b := by
  rcases h with hany | ⟨hane, h⟩
  · exact .inl hany
  by_cases hbne : b = .any
  · exact .inl hbne
  have hca := slots_canonical ha hane
  have hcb := slots_canonical hb hbne
  refine .inr ⟨hane, h.atom, ?_, h.number, ?_, ?_, ?_⟩
  · exact BotLe.imp h.list fun x hx y hy => ListType.Le.mono hle (hca.list x hx) (hcb.list y hy)
  · exact SetLe.imp h.tupleSet fun x hx y hy =>
      TupleType.Le.mono hle (hca.tupleSet.2 x hx) (hcb.tupleSet.2 y hy)
  · exact SetLe.imp h.nativeRecordSet fun x hx y hy =>
      RecordType.Le.mono hle (hca.nativeRecordSet.2 x hx) (hcb.nativeRecordSet.2 y hy)
  · exact BotLe.imp h.other fun x hx y hy => OtherType.Le.mono hle (hca.other x hx) (hcb.other y hy)

theorem leWithin_mono (hm : n ≤ m) (hk : n ≤ k) (ha : CanonicalWithin n a)
    (hb : CanonicalWithin n b) (h : leWithin m a b) : leWithin k a b := by
  induction n generalizing m k a b with
  | zero => exact ha.elim
  | succ n ih =>
    obtain ⟨m, rfl⟩ : ∃ i, m = i + 1 := ⟨m - 1, by omega⟩
    obtain ⟨k, rfl⟩ : ∃ i, k = i + 1 := ⟨k - 1, by omega⟩
    have hinner : ∀ {x y}, CanonicalWithin n x → CanonicalWithin n y → leWithin m x y →
        leWithin k x y := fun hx hy => ih (by omega) (by omega) hx hy
    exact Typ.Le.mono hinner ha hb h

/-- Types nested less than `n` levels deep, with orders, meets and joins at any
higher number of levels. -/
theorem inner_within (hm : n ≤ m) :
    Inner (CanonicalWithin n) (leWithin m) (meetWithin m) (joinWithin m) := by
  induction n generalizing m with
  | zero =>
    exact ⟨⟨⟨fun h => h.elim, fun h => h.elim, fun h => h.elim⟩, ⟨fun h => h.elim, fun h => h.elim⟩,
      ⟨fun h => h.elim, fun h => h.elim⟩⟩, fun h => h.elim, fun h => h.elim, fun h => h.elim,
      fun h => h.elim, fun h => h.elim⟩
  | succ n ih =>
    obtain ⟨m, rfl⟩ : ∃ i, m = i + 1 := ⟨m - 1, by omega⟩
    exact inner_step (ih (by omega))

/-- Meets and joins do not depend on the number of levels. -/
theorem within_eq (hm : n ≤ m) (hk : n ≤ k) (ha : CanonicalWithin n a) (hb : CanonicalWithin n b) :
    meetWithin m a b = meetWithin k a b ∧ joinWithin m a b = joinWithin k a b := by
  have hmono : ∀ {m k}, n ≤ m → n ≤ k → ∀ {x y}, CanonicalWithin n x → CanonicalWithin n y →
      leWithin m x y → leWithin k x y := fun hm hk _ _ hx hy => leWithin_mono hm hk hx hy
  have hi := inner_within hm
  have hj := inner_within hk
  constructor
  · obtain ⟨hP, hl, hr⟩ := hi.meet_bound ha hb
    obtain ⟨hP', hl', hr'⟩ := hj.meet_bound ha hb
    refine hi.lattice.order.antisymm hP hP' (hmono hk hm hP hP' ?_) ?_
    · exact hj.le_meet ha hb hP (hmono hm hk hP ha hl) (hmono hm hk hP hb hr)
    · exact hi.le_meet ha hb hP' (hmono hk hm hP' ha hl') (hmono hk hm hP' hb hr')
  · obtain ⟨hP, hl, hr⟩ := hi.join_bound ha hb
    obtain ⟨hP', hl', hr'⟩ := hj.join_bound ha hb
    refine hi.lattice.order.antisymm hP hP' ?_ (hmono hk hm hP' hP ?_)
    · exact hi.join_le ha hb hP' (hmono hk hm ha hP' hl') (hmono hk hm hb hP' hr')
    · exact hj.join_le ha hb hP (hmono hm hk ha hP hl) (hmono hm hk hb hP hr)

/-! ## Levels and depth -/

theorem TupleSet.Canonical.imp {s : TupleSet} (h : s.Canonical P)
    (hPQ : ∀ x, x.depth < s.depth → P x → Q x) : s.Canonical Q := by
  refine ⟨h.1, fun t ht => (h.2 t ht).imp fun x hx => hPQ x (hx.trans_le ?_)⟩
  cases s with
  | none => cases ht
  | tuple t' => rw [List.mem_singleton.mp ht, TupleSet.depth]
  | records rs =>
    obtain ⟨r, hr, rfl⟩ := List.mem_map.mp ht
    exact recordDepth_le hr

/-- One level of canonical types only looks at types nested less deep. -/
theorem Typ.CanonicalStep.imp (h : t.CanonicalStep P) (hPQ : ∀ x, x.depth < t.depth → P x → Q x) :
    t.CanonicalStep Q := by
  cases t with
  | list l => exact ListType.Canonical.imp h hPQ
  | tuple t => exact TupleType.Canonical.imp h hPQ
  | record r => exact RecordType.Canonical.imp h hPQ
  | other o => exact OtherType.Good.imp h hPQ
  | union u =>
    obtain ⟨hlist, htuple, hrecord, hother⟩ := u.depth_le
    have hu : ∀ {n}, n ≤ u.depth → ∀ x, x.depth < n → P x → Q x :=
      fun hn x hx => hPQ x (hx.trans_le hn)
    exact ⟨⟨h.1.atom, fun l hl => (h.1.list l hl).imp (hu (hlist l hl)), h.1.number,
      h.1.tupleSet.imp (hu htuple), h.1.nativeRecordSet.imp (hu hrecord),
      fun o ho => (h.1.other o ho).imp (hu (hother o ho))⟩, h.2⟩
  | _ => exact h

theorem CanonicalWithin.within (h : CanonicalWithin n t) (hm : t.depth < m) :
    CanonicalWithin m t := by
  induction m generalizing n t with
  | zero => omega
  | succ m ih =>
    cases n with
    | zero => exact h.elim
    | succ n => exact Typ.CanonicalStep.imp h fun x hx hP => ih hP (by omega)

theorem CanonicalWithin.mono (h : CanonicalWithin n t) (hm : n ≤ m) : CanonicalWithin m t := by
  induction n generalizing m t with
  | zero => exact h.elim
  | succ n ih =>
    obtain ⟨m, rfl⟩ : ∃ i, m = i + 1 := ⟨m - 1, by omega⟩
    exact Typ.CanonicalStep.imp h fun x _ hP => ih hP (by omega)

/-- `meet/2` and `join/2` at any number of levels that suffices. -/
theorem meet_join_eq (ha : CanonicalWithin n a) (hb : CanonicalWithin n b) :
    meet a b = meetWithin n a b ∧ join a b = joinWithin n a b := by
  rcases le_total (max a.depth b.depth + 1) n with h | h
  · exact within_eq le_rfl h (ha.within (by omega)) (hb.within (by omega))
  · exact within_eq h le_rfl ha hb

/-! ## Canonical types are well-formed -/

theorem Typ.CanonicalStep.good (h : t.CanonicalStep P) :
    t.Good (fun _ => True) UnionType.Ordered P := by
  have hatom : ∀ {a : AtomType}, a.Canonical → a.Valid := fun {a} ha => by
    cases a with
    | any => trivial
    | set s => exact ⟨ha.1, ha.2.1⟩
  have hnumber : ∀ {n : NumberType}, n.Canonical → n.Valid fun _ => True := fun {n} hn => by
    obtain ⟨r, hr, rfl | rfl⟩ := hn.cases
    · exact hr
    · exact ⟨hr, trivial⟩
  cases t with
  | atom a => exact hatom h
  | list l => exact ListType.Canonical.good h
  | number n => exact hnumber h
  | tuple t => exact TupleType.Canonical.good h
  | record r => exact RecordType.Canonical.good h
  | other o => exact h
  | union u =>
    obtain ⟨hu, -⟩ := h
    refine ⟨⟨hu.tupleSet.1, hu.nativeRecordSet.1⟩, fun a ha => hatom (hu.atom a ha),
      fun l hl => (hu.list l hl).good, fun n hn => hnumber (hu.number n hn), ?_, ?_, hu.other⟩
    · have hset := hu.tupleSet
      match u.tupleSet, hset with
      | .none, _ => trivial
      | .tuple t, hset => exact (hset.2 t (.head _)).good
      | .records rs, hset => exact fun r hr => (hset.mem r hr).good
    · have hset := hu.nativeRecordSet
      match u.nativeRecordSet, hset with
      | .none, _ => trivial
      | .record r, hset => exact (hset.2 r (.head _)).good
      | .records rs, hset => exact fun r hr => ⟨hset.1.named r hr, (hset.2 r hr).good⟩
  | _ => trivial

theorem Typ.Canonical.wellFormed (h : t.Canonical) : t.WellFormed := by
  obtain ⟨n, h⟩ := h
  refine ⟨n, ?_⟩
  induction n generalizing t with
  | zero => exact h
  | succ n ih => exact Typ.Good.imp (Typ.CanonicalStep.good h) fun x _ hx => ih hx

/-! ## The laws -/

/-- Canonical types with `meet/2` and `join/2`, up to `n` levels. -/
abbrev latticeWithin (n : ℕ) : Lattice {t : Typ // CanonicalWithin n t} :=
  (inner_within (le_refl n)).lattice.toLattice

theorem meet_self (a : Typ) : meet a a = a := by
  unfold meet meetWithin meetStep
  rw [if_pos rfl]

theorem join_self (a : Typ) : join a a = a := by
  unfold join joinWithin joinStep
  rw [if_pos rfl]

theorem join_none (a : Typ) : join a .none = a := by
  unfold join joinWithin joinStep
  split_ifs with h
  · rfl
  · cases a <;> rfl

theorem meet_any (a : Typ) : meet a .any = a := by
  unfold meet meetWithin meetStep
  split_ifs with h
  · rfl
  · cases a <;> rfl

/-- `meet/2` and `join/2` are idempotent and have `any` and `none` as identities.
For canonical types the other laws of a lattice hold as well, and the results are
canonical, hence well-formed, types. -/
theorem meet_join_laws {a b c : Typ} (ha : a.Canonical) (hb : b.Canonical) (hc : c.Canonical) :
    (meet a b = meet b a ∧ join a b = join b a) ∧
      (meet (meet a b) c = meet a (meet b c) ∧ join (join a b) c = join a (join b c)) ∧
      (∀ t, meet t t = t ∧ join t t = t) ∧ (∀ t, join t .none = t ∧ meet t .any = t) ∧
      (join a (meet a b) = a ∧ meet a (join a b) = a) ∧
      ((meet a b).Canonical ∧ (join a b).Canonical) ∧
      (meet a b).WellFormed ∧ (join a b).WellFormed := by
  obtain ⟨i, hi⟩ := ha
  obtain ⟨j, hj⟩ := hb
  obtain ⟨k, hk⟩ := hc
  -- one level for all three
  obtain ⟨n, hn⟩ : ∃ n, max i (max j k) = n := ⟨_, rfl⟩
  have ha := hi.mono (m := n) (by omega)
  have hb := hj.mono (m := n) (by omega)
  have hc := hk.mono (m := n) (by omega)
  let := latticeWithin n
  let x : {t : Typ // CanonicalWithin n t} := ⟨a, ha⟩
  let y : {t : Typ // CanonicalWithin n t} := ⟨b, hb⟩
  let z : {t : Typ // CanonicalWithin n t} := ⟨c, hc⟩
  have hmeet : ∀ u v : {t : Typ // CanonicalWithin n t}, meet u.1 v.1 = (u ⊓ v).1 := fun u v =>
    (meet_join_eq u.2 v.2).1
  have hjoin : ∀ u v : {t : Typ // CanonicalWithin n t}, join u.1 v.1 = (u ⊔ v).1 := fun u v =>
    (meet_join_eq u.2 v.2).2
  have hcanon : (meet a b).Canonical ∧ (join a b).Canonical := by
    rw [hmeet x y, hjoin x y]
    exact ⟨⟨n, (x ⊓ y).2⟩, n, (x ⊔ y).2⟩
  refine ⟨⟨?_, ?_⟩, ⟨?_, ?_⟩, fun t => ⟨meet_self t, join_self t⟩,
    fun t => ⟨join_none t, meet_any t⟩, ⟨?_, ?_⟩, hcanon, hcanon.1.wellFormed, hcanon.2.wellFormed⟩
  · rw [hmeet x y, hmeet y x, inf_comm]
  · rw [hjoin x y, hjoin y x, sup_comm]
  · rw [hmeet x y, hmeet y z, hmeet (x ⊓ y) z, hmeet x (y ⊓ z), inf_assoc]
  · rw [hjoin x y, hjoin y z, hjoin (x ⊔ y) z, hjoin x (y ⊔ z), sup_assoc]
  · rw [hmeet x y, hjoin x (x ⊓ y), sup_inf_self]
  · rw [hjoin x y, hmeet x (x ⊔ y), inf_sup_self]

end Keys

theorem meet_join_laws_at :
    letI := keyOrder
    join unitRange (meet unitRange (.list .nil)) = unitRange ∧
      meet unitRange (join unitRange (.list .nil)) = unitRange := by
  let := keyOrder
  have hrange : unitRange.Canonical := ⟨1, show (0 : ℤ) ≤ 1 by decide⟩
  have hnil : (Typ.list .nil).Canonical := ⟨1, trivial⟩
  exact (meet_join_laws hrange hnil hnil).2.2.2.2.1

/-- The type of the empty list that `verified_type/1` accepts besides `nil`. -/
def emptyList : Typ := .list (.list .none (.list .nil))

/-- The type of all lists. -/
def anyList : Typ := .list (.list .any .any)

/-- Absorption fails for a list type without elements: the meet is `nil`. -/
theorem absorption_fails_at_emptyList :
    letI := keyOrder
    emptyList.WellFormed ∧ anyList.WellFormed ∧
      meet emptyList (join emptyList anyList) = .list .nil ∧
      meet emptyList (join emptyList anyList) ≠ emptyList := by
  let := keyOrder
  have hmeet : meet emptyList (join emptyList anyList) = .list .nil := rfl
  refine ⟨⟨2, trivial, trivial⟩, ⟨2, trivial, trivial⟩, hmeet, ?_⟩
  rw [hmeet]
  simp [emptyList]

end Otp.Compiler.BeamTypes
