import Mathlib

/-!
# Ordered sets and maps as sorted lists

A set is a strictly increasing list, a map an association list with strictly
increasing keys. Both are determined by their members, which is what makes
equality of the representations an equality of sets and maps.
-/

namespace Otp.Lib.Ordset

open List

variable {α β : Type*} [LinearOrder α] {x z k : α} {s t ks : List α} {m n r : List (α × β)} {v : β}
  {f : β → β → Option β} {Q : α → β → Prop}

/-- A strictly increasing list. -/
def IsOrdset (s : List α) : Prop := s.Pairwise (· < ·)

instance (s : List α) : Decidable (IsOrdset s) := inferInstanceAs (Decidable (s.Pairwise (· < ·)))

/-- Insertion at the place of the element. -/
def addElement (x : α) : List α → List α
  | [] => [x]
  | y :: ys => if x < y then x :: y :: ys else if x = y then y :: ys else y :: addElement x ys

/-- The set of the elements of a list (`lists:usort/1`). -/
def usort : List α → List α
  | [] => []
  | x :: xs => addElement x (usort xs)

@[simp] theorem mem_addElement : z ∈ addElement x s ↔ z = x ∨ z ∈ s := by
  induction s with
  | nil => simp [addElement]
  | cons y ys ih =>
    simp only [addElement]
    split_ifs with h1 h2
    · simp
    · subst h2
      simp
    · simp only [mem_cons, ih]
      tauto

@[simp] theorem mem_usort : z ∈ usort s ↔ z ∈ s := by
  induction s with
  | nil => simp [usort]
  | cons x xs ih => simp [usort, ih]

theorem isOrdset_addElement (h : IsOrdset s) : IsOrdset (addElement x s) := by
  induction s with
  | nil => simp [addElement, IsOrdset]
  | cons y ys ih =>
    obtain ⟨hy, hys⟩ := pairwise_cons.mp h
    simp only [addElement]
    split_ifs with h1 h2
    · exact pairwise_cons.mpr ⟨forall_mem_cons.mpr ⟨h1, fun z hz => h1.trans (hy z hz)⟩, h⟩
    · exact h
    · refine pairwise_cons.mpr ⟨fun z hz => ?_, ih hys⟩
      rcases mem_addElement.mp hz with rfl | hz
      · exact lt_of_le_of_ne (not_lt.mp h1) (Ne.symm h2)
      · exact hy z hz

theorem isOrdset_usort (s : List α) : IsOrdset (usort s) := by
  induction s with
  | nil => exact List.Pairwise.nil
  | cons x xs ih => exact isOrdset_addElement ih

/-- Lists in the order of a key are determined by their elements. -/
theorem ext_of_lt {key : β → α} {s t : List β} (hs : s.Pairwise fun x y => key x < key y)
    (ht : t.Pairwise fun x y => key x < key y) (h : ∀ x, x ∈ s ↔ x ∈ t) : s = t := by
  have hne : ∀ {l : List β}, (l.Pairwise fun x y => key x < key y) → l.Nodup := fun hl =>
    hl.imp fun hlt heq => absurd (congrArg key heq) hlt.ne
  have hperm : s.Perm t := (perm_ext_iff_of_nodup (hne hs) (hne ht)).mpr h
  exact hperm.eq_of_pairwise (fun _ _ _ _ hab hba => absurd hba (lt_asymm hab)) hs ht

theorem IsOrdset.ext (hs : IsOrdset s) (ht : IsOrdset t) (h : ∀ x, x ∈ s ↔ x ∈ t) : s = t :=
  ext_of_lt hs ht h

/-- Union (`ordsets:union/2`). -/
def union (s t : List α) : List α := usort (s ++ t)

/-- Intersection (`ordsets:intersection/2`). -/
def intersection (s t : List α) : List α := s.filter (· ∈ t)

@[simp] theorem mem_union : x ∈ union s t ↔ x ∈ s ∨ x ∈ t := by
  simp [union]

@[simp] theorem mem_intersection : x ∈ intersection s t ↔ x ∈ s ∧ x ∈ t := by
  simp [intersection]

theorem isOrdset_union (s t : List α) : IsOrdset (union s t) := isOrdset_usort _

theorem isOrdset_intersection (hs : IsOrdset s) (t : List α) :
    IsOrdset (intersection s t) := hs.filter _

/-! ## Maps -/

/-- The keys of a map. -/
def keys (m : List (α × β)) : List α := m.map Prod.fst

/-- A map with strictly increasing keys. -/
def IsMap (m : List (α × β)) : Prop := IsOrdset (keys m)

theorem isMap_cons {p : α × β} : IsMap (p :: m) ↔ (∀ q ∈ m, p.1 < q.1) ∧ IsMap m := by
  simp [IsMap, IsOrdset, keys]

theorem IsMap.unique (h : IsMap m) {w : β} (hv : (k, v) ∈ m) (hw : (k, w) ∈ m) : v = w :=
  (Prod.mk.inj (inj_on_of_nodup_map (h.imp ne_of_lt) hv hw rfl)).2

theorem IsMap.ext (hm : IsMap m) (hn : IsMap n) (h : ∀ p, p ∈ m ↔ p ∈ n) : m = n :=
  ext_of_lt (pairwise_map.mp hm) (pairwise_map.mp hn) h

theorem lookup_eq_some (h : IsMap m) : m.lookup k = some v ↔ (k, v) ∈ m := by
  induction m with
  | nil => simp
  | cons p m ih =>
    obtain ⟨hp, hm⟩ := isMap_cons.mp h
    obtain ⟨a, b⟩ := p
    rw [lookup_cons]
    by_cases hk : k = a
    · subst hk
      simp only [beq_self_eq_true, Option.some.injEq, mem_cons, Prod.mk.injEq, true_and]
      refine ⟨fun h => .inl h.symm, ?_⟩
      rintro (h | h)
      · exact h.symm
      · exact absurd (hp _ h) (lt_irrefl _)
    · have hbeq : (k == a) = false := by simpa using hk
      simp [hbeq, ih hm, hk]

/-- The value of a key after two maps are put together; `f` decides for keys of
both. -/
def mergeValues (f : β → β → Option β) : Option β → Option β → Option β
  | some v, some w => f v w
  | some v, none => some v
  | none, w => w

/-- The entries of two maps for a list of keys; absent where `f` fails on a key
of both. -/
def mergeKeys (f : β → β → Option β) (m n : List (α × β)) : List α → Option (List (α × β))
  | [] => some []
  | k :: ks =>
    match mergeValues f (m.lookup k) (n.lookup k) with
    | none => none
    | some v => (mergeKeys f m n ks).map ((k, v) :: ·)

/-- Union of two maps. -/
def mergeWith (f : β → β → Option β) (m n : List (α × β)) : Option (List (α × β)) :=
  mergeKeys f m n (usort (keys m ++ keys n))

theorem mergeKeys_eq_some (h : mergeKeys f m n ks = some r) :
    keys r = ks ∧ ∀ p ∈ r, mergeValues f (m.lookup p.1) (n.lookup p.1) = some p.2 := by
  induction ks generalizing r with
  | nil =>
    obtain rfl : [] = r := by simpa [mergeKeys] using h
    simp [keys]
  | cons k ks ih =>
    rw [mergeKeys] at h
    split at h
    · exact absurd h (by simp)
    · rename_i v hv
      obtain ⟨r', hr', rfl⟩ := Option.map_eq_some_iff.mp h
      obtain ⟨hkeys, hval⟩ := ih hr'
      exact ⟨by simpa [keys] using hkeys, forall_mem_cons.mpr ⟨hv, hval⟩⟩

theorem mergeKeys_eq_none :
    mergeKeys f m n ks = none ↔ ∃ k ∈ ks, mergeValues f (m.lookup k) (n.lookup k) = none := by
  induction ks with
  | nil => simp [mergeKeys]
  | cons k ks ih =>
    rw [mergeKeys]
    split
    · rename_i hv
      simp [hv]
    · rename_i v hv
      simp [hv, ih]

theorem mem_keys_iff : k ∈ keys m ↔ ∃ v, m.lookup k = some v := by
  rw [← Option.isSome_iff_exists, Option.isSome_iff_ne_none, ne_eq]
  simp [keys]

theorem mergeWith_eq_some (h : mergeWith f m n = some r) :
    IsMap r ∧ ∀ k, r.lookup k = mergeValues f (m.lookup k) (n.lookup k) := by
  obtain ⟨hkeys, hval⟩ := mergeKeys_eq_some h
  have hmap : IsMap r := by
    rw [IsMap, hkeys]
    exact isOrdset_usort _
  refine ⟨hmap, fun k => ?_⟩
  cases hr : r.lookup k with
  | some v => exact (hval _ ((lookup_eq_some hmap).mp hr)).symm
  | none =>
    have hk : k ∉ keys r := by
      rw [mem_keys_iff, hr]
      simp
    rw [hkeys, mem_usort, mem_append, mem_keys_iff, mem_keys_iff] at hk
    have hm : m.lookup k = none := by
      by_contra hne
      exact hk (.inl (Option.ne_none_iff_exists'.mp hne))
    have hn : n.lookup k = none := by
      by_contra hne
      exact hk (.inr (Option.ne_none_iff_exists'.mp hne))
    rw [hm, hn]
    rfl

theorem mergeWith_eq_none :
    mergeWith f m n = none ↔
      ∃ k v w, m.lookup k = some v ∧ n.lookup k = some w ∧ f v w = none := by
  rw [mergeWith, mergeKeys_eq_none]
  constructor
  · rintro ⟨k, hk, hnone⟩
    rw [mem_usort, mem_append, mem_keys_iff, mem_keys_iff] at hk
    cases hm : m.lookup k <;> cases hn : n.lookup k <;> simp_all [mergeValues]
    exact ⟨k, _, hm, _, hn, hnone⟩
  · rintro ⟨k, v, w, hv, hw, hf⟩
    refine ⟨k, ?_, by simpa [hv, hw, mergeValues] using hf⟩
    rw [mem_usort, mem_append, mem_keys_iff]
    exact .inl ⟨v, hv⟩

/-- A property of entries that survives the merge of two values survives the
merge of two maps. -/
theorem mergeWith_forall (hm : IsMap m) (hn : IsMap n) (hQm : ∀ p ∈ m, Q p.1 p.2)
    (hQn : ∀ p ∈ n, Q p.1 p.2) (hf : ∀ k v w, (k, v) ∈ m → (k, w) ∈ n →
      ∃ u, f v w = some u ∧ Q k u) :
    ∃ r, mergeWith f m n = some r ∧ ∀ p ∈ r, Q p.1 p.2 := by
  cases hr : mergeWith f m n with
  | none =>
    obtain ⟨k, v, w, hv, hw, hnone⟩ := mergeWith_eq_none.mp hr
    obtain ⟨u, hu, -⟩ := hf k v w ((lookup_eq_some hm).mp hv) ((lookup_eq_some hn).mp hw)
    rw [hu] at hnone
    cases hnone
  | some r =>
    obtain ⟨hmap, hlookup⟩ := mergeWith_eq_some hr
    refine ⟨r, rfl, fun p hp => ?_⟩
    have hval := hlookup p.1
    rw [(lookup_eq_some hmap).mpr hp] at hval
    -- the entry comes from one map, or is the merge of two values
    cases hv : m.lookup p.1 <;> cases hw : n.lookup p.1 <;>
      simp only [hv, hw, mergeValues] at hval
    · cases hval
    · exact Option.some.inj hval ▸ hQn _ ((lookup_eq_some hn).mp hw)
    · exact Option.some.inj hval ▸ hQm _ ((lookup_eq_some hm).mp hv)
    · obtain ⟨u, hu, hQ⟩ := hf _ _ _ ((lookup_eq_some hm).mp hv) ((lookup_eq_some hn).mp hw)
      rw [hu] at hval
      exact Option.some.inj hval ▸ hQ

/-- Intersection of two maps, over the keys of the smaller one; `f` may drop a
key. -/
def interWith (f : α → β → β → Option β) (m n : List (α × β)) : List (α × β) :=
  (if m.length ≤ n.length then keys m else keys n).filterMap fun k =>
    match m.lookup k, n.lookup k with
    | some v, some w => (f k v w).map (k, ·)
    | _, _ => none

theorem mem_interWith {f : α → β → β → Option β} {x : β} :
    (k, x) ∈ interWith f m n ↔
      ∃ v w, m.lookup k = some v ∧ n.lookup k = some w ∧ f k v w = some x := by
  have hkeys : ∀ {v w}, m.lookup k = some v → n.lookup k = some w →
      k ∈ (if m.length ≤ n.length then keys m else keys n) := by
    intro v w hv hw
    split_ifs
    · exact mem_keys_iff.mpr ⟨v, hv⟩
    · exact mem_keys_iff.mpr ⟨w, hw⟩
  rw [interWith, mem_filterMap]
  constructor
  · rintro ⟨k', -, h⟩
    split at h
    · rename_i v w hv hw
      obtain ⟨y, hy, heq⟩ := Option.map_eq_some_iff.mp h
      cases heq
      exact ⟨v, w, hv, hw, hy⟩
    · exact absurd h (by simp)
  · rintro ⟨v, w, hv, hw, hf⟩
    exact ⟨k, hkeys hv hw, by simp [hv, hw, hf]⟩

theorem isMap_interWith {f : α → β → β → Option β} (hm : IsMap m) (hn : IsMap n) :
    IsMap (interWith f m n) := by
  rw [IsMap, IsOrdset, keys, pairwise_map, interWith, pairwise_filterMap]
  have hord : IsOrdset (if m.length ≤ n.length then keys m else keys n) := by
    split_ifs
    · exact hm
    · exact hn
  refine hord.imp fun {a b} hlt p hp q hq => ?_
  have hfst : ∀ {k : α} {p : α × β}, (match m.lookup k, n.lookup k with
      | some v, some w => (f k v w).map (k, ·)
      | _, _ => none) = some p → p.1 = k := by
    intro k p h
    split at h
    · obtain ⟨y, -, rfl⟩ := Option.map_eq_some_iff.mp h
      rfl
    · exact absurd h (by simp)
  rw [hfst hp, hfst hq]
  exact hlt

end Otp.Lib.Ordset
