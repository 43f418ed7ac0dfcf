import Otp.Lib.PartialLattice

/-!
# Sets of elements with keys

Finite sets, as lists, ordered by "every element is below one of the other set".
The elements of a set have different keys, in increasing order, and a key is
inherited by everything below it, so two elements of a set have no lower bound in
common. An element without a key can only stand alone. Such sets have meets; they
have joins where the elements do, and a set that must not grow collapses into one
element.
-/

namespace Otp.Lib

open List

variable {α β κ : Type*}

/-! ## Sets of elements without common lower bounds -/

section Sets

/-- Every element of `s` is below one of `t`. -/
def SetLe (le : α → α → Prop) (s t : List α) : Prop := ∀ x ∈ s, ∃ y ∈ t, le x y

/-- Different elements have no lower bound in common. -/
def Separated (P : α → Prop) (le : α → α → Prop) (s : List α) : Prop :=
  ∀ x ∈ s, ∀ y ∈ s, ∀ z, P z → le z x → le z y → x = y

variable {P : α → Prop} {le : α → α → Prop} {f : α → α → Option α} {s t u : List α}

theorem SetLe.imp {le' : α → α → Prop} (h : SetLe le s t)
    (hle : ∀ x ∈ s, ∀ y ∈ t, le x y → le' x y) : SetLe le' s t := fun x hx => by
  obtain ⟨y, hy, hxy⟩ := h x hx
  exact ⟨y, hy, hle x hx y hy hxy⟩

section

variable (h : OrderOn P le) (hs : ∀ x ∈ s, P x)

include h hs

theorem SetLe.refl : SetLe le s s :=
  fun x hx => ⟨x, hx, h.refl (hs x hx)⟩

theorem SetLe.trans (ht : ∀ x ∈ t, P x) (hu : ∀ x ∈ u, P x) (hst : SetLe le s t)
    (htu : SetLe le t u) : SetLe le s u := by
  intro x hx
  obtain ⟨y, hy, hxy⟩ := hst x hx
  obtain ⟨z, hz, hyz⟩ := htu y hy
  exact ⟨z, hz, h.trans (hs x hx) (ht y hy) (hu z hz) hxy hyz⟩

/-- Separated sets that are below each other have the same elements. -/
theorem SetLe.subset (ht : ∀ x ∈ t, P x) (hsep : Separated P le s) (hst : SetLe le s t)
    (hts : SetLe le t s) : ∀ x ∈ s, x ∈ t := by
  intro x hx
  obtain ⟨y, hy, hxy⟩ := hst x hx
  obtain ⟨x', hx', hyx⟩ := hts y hy
  have hxx' := h.trans (hs x hx) (ht y hy) (hs x' hx') hxy hyx
  obtain rfl : x = x' := hsep x hx x' hx' x (hs x hx) (h.refl (hs x hx)) hxx'
  obtain rfl : x = y := h.antisymm (hs x hx) (ht y hy) hxy hyx
  exact hy

end

/-- The meets of elements of two sets are the meet of the sets. -/
theorem setLe_meet (hf : BoundOn P le f) (hs : ∀ x ∈ s, P x) (ht : ∀ x ∈ t, P x)
    (hu : ∀ z, z ∈ u ↔ ∃ x ∈ s, ∃ y ∈ t, f x y = some z) :
    (∀ z ∈ u, P z) ∧ SetLe le u s ∧ SetLe le u t ∧
      ∀ w : List α, (∀ z ∈ w, P z) → SetLe le w s → SetLe le w t → SetLe le w u := by
  refine ⟨fun z hz => ?_, fun z hz => ?_, fun z hz => ?_, fun w hw hws hwt z hz => ?_⟩
  · obtain ⟨x, hx, y, hy, hxy⟩ := (hu z).mp hz
    exact (hf.bound (hs x hx) (ht y hy) hxy).1
  · obtain ⟨x, hx, y, hy, hxy⟩ := (hu z).mp hz
    exact ⟨x, hx, (hf.bound (hs x hx) (ht y hy) hxy).2.1⟩
  · obtain ⟨x, hx, y, hy, hxy⟩ := (hu z).mp hz
    exact ⟨y, hy, (hf.bound (hs x hx) (ht y hy) hxy).2.2⟩
  · obtain ⟨x, hx, hzx⟩ := hws z hz
    obtain ⟨y, hy, hzy⟩ := hwt z hz
    obtain ⟨m, hm, hzm⟩ := hf.greatest (hs x hx) (ht y hy) (hw z hz) hzx hzy
    exact ⟨m, (hu m).mpr ⟨x, hx, y, hy, hm⟩, hzm⟩

end Sets

/-! ## Merging sorted lists -/

section Merge

variable [LinearOrder κ] (key : β → κ) (g : β → β → β) {x : β} {s t : List β}

/-- In strictly increasing order of the keys. -/
def SortedBy (s : List β) : Prop := s.Pairwise fun x y => key x < key y

/-- Merge of two sorted lists; elements with the same key are combined. -/
def mergeBy : List β → List β → List β
  | x :: s, y :: t =>
    if key x = key y then g x y :: mergeBy s t
    else if key x < key y then x :: mergeBy s (y :: t)
    else y :: mergeBy (x :: s) t
  | s, [] => s
  | [], t => t
termination_by s t => s.length + t.length

variable {key g}

@[simp] theorem mergeBy_nil (s : List β) : mergeBy key g s [] = s := by
  cases s <;> simp [mergeBy]

@[simp] theorem nil_mergeBy (t : List β) : mergeBy key g [] t = t := by
  cases t <;> simp [mergeBy]

theorem mergeBy_cons (x y : β) (s t : List β) : mergeBy key g (x :: s) (y :: t) =
    if key x = key y then g x y :: mergeBy key g s t
    else if key x < key y then x :: mergeBy key g s (y :: t)
    else y :: mergeBy key g (x :: s) t := by
  rw [mergeBy]

theorem le_length_mergeBy (s t : List β) :
    s.length ≤ (mergeBy key g s t).length ∧ t.length ≤ (mergeBy key g s t).length := by
  fun_induction mergeBy key g s t with
  | case1 x s y t hkey ih | case2 x s y t hkey hlt ih | case3 x s y t hkey hlt ih =>
    simp only [length_cons] at ih ⊢
    omega
  | case4 s | case5 t h => simp

theorem sortedBy_cons :
    SortedBy key (x :: s) ↔ (∀ y ∈ s, key x < key y) ∧ SortedBy key s := pairwise_cons

theorem SortedBy.eq_of_key (h : SortedBy key s) {y : β} (hx : x ∈ s) (hy : y ∈ s)
    (hkey : key x = key y) : x = y :=
  inj_on_of_nodup_map (pairwise_map.mpr (h.imp ne_of_lt)) hx hy hkey

/-- Sorted lists are determined by their elements. -/
theorem SortedBy.ext (hs : SortedBy key s) (ht : SortedBy key t) (h : ∀ x, x ∈ s ↔ x ∈ t) :
    s = t := Ordset.ext_of_lt hs ht h

/-- The elements of a merge, if combining keeps the key. -/
theorem mem_mergeBy {s t : List β} (hs : SortedBy key s) (ht : SortedBy key t) {z : β} :
    z ∈ mergeBy key g s t ↔ (z ∈ s ∧ ∀ y ∈ t, key z ≠ key y) ∨ (z ∈ t ∧ ∀ x ∈ s, key z ≠ key x) ∨
      ∃ x ∈ s, ∃ y ∈ t, key x = key y ∧ z = g x y := by
  fun_induction mergeBy key g s t with
  | case1 x s y t hkey ih =>
    rw [sortedBy_cons] at hs ht
    grind
  | case2 x s y t hkey hlt ih =>
    rw [mem_cons, ih (sortedBy_cons.mp hs).2 ht]
    rw [sortedBy_cons] at hs ht
    grind
  | case3 x s y t hkey hlt ih =>
    rw [mem_cons, ih hs (sortedBy_cons.mp ht).2]
    rw [sortedBy_cons] at hs ht
    grind
  | case4 s | case5 t h => simp

theorem sortedBy_mergeBy (hs : SortedBy key s) (ht : SortedBy key t)
    (hg : ∀ x ∈ s, ∀ y ∈ t, key x = key y → key (g x y) = key x) :
    SortedBy key (mergeBy key g s t) := by
  fun_induction mergeBy key g s t with
  | case1 x s y t hkey ih =>
    rw [sortedBy_cons] at hs ht ⊢
    have hg' : ∀ x ∈ s, ∀ y ∈ t, key x = key y → key (g x y) = key x := fun x hx y hy =>
      hg x (.tail _ hx) y (.tail _ hy)
    refine ⟨fun z hz => ?_, ih hs.2 ht.2 hg'⟩
    rw [hg x (.head _) y (.head _) hkey]
    rcases (mem_mergeBy hs.2 ht.2).mp hz with ⟨hz, -⟩ | ⟨hz, -⟩ | ⟨x', hx', y', hy', hkey', rfl⟩
    · exact hs.1 z hz
    · exact hkey ▸ ht.1 z hz
    · exact (hs.1 x' hx').trans_eq (hg' x' hx' y' hy' hkey').symm
  | case2 x s y t hkey hlt ih =>
    have hs' := (sortedBy_cons.mp hs).2
    rw [sortedBy_cons]
    refine ⟨fun z hz => ?_, ih hs' ht fun x hx => hg x (.tail _ hx)⟩
    rcases (mem_mergeBy hs' ht).mp hz with ⟨hz, -⟩ | ⟨hz, -⟩ | ⟨x', hx', y', hy', hkey', rfl⟩
    · exact (sortedBy_cons.mp hs).1 z hz
    · rcases mem_cons.mp hz with rfl | hz
      · exact hlt
      · exact hlt.trans ((sortedBy_cons.mp ht).1 z hz)
    · exact ((sortedBy_cons.mp hs).1 x' hx').trans_eq (hg x' (.tail _ hx') y' hy' hkey').symm
  | case3 x s y t hkey hlt ih =>
    have ht' := (sortedBy_cons.mp ht).2
    have hlt : key y < key x := lt_of_le_of_ne (not_lt.mp hlt) (Ne.symm hkey)
    rw [sortedBy_cons]
    refine ⟨fun z hz => ?_, ih hs ht' fun x hx y hy => hg x hx y (.tail _ hy)⟩
    rcases (mem_mergeBy hs ht').mp hz with ⟨hz, -⟩ | ⟨hz, -⟩ | ⟨x', hx', y', hy', hkey', rfl⟩
    · rcases mem_cons.mp hz with rfl | hz
      · exact hlt
      · exact hlt.trans ((sortedBy_cons.mp hs).1 z hz)
    · exact (sortedBy_cons.mp ht).1 z hz
    · rw [hg x' hx' y' (.tail _ hy') hkey', hkey']
      exact (sortedBy_cons.mp ht).1 y' hy'
  | case4 s => exact hs
  | case5 t h => exact ht

/-- A function that respects the keys commutes with merging. -/
theorem map_mergeBy {γ lam : Type*} [LinearOrder lam] {key' : γ → lam} {g' : γ → γ → γ} {e : β → γ}
    (heq : ∀ x ∈ s, ∀ y ∈ t, key' (e x) = key' (e y) ↔ key x = key y)
    (hlt : ∀ x ∈ s, ∀ y ∈ t, key' (e x) < key' (e y) ↔ key x < key y)
    (hg : ∀ x y, e (g x y) = g' (e x) (e y)) :
    (mergeBy key g s t).map e = mergeBy key' g' (s.map e) (t.map e) := by
  fun_induction mergeBy key g s t with
  | case1 x s y t hkey ih =>
    rw [map_cons, map_cons, map_cons, mergeBy_cons,
      if_pos ((heq x (.head _) y (.head _)).mpr hkey), hg,
      ih (fun x hx y hy => heq x (.tail _ hx) y (.tail _ hy)) fun x hx y hy =>
        hlt x (.tail _ hx) y (.tail _ hy)]
  | case2 x s y t hkey hless ih =>
    rw [map_cons, map_cons, map_cons, mergeBy_cons,
      if_neg fun h => hkey ((heq x (.head _) y (.head _)).mp h),
      if_pos ((hlt x (.head _) y (.head _)).mpr hless),
      ih (fun x hx => heq x (.tail _ hx)) fun x hx => hlt x (.tail _ hx), map_cons]
  | case3 x s y t hkey hless ih =>
    rw [map_cons, map_cons, map_cons, mergeBy_cons,
      if_neg fun h => hkey ((heq x (.head _) y (.head _)).mp h),
      if_neg fun h => hless ((hlt x (.head _) y (.head _)).mp h),
      ih (fun x hx y hy => heq x hx y (.tail _ hy)) fun x hx y hy => hlt x hx y (.tail _ hy),
      map_cons]
  | case4 s | case5 t h => simp

end Merge

/-! ## Keyed sets -/

section Keyed

variable [LinearOrder κ]

/-- Different keys in increasing order; an element without a key stands alone. -/
def KeySorted (key : β → WithBot κ) (s : List β) : Prop :=
  s.Pairwise fun x y => key x ≠ ⊥ ∧ key x < key y

/-- A keyed set whose elements satisfy `P`, with a bound on its size. -/
structure KeySetOn (P : β → Prop) (key : β → WithBot κ) (small : ℕ → Prop) (s : List β) : Prop where
  mem : ∀ x ∈ s, P x
  sorted : KeySorted key s
  size : small s.length

/-- `r` is the least upper bound of a list. -/
structure IsLubOf (P : β → Prop) (le : β → β → Prop) (l : List β) (r : β) : Prop where
  mem : P r
  upper : ∀ x ∈ l, le x r
  least : ∀ {w}, P w → (∀ x ∈ l, le x w) → le r w

variable {P : β → Prop} {le : β → β → Prop} {f : β → β → Option β} {g : β → β → β}
  {key : β → WithBot κ} {small : ℕ → Prop} {s t : List β} {x r : β} {l : List β}

theorem KeySorted.sortedBy (h : KeySorted key s) : SortedBy key s := h.imp And.right

theorem SortedBy.keySorted (h : SortedBy key s) (hkey : ∀ x ∈ s, key x ≠ ⊥) : KeySorted key s :=
  List.Pairwise.imp_of_mem (fun hx _ hlt => ⟨hkey _ hx, hlt⟩) h

theorem keySorted_singleton (x : β) : KeySorted key [x] := pairwise_singleton _ x

theorem KeySorted.eq_singleton (h : KeySorted key s) (hx : x ∈ s) (hkey : key x = ⊥) : s = [x] := by
  match s with
  | [y] => rw [mem_singleton.mp hx]
  | y :: z :: s =>
    have h' := pairwise_cons.mp h
    rcases mem_cons.mp hx with rfl | hx'
    · exact absurd hkey (h'.1 z (.head _)).1
    · have hlt := (h'.1 x hx').2
      rw [hkey] at hlt
      exact absurd hlt not_lt_bot

section

variable (hmono : ∀ {x y}, P x → P y → le x y → key y ≠ ⊥ → key x = key y)

include hmono

/-- Elements of a keyed set above elements with the same key are the same. -/
theorem KeySetOn.eq_of_below
    (h : KeySetOn P key small s) {x y z z' : β} (hx : x ∈ s) (hy : y ∈ s) (hz : P z) (hz' : P z')
    (hkey : key z = key z') (hzx : le z x) (hzy : le z' y) : x = y := by
  by_cases hkx : key x = ⊥
  · rw [h.sorted.eq_singleton hx hkx] at hy
    exact (mem_singleton.mp hy).symm
  by_cases hky : key y = ⊥
  · rw [h.sorted.eq_singleton hy hky] at hx
    exact mem_singleton.mp hx
  refine h.sorted.sortedBy.eq_of_key hx hy ?_
  rw [← hmono hz (h.mem x hx) hzx hkx, hkey, hmono hz' (h.mem y hy) hzy hky]

/-- Elements of a keyed set with bounds in common are the same. -/
theorem KeySetOn.separated (h : KeySetOn P key small s) : Separated P le s := fun _ hx _ hy _ hz =>
  h.eq_of_below hmono hx hy hz hz rfl

end

theorem orderOn_keySet (ho : OrderOn P le)
    (hmono : ∀ {x y}, P x → P y → le x y → key y ≠ ⊥ → key x = key y) :
    OrderOn (KeySetOn P key small) (SetLe le) where
  refl hs := SetLe.refl ho hs.mem
  trans hs ht hu hst htu := SetLe.trans ho hs.mem ht.mem hu.mem hst htu
  antisymm hs ht hst hts := hs.sorted.sortedBy.ext ht.sorted.sortedBy fun x =>
    ⟨SetLe.subset ho hs.mem ht.mem (hs.separated hmono) hst hts x,
      SetLe.subset ho ht.mem hs.mem (ht.separated hmono) hts hst x⟩

theorem isMeet_keySet {u : List β} (hf : BoundOn P le f) (hs : KeySetOn P key small s)
    (ht : KeySetOn P key small t) (hsorted : KeySorted key u) (hsize : small u.length)
    (hu : ∀ z, z ∈ u ↔ ∃ x ∈ s, ∃ y ∈ t, f x y = some z) :
    IsMeet (KeySetOn P key small) (SetLe le) s t u := by
  obtain ⟨hP, hl, hr, hgreatest⟩ := setLe_meet hf hs.mem ht.mem hu
  exact ⟨⟨hP, hsorted, hsize⟩, hl, hr, fun hz => hgreatest _ hz.mem⟩

/-- Elements with keys: a merge is the join. -/
theorem isJoin_merge (ho : OrderOn P le) (hg : BoundOn P (flip le) fun x y => some (g x y))
    (hmono : ∀ {x y}, P x → P y → le x y → key y ≠ ⊥ → key x = key y)
    (hkey : ∀ {x y}, P x → P y → key x = key y → key (g x y) = key x)
    (hs : KeySetOn P key small s) (ht : KeySetOn P key small t) (hks : ∀ x ∈ s, key x ≠ ⊥)
    (hkt : ∀ x ∈ t, key x ≠ ⊥) (hsize : small (mergeBy key g s t).length) :
    IsMeet (KeySetOn P key small) (flip (SetLe le)) s t (mergeBy key g s t) := by
  have hmem := @mem_mergeBy _ _ _ key g s t hs.sorted.sortedBy ht.sorted.sortedBy
  have hlub : ∀ {x y}, x ∈ s → y ∈ t → P (g x y) ∧ le x (g x y) ∧ le y (g x y) := fun hx hy =>
    hg.bound (hs.mem _ hx) (ht.mem _ hy) rfl
  refine ⟨⟨fun z hz => ?_, ?_, hsize⟩, fun x hx => ?_, fun y hy => ?_,
    fun {z} hz hsz htz w hw => ?_⟩
  · rcases hmem.mp hz with ⟨hz, -⟩ | ⟨hz, -⟩ | ⟨x, hx, y, hy, -, rfl⟩
    · exact hs.mem z hz
    · exact ht.mem z hz
    · exact (hlub hx hy).1
  · refine SortedBy.keySorted (sortedBy_mergeBy hs.sorted.sortedBy ht.sorted.sortedBy
      fun x hx y hy => hkey (hs.mem x hx) (ht.mem y hy)) fun z hz => ?_
    rcases hmem.mp hz with ⟨hz, -⟩ | ⟨hz, -⟩ | ⟨x, hx, y, hy, hxy, rfl⟩
    · exact hks z hz
    · exact hkt z hz
    · rw [hkey (hs.mem x hx) (ht.mem y hy) hxy]
      exact hks x hx
  · by_cases hy : ∃ y ∈ t, key x = key y
    · obtain ⟨y, hy, hxy⟩ := hy
      exact ⟨g x y, hmem.mpr (.inr (.inr ⟨x, hx, y, hy, hxy, rfl⟩)), (hlub hx hy).2.1⟩
    · push Not at hy
      exact ⟨x, hmem.mpr (.inl ⟨hx, hy⟩), ho.refl (hs.mem x hx)⟩
  · by_cases hx : ∃ x ∈ s, key y = key x
    · obtain ⟨x, hx, hyx⟩ := hx
      exact ⟨g x y, hmem.mpr (.inr (.inr ⟨x, hx, y, hy, hyx.symm, rfl⟩)), (hlub hx hy).2.2⟩
    · push Not at hx
      exact ⟨y, hmem.mpr (.inr (.inl ⟨hy, hx⟩)), ho.refl (ht.mem y hy)⟩
  · rcases hmem.mp hw with ⟨hw, -⟩ | ⟨hw, -⟩ | ⟨x, hx, y, hy, hxy, rfl⟩
    · exact hsz w hw
    · exact htz w hw
    · -- both are below the same element, since they have the same key
      obtain ⟨v, hv, hxv⟩ := hsz x hx
      obtain ⟨v', hv', hyv⟩ := htz y hy
      obtain rfl := hz.eq_of_below hmono hv hv' (hs.mem x hx) (ht.mem y hy) hxy hxv hyv
      exact ⟨v, hv, hg.greatest_some (hs.mem x hx) (ht.mem y hy) (hz.mem v hv) hxv hyv⟩

/-- The keys of a merge are keys of the two sets. -/
theorem mergeBy_length_le {z : List β} (hs : SortedBy key s) (ht : SortedBy key t)
    (hkey : ∀ x ∈ s, ∀ y ∈ t, key x = key y → key (g x y) = key x)
    (hz : ∀ x ∈ s ++ t, ∃ w ∈ z, key x = key w) : (mergeBy key g s t).length ≤ z.length := by
  have hnodup : ((mergeBy key g s t).map key).Nodup :=
    pairwise_map.mpr ((sortedBy_mergeBy hs ht hkey).imp fun hlt => hlt.ne)
  have hsub : (mergeBy key g s t).map key ⊆ z.map key := by
    intro k hk
    obtain ⟨v, hv, rfl⟩ := mem_map.mp hk
    obtain ⟨x, hx, hvx⟩ : ∃ x ∈ s ++ t, key v = key x := by
      rcases (mem_mergeBy hs ht).mp hv with ⟨hv, -⟩ | ⟨hv, -⟩ | ⟨x, hx, y, hy, hxy, rfl⟩
      · exact ⟨v, mem_append_left _ hv, rfl⟩
      · exact ⟨v, mem_append_right _ hv, rfl⟩
      · exact ⟨x, mem_append_left _ hx, hkey x hx y hy hxy⟩
    obtain ⟨w, hw, hxw⟩ := hz x hx
    exact mem_map.mpr ⟨w, hw, (hvx.trans hxw).symm⟩
  simpa using (hnodup.subperm hsub).length_le

/-- Where an element has no key, or a merge is too large, one element is the join. -/
theorem isJoin_collapse (hmono : ∀ {x y}, P x → P y → le x y → key y ≠ ⊥ → key x = key y)
    (hkey : ∀ {x y}, P x → P y → key x = key y → key (g x y) = key x) (hs : KeySetOn P key small s)
    (ht : KeySetOn P key small t) (hone : small 1) (hdown : ∀ {m n}, m ≤ n → small n → small m)
    (hr : IsLubOf P le (s ++ t) r)
    (hc : (∃ x ∈ s ++ t, key x = ⊥) ∨ ¬ small (mergeBy key g s t).length) :
    IsMeet (KeySetOn P key small) (flip (SetLe le)) s t [r] := by
  have hmem : ∀ x ∈ s ++ t, P x := fun x hx => (mem_append.mp hx).elim (hs.mem x) (ht.mem x)
  refine ⟨⟨?_, keySorted_singleton r, hone⟩, fun x hx => ?_, fun x hx => ?_,
    fun {z} hz hsz htz => ?_⟩
  · exact fun x hx => mem_singleton.mp hx ▸ hr.mem
  · exact ⟨r, .head _, hr.upper x (mem_append_left _ hx)⟩
  · exact ⟨r, .head _, hr.upper x (mem_append_right _ hx)⟩
  have hbelow : ∀ x ∈ s ++ t, ∃ w ∈ z, le x w := fun x hx =>
    (mem_append.mp hx).elim (hsz x) (htz x)
  -- a single element above all is above the least upper bound
  have hsingle : ∀ {w}, z = [w] → SetLe le [r] z := by
    rintro w rfl x hx
    obtain rfl := mem_singleton.mp hx
    refine ⟨w, .head _, hr.least (hz.mem w (.head _)) fun x hx => ?_⟩
    obtain ⟨w', hw', hle⟩ := hbelow x hx
    exact mem_singleton.mp hw' ▸ hle
  rcases hc with ⟨x, hx, hkx⟩ | hlarge
  · obtain ⟨w, hw, hxw⟩ := hbelow x hx
    have hkw : key w = ⊥ := by
      by_contra hne
      exact hne ((hmono (hmem x hx) (hz.mem w hw) hxw hne).symm.trans hkx)
    exact hsingle (hz.sorted.eq_singleton hw hkw)
  · by_cases hzk : ∃ w ∈ z, key w = ⊥
    · obtain ⟨w, hw, hkw⟩ := hzk
      exact hsingle (hz.sorted.eq_singleton hw hkw)
    · push Not at hzk
      refine absurd (hdown (mergeBy_length_le hs.sorted.sortedBy ht.sorted.sortedBy
        (fun x hx y hy => hkey (hs.mem x hx) (ht.mem y hy)) fun x hx => ?_) hz.size) hlarge
      obtain ⟨w, hw, hxw⟩ := hbelow x hx
      exact ⟨w, hw, hmono (hmem x hx) (hz.mem w hw) hxw (hzk w hw)⟩

/-! ## Least upper bounds of lists -/

theorem IsLubOf.congr {l' : List β} (h : IsLubOf P le l r)
    (hl : ∀ {w}, P w → ((∀ x ∈ l, le x w) ↔ ∀ x ∈ l', le x w)) : IsLubOf P le l' r :=
  ⟨h.mem, (hl h.mem).mp h.upper, fun hw hle => h.least hw ((hl hw).mpr hle)⟩

theorem isLubOf_singleton (ho : OrderOn P le) (hx : P x) : IsLubOf P le [x] x := by
  refine ⟨hx, fun y hy => ?_, fun _ h => h x (.head _)⟩
  obtain rfl := mem_singleton.mp hy
  exact ho.refl hx

/-- An upper bound of a join is one of both elements. -/
theorem BoundOn.le_iff (ho : OrderOn P le) (hg : BoundOn P (flip le) fun x y => some (g x y))
    {y w : β} (hx : P x) (hy : P y) (hw : P w) : le (g x y) w ↔ le x w ∧ le y w := by
  obtain ⟨hP, hxg, hyg⟩ := hg.bound hx hy rfl
  constructor
  · exact fun h => ⟨ho.trans hx hP hw hxg h, ho.trans hy hP hw hyg h⟩
  · exact fun h => hg.greatest_some hx hy hw h.1 h.2

/-- Joining the elements of a list one by one. -/
theorem isLubOf_foldl (ho : OrderOn P le) (hg : BoundOn P (flip le) fun x y => some (g x y))
    (hl : ∀ x ∈ l, P x) (hr : P r) : IsLubOf P le (r :: l) (l.foldl (fun acc x => g x acc) r) := by
  induction l generalizing r with
  | nil => exact isLubOf_singleton ho hr
  | cons x l ih =>
    have hx := hl x (.head _)
    refine (ih (fun y hy => hl y (.tail _ hy)) (hg.bound hx hr rfl).1).congr fun {w} hw => ?_
    simp only [forall_mem_cons, BoundOn.le_iff ho hg hx hr hw]
    rw [and_assoc, and_left_comm]

end Keyed

end Otp.Lib
