import Mathlib

/-!
# Association lists sorted by key

Finite maps over a totally preordered type of keys: keys that are neither below
nor above each other count as the same, though they may differ.  A stored entry
keeps its own key, so a map is a function from keys to entries.

`find`, `put` and `erase` work on sorted lists of entries; `Entries` is the same
thing without a representation.  The `_append` lemmas say how they act on a list
that is cut at an entry, which is what a search tree does.
-/

namespace Otp.Lib.SortedAssoc

open List

variable {K V : Type*} [Preorder K] {e : K × V} {l a : List (K × V)} {v : V}

/-- Entries with strictly increasing keys. -/
def Sorted (l : List (K × V)) : Prop := l.Pairwise fun a b => a.1 < b.1

theorem sorted_cons : Sorted (e :: l) ↔ (∀ x ∈ l, e.1 < x.1) ∧ Sorted l :=
  pairwise_cons

/-- A list cut at an entry. -/
theorem sorted_append_cons {b : List (K × V)} :
    Sorted (a ++ e :: b) ↔
      Sorted a ∧ Sorted b ∧ (∀ x ∈ a, x.1 < e.1) ∧ (∀ x ∈ b, e.1 < x.1) := by
  simp only [Sorted, pairwise_append, pairwise_cons, mem_cons]
  constructor
  · rintro ⟨ha, ⟨heb, hb⟩, hab⟩
    exact ⟨ha, hb, fun x hx => hab x hx e (.inl rfl), heb⟩
  · rintro ⟨ha, hb, hae, heb⟩
    refine ⟨ha, ⟨heb, hb⟩, fun x hx y hy => ?_⟩
    rcases hy with rfl | hy
    · exact hae x hx
    · exact (hae x hx).trans (heb y hy)

/-- Two keys that no comparison tells apart. -/
def Same (a b : K) : Prop := ¬ a < b ∧ ¬ b < a

section Order

variable [Std.Total (α := K) (· ≤ ·)] {a b c : K}

theorem le_of_not_lt (h : ¬ a < b) : b ≤ a := by
  rcases Std.Total.total (r := (· ≤ ·)) b a with hle | hle
  · exact hle
  · by_contra hn
    exact h (lt_of_le_not_ge hle hn)

theorem lt_of_lt_of_not_lt (h : a < b) (h' : ¬ c < b) : a < c :=
  h.trans_le (le_of_not_lt h')

theorem lt_of_not_lt_of_lt (h : ¬ b < a) (h' : b < c) : a < c :=
  (le_of_not_lt h).trans_lt h'

/-- Keys that are the same compare alike with every key. -/
theorem Same.lt_iff (h : Same a b) (c : K) : (a < c ↔ b < c) ∧ (c < a ↔ c < b) :=
  ⟨⟨fun hac => lt_of_not_lt_of_lt h.1 hac, fun hbc => lt_of_not_lt_of_lt h.2 hbc⟩,
    fun hca => lt_of_lt_of_not_lt hca h.2, fun hcb => lt_of_lt_of_not_lt hcb h.1⟩

end Order

variable [DecidableLT K] {k : K}

instance (a b : K) : Decidable (Same a b) := inferInstanceAs (Decidable (_ ∧ _))

/-- The entry under a key. -/
def find (k : K) : List (K × V) → Option (K × V)
  | [] => none
  | e :: l =>
    if k < e.1 then none
    else if e.1 < k then find k l
    else some e

/-- The list with an entry added, in place of the one with the same key. -/
def put (k : K) (v : V) : List (K × V) → List (K × V)
  | [] => [(k, v)]
  | e :: l =>
    if k < e.1 then (k, v) :: e :: l
    else if e.1 < k then e :: put k v l
    else (k, v) :: l

/-- The list without the entry under a key. -/
def erase (k : K) : List (K × V) → List (K × V)
  | [] => []
  | e :: l =>
    if k < e.1 then e :: l
    else if e.1 < k then e :: erase k l
    else l

/-! ## Finite maps without a representation -/

/-- A finite map: the entry, with its own key, under every key. -/
def Entries (K V : Type*) := K → Option (K × V)

namespace Entries

/-- No entry. -/
def empty : Entries K V := fun _ => none

/-- One more entry, in place of the one with the same key. -/
def put (k : K) (v : V) (m : Entries K V) : Entries K V :=
  fun x => if Same x k then some (k, v) else m x

/-- One entry less. -/
def erase (k : K) (m : Entries K V) : Entries K V :=
  fun x => if Same x k then none else m x

/-- All values changed in place. -/
def map (f : K → V → V) (m : Entries K V) : Entries K V :=
  fun x => (m x).map fun e => (e.1, f e.1 e.2)

/-- The entry with the smallest key. -/
def IsLeast (m : Entries K V) (e : K × V) : Prop :=
  m e.1 = some e ∧ ∀ x e', m x = some e' → e.1 ≤ e'.1

/-- The entry with the greatest key. -/
def IsGreatest (m : Entries K V) (e : K × V) : Prop :=
  m e.1 = some e ∧ ∀ x e', m x = some e' → e'.1 ≤ e.1

end Entries

/-! ## Membership -/

theorem mem_put (h : e ∈ put k v l) : e = (k, v) ∨ e ∈ l := by
  induction l with
  | nil => simpa [put] using h
  | cons y l ih =>
    simp only [put] at h
    split_ifs at h <;> simp only [mem_cons] at h ⊢ <;> tauto

theorem erase_sublist (k : K) (l : List (K × V)) : (erase k l).Sublist l := by
  induction l with
  | nil => exact List.Sublist.refl _
  | cons y l ih =>
    simp only [erase]
    split_ifs
    · exact List.Sublist.refl _
    · exact ih.cons_cons y
    · exact sublist_cons_self y l

theorem sorted_erase (hs : Sorted l) : Sorted (erase k l) :=
  hs.sublist (erase_sublist k l)

theorem mem_of_find (h : find k l = some e) : e ∈ l := by
  induction l with
  | nil => cases h
  | cons y l ih =>
    simp only [find] at h
    split_ifs at h with hky hyk
    · exact mem_cons_of_mem _ (ih h)
    · cases h
      exact mem_cons_self

/-- An entry is found under its own key. -/
theorem find_of_mem (hs : Sorted l) (h : e ∈ l) : find e.1 l = some e := by
  induction l with
  | nil => cases h
  | cons y l ih =>
    obtain ⟨hlt, hs'⟩ := sorted_cons.1 hs
    simp only [find]
    rcases mem_cons.1 h with rfl | h
    · simp only [lt_irrefl, if_false]
    · simp only [hlt e h, (hlt e h).not_gt, if_true, if_false, ih hs' h]

theorem mem_iff_find (hs : Sorted l) : e ∈ l ↔ find e.1 l = some e :=
  ⟨find_of_mem hs, mem_of_find⟩

theorem find_map (f : K → V → V) (k : K) (l : List (K × V)) :
    find k (l.map fun e => (e.1, f e.1 e.2)) = (find k l).map fun e => (e.1, f e.1 e.2) := by
  induction l with
  | nil => rfl
  | cons y l ih =>
    simp only [map_cons, find, ih]
    split_ifs <;> rfl

theorem length_put_of_none (h : (find k l).isSome = false) : (put k v l).length = l.length + 1 := by
  induction l with
  | nil => rfl
  | cons y l ih =>
    simp only [find, put] at *
    split_ifs at * with hky hyk
    · rfl
    · simp [ih h]
    · cases h

theorem length_put_of_some (h : (find k l).isSome) : (put k v l).length = l.length := by
  induction l with
  | nil => cases h
  | cons y l ih =>
    simp only [find, put] at *
    split_ifs at * with hky hyk
    · cases h
    · simp [ih h]
    · rfl

theorem length_erase_of_some (h : (find k l).isSome) : (erase k l).length = l.length - 1 := by
  induction l with
  | nil => cases h
  | cons y l ih =>
    simp only [find, erase] at *
    split_ifs at * with hky hyk
    · cases h
    · cases l with
      | nil => cases h
      | cons z l => simp [ih h]
    · rfl

theorem erase_of_none (h : (find k l).isSome = false) : erase k l = l := by
  induction l with
  | nil => rfl
  | cons y l ih =>
    simp only [find, erase] at *
    split_ifs at * with hky hyk
    · rfl
    · rw [ih h]
    · cases h

/-- An entry above all others is put at the end. -/
theorem put_of_forall_lt (h : ∀ e ∈ l, e.1 < k) : put k v l = l ++ [(k, v)] := by
  induction l with
  | nil => rfl
  | cons y l ih =>
    have hyk := h y mem_cons_self
    simp only [put, hyk, hyk.not_gt, if_true, if_false, cons_append]
    rw [ih fun e he => h e (mem_cons_of_mem y he)]

/-- Sorted entries, put one after the other, make the list they come from. -/
theorem foldl_put_of_sorted (hs : Sorted (a ++ l)) :
    l.foldl (fun acc e => put e.1 e.2 acc) a = a ++ l := by
  induction l generalizing a with
  | nil => simp
  | cons e l ih =>
    have hlt : ∀ x ∈ a, x.1 < e.1 := (sorted_append_cons.1 hs).2.2.1
    rw [foldl_cons, put_of_forall_lt hlt, ih (by simpa using hs)]
    simp

/-! ## Sorted lists as finite maps -/

/-- The finite map of a list. -/
def toEntries (l : List (K × V)) : Entries K V := fun x => find x l

theorem isLeast_cons (hs : Sorted (e :: l)) : (toEntries (e :: l)).IsLeast e := by
  refine ⟨find_of_mem hs mem_cons_self, fun x e' he' => ?_⟩
  rcases mem_cons.1 (mem_of_find he') with rfl | hmem
  · exact le_refl _
  · exact ((sorted_cons.1 hs).1 e' hmem).le

theorem erase_cons (e : K × V) (l : List (K × V)) : erase e.1 (e :: l) = l := by
  simp only [erase, lt_irrefl, if_false]

theorem isGreatest_concat (hs : Sorted (l ++ [e])) : (toEntries (l ++ [e])).IsGreatest e := by
  refine ⟨find_of_mem hs (by simp), fun x e' he' => ?_⟩
  rcases mem_append.1 (mem_of_find he') with hmem | hmem
  · exact ((sorted_append_cons.1 hs).2.2.1 e' hmem).le
  · rw [mem_singleton.1 hmem]

/-! ## Facts that need a total order -/

section Total

variable [Std.Total (α := K) (· ≤ ·)]

/-! ### Lists cut at an entry -/

variable {a b l : List (K × V)} {e : K × V} {k x : K} {v : V} {e' : K × V}

theorem ops_append_cons (hs : Sorted (a ++ e :: b)) :
    find k (a ++ e :: b) = (if k < e.1 then find k a else if e.1 < k then find k b else some e) ∧
    (∀ v, put k v (a ++ e :: b) =
      if k < e.1 then put k v a ++ e :: b
      else if e.1 < k then a ++ e :: put k v b
      else a ++ (k, v) :: b) ∧
    erase k (a ++ e :: b) =
      if k < e.1 then erase k a ++ e :: b
      else if e.1 < k then a ++ e :: erase k b
      else a ++ b := by
  induction a with
  | nil =>
    refine ⟨rfl, fun v => ?_, rfl⟩
    simp only [nil_append, put]
    split_ifs <;> rfl
  | cons y a ih =>
    obtain ⟨hlt, hs'⟩ := sorted_cons.1 hs
    have hye : y.1 < e.1 := hlt e (by simp)
    obtain ⟨hfind, hput, herase⟩ := ih hs'
    simp only [cons_append, find, put, erase, hfind, hput, herase]
    by_cases hke : k < e.1
    · simp only [hke, if_true, true_and]
      exact ⟨fun v => by split_ifs <;> rfl, by split_ifs <;> rfl⟩
    · have hyk := lt_of_lt_of_not_lt hye hke
      simp only [hke, hyk, hyk.not_gt, if_true, if_false, true_and]
      exact ⟨fun v => by split_ifs <;> rfl, by split_ifs <;> rfl⟩

/-! ### The lists stay sorted -/

section

variable (hs : Sorted l)

include hs

theorem sorted_put : Sorted (put k v l) := by
  induction l with
  | nil => simp [put, Sorted]
  | cons y l ih =>
    obtain ⟨hlt, hs'⟩ := sorted_cons.1 hs
    simp only [put]
    split_ifs with hky hyk
    · refine sorted_cons.2 ⟨fun z hz => ?_, hs⟩
      rcases mem_cons.1 hz with rfl | hz
      · exact hky
      · exact hky.trans (hlt z hz)
    · refine sorted_cons.2 ⟨fun z hz => ?_, ih hs'⟩
      rcases mem_put hz with rfl | hz
      · exact hyk
      · exact hlt z hz
    · exact sorted_cons.2 ⟨fun z hz => lt_of_not_lt_of_lt hyk (hlt z hz), hs'⟩

/-! ### What is found -/

theorem find_put : find x (put k v l) = if Same x k then some (k, v) else find x l := by
  induction l with
  | nil =>
    simp only [put, find, Same]
    by_cases hxk : x < k <;> by_cases hkx : k < x <;> simp [hxk, hkx]
  | cons y l ih =>
    obtain ⟨-, hs'⟩ := sorted_cons.1 hs
    by_cases hky : k < y.1
    · -- the entry goes before `y`, so a smaller key finds nothing
      by_cases hxk : x < k
      · simp [put, find, Same, hky, hxk, hxk.trans hky]
      · by_cases hkx : k < x <;> simp [put, find, Same, hky, hxk, hkx]
    · by_cases hyk : y.1 < k
      · simp only [put, find, hky, hyk, if_false, if_true, ih hs']
        by_cases hsame : Same x k
        · simp [hsame, (hsame.lt_iff y.1).2.2 hyk, ((hsame.lt_iff y.1).2.2 hyk).not_gt]
        · simp only [hsame, if_false]
      · -- the entry takes the place of `y`
        obtain ⟨hlt, hgt⟩ := Same.lt_iff ⟨hky, hyk⟩ x
        simp only [put, find, hky, hyk, if_false, Same, hlt, hgt]
        by_cases hxy : x < y.1 <;> by_cases hyx : y.1 < x <;> simp [hxy, hyx]

theorem find_erase : find x (erase k l) = if Same x k then none else find x l := by
  induction l with
  | nil => simp [erase, find]
  | cons y l ih =>
    obtain ⟨hlt, hs'⟩ := sorted_cons.1 hs
    by_cases hky : k < y.1
    · simp only [erase, hky, if_true]
      split_ifs with hsame
      · simp [find, (hsame.lt_iff y.1).1.2 hky]
      · rfl
    · by_cases hyk : y.1 < k
      · simp only [erase, find, hky, hyk, if_false, if_true, ih hs']
        by_cases hsame : Same x k
        · simp [hsame, (hsame.lt_iff y.1).2.2 hyk, ((hsame.lt_iff y.1).2.2 hyk).not_gt]
        · simp only [hsame, if_false]
      · -- `y` goes: only the keys above it are still looked for behind it
        obtain ⟨hlt', hgt'⟩ := Same.lt_iff ⟨hky, hyk⟩ x
        have hnone (h : ¬ y.1 < x) : find x l = none := by
          cases l with
          | nil => rfl
          | cons z l =>
            simp only [find, lt_of_not_lt_of_lt h (hlt z mem_cons_self), if_true]
        simp only [erase, find, hky, hyk, if_false, Same, hlt', hgt']
        by_cases hxy : x < y.1
        · simp [hxy, hnone hxy.not_gt]
        · by_cases hyx : y.1 < x
          · simp [hxy, hyx]
          · simp [hxy, hyx, hnone hyx]

/-! ### Sorted lists as finite maps -/

theorem toEntries_put : toEntries (put k v l) = (toEntries l).put k v :=
  funext fun _ => find_put hs

theorem toEntries_erase : toEntries (erase k l) = (toEntries l).erase k :=
  funext fun _ => find_erase hs

/-- The map of a list to which entries are added one after the other. -/
theorem toEntries_foldl_put (l' : List (K × V)) :
    Sorted (l'.foldl (fun acc e => put e.1 e.2 acc) l) ∧
    toEntries (l'.foldl (fun acc e => put e.1 e.2 acc) l) =
      l'.foldl (fun m e => m.put e.1 e.2) (toEntries l) := by
  induction l' generalizing l with
  | nil => exact ⟨hs, rfl⟩
  | cons y l' ih =>
    have := ih (sorted_put (k := y.1) (v := y.2) hs)
    rwa [toEntries_put hs] at this

end

theorem find_congr {y : K} (h : Same x y) (l : List (K × V)) : find x l = find y l := by
  induction l with
  | nil => rfl
  | cons z l ih => simp only [find, (h.lt_iff z.1).1, (h.lt_iff z.1).2, ih]

/-- A map has one least entry. -/
theorem eq_of_same (h : find e.1 l = some e) (h' : find e'.1 l = some e') (hsame : Same e.1 e'.1) :
    e = e' := by
  rw [find_congr hsame, h'] at h
  exact (Option.some.inj h).symm

theorem isLeast_unique (h : (toEntries l).IsLeast e) (h' : (toEntries l).IsLeast e') : e = e' := by
  refine eq_of_same h.1 h'.1 ⟨fun hlt => ?_, fun hlt => ?_⟩
  · exact (h'.2 _ _ h.1).not_gt hlt
  · exact (h.2 _ _ h'.1).not_gt hlt

/-- A map has one greatest entry. -/
theorem isGreatest_unique (h : (toEntries l).IsGreatest e) (h' : (toEntries l).IsGreatest e') :
    e = e' := by
  refine eq_of_same h.1 h'.1 ⟨fun hlt => ?_, fun hlt => ?_⟩
  · exact (h.2 _ _ h'.1).not_gt hlt
  · exact (h'.2 _ _ h.1).not_gt hlt

theorem erase_concat (hs : Sorted (l ++ [e])) : erase e.1 (l ++ [e]) = l := by
  rw [(ops_append_cons hs).2.2]
  simp only [lt_irrefl, if_false, append_nil]

end Total

end Otp.Lib.SortedAssoc
