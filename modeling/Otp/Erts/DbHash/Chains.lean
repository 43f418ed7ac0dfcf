import Otp.Erts.DbHash.Collection
import Otp.Lib.Grouped

/-!
# What the operations do to a chain

In a chain the terms of one key are adjacent, the newest first. So a chain falls
apart, for the key of an operation, into the terms before, those of the key and
those behind, and each operation replaces the terms of the key by others and
leaves the rest as it is. In a set there is one term of a key at most. In a bag a
live object stands before every pseudo deleted copy of it, which is why an insert
that finds a pseudo deleted copy first need not look further.
-/

namespace Otp.Erts.DbHash

open Otp.Lib List

variable {κ ω : Type*} {K : Keying κ ω} {type : TableType} {chain : List (HashDbTerm ω)}

/-- The keys along a chain. -/
def chainKeys (K : Keying κ ω) (chain : List (HashDbTerm ω)) : List κ :=
  chain.map fun t => K.key t.obj

/-- The terms of a key in a table of the given type. -/
structure GroupOk (type : TableType) (G : List (HashDbTerm ω)) : Prop where
  once : type = .set → G.length ≤ 1
  first : type = .bag → G.Pairwise fun a b => b.pseudoDeleted = false → a.obj ≠ b.obj

/-- A chain of a table of the given type. -/
structure ChainOk (K : Keying κ ω) (type : TableType) (chain : List (HashDbTerm ω)) : Prop where
  hashed : ∀ t ∈ chain, t.hvalue = K.makeHash (K.key t.obj)
  grouped : Grouped (chainKeys K chain)
  once : type = .set → (chainKeys K chain).Nodup
  first : type = .bag → chain.Pairwise fun a b => b.pseudoDeleted = false → a.obj ≠ b.obj

/-- The terms are those of the key. -/
def OfKey (K : Keying κ ω) (k : κ) (G : List (HashDbTerm ω)) : Prop :=
  ∀ t ∈ G, K.key t.obj = k ∧ t.hvalue = K.makeHash k

/-- No term is one of the key. -/
def FreeOf (K : Keying κ ω) (k : κ) (A : List (HashDbTerm ω)) : Prop :=
  ∀ t ∈ A, K.key t.obj ≠ k

theorem ChainOk.sublist {chain' : List (HashDbTerm ω)} (h : ChainOk K type chain)
    (hs : chain'.Sublist chain) : ChainOk K type chain' :=
  ⟨fun t ht => h.hashed t (hs.subset ht), h.grouped.sublist (hs.map _),
    fun hset => (h.once hset).sublist (hs.map _), fun hbag => (h.first hbag).sublist hs⟩

@[simp] theorem chainKeys_append (C D : List (HashDbTerm ω)) :
    chainKeys K (C ++ D) = chainKeys K C ++ chainKeys K D := map_append

/-- Chains without a common key may be joined. -/
theorem ChainOk.append {C D : List (HashDbTerm ω)} (hC : ChainOk K type C) (hD : ChainOk K type D)
    (hd : ∀ c ∈ C, ∀ d ∈ D, K.key c.obj ≠ K.key d.obj) : ChainOk K type (C ++ D) := by
  have hdis : (chainKeys K C).Disjoint (chainKeys K D) := by
    intro x hx hx'
    obtain ⟨c, hc, rfl⟩ := mem_map.mp hx
    obtain ⟨d, hd', hcd⟩ := mem_map.mp hx'
    exact hd c hc d hd' hcd.symm
  refine ⟨?_, ?_, ?_, ?_⟩
  · intro t ht
    obtain ht | ht := mem_append.mp ht
    · exact hC.hashed t ht
    · exact hD.hashed t ht
  · rw [chainKeys_append]
    exact hC.grouped.append_of_disjoint hD.grouped hdis
  · intro hset
    rw [chainKeys_append]
    exact (hC.once hset).append (hD.once hset) hdis
  · intro hbag
    refine pairwise_append.mpr ⟨hC.first hbag, hD.first hbag, ?_⟩
    intro c hc d hd' _ heq
    exact hd c hc d hd' (by rw [heq])

/-! ## Around the terms of a key -/

/-- A chain as the terms before those of the key, those of the key, and those behind. -/
structure Around (K : Keying κ ω) (k : κ) (A G B : List (HashDbTerm ω)) : Prop where
  before : FreeOf K k A
  group : OfKey K k G
  behind : FreeOf K k B
  last : G = [] → B = []

theorem ChainOk.around (h : ChainOk K type chain) (k : κ) :
    ∃ A G B, chain = A ++ G ++ B ∧ Around K k A G B := by
  obtain ⟨A, G, B, rfl, hA, hG, hB, hGB⟩ := h.grouped.split k
  refine ⟨A, G, B, rfl, hA, ?_, hB, hGB⟩
  intro t ht
  refine ⟨hG t ht, ?_⟩
  rw [← hG t ht]
  exact h.hashed t (by simp [ht])

section Around

variable {k : κ} {A G B : List (HashDbTerm ω)} {G' : List (HashDbTerm ω)}

theorem OfKey.mem_chainKeys (h : OfKey K k G) : ∀ x ∈ chainKeys K G, x = k := by
  intro x hx
  obtain ⟨t, ht, rfl⟩ := mem_map.mp hx
  exact (h t ht).1

theorem FreeOf.notMem_chainKeys (h : FreeOf K k A) : k ∉ chainKeys K A := by
  intro hk
  obtain ⟨t, ht, htk⟩ := mem_map.mp hk
  exact h t ht htk

/-- The terms of the key may be replaced by others of it. -/
theorem ChainOk.regroup (h : ChainOk K type (A ++ G ++ B)) (ha : Around K k A G B)
    (hG' : OfKey K k G') (hok : GroupOk type G') : ChainOk K type (A ++ G' ++ B) := by
  refine ⟨?_, ?_, ?_, ?_⟩
  · intro t ht
    simp only [mem_append] at ht
    obtain (ht | ht) | ht := ht
    · exact h.hashed t (by simp [ht])
    · rw [(hG' t ht).1]
      exact (hG' t ht).2
    · exact h.hashed t (by simp [ht])
  · have hg := h.grouped
    simp only [chainKeys_append] at hg ⊢
    refine hg.regroup ha.before.notMem_chainKeys ha.group.mem_chainKeys hG'.mem_chainKeys ?_
    intro hnil
    rw [ha.last (map_eq_nil_iff.mp hnil)]
    rfl
  · intro hset
    have hnd := h.once hset
    have hlen := hok.once hset
    simp only [chainKeys_append, append_assoc, nodup_append] at hnd ⊢
    obtain ⟨hA, ⟨-, hB, -⟩, hdis⟩ := hnd
    refine ⟨hA, ⟨?_, hB, ?_⟩, ?_⟩
    · match G', hlen with
      | [], _ => exact nodup_nil
      | [t], _ => exact nodup_singleton _
    · intro x hx y hy hxy
      rw [← hxy, hG'.mem_chainKeys x hx] at hy
      exact ha.behind.notMem_chainKeys hy
    · intro x hx y hy hxy
      obtain hy | hy := mem_append.mp hy
      · rw [hxy, hG'.mem_chainKeys y hy] at hx
        exact ha.before.notMem_chainKeys hx
      · exact hdis x hx y (mem_append_right _ hy) hxy
  · intro hbag
    have hp := h.first hbag
    have hG := hok.first hbag
    simp only [append_assoc, pairwise_append] at hp ⊢
    obtain ⟨hA, ⟨-, hB, -⟩, hAB⟩ := hp
    refine ⟨hA, ⟨hG, hB, ?_⟩, ?_⟩
    · intro a ha' b hb _ heq
      exact ha.behind b hb (heq ▸ (hG' a ha').1)
    · intro a ha' b hb hlive heq
      obtain hb | hb := mem_append.mp hb
      · exact ha.before a ha' (heq ▸ (hG' b hb).1)
      · exact hAB a ha' b (mem_append_right _ hb) hlive heq

theorem Around.groupOk (ha : Around K k A G B) (h : ChainOk K type (A ++ G ++ B)) :
    GroupOk type G := by
  constructor
  · intro hset
    have hnd := h.once hset
    simp only [chainKeys_append, append_assoc, nodup_append] at hnd
    have hG := hnd.2.1.1
    rw [eq_replicate_of_mem ha.group.mem_chainKeys] at hG
    simpa [chainKeys] using hG
  · intro hbag
    have hp := h.first hbag
    simp only [append_assoc, pairwise_append] at hp
    exact hp.2.1.1

variable [DecidableEq κ] {k' : κ}

/-- The live objects of a key in a chain, in the order of their insertion. -/
def liveObjects (K : Keying κ ω) (k : κ) (chain : List (HashDbTerm ω)) : List ω :=
  buildTermList (chain.filter fun t => K.key t.obj = k)

theorem FreeOf.filter_eq_nil (h : FreeOf K k A) : (A.filter fun t => K.key t.obj = k) = [] := by
  rw [filter_eq_nil_iff]
  intro t ht
  simpa using h t ht

theorem OfKey.filter_eq_self (h : OfKey K k G) : (G.filter fun t => K.key t.obj = k) = G := by
  rw [List.filter_eq_self]
  intro t ht
  simpa using (h t ht).1

theorem Around.liveObjects_self (h : Around K k A G B) (hG' : OfKey K k G') :
    liveObjects K k (A ++ G' ++ B) = buildTermList G' := by
  unfold liveObjects
  rw [filter_append, filter_append, h.before.filter_eq_nil, hG'.filter_eq_self,
    h.behind.filter_eq_nil, nil_append, append_nil]

theorem OfKey.filter_eq_nil (h : OfKey K k G) (hk : k' ≠ k) :
    (G.filter fun t => K.key t.obj = k') = [] := by
  rw [filter_eq_nil_iff]
  intro t ht
  simpa [(h t ht).1] using hk.symm

/-- The other keys do not see the terms of the key. -/
theorem liveObjects_ne (hG : OfKey K k G) (hG' : OfKey K k G') (hk : k' ≠ k) :
    liveObjects K k' (A ++ G' ++ B) = liveObjects K k' (A ++ G ++ B) := by
  unfold liveObjects
  simp only [filter_append, hG.filter_eq_nil hk, hG'.filter_eq_nil hk]

end Around

/-- The chain `chain'` has other terms of the key `k`, with these objects. Where the table is
fixed some term of the key stays, and only where terms are marked there are new pseudo deleted
ones. -/
def Replaces (K : Keying κ ω) (type : TableType) (k : κ) (chain chain' : List (HashDbTerm ω))
    (fixed marks : Bool) (objects : List ω) : Prop :=
  ∃ A G G' B, chain = A ++ G ++ B ∧ chain' = A ++ G' ++ B ∧ Around K k A G B ∧ OfKey K k G' ∧
    GroupOk type G' ∧ (fixed = true → G ≠ [] → G' ≠ []) ∧
    (marks = false → ∀ t ∈ G', t.pseudoDeleted = true → t ∈ G) ∧ buildTermList G' = objects

namespace Replaces

variable {k : κ} {chain chain' : List (HashDbTerm ω)} {fixed marks : Bool} {objects : List ω}
  {t : HashDbTerm ω}

section

variable (h : Replaces K type k chain chain' fixed marks objects)

include h

theorem chainOk (hc : ChainOk K type chain) : ChainOk K type chain' := by
  obtain ⟨A, G, G', B, rfl, rfl, ha, hG', hok, -⟩ := h
  exact hc.regroup ha hG' hok

theorem mem_or (ht : t ∈ chain') :
    t ∈ chain ∨ (K.key t.obj = k ∧ t.hvalue = K.makeHash k) := by
  obtain ⟨A, G, G', B, rfl, rfl, -, hG', -⟩ := h
  simp only [mem_append] at ht ⊢
  obtain (ht | ht) | ht := ht
  · exact .inl (.inl (.inl ht))
  · exact .inr (hG' t ht)
  · exact .inl (.inr ht)

end

theorem mem_of_pseudoDeleted (h : Replaces K type k chain chain' fixed false objects)
    (ht : t ∈ chain') (hpd : t.pseudoDeleted = true) : t ∈ chain := by
  obtain ⟨A, G, G', B, rfl, rfl, -, -, -, -, hmark, -⟩ := h
  simp only [mem_append] at ht ⊢
  obtain (ht | ht) | ht := ht
  · exact .inl (.inl ht)
  · exact .inl (.inr (hmark rfl t ht hpd))
  · exact .inr ht

variable [DecidableEq κ]

variable (h : Replaces K type k chain chain' fixed marks objects)

include h

theorem liveObjects_self :
    liveObjects K k chain' = objects := by
  obtain ⟨A, G, G', B, rfl, rfl, ha, hG', -, -, -, hobj⟩ := h
  rw [ha.liveObjects_self hG', hobj]

theorem liveObjects_ne {k' : κ} (hk : k' ≠ k) :
    liveObjects K k' chain' = liveObjects K k' chain := by
  obtain ⟨A, G, G', B, rfl, rfl, ha, hG', -⟩ := h
  exact DbHash.liveObjects_ne ha.group hG' hk

end Replaces

section Operations

variable {k : κ} {A B G : List (HashDbTerm ω)} {t b : HashDbTerm ω}

theorem OfKey.tail (h : OfKey K k (b :: G)) : OfKey K k G := fun t ht => h t (mem_cons_of_mem _ ht)

theorem FreeOf.tail (h : FreeOf K k (b :: A)) : FreeOf K k A :=
  fun t ht => h t (mem_cons_of_mem _ ht)

variable [DecidableEq κ]

theorem hasKey_of_ofKey (h : OfKey K k G) (ht : t ∈ G) : hasKey K t k (K.makeHash k) = true := by
  simp [hasKey, h t ht]

theorem hasKey_of_freeOf (h : FreeOf K k A) (ht : t ∈ A) (hval : ℕ) :
    hasKey K t k hval = false := by
  simp [hasKey, h t ht]

theorem hasLiveKey_of_ofKey (h : OfKey K k G) (ht : t ∈ G) :
    hasLiveKey K t k (K.makeHash k) = !t.pseudoDeleted := by
  simp [hasLiveKey, h t ht]

theorem hasLiveKey_of_freeOf (h : FreeOf K k A) (ht : t ∈ A) (hval : ℕ) :
    hasLiveKey K t k hval = false := by
  simp [hasLiveKey, h t ht]

/-! ## Looking up -/

theorem mem_buildTermList {obj : ω} :
    obj ∈ buildTermList G ↔ ∃ t ∈ G, t.pseudoDeleted = false ∧ t.obj = obj := by
  simp only [buildTermList, mem_reverse, mem_map, mem_filter, Bool.not_eq_true']
  constructor
  · rintro ⟨t, ⟨ht, hl⟩, ho⟩
    exact ⟨t, ht, hl, ho⟩
  · rintro ⟨t, ht, hl, ho⟩
    exact ⟨t, ⟨ht, hl⟩, ho⟩

theorem buildTermList_cons_live (h : t.pseudoDeleted = false) :
    buildTermList (t :: G) = buildTermList G ++ [t.obj] := by
  simp [buildTermList, h]

theorem buildTermList_cons_pseudo (h : t.pseudoDeleted = true) :
    buildTermList (t :: G) = buildTermList G := by
  simp [buildTermList, h]

/-- A set has one term of a key. -/
theorem GroupOk.eq_nil (h : GroupOk .set (b :: G)) : G = [] := by
  have hlen := h.once rfl
  cases G with
  | nil => rfl
  | cons g G => simp at hlen

theorem liveObjects_cons : liveObjects K k (t :: G) =
    liveObjects K k G ++ if K.key t.obj = k ∧ t.pseudoDeleted = false then [t.obj] else [] := by
  unfold liveObjects
  by_cases hk : K.key t.obj = k
  · rw [filter_cons_of_pos (by simpa using hk)]
    cases hpd : t.pseudoDeleted with
    | true => simp [buildTermList_cons_pseudo hpd]
    | false => simp [buildTermList_cons_live hpd, hk]
  · simp [hk]

theorem takeWhile_group (hG : OfKey K k G) (hB : FreeOf K k B) :
    (G ++ B).takeWhile (hasKey K · k (K.makeHash k)) = G ∧
      (G ++ B).dropWhile (hasKey K · k (K.makeHash k)) = B := by
  have hBt : B.takeWhile (hasKey K · k (K.makeHash k)) = [] ∧
      B.dropWhile (hasKey K · k (K.makeHash k)) = B := by
    cases B with
    | nil => exact ⟨rfl, rfl⟩
    | cons b B =>
      have hb := hasKey_of_freeOf hB mem_cons_self (K.makeHash k)
      rw [takeWhile_cons_of_neg (by simp [hb]), dropWhile_cons_of_neg (by simp [hb])]
      exact ⟨rfl, rfl⟩
  have hall : ∀ t ∈ G, hasKey K t k (K.makeHash k) = true := fun t ht => hasKey_of_ofKey hG ht
  rw [takeWhile_append_of_pos hall, dropWhile_append_of_pos hall, hBt.1, hBt.2]
  exact ⟨append_nil G, rfl⟩

/-- From the first live term of the key on, the terms of the key are those of the group. -/
theorem termsOfKey_group (hG : OfKey K k (b :: G)) (hB : FreeOf K k B)
    (hok : GroupOk type (b :: G)) :
    termsOfKey K type k (K.makeHash k) b (G ++ B) = (b :: G, B) := by
  obtain ⟨htake, hdrop⟩ := takeWhile_group hG.tail hB
  cases type with
  | set =>
    rw [hok.eq_nil]
    rfl
  | bag | duplicateBag => simp only [termsOfKey, htake, hdrop]

theorem GroupOk.tail (h : GroupOk type (b :: G)) : GroupOk type G := by
  constructor
  · intro hset
    have := h.once hset
    simp only [length_cons] at this
    omega
  · intro hbag
    exact (pairwise_cons.mp (h.first hbag)).2

theorem getLoop_freeOf (type : TableType) (hA : FreeOf K k A) (C : List (HashDbTerm ω)) :
    getLoop K type k (K.makeHash k) (A ++ C) = getLoop K type k (K.makeHash k) C := by
  induction A with
  | nil => rfl
  | cons a A ih =>
    rw [cons_append, getLoop, hasLiveKey_of_freeOf hA mem_cons_self, if_neg (by simp), ih hA.tail]

theorem getLoop_group (hG : OfKey K k G) (hB : FreeOf K k B) (hok : GroupOk type G) :
    getLoop K type k (K.makeHash k) (G ++ B) = buildTermList G := by
  induction G with
  | nil =>
    have h := getLoop_freeOf type hB []
    rw [append_nil] at h
    rw [nil_append, h]
    rfl
  | cons b G ih =>
    rw [cons_append, getLoop, hasLiveKey_of_ofKey hG mem_cons_self]
    cases hpd : b.pseudoDeleted with
    | true =>
      rw [if_neg (by simp), ih hG.tail hok.tail, buildTermList_cons_pseudo hpd]
    | false => rw [if_pos (by simp), termsOfKey_group hG hB hok]

/-- **Lookup.** A lookup in a chain finds the live objects of the key. -/
theorem getLoop_eq (h : ChainOk K type chain) (k : κ) :
    getLoop K type k (K.makeHash k) chain = liveObjects K k chain := by
  obtain ⟨A, G, B, rfl, ha⟩ := h.around k
  rw [ha.liveObjects_self ha.group, append_assoc, getLoop_freeOf type ha.before,
    getLoop_group ha.group ha.behind (ha.groupOk h)]

end Operations

end Otp.Erts.DbHash
