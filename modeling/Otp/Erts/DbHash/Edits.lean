import Otp.Erts.DbHash.Chains

/-!
# Insertions and deletions in a chain

Each operation, applied to a chain, replaces the terms of its key: one lemma says
which objects the key has afterwards, that a term of the key is left if the table
is fixed, and that only a deletion in a fixed table leaves new pseudo deleted
terms.
-/

namespace Otp.Erts.DbHash

open Otp.Lib List

variable {κ ω : Type*} {K : Keying κ ω} {type : TableType} {k : κ}
  {A B G : List (HashDbTerm ω)} {t b : HashDbTerm ω} {obj : ω} {clash fixed : Bool}
  {chain : List (HashDbTerm ω)} {hval : ℕ}

/-! ## Insertion -/

/-- The same for a chain with more terms before. -/
def Put.prepend (A : List (HashDbTerm ω)) : Put ω → Put ω
  | .done chain diff => .done (A ++ chain) diff
  | .clash => .clash
  | .new chain => .new (A ++ chain)

/-- The result is a clash with `Q`, or a chain with `P`. -/
def Put.Meets (P : List (HashDbTerm ω) → Prop) (Q : Prop) : Put ω → Prop
  | .done chain _ => P chain
  | .clash => Q
  | .new chain => P chain

theorem Put.Meets.prepend {P : List (HashDbTerm ω) → Prop} {Q : Prop} {r : Put ω}
    (h : r.Meets (fun c => P (A ++ c)) Q) : (r.prepend A).Meets P Q := by
  cases r <;> exact h

theorem ofKey_new (hG : OfKey K (K.key obj) G) :
    OfKey K (K.key obj) (⟨K.makeHash (K.key obj), obj, false⟩ :: G) :=
  forall_mem_cons.mpr ⟨⟨rfl, rfl⟩, hG⟩

section Insertion

variable [DecidableEq ω]

/-- What an insertion may make of the terms of the key. -/
structure PutGroup (K : Keying κ ω) (type : TableType) (obj : ω) (clash : Bool)
    (G G' : List (HashDbTerm ω)) : Prop where
  ofKey : OfKey K (K.key obj) G'
  groupOk : GroupOk type G'
  ne_nil : G' ≠ []
  pseudo : ∀ t ∈ G', t.pseudoDeleted = true → t ∈ G
  allowed : ¬ (clash = true ∧ buildTermList G ≠ [])
  objects : buildTermList G' = putObjects type obj (buildTermList G)

/-- A new term before the others, where the type allows several. -/
theorem putGroup_new (hG : OfKey K (K.key obj) G) (hset : type = .set → G = [])
    (hbag : type = .bag → G.Pairwise fun a b => b.pseudoDeleted = false → a.obj ≠ b.obj)
    (hfresh : type = .bag → ∀ t ∈ G, t.pseudoDeleted = false → t.obj ≠ obj)
    (hc : ¬ (clash = true ∧ buildTermList G ≠ [])) :
    PutGroup K type obj clash G (⟨K.makeHash (K.key obj), obj, false⟩ :: G) := by
  refine ⟨ofKey_new hG, ⟨?_, ?_⟩, by simp, ?_, hc, ?_⟩
  · intro h
    simp [hset h]
  · intro h
    refine pairwise_cons.mpr ⟨?_, hbag h⟩
    intro t ht hl heq
    exact hfresh h t ht hl heq.symm
  · exact forall_mem_cons.mpr ⟨by simp, fun t ht _ => ht⟩
  · rw [buildTermList_cons_live rfl]
    cases type with
    | set => rw [hset rfl]; rfl
    | bag =>
      have hnot : obj ∉ buildTermList G := by
        intro hmem
        obtain ⟨t, ht, hl, ho⟩ := mem_buildTermList.mp hmem
        exact hfresh rfl t ht hl ho
      simp [putObjects, hnot]
    | duplicateBag => rfl

/-- A pseudo deleted copy of the object is revived at the front. -/
theorem putGroup_revive {P S : List (HashDbTerm ω)} {q : HashDbTerm ω}
    (hG : OfKey K (K.key obj) (P ++ q :: S)) (hok : GroupOk .bag (P ++ q :: S))
    (hP : ∀ t ∈ P, t.obj ≠ obj) (hq : q.obj = obj) (hpd : q.pseudoDeleted = true) :
    PutGroup K .bag obj false (P ++ q :: S) ({ q with pseudoDeleted := false } :: (P ++ S)) := by
  have hpw := hok.first rfl
  have hsub : (P ++ S).Sublist (P ++ q :: S) := (sublist_cons_self q S).append_left P
  -- a live copy behind the pseudo deleted one would stand behind an equal term
  have hfresh : ∀ t ∈ P ++ S, t.pseudoDeleted = false → t.obj ≠ obj := by
    intro t ht hl heq
    obtain ht | ht := mem_append.mp ht
    · exact hP t ht heq
    · have hcons := (pairwise_append.mp hpw).2.1
      exact (pairwise_cons.mp hcons).1 t ht hl (hq.trans heq.symm)
  have hlist : buildTermList (P ++ q :: S) = buildTermList (P ++ S) := by
    simp [buildTermList, hpd]
  have hnot : obj ∉ buildTermList (P ++ S) := by
    intro hmem
    obtain ⟨t, ht, hl, ho⟩ := mem_buildTermList.mp hmem
    exact hfresh t ht hl ho
  refine ⟨?_, ⟨by simp, ?_⟩, by simp, ?_, by simp, ?_⟩
  · exact forall_mem_cons.mpr ⟨hG q (by simp), fun t ht => hG t (hsub.subset ht)⟩
  · intro _
    refine pairwise_cons.mpr ⟨?_, hpw.sublist hsub⟩
    intro t ht hl heq
    exact hfresh t ht hl (heq.symm.trans hq)
  · exact forall_mem_cons.mpr ⟨by simp, fun t ht _ => hsub.subset ht⟩
  · rw [buildTermList_cons_live rfl, hlist]
    simp [putObjects, hnot, hq]

variable [DecidableEq κ]

omit [DecidableEq ω] in
theorem liveInGroup_group (hG : OfKey K k G) (hB : FreeOf K k B) :
    liveInGroup K k (K.makeHash k) (G ++ B) = true ↔ buildTermList G ≠ [] := by
  induction G with
  | nil =>
    cases B with
    | nil => simp [liveInGroup, buildTermList]
    | cons b B =>
      simp [liveInGroup, buildTermList, hasKey_of_freeOf hB mem_cons_self]
  | cons g G ih =>
    rw [cons_append, liveInGroup, hasKey_of_ofKey hG mem_cons_self]
    cases hpd : g.pseudoDeleted with
    | true => rw [buildTermList_cons_pseudo hpd, ← ih hG.tail]; simp
    | false => rw [buildTermList_cons_live hpd]; simp

theorem putLoop_freeOf (hA : FreeOf K (K.key obj) A) (clash : Bool) (C : List (HashDbTerm ω)) :
    putLoop K type clash (K.makeHash (K.key obj)) obj (A ++ C) =
      (putLoop K type clash (K.makeHash (K.key obj)) obj C).prepend A := by
  induction A with
  | nil =>
    rw [nil_append]
    generalize putLoop K type clash (K.makeHash (K.key obj)) obj C = r
    cases r <;> rfl
  | cons a A ih =>
    rw [cons_append, putLoop, hasKey_of_freeOf hA mem_cons_self, ih hA.tail]
    generalize putLoop K type clash (K.makeHash (K.key obj)) obj C = r
    cases r <;> rfl

/-- Among the terms of the key an equal object is found, and the first one, if there is any. -/
theorem findObject_group (hG : OfKey K k G) (hB : FreeOf K k B) :
    ((∀ t ∈ G, t.obj ≠ obj) ∧ findObject K k (K.makeHash k) obj (G ++ B) = none) ∨
      ∃ P q S, G = P ++ q :: S ∧ (∀ t ∈ P, t.obj ≠ obj) ∧ q.obj = obj ∧
        findObject K k (K.makeHash k) obj (G ++ B) = some (P, q, S ++ B) := by
  induction G with
  | nil =>
    refine .inl ⟨by simp, ?_⟩
    cases B with
    | nil => rfl
    | cons b B => simp [findObject, hasKey_of_freeOf hB mem_cons_self]
  | cons g G ih =>
    rw [cons_append, findObject, hasKey_of_ofKey hG mem_cons_self, if_pos rfl]
    by_cases hg : g.obj = obj
    · exact .inr ⟨[], g, G, rfl, by simp, hg, by rw [if_pos hg]⟩
    · rw [if_neg hg]
      obtain ⟨hall, hnone⟩ | ⟨P, q, S, rfl, hP, hq, hsome⟩ := ih hG.tail
      · exact .inl ⟨by simpa [hg] using hall, by rw [hnone]; rfl⟩
      · exact .inr ⟨g :: P, q, S, rfl, by simpa [hg] using hP, hq, by rw [hsome]; rfl⟩

theorem putFound_spec (clash : Bool) (hG : OfKey K (K.key obj) (b :: G))
    (hB : FreeOf K (K.key obj) B) (hok : GroupOk type (b :: G)) :
    (putFound K type clash (K.makeHash (K.key obj)) obj b (G ++ B)).Meets
      (fun c => ∃ G', c = G' ++ B ∧ PutGroup K type obj clash (b :: G) G')
      (clash = true ∧ buildTermList (b :: G) ≠ []) := by
  have hlive := liveInGroup_group hG hB
  cases type with
  | set =>
    obtain rfl := hok.eq_nil
    have hb := hG b mem_cons_self
    simp only [putFound]
    cases hpd : b.pseudoDeleted with
    | true =>
      have hnone : buildTermList [b] = [] := by rw [buildTermList_cons_pseudo hpd]; rfl
      refine ⟨[{ b with obj := obj, pseudoDeleted := false }], rfl, ?_⟩
      exact ⟨by simpa [OfKey] using hb.2, ⟨by simp, by simp⟩, by simp, by simp,
        by simp [hnone], rfl⟩
    | false =>
      have hone : buildTermList [b] ≠ [] := by rw [buildTermList_cons_live hpd]; simp
      cases clash with
      | true => exact ⟨rfl, hone⟩
      | false =>
        refine ⟨[⟨b.hvalue, obj, false⟩], rfl, ?_⟩
        refine ⟨by simpa [OfKey] using hb.2, ⟨by simp, by simp⟩, by simp, ?_, by simp, ?_⟩
        · intro t ht hpd'
          rw [mem_singleton.mp ht] at hpd'
          exact absurd hpd' (by simp)
        · rfl
  | bag =>
    have hpw := hok.first rfl
    simp only [putFound]
    cases clash with
    | true =>
      rw [if_pos rfl]
      split_ifs with hl
      · exact ⟨rfl, hlive.mp hl⟩
      · have hnone : buildTermList (b :: G) = [] := by
          by_contra hne
          exact hl (hlive.mpr hne)
        refine ⟨⟨K.makeHash (K.key obj), obj, false⟩ :: b :: G, rfl, ?_⟩
        refine putGroup_new hG (by simp) (fun _ => hpw) ?_ (by simp [hnone])
        intro _ t ht hlt heq
        have : obj ∈ buildTermList (b :: G) := mem_buildTermList.mpr ⟨t, ht, hlt, heq⟩
        simp [hnone] at this
    | false =>
      rw [← cons_append]
      obtain ⟨hall, hnone⟩ | ⟨P, q, S, hsplit, hP, hq, hsome⟩ := findObject_group hG hB
      · rw [hnone]
        refine ⟨⟨K.makeHash (K.key obj), obj, false⟩ :: b :: G, rfl, ?_⟩
        exact putGroup_new hG (by simp) (fun _ => hpw) (fun _ t ht _ => hall t ht) (by simp)
      · rw [hsome]
        dsimp only
        cases hpd : q.pseudoDeleted with
        | true =>
          rw [cons_append, ← append_assoc]
          rw [hsplit] at hG hok ⊢
          exact ⟨_, rfl, putGroup_revive hG hok hP hq hpd⟩
        | false =>
          -- a live copy is there already
          have hmem : obj ∈ buildTermList (b :: G) :=
            mem_buildTermList.mpr ⟨q, by rw [hsplit]; simp, hpd, hq⟩
          exact ⟨b :: G, rfl, hG, hok, by simp, fun t ht _ => ht, by simp,
            by simp [putObjects, hmem]⟩
  | duplicateBag =>
    simp only [putFound]
    split_ifs with hl
    · exact ⟨hl.1, hlive.mp hl.2⟩
    · refine ⟨⟨K.makeHash (K.key obj), obj, false⟩ :: b :: G, rfl, ?_⟩
      refine putGroup_new hG (by simp) (by simp) (by simp) ?_
      intro hc
      exact hl ⟨hc.1, hlive.mpr hc.2⟩

theorem PutGroup.replaces {G' : List (HashDbTerm ω)} (ha : Around K (K.key obj) A G B)
    (h : PutGroup K type obj clash G G') :
    Replaces K type (K.key obj) (A ++ G ++ B) (A ++ G' ++ B) true false
      (putObjects type obj (liveObjects K (K.key obj) (A ++ G ++ B))) := by
  refine ⟨A, G, G', B, rfl, rfl, ha, h.ofKey, h.groupOk, fun _ _ => h.ne_nil, fun _ => h.pseudo, ?_⟩
  rw [h.objects, ha.liveObjects_self ha.group]

/-- **Insertion.** An insertion into a chain fails only if the object must be new and its key is
not; otherwise it changes the objects of the key as in the collection. -/
theorem putLoop_spec (h : ChainOk K type chain) (obj : ω) (clash : Bool) :
    (putLoop K type clash (K.makeHash (K.key obj)) obj chain).Meets
      (fun chain' => ¬ (clash = true ∧ liveObjects K (K.key obj) chain ≠ []) ∧
        Replaces K type (K.key obj) chain chain' true false
          (putObjects type obj (liveObjects K (K.key obj) chain)))
      (clash = true ∧ liveObjects K (K.key obj) chain ≠ []) := by
  obtain ⟨A, G, B, rfl, ha⟩ := h.around (K.key obj)
  have hobj := ha.liveObjects_self ha.group
  rw [append_assoc, putLoop_freeOf ha.before]
  apply Put.Meets.prepend
  rw [← append_assoc]
  cases G with
  | nil =>
    -- a new key goes to the end of the chain
    obtain rfl := ha.last rfl
    have hnew : PutGroup K type obj clash [] [⟨K.makeHash (K.key obj), obj, false⟩] :=
      putGroup_new (by simp [OfKey]) (by simp) (by simp) (by simp) (by simp [buildTermList])
    refine ⟨?_, ?_⟩
    · rw [hobj]
      exact hnew.allowed
    · have := hnew.replaces ha
      simp only [append_nil] at this ⊢
      exact this
  | cons b G =>
    have hspec := putFound_spec clash ha.group ha.behind (ha.groupOk h)
    rw [cons_append, putLoop, hasKey_of_ofKey ha.group mem_cons_self]
    generalize putFound K type clash (K.makeHash (K.key obj)) obj b (G ++ B) = r at hspec
    have hgood : ∀ c, (∃ G', c = G' ++ B ∧ PutGroup K type obj clash (b :: G) G') →
        ¬ (clash = true ∧ liveObjects K (K.key obj) (A ++ b :: G ++ B) ≠ []) ∧
          Replaces K type (K.key obj) (A ++ b :: G ++ B) (A ++ c) true false
            (putObjects type obj (liveObjects K (K.key obj) (A ++ b :: G ++ B))) := by
      rintro c ⟨G', rfl, hput⟩
      refine ⟨?_, ?_⟩
      · rw [hobj]
        exact hput.allowed
      · rw [← append_assoc]
        exact hput.replaces ha
    cases r with
    | done c d | new c => exact hgood c hspec
    | clash =>
      rw [hobj]
      exact hspec

end Insertion

/-! ## Deletion -/

/-- Terms are unlinked or marked as deleted. -/
inductive Thins : List (HashDbTerm ω) → List (HashDbTerm ω) → Prop where
  | nil : Thins [] []
  | drop {G G'} (t) : Thins G' G → Thins G' (t :: G)
  | keep {G G'} (t) : Thins G' G → Thins (t :: G') (t :: G)
  | mark {G G'} (t) : Thins G' G → Thins ({ t with pseudoDeleted := true } :: G') (t :: G)

namespace Thins

variable {G' : List (HashDbTerm ω)}

theorem refl : ∀ G : List (HashDbTerm ω), Thins G G
  | [] => .nil
  | t :: G => .keep t (refl G)

section

variable (h : Thins G' G)

include h

theorem origin : ∀ t' ∈ G', ∃ t ∈ G, t'.obj = t.obj ∧ t'.hvalue = t.hvalue ∧
    (t'.pseudoDeleted = false → t' = t) := by
  induction h with
  | nil => simp
  | drop t _ ih =>
    intro t' ht'
    obtain ⟨u, hu, h⟩ := ih t' ht'
    exact ⟨u, mem_cons_of_mem _ hu, h⟩
  | keep t _ ih | mark t _ ih =>
    intro t' ht'
    obtain ht' | ht' := mem_cons.mp ht'
    · exact ⟨t, mem_cons_self .., by simp [ht']⟩
    · obtain ⟨u, hu, h⟩ := ih t' ht'
      exact ⟨u, mem_cons_of_mem _ hu, h⟩

theorem chainKeys_sublist : (chainKeys K G').Sublist (chainKeys K G) := by
  induction h with
  | nil => exact List.Sublist.refl _
  | drop t _ ih => exact ih.cons _
  | keep t _ ih | mark t _ ih => exact ih.cons_cons _

theorem pairwise (hp : G.Pairwise fun a b => b.pseudoDeleted = false → a.obj ≠ b.obj) :
    G'.Pairwise fun a b => b.pseudoDeleted = false → a.obj ≠ b.obj := by
  induction h with
  | nil => exact hp
  | drop t _ ih => exact ih (pairwise_cons.mp hp).2
  | keep t h ih | mark t h ih =>
    obtain ⟨ht, hp⟩ := pairwise_cons.mp hp
    refine pairwise_cons.mpr ⟨?_, ih hp⟩
    intro u' hu' hl
    obtain ⟨u, hu, ho, -, hsame⟩ := h.origin u' hu'
    rw [ho]
    exact ht u hu (hsame hl ▸ hl)

theorem ofKey (hG : OfKey K k G) : OfKey K k G' := by
  intro t' ht'
  obtain ⟨t, ht, ho, hh, -⟩ := h.origin t' ht'
  rw [ho, hh]
  exact hG t ht

theorem length_le : G'.length ≤ G.length := by
  induction h with
  | nil => exact Nat.le_refl _
  | drop t _ ih => exact Nat.le_succ_of_le ih
  | keep t _ ih | mark t _ ih => exact Nat.succ_le_succ ih

theorem groupOk (hG : GroupOk type G) : GroupOk type G' :=
  ⟨fun hset => Nat.le_trans h.length_le (hG.once hset), fun hbag => h.pairwise (hG.first hbag)⟩

theorem chainOk (hG : ChainOk K type G) : ChainOk K type G' := by
  refine ⟨?_, hG.grouped.sublist h.chainKeys_sublist, ?_, fun hbag => h.pairwise (hG.first hbag)⟩
  · intro t' ht'
    obtain ⟨t, ht, ho, hh, -⟩ := h.origin t' ht'
    rw [ho, hh]
    exact hG.hashed t ht
  · intro hset
    exact (hG.once hset).sublist h.chainKeys_sublist

end

end Thins

/-- A deletion leaves the terms `G'` with the objects `os`, and one term at least if it
`keeps` one; new pseudo deleted terms are among them only if it `marks` some. -/
structure Erases (keeps marks : Prop) (G G' : List (HashDbTerm ω)) (os : List ω) : Prop where
  thins : Thins G' G
  objects : buildTermList G' = os
  ne_nil : keeps → G ≠ [] → G' ≠ []
  pseudo : ¬ marks → ∀ t ∈ G', t.pseudoDeleted = true → t ∈ G

namespace Erases

variable {keeps keeps' marks marks' : Prop} {G' : List (HashDbTerm ω)} {os os' : List ω}

theorem nil : Erases keeps marks ([] : List (HashDbTerm ω)) [] [] :=
  ⟨.nil, rfl, fun _ h => h, by simp⟩

section

variable (h : Erases keeps marks G G' os)

include h

theorem keep (hos : buildTermList (b :: G') = os') : Erases keeps' marks (b :: G) (b :: G') os' :=
  ⟨.keep b h.thins, hos, by simp, fun hm => forall_mem_cons.mpr
    ⟨fun _ => mem_cons_self, fun t ht hpd => mem_cons_of_mem _ (h.pseudo hm t ht hpd)⟩⟩

theorem mark (hm : marks') :
    Erases keeps' marks' (b :: G) ({ b with pseudoDeleted := true } :: G') os :=
  ⟨.mark b h.thins, by rw [buildTermList_cons_pseudo rfl, h.objects], by simp, absurd hm⟩

theorem drop (hk : ¬ keeps') (hm : marks → marks') : Erases keeps' marks' (b :: G) G' os :=
  ⟨.drop b h.thins, h.objects, (absurd · hk),
    fun hno t ht hpd => mem_cons_of_mem _ (h.pseudo (hno ∘ hm) t ht hpd)⟩

/-- A deletion on the terms of the key is one on the chain. -/
theorem replaces {fixed marked : Bool} (ha : Around K k A G B) (hok : GroupOk type G)
    (hk : fixed = true → keeps) (hm : marks → marked = true) :
    Replaces K type k (A ++ G ++ B) (A ++ G' ++ B) fixed marked os :=
  ⟨A, G, G', B, rfl, rfl, ha, h.thins.ofKey ha.group, h.thins.groupOk hok, h.ne_nil ∘ hk,
    fun hno => h.pseudo fun h => by simp [hm h] at hno, h.objects⟩

end

end Erases

variable [DecidableEq κ]

theorem eraseLoop_freeOf : ∀ (n : ℕ) {A : List (HashDbTerm ω)},
    FreeOf K k A → eraseLoop K fixed k hval n A = (A, n) := by
  intro n A hA
  induction A with
  | nil => rfl
  | cons a A ih =>
    rw [eraseLoop, hasLiveKey_of_freeOf hA mem_cons_self, if_neg (by simp), ih hA.tail]
    split_ifs <;> rfl

theorem eraseLoop_before (hA : FreeOf K k A) (C : List (HashDbTerm ω)) :
    eraseLoop K fixed k hval 0 (A ++ C) =
      (A ++ (eraseLoop K fixed k hval 0 C).1, (eraseLoop K fixed k hval 0 C).2) := by
  induction A with
  | nil => rfl
  | cons a A ih =>
    rw [cons_append, eraseLoop, hasLiveKey_of_freeOf hA mem_cons_self, ih hA.tail]
    rfl

theorem eraseLoop_group (fixed : Bool) (hG : OfKey K k G) (hB : FreeOf K k B) : ∀ n : ℕ, ∃ G',
    eraseLoop K fixed k (K.makeHash k) n (G ++ B) = (G' ++ B, n + (buildTermList G).length) ∧
      Erases (fixed = true ∧ n = 0) (fixed = true ∧ n = 0 ∧ buildTermList G ≠ []) G G' [] := by
  induction G with
  | nil =>
    intro n
    refine ⟨[], ?_, .nil⟩
    rw [nil_append, eraseLoop_freeOf n hB]
    rfl
  | cons b G ih =>
    intro n
    rw [cons_append, eraseLoop, hasLiveKey_of_ofKey hG mem_cons_self]
    cases hpd : b.pseudoDeleted with
    | false =>
      obtain ⟨G', heq, herase⟩ := ih hG.tail (n + 1)
      have hlen : n + (buildTermList (b :: G)).length = n + 1 + (buildTermList G).length := by
        rw [buildTermList_cons_live hpd, length_append, length_singleton]
        omega
      rw [heq, hlen]
      by_cases hfirst : n = 0 ∧ fixed = true
      · -- the first one is only marked
        rw [if_pos hfirst]
        exact ⟨_, rfl, herase.mark ⟨hfirst.2, hfirst.1, by simp [buildTermList_cons_live hpd]⟩⟩
      · rw [if_neg hfirst]
        exact ⟨G', rfl, herase.drop (hfirst ∘ And.symm) (by simp)⟩
    | true =>
      obtain ⟨G', heq, herase⟩ := ih hG.tail n
      rw [if_neg (by simp), if_neg (by simp), heq, buildTermList_cons_pseudo hpd]
      exact ⟨b :: G', rfl, herase.keep (by rw [buildTermList_cons_pseudo hpd, herase.objects])⟩

/-- **Deletion of a key.** -/
theorem eraseLoop_spec (h : ChainOk K type chain) (k : κ) (fixed : Bool) :
    Replaces K type k chain (eraseLoop K fixed k (K.makeHash k) 0 chain).1 fixed
      (fixed && (eraseLoop K fixed k (K.makeHash k) 0 chain).2 ≠ 0) [] := by
  obtain ⟨A, G, B, rfl, ha⟩ := h.around k
  obtain ⟨G', heq, herase⟩ := eraseLoop_group fixed ha.group ha.behind 0
  rw [append_assoc, eraseLoop_before ha.before, heq, ← append_assoc, ← append_assoc]
  refine herase.replaces ha (ha.groupOk h) (fun hf => ⟨hf, rfl⟩) ?_
  rintro ⟨hf, -, hlive⟩
  simp [hf, hlive]

section EraseObject

variable [DecidableEq ω] {object : ω} {fixed : Bool}

theorem eraseObjectLoop_freeOf (n e : ℕ) (hA : FreeOf K (K.key object) A) :
    eraseObjectLoop K fixed type hval object n e A = (A, e, false) := by
  induction A with
  | nil => rfl
  | cons a A ih =>
    rw [eraseObjectLoop, hasLiveKey_of_freeOf hA mem_cons_self, if_neg (by simp), ih hA.tail]
    split_ifs <;> rfl

theorem eraseObjectLoop_before (hA : FreeOf K (K.key object) A) (C : List (HashDbTerm ω)) :
    eraseObjectLoop K fixed type hval object 0 0 (A ++ C) =
      (A ++ (eraseObjectLoop K fixed type hval object 0 0 C).1,
        (eraseObjectLoop K fixed type hval object 0 0 C).2) := by
  induction A with
  | nil => rfl
  | cons a A ih =>
    rw [cons_append, eraseObjectLoop, hasLiveKey_of_freeOf hA mem_cons_self, ih hA.tail]
    rfl

/-- Behind a live copy of an object there is no other, unless the table holds duplicates. -/
theorem GroupOk.filter_tail (hok : GroupOk type (b :: G)) (ht : type ≠ .duplicateBag)
    (hb : b.obj = object) : (buildTermList G).filter (· ≠ object) = buildTermList G := by
  rw [filter_eq_self]
  intro o ho
  obtain ⟨t, htG, hl, rfl⟩ := mem_buildTermList.mp ho
  cases type with
  | set =>
    rw [hok.eq_nil] at htG
    cases htG
  | bag =>
    have := (pairwise_cons.mp (hok.first rfl)).1 t htG hl
    rw [hb] at this
    simpa using this.symm
  | duplicateBag => exact absurd rfl ht

theorem eraseObjectLoop_group (hG : OfKey K (K.key object) G) (hB : FreeOf K (K.key object) B)
    (hok : GroupOk type G) : ∀ n e : ℕ, ∃ G' e' m,
    eraseObjectLoop K fixed type (K.makeHash (K.key object)) object n e (G ++ B) =
        (G' ++ B, e', m) ∧
      Erases (fixed = true ∧ n = 0) (m = true) G G' ((buildTermList G).filter (· ≠ object)) := by
  induction G with
  | nil =>
    intro n e
    refine ⟨[], e, false, ?_, .nil⟩
    rw [nil_append, eraseObjectLoop_freeOf n e hB]
  | cons b G ih =>
    intro n e
    rw [cons_append, eraseObjectLoop, hasLiveKey_of_ofKey hG mem_cons_self]
    cases hpd : b.pseudoDeleted with
    | true =>
      obtain ⟨G', e', m, heq, herase⟩ := ih hG.tail hok.tail n e
      rw [if_neg (by simp), if_neg (by simp), heq, buildTermList_cons_pseudo hpd]
      refine ⟨b :: G', e', m, rfl, herase.keep ?_⟩
      rw [buildTermList_cons_pseudo hpd, herase.objects]
    | false =>
      rw [buildTermList_cons_live hpd, filter_append]
      by_cases hb : b.obj = object
      · -- the rest is searched only in a duplicate bag; otherwise it has no other copy
        have hrest : ∃ G' e' m, (if type = .duplicateBag then
              eraseObjectLoop K fixed type (K.makeHash (K.key object)) object (n + 1)
                (e + 1) (G ++ B)
            else (G ++ B, e + 1, false)) = (G' ++ B, e', m) ∧
            Erases (fixed = true ∧ n + 1 = 0) (m = true) G G'
              ((buildTermList G).filter (· ≠ object)) := by
          by_cases htype : type = .duplicateBag
          · rw [if_pos htype]
            exact ih hG.tail hok.tail (n + 1) (e + 1)
          · rw [if_neg htype, hok.filter_tail htype hb]
            exact ⟨G, e + 1, false, rfl, .refl G, rfl, by simp, fun _ _ ht _ => ht⟩
        obtain ⟨G', e', m, heq, herase⟩ := hrest
        have hnone : List.filter (fun x => decide (x ≠ object)) [b.obj] = [] := by simp [hb]
        rw [if_pos hb, heq, hnone, append_nil]
        by_cases hfirst : n = 0 ∧ fixed = true
        · rw [if_pos hfirst]
          exact ⟨_, e', true, rfl, herase.mark rfl⟩
        · rw [if_neg hfirst]
          exact ⟨G', e', m, rfl, herase.drop (hfirst ∘ And.symm) id⟩
      · obtain ⟨G', e', m, heq, herase⟩ := ih hG.tail hok.tail (n + 1) e
        have hkeep : List.filter (fun x => decide (x ≠ object)) [b.obj] = [b.obj] := by simp [hb]
        rw [if_neg hb, heq, hkeep]
        refine ⟨b :: G', e', m, rfl, herase.keep ?_⟩
        rw [buildTermList_cons_live hpd, herase.objects]

/-- **Deletion of an object.** -/
theorem eraseObjectLoop_spec (h : ChainOk K type chain) (object : ω) (fixed : Bool) :
    let r := eraseObjectLoop K fixed type (K.makeHash (K.key object)) object 0 0 chain
    Replaces K type (K.key object) chain r.1 fixed r.2.2
      ((liveObjects K (K.key object) chain).filter (· ≠ object)) := by
  intro r
  obtain ⟨A, G, B, rfl, ha⟩ := h.around (K.key object)
  obtain ⟨G', e', m, heq, herase⟩ :=
    eraseObjectLoop_group ha.group ha.behind (ha.groupOk h) 0 0
  have hr : r = (A ++ G' ++ B, e', m) := by
    show eraseObjectLoop K fixed type (K.makeHash (K.key object)) object 0 0 (A ++ G ++ B) = _
    rw [append_assoc, eraseObjectLoop_before ha.before, heq, append_assoc]
  rw [hr, ha.liveObjects_self ha.group]
  exact herase.replaces ha (ha.groupOk h) (fun hf => ⟨hf, rfl⟩) id

/-- Terms are only marked in a fixed table. -/
theorem eraseObjectLoop_not_fixed : ∀ (chain : List (HashDbTerm ω)) (n e : ℕ),
    (eraseObjectLoop K false type hval object n e chain).2.2 = false := by
  intro chain
  induction chain with
  | nil => exact fun _ _ => rfl
  | cons b chain ih =>
    intro n e
    rw [eraseObjectLoop]
    dsimp only
    split_ifs with hk ho hn hd
    · exact (hn.2 : False).elim
    · exact ih _ _
    · rfl
    · exact ih _ _
    · rfl
    · exact ih _ _

end EraseObject

/-! ## Taking and selecting -/

section Take

variable (fixed : Bool)

theorem takeLoop_freeOf (type : TableType) (hval : ℕ) (hA : FreeOf K k A)
    (C : List (HashDbTerm ω)) :
    takeLoop K fixed type k hval (A ++ C) =
      ((takeLoop K fixed type k hval C).1, A ++ (takeLoop K fixed type k hval C).2.1,
        (takeLoop K fixed type k hval C).2.2) := by
  induction A with
  | nil => rfl
  | cons a A ih =>
    rw [cons_append, takeLoop, hasLiveKey_of_freeOf hA mem_cons_self, ih hA.tail]
    rfl

theorem takeLoop_group (hG : OfKey K k G) (hB : FreeOf K k B) (hok : GroupOk type G) : ∃ G' n,
    takeLoop K fixed type k (K.makeHash k) (G ++ B) = (buildTermList G, G' ++ B, n) ∧
      Erases (fixed = true) (fixed = true ∧ n ≠ 0) G G' [] := by
  induction G with
  | nil =>
    refine ⟨[], 0, ?_, .nil⟩
    have h := takeLoop_freeOf fixed type (K.makeHash k) hB []
    rw [append_nil] at h
    rw [nil_append, h]
    simp [takeLoop, buildTermList]
  | cons b G ih =>
    rw [cons_append, takeLoop, hasLiveKey_of_ofKey hG mem_cons_self]
    have hall : ∀ G : List (HashDbTerm ω), Erases False False G [] [] := by
      intro G
      induction G with
      | nil => exact .nil
      | cons t G ih => exact ih.drop id id
    cases hpd : b.pseudoDeleted with
    | false =>
      rw [termsOfKey_group hG hB hok]
      cases fixed with
      | true => exact ⟨_, (b :: G).length, rfl, (hall G).mark (by simp)⟩
      | false => exact ⟨[], (b :: G).length, rfl, (hall G).drop (by simp) False.elim⟩
    | true =>
      obtain ⟨G', n, heq, herase⟩ := ih hG.tail hok.tail
      rw [heq]
      refine ⟨b :: G', n, ?_, herase.keep ?_⟩
      · rw [buildTermList_cons_pseudo hpd]
        rfl
      · rw [buildTermList_cons_pseudo hpd, herase.objects]

/-- **Taking.** The objects of the key are answered, and none is left. -/
theorem takeLoop_spec (h : ChainOk K type chain) (k : κ) :
    let r := takeLoop K fixed type k (K.makeHash k) chain
    r.1 = liveObjects K k chain ∧ Replaces K type k chain r.2.1 fixed (fixed && r.2.2 ≠ 0) [] := by
  intro r
  obtain ⟨A, G, B, rfl, ha⟩ := h.around k
  obtain ⟨G', n, heq, herase⟩ := takeLoop_group fixed ha.group ha.behind (ha.groupOk h)
  have hr : r = (buildTermList G, A ++ G' ++ B, n) := by
    show takeLoop K fixed type k (K.makeHash k) (A ++ G ++ B) = _
    rw [append_assoc, takeLoop_freeOf fixed type _ ha.before, heq, append_assoc]
  rw [hr, ha.liveObjects_self ha.group]
  refine ⟨rfl, herase.replaces ha (ha.groupOk h) id ?_⟩
  rintro ⟨hf, hn⟩
  simp [hf, hn]

end Take

section Select

variable {pseudo : Bool} {accepts : ω → Bool} {chain : List (HashDbTerm ω)}

theorem selectChain_thins (pseudo : Bool) (accepts : ω → Bool) (chain : List (HashDbTerm ω)) :
    Thins (selectChain pseudo accepts chain).1 chain := by
  induction chain with
  | nil => exact .nil
  | cons b chain ih =>
    rw [selectChain]
    split_ifs with h hp
    · exact .mark b ih
    · exact .drop b ih
    · exact .keep b ih

/-- Of each key the objects that are not accepted are left. -/
theorem liveObjects_selectChain (k : κ) :
    liveObjects K k (selectChain pseudo accepts chain).1 =
      (liveObjects K k chain).filter (!accepts ·) := by
  induction chain with
  | nil => rfl
  | cons b chain ih =>
    rw [selectChain, liveObjects_cons, filter_append, ← ih]
    split_ifs with h hp hlive hlive
    · simp [liveObjects_cons, h.2]
    · simp [liveObjects_cons]
    · simp [h.2]
    · simp
    · rw [liveObjects_cons]
      simp_all
    · rw [liveObjects_cons, if_neg ‹_›]
      rfl

/-- Pseudo deleted terms are new only where terms are marked. -/
theorem mem_of_mem_selectChain {t : HashDbTerm ω}
    (h : ¬ (pseudo = true ∧ (selectChain pseudo accepts chain).2 ≠ []))
    (ht : t ∈ (selectChain pseudo accepts chain).1) : t ∈ chain := by
  induction chain with
  | nil => simp [selectChain] at ht
  | cons b chain ih =>
    rw [selectChain] at h ht
    by_cases hb : b.pseudoDeleted = false ∧ accepts b.obj = true
    · rw [if_pos hb] at h ht
      have hp : pseudo = false := by simpa using h
      rw [if_neg (by simp [hp])] at ht
      exact mem_cons_of_mem _ (ih (by simp [hp]) ht)
    · rw [if_neg hb] at h ht
      obtain rfl | ht := mem_cons.mp ht
      · exact mem_cons_self ..
      · exact mem_cons_of_mem _ (ih h ht)

end Select

end Otp.Erts.DbHash
