import Otp.Erts.DbHash.Edits
import Otp.Erts.DbHash.Resize

/-!
# The operations on a table

Each operation on one key edits the chain of the key and then may resize the
table; a fixed table is not resized. `select_delete` edits one chain after the
other, and the last unfixing purges the chains where terms were only marked.
All of them keep a table in order.
-/

namespace Otp.Erts.DbHash

open Otp.Lib List Function

variable {κ ω : Type*} {K : Keying κ ω} {tb tb' : DbTableHash ω} {k : κ}
  {chain : List (HashDbTerm ω)} {marks : Bool} {objects : List ω} {ix : ℕ}

/-! ## Operations on one key -/

/-- A table with one chain edited; where terms of it are marked, the slot is recorded. -/
def edited (tb : DbTableHash ω) (ix : ℕ) (chain : List (HashDbTerm ω)) (marks : Bool)
    (counters : Counters) : DbTableHash ω :=
  { tb with
    bucket := update tb.bucket ix chain
    fixdel := if marks then ⟨ix, false⟩ :: tb.fixdel else tb.fixdel
    counters := counters }

theorem Sized.edited (h : Sized tb) (ix : ℕ) (chain : List (HashDbTerm ω)) (marks : Bool)
    (counters : Counters) : Sized (edited tb ix chain marks counters) :=
  ⟨h.mask, h.slots, h.locked, h.limit⟩

/-- Recorded slots stay recorded, and the slot is where terms of it are marked. -/
theorem exists_edited_fixdel {i : ℕ} {counters : Counters}
    (h : (marks = true ∧ i = ix) ∨ ∃ d ∈ tb.fixdel, i ∈ d.slots) :
    ∃ d ∈ (edited tb ix chain marks counters).fixdel, i ∈ d.slots := by
  show ∃ d ∈ (if marks = true then ⟨ix, false⟩ :: tb.fixdel else tb.fixdel), i ∈ d.slots
  rcases h with ⟨hm, rfl⟩ | ⟨d, hd, hmem⟩
  · exact ⟨⟨i, false⟩, by simp [hm], mem_singleton_self _⟩
  · refine ⟨d, ?_, hmem⟩
    split_ifs
    · exact mem_cons_of_mem _ hd
    · exact hd

/-- The table stays in order if the new chain is, and its pseudo deleted terms are recorded. -/
theorem TableOk.edited_slot (h : TableOk K tb) (counters : Counters)
    (hchain : ix < tb.nactive → ChainOk K tb.type chain ∧ ∀ t ∈ chain,
      tb.hashToIx t.hvalue = ix ∧ (t.pseudoDeleted = true → tb.isFixed = true ∧
        (marks = true ∨ ∃ d ∈ tb.fixdel, ix ∈ d.slots))) :
    TableOk K (DbHash.edited tb ix chain marks counters) := by
  have hslot : ∀ i < tb.nactive, ChainOk K tb.type (update tb.bucket ix chain i) ∧
      ∀ t ∈ update tb.bucket ix chain i, tb.hashToIx t.hvalue = i ∧
        (t.pseudoDeleted = true → tb.isFixed = true ∧
          ((marks = true ∧ i = ix) ∨ ∃ d ∈ tb.fixdel, i ∈ d.slots)) := by
    intro i hi
    by_cases heq : i = ix
    · subst heq
      simpa only [update_self, and_true] using hchain hi
    · rw [update_of_ne heq]
      refine ⟨h.stored.chains i hi, fun t ht => ⟨h.stored.placed i hi t ht, fun hpd => ?_⟩⟩
      obtain ⟨hf, hd⟩ := h.stored.pseudo i hi t ht hpd
      exact ⟨hf, .inr hd⟩
  refine ⟨h.sized.edited _ _ _ _, fun i hi => (hslot i hi).1,
    fun i hi t ht => ((hslot i hi).2 t ht).1, fun i hi t ht hpd => ?_⟩
  obtain ⟨hf, hd⟩ := ((hslot i hi).2 t ht).2 hpd
  exact ⟨hf, exists_edited_fixdel hd⟩

/-- What may happen after an edit. -/
inductive Resized (tb : DbTableHash ω) : DbTableHash ω → Prop where
  | same : Resized tb tb
  | grow (nitems limit : ℕ) : Resized tb (grow nitems limit tb)
  | shrink (nitems limit : ℕ) : Resized tb (shrink nitems limit tb)
  | tryShrink (nitems : ℤ) : Resized tb (tryShrink tb nitems)

theorem Replaces.weaken {type : TableType} {chain' : List (HashDbTerm ω)} {fixed : Bool}
    (h : Replaces K type k chain chain' true marks objects) :
    Replaces K type k chain chain' fixed marks objects := by
  obtain ⟨A, G, G', B, hc, hc', ha, hG', hok, hne, hrest⟩ := h
  exact ⟨A, G, G', B, hc, hc', ha, hG', hok, fun _ => hne rfl, hrest⟩

/-- The slot of a key. -/
def slotOfKey (K : Keying κ ω) (tb : DbTableHash ω) (k : κ) : ℕ := tb.hashToIx (K.makeHash k)

/-- The terms of the key are replaced by terms with these objects, and then the table may be
resized. -/
def EditsKey (K : Keying κ ω) (k : κ) (objects : List ω) (tb tb' : DbTableHash ω) : Prop :=
  ∃ chain marks counters,
    Replaces K tb.type k (tb.bucket (slotOfKey K tb k)) chain tb.isFixed marks objects ∧
      (marks = true → tb.isFixed = true) ∧
      Resized (edited tb (slotOfKey K tb k) chain marks counters) tb'

theorem finishErase_editsKey {erased : ℕ}
    (hr : Replaces K tb.type k (tb.bucket (slotOfKey K tb k)) chain tb.isFixed marks objects)
    (hm : marks = true → tb.isFixed = true) :
    EditsKey K k objects tb
      (finishErase tb (slotOfKey K tb k) (K.makeHash k) chain erased marks) := by
  have hset : (if marks = true then (tb.setBucket (slotOfKey K tb k) chain).addFixedDeletion
      (slotOfKey K tb k) else tb.setBucket (slotOfKey K tb k) chain) =
      edited tb (slotOfKey K tb k) chain marks tb.counters := by
    cases marks <;> rfl
  unfold finishErase
  dsimp only
  rw [hset]
  split_ifs with hne
  · exact ⟨chain, marks, _, hr, hm, .tryShrink _⟩
  · exact ⟨chain, marks, tb.counters, hr, hm, .same⟩

section Keys

variable [DecidableEq κ]

theorem Resized.ok (hr : Resized tb tb') (h : TableOk K tb) : Keeps K tb tb' := by
  cases hr with
  | same => exact h.keeps
  | grow nitems limit => exact h.grow nitems limit
  | shrink nitems limit => exact h.shrink nitems limit
  | tryShrink nitems => exact h.tryShrink nitems

theorem TableOk.edited {k : κ} {chain : List (HashDbTerm ω)} {marks fixed : Bool}
    {objects : List ω} (h : TableOk K tb)
    (hr : Replaces K tb.type k (tb.bucket (slotOfKey K tb k)) chain fixed marks objects)
    (hm : marks = true → tb.isFixed = true) (counters : Counters) :
    TableOk K (edited tb (slotOfKey K tb k) chain marks counters) ∧
      ∀ k', objectsOf K (edited tb (slotOfKey K tb k) chain marks counters) k' =
        update (objectsOf K tb) k objects k' := by
  have hlt : slotOfKey K tb k < tb.nactive := h.sized.hashToIx_lt _
  refine ⟨h.edited_slot counters fun _ => ⟨hr.chainOk (h.stored.chains _ hlt), ?_⟩, ?_⟩
  · refine fun t ht => ⟨?_, fun hpd => ?_⟩
    · obtain ht | ⟨-, hh⟩ := hr.mem_or ht
      · exact h.stored.placed _ hlt t ht
      · rw [hh]
        rfl
    · cases marks with
      | true => exact ⟨hm rfl, .inl rfl⟩
      | false =>
        obtain ⟨hf, hd⟩ := h.stored.pseudo _ hlt t (hr.mem_of_pseudoDeleted ht hpd) hpd
        exact ⟨hf, .inr hd⟩
  · intro k'
    show liveObjects K k' (update tb.bucket (slotOfKey K tb k) chain (slotOfKey K tb k')) = _
    by_cases hk : k' = k
    · rw [hk, update_self, update_self, hr.liveObjects_self]
    · rw [update_of_ne hk]
      by_cases hslot : slotOfKey K tb k' = slotOfKey K tb k
      · rw [hslot, update_self, hr.liveObjects_ne hk, ← hslot]
        rfl
      · rw [update_of_ne hslot]
        rfl

/-- **Operations on one key.** The table stays in order, and the key has the new objects. -/
theorem EditsKey.ok (he : EditsKey K k objects tb tb') (h : TableOk K tb) :
    TableOk K tb' ∧ tb'.type = tb.type ∧
      ∀ k', objectsOf K tb' k' = update (objectsOf K tb) k objects k' := by
  obtain ⟨chain, marks, counters, hr, hm, hres⟩ := he
  obtain ⟨hok, hobj⟩ := h.edited hr hm counters
  obtain ⟨hok', htype, hobj'⟩ := hres.ok hok
  exact ⟨hok', htype, fun k' => (hobj' k').trans (hobj k')⟩

section

variable (h : TableOk K tb)

include h

theorem dbGetHash_eq (k : κ) : dbGetHash K tb k = objectsOf K tb k :=
  getLoop_eq (h.stored.chains _ (h.sized.hashToIx_lt _)) k

/-- `db_put_hash` fails only if the object must be new and its key is not. -/
theorem dbPutHash_spec [DecidableEq ω] (obj : ω) (clash : Bool) :
    (dbPutHash K tb obj clash = (tb, false) ∧
        clash = true ∧ objectsOf K tb (K.key obj) ≠ []) ∨
      ((dbPutHash K tb obj clash).2 = true ∧
        ¬ (clash = true ∧ objectsOf K tb (K.key obj) ≠ []) ∧
        EditsKey K (K.key obj) (putObjects tb.type obj (objectsOf K tb (K.key obj))) tb
          (dbPutHash K tb obj clash).1) := by
  have hspec := putLoop_spec (h.stored.chains _ (h.sized.hashToIx_lt (K.makeHash (K.key obj))))
    obj clash
  unfold dbPutHash
  dsimp only
  revert hspec
  cases putLoop K tb.type clash (K.makeHash (K.key obj)) obj
      (tb.bucket (tb.hashToIx (K.makeHash (K.key obj)))) with
  | clash =>
    intro hspec
    exact .inl ⟨rfl, hspec⟩
  | done chain diff =>
    intro hspec
    exact .inr ⟨rfl, hspec.1, chain, false, _, hspec.2.weaken, by simp, .same⟩
  | new chain =>
    intro hspec
    refine .inr ⟨?_, hspec.1, chain, false,
      ((tb.setBucket (slotOfKey K tb (K.key obj)) chain).addNitems
        (K.makeHash (K.key obj)) 1).counters,
      hspec.2.weaken, by simp, ?_⟩
    · dsimp only
      split_ifs <;> rfl
    · dsimp only
      split_ifs
      · exact .grow _ _
      · exact .same

theorem dbEraseHash_spec (k : κ) : EditsKey K k [] tb (dbEraseHash K tb k) := by
  apply finishErase_editsKey
  · exact eraseLoop_spec (h.stored.chains _ (h.sized.hashToIx_lt _)) k tb.isFixed
  · intro hm
    exact (Bool.and_eq_true_iff.mp hm).1

theorem dbEraseObjectHash_spec [DecidableEq ω] (object : ω) :
    EditsKey K (K.key object) ((objectsOf K tb (K.key object)).filter (· ≠ object)) tb
      (dbEraseObjectHash K tb object) := by
  have hspec := eraseObjectLoop_spec
    (h.stored.chains _ (h.sized.hashToIx_lt (K.makeHash (K.key object)))) object tb.isFixed
  apply finishErase_editsKey hspec
  intro hm
  by_contra hf
  rw [Bool.not_eq_true] at hf
  rw [hf, eraseObjectLoop_not_fixed] at hm
  cases hm

theorem dbTakeHash_spec (k : κ) :
    (dbTakeHash K tb k).2 = objectsOf K tb k ∧ EditsKey K k [] tb (dbTakeHash K tb k).1 := by
  obtain ⟨hobj, hr⟩ := takeLoop_spec tb.isFixed
    (h.stored.chains _ (h.sized.hashToIx_lt (K.makeHash k))) k
  refine ⟨hobj, finishErase_editsKey hr ?_⟩
  intro hm
  exact (Bool.and_eq_true_iff.mp hm).1

end

end Keys

/-! ## Fixing and unfixing -/

theorem TableOk.fixTable (h : TableOk K tb) : TableOk K (fixTable tb) := by
  refine ⟨⟨h.sized.mask, h.sized.slots, h.sized.locked, h.sized.limit⟩,
    h.stored.chains, h.stored.placed, ?_⟩
  intro ix hix t ht hpd
  obtain ⟨-, hd⟩ := h.stored.pseudo ix hix t ht hpd
  exact ⟨decide_eq_true (Nat.succ_ne_zero _), hd⟩

theorem purgeSlot_eq (tb : DbTableHash ω) (slot : ℕ) : ∃ bucket,
    purgeSlot tb slot = { tb with bucket := bucket } ∧ ∀ ix < tb.nactive,
      bucket ix = if ix = slot then purgeChain (tb.bucket ix) else tb.bucket ix := by
  unfold purgeSlot
  split_ifs with hslot
  · refine ⟨_, rfl, ?_⟩
    intro ix _
    by_cases heq : ix = slot
    · rw [heq, update_self, if_pos rfl]
    · rw [update_of_ne heq, if_neg heq]
  · refine ⟨tb.bucket, rfl, ?_⟩
    intro ix hix
    rw [if_neg (by omega)]

theorem foldl_purgeSlot (slots : List ℕ) (tb : DbTableHash ω) : ∃ bucket,
    slots.foldl purgeSlot tb = { tb with bucket := bucket } ∧ ∀ ix < tb.nactive,
      bucket ix = if ix ∈ slots then purgeChain (tb.bucket ix) else tb.bucket ix := by
  induction slots generalizing tb with
  | nil => exact ⟨tb.bucket, rfl, fun ix _ => by simp⟩
  | cons slot slots ih =>
    obtain ⟨b₁, heq₁, hb₁⟩ := purgeSlot_eq tb slot
    obtain ⟨b₂, heq₂, hb₂⟩ := ih (purgeSlot tb slot)
    rw [heq₁] at heq₂ hb₂
    refine ⟨b₂, ?_, ?_⟩
    · rw [foldl_cons, heq₁, heq₂]
    · intro ix hix
      rw [hb₂ ix hix]
      dsimp only
      rw [hb₁ ix hix]
      by_cases h₁ : ix = slot
      · simp [h₁, purgeChain, filter_filter]
      · simp [h₁]

theorem buildTermList_purgeChain (chain : List (HashDbTerm ω)) :
    buildTermList (purgeChain chain) = buildTermList chain := by
  unfold buildTermList purgeChain
  simp

/-- Purging keeps the live objects of every key. -/
theorem liveObjects_purgeChain [DecidableEq κ] (k : κ) (chain : List (HashDbTerm ω)) :
    liveObjects K k (purgeChain chain) = liveObjects K k chain := by
  unfold liveObjects
  rw [← buildTermList_purgeChain (chain.filter _)]
  unfold purgeChain
  rw [filter_comm]

/-- **The purge.** It removes all pseudo deleted terms and no live one. -/
theorem TableOk.dbUnfixTableHash [DecidableEq κ] {fixCount : ℕ} (h : TableOk K tb) :
    TableOk K (dbUnfixTableHash { tb with fixCount := fixCount }) ∧
      ∀ k, objectsOf K (dbUnfixTableHash { tb with fixCount := fixCount }) k =
        objectsOf K tb k := by
  obtain ⟨bucket, heq, hbucket⟩ :=
    foldl_purgeSlot (tb.fixdel.flatMap FixedDeletion.slots) { tb with fixCount := fixCount }
  have hsub : ∀ ix < tb.nactive, (bucket ix).Sublist (tb.bucket ix) := by
    intro ix hix
    rw [hbucket ix hix]
    split_ifs
    · exact filter_sublist
    · exact List.Sublist.refl _
  unfold DbHash.dbUnfixTableHash
  rw [heq]
  refine ⟨⟨⟨h.sized.mask, h.sized.slots, h.sized.locked, h.sized.limit⟩, ?_, ?_, ?_⟩, ?_⟩
  · intro ix hix
    exact (h.stored.chains ix hix).sublist (hsub ix hix)
  · intro ix hix t ht
    exact h.stored.placed ix hix t ((hsub ix hix).subset ht)
  · intro ix hix t ht hpd
    change t ∈ bucket ix at ht
    obtain ⟨-, d, hd, hmem⟩ := h.stored.pseudo ix hix t ((hsub ix hix).subset ht) hpd
    rw [hbucket ix hix, if_pos (mem_flatMap.mpr ⟨d, hd, hmem⟩)] at ht
    have := (mem_filter.mp ht).2
    rw [hpd] at this
    cases this
  · intro k
    show liveObjects K k (bucket (tb.hashToIx (K.makeHash k))) = _
    rw [hbucket _ (h.sized.hashToIx_lt _)]
    split_ifs
    · exact liveObjects_purgeChain k _
    · rfl

theorem TableOk.unfixTable [DecidableEq κ] (h : TableOk K tb) : Keeps K tb (unfixTable tb) := by
  unfold DbHash.unfixTable
  dsimp only
  split_ifs with hf
  · refine ⟨⟨⟨h.sized.mask, h.sized.slots, h.sized.locked, h.sized.limit⟩,
      h.stored.chains, h.stored.placed, ?_⟩, rfl, fun _ => rfl⟩
    intro ix hix t ht hpd
    exact ⟨hf, (h.stored.pseudo ix hix t ht hpd).2⟩
  · obtain ⟨hok, hobj⟩ := h.dbUnfixTableHash
    refine ⟨hok, ?_, hobj⟩
    obtain ⟨bucket, heq, -⟩ := foldl_purgeSlot (tb.fixdel.flatMap FixedDeletion.slots)
      { tb with fixCount := tb.fixCount - 1 }
    unfold DbHash.dbUnfixTableHash
    rw [heq]

/-! ## `select_delete` -/

section Select

variable (pseudo : Bool) (accepts : ω → Bool)

theorem foldl_addNitems (hvals : List ℕ) (tb : DbTableHash ω) : ∃ counters,
    hvals.foldl (fun tb h => tb.addNitems h (-1)) tb = { tb with counters := counters } := by
  induction hvals generalizing tb with
  | nil => exact ⟨tb.counters, rfl⟩
  | cons h hvals ih =>
    obtain ⟨counters, heq⟩ := ih (tb.addNitems h (-1))
    exact ⟨counters, heq⟩

/-- One slot is an edit of its chain; it is recorded unless it is the slot recorded last. -/
theorem selectSlot_eq (s : DbTableHash ω × Option ℕ × ℕ) (ix : ℕ) : ∃ counters marks,
    (selectSlot pseudo accepts s ix).1 =
      edited s.1 ix (selectChain pseudo accepts (s.1.bucket ix)).1 marks counters ∧
    (marks = true → pseudo = true ∧ (selectSlot pseudo accepts s ix).2.1 = some ix) ∧
    (marks = false → (selectSlot pseudo accepts s ix).2.1 = s.2.1 ∧
      (pseudo = true → (selectChain pseudo accepts (s.1.bucket ix)).2 ≠ [] → s.2.1 = some ix)) := by
  obtain ⟨counters, heq⟩ := foldl_addNitems (selectChain pseudo accepts (s.1.bucket ix)).2
    (s.1.setBucket ix (selectChain pseudo accepts (s.1.bucket ix)).1)
  unfold selectSlot
  dsimp only
  rw [heq]
  split_ifs with h
  · exact ⟨counters, true, rfl, fun _ => ⟨h.1, rfl⟩, by simp⟩
  · refine ⟨counters, false, rfl, by simp, fun _ => ⟨rfl, ?_⟩⟩
    intro hp hne
    by_contra hlast
    exact h ⟨hp, hne, hlast⟩

/-- The slot recorded last is among the recorded ones. -/
def LastRecorded (s : DbTableHash ω × Option ℕ × ℕ) : Prop :=
  ∀ ix, s.2.1 = some ix → ∃ d ∈ s.1.fixdel, ix ∈ d.slots

variable [DecidableEq κ] {s : DbTableHash ω × Option ℕ × ℕ}

section

variable (h : TableOk K s.1) (hlast : LastRecorded s) (hp : pseudo = true → s.1.isFixed = true)

include h hlast hp

/-- What one slot of a `select_delete` does to the table. -/
theorem selectSlot_ok (ix : ℕ) :
    TableOk K (selectSlot pseudo accepts s ix).1 ∧ LastRecorded (selectSlot pseudo accepts s ix) ∧
      (selectSlot pseudo accepts s ix).1.type = s.1.type ∧
      (selectSlot pseudo accepts s ix).1.isFixed = s.1.isFixed ∧
      (∀ k, slotOfKey K (selectSlot pseudo accepts s ix).1 k = slotOfKey K s.1 k) ∧
      ∀ k, objectsOf K (selectSlot pseudo accepts s ix).1 k =
        if slotOfKey K s.1 k = ix then (objectsOf K s.1 k).filter (!accepts ·)
        else objectsOf K s.1 k := by
  obtain ⟨counters, marks, heq, hmark, hnot⟩ := selectSlot_eq pseudo accepts s ix
  have hthin := selectChain_thins pseudo accepts (s.1.bucket ix)
  refine ⟨?_, ?_, ?_⟩
  · rw [heq]
    refine h.edited_slot counters fun hix => ⟨hthin.chainOk (h.stored.chains ix hix), ?_⟩
    refine fun t ht => ⟨?_, fun hpd => ?_⟩
    · obtain ⟨u, hu, -, hh, -⟩ := hthin.origin t ht
      rw [hh, h.stored.placed ix hix u hu]
    · by_cases hnew : pseudo = true ∧ (selectChain pseudo accepts (s.1.bucket ix)).2 ≠ []
      · -- the slot is recorded if a term of it is marked now
        refine ⟨hp hnew.1, ?_⟩
        cases marks with
        | true => exact .inl rfl
        | false => exact .inr (hlast ix ((hnot rfl).2 hnew.1 hnew.2))
      · obtain ⟨hf, hd⟩ := h.stored.pseudo ix hix t (mem_of_mem_selectChain hnew ht) hpd
        exact ⟨hf, .inr hd⟩
  · intro i hi
    rw [heq]
    refine exists_edited_fixdel ?_
    cases hm : marks with
    | true =>
      rw [(hmark hm).2] at hi
      cases hi
      exact .inl ⟨rfl, rfl⟩
    | false =>
      rw [(hnot hm).1] at hi
      exact .inr (hlast i hi)
  · rw [heq]
    refine ⟨rfl, rfl, fun _ => rfl, ?_⟩
    intro k
    show liveObjects K k (update s.1.bucket ix _ (slotOfKey K s.1 k)) = _
    by_cases hslot : slotOfKey K s.1 k = ix
    · rw [if_pos hslot, hslot, update_self, liveObjects_selectChain, ← hslot]
      rfl
    · rw [if_neg hslot, update_of_ne hslot]
      rfl

/-- What the slots of a `select_delete` do to the table. -/
theorem foldl_selectSlot_ok (slots : List ℕ) :
    TableOk K (slots.foldl (selectSlot pseudo accepts) s).1 ∧
      (slots.foldl (selectSlot pseudo accepts) s).1.type = s.1.type ∧
      ∀ k, objectsOf K (slots.foldl (selectSlot pseudo accepts) s).1 k =
        if slotOfKey K s.1 k ∈ slots then (objectsOf K s.1 k).filter (!accepts ·)
        else objectsOf K s.1 k := by
  induction slots generalizing s with
  | nil => exact ⟨h, rfl, fun _ => by simp⟩
  | cons ix slots ih =>
    obtain ⟨hok, hlast', htype, hfix, hslot, hobj⟩ :=
      selectSlot_ok pseudo accepts h hlast hp ix
    obtain ⟨hok', htype', hobj'⟩ := ih hok hlast' (fun hps => hfix.trans (hp hps))
    refine ⟨hok', htype'.trans htype, ?_⟩
    intro k
    rw [foldl_cons, hobj' k, hobj k, hslot k]
    by_cases h₁ : slotOfKey K s.1 k = ix
    · by_cases h₂ : ix ∈ slots <;> simp [h₁, h₂, filter_filter]
    · simp [h₁]

end

end Select

end Otp.Erts.DbHash
