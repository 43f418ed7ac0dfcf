import Mathlib
import Otp.Erts.DbHash.Refinement

/-!
# The number of objects kept with a table

Every operation changes the counter by as much as the number of live terms, with
one exception: `db_take_hash` counts the pseudo deleted terms of the key as
taken.
-/

namespace Otp.Erts.DbHash

open Otp.Lib List Function

variable {κ ω : Type*} {K : Keying κ ω} {type : TableType} {k : κ}
  {chain : List (HashDbTerm ω)} {fixed : Bool} {hval : ℕ} {obj : ω}

/-! ## Chains -/

/-- The number of terms of a chain that are not pseudo deleted. -/
def live (chain : List (HashDbTerm ω)) : ℕ := chain.countP (!·.pseudoDeleted)

theorem live_cons (t : HashDbTerm ω) (chain : List (HashDbTerm ω)) :
    live (t :: chain) = live chain + if t.pseudoDeleted then 0 else 1 := by
  cases h : t.pseudoDeleted <;> simp [live, h]

theorem live_append (A B : List (HashDbTerm ω)) : live (A ++ B) = live A + live B := countP_append

section Loops

variable [DecidableEq κ]

theorem pseudoDeleted_of_hasLiveKey {b : HashDbTerm ω} (h : hasLiveKey K b k hval = true) :
    b.pseudoDeleted = false := by
  simp only [hasLiveKey, decide_eq_true_eq] at h
  exact h.2.1

theorem live_eraseLoop (erased : ℕ) :
    live (eraseLoop K fixed k hval erased chain).1 + (eraseLoop K fixed k hval erased chain).2 =
      live chain + erased := by
  induction chain generalizing erased with
  | nil => rfl
  | cons b chain ih =>
    rw [eraseLoop]
    split_ifs <;> grind [live_cons, pseudoDeleted_of_hasLiveKey]

/-- The pseudo deleted terms that `db_take_hash` counts with the live ones of the key. -/
def marked (K : Keying κ ω) (type : TableType) (k : κ) (hval : ℕ) : List (HashDbTerm ω) → ℕ
  | [] => 0
  | b :: chain =>
    if hasLiveKey K b k hval then (termsOfKey K type k hval b chain).1.countP (·.pseudoDeleted)
    else marked K type k hval chain

theorem marked_set : marked K .set k hval chain = 0 := by
  induction chain with
  | nil => rfl
  | cons b chain ih =>
    rw [marked]
    split_ifs with hlive
    · simp [termsOfKey, pseudoDeleted_of_hasLiveKey hlive]
    · exact ih

theorem live_takeLoop :
    live (takeLoop K fixed type k hval chain).2.1 + (takeLoop K fixed type k hval chain).2.2 =
      live chain + marked K type k hval chain := by
  induction chain with
  | nil => rfl
  | cons b chain ih =>
    rw [takeLoop, marked]
    by_cases hkey : hasLiveKey K b k hval = true
    · have hterms : (termsOfKey K type k hval b chain).1 ++ (termsOfKey K type k hval b chain).2 =
          b :: chain := by
        cases type <;> simp [termsOfKey]
      rw [if_pos hkey, if_pos hkey, ← hterms, live_append]
      dsimp only
      rw [length_eq_countP_add_countP (·.pseudoDeleted)]
      cases fixed <;> simp [live] <;> omega
    · rw [if_neg hkey, if_neg hkey]
      dsimp only
      rw [live_cons, live_cons]
      omega

theorem live_selectChain (pseudo : Bool) (accepts : ω → Bool) (chain : List (HashDbTerm ω)) :
    live (selectChain pseudo accepts chain).1 + (selectChain pseudo accepts chain).2.length =
      live chain := by
  induction chain with
  | nil => rfl
  | cons b chain ih =>
    rw [selectChain]
    split_ifs <;> grind [live_cons]

/-- The count of an insertion is right. -/
def Put.Counts (n : ℕ) : Put ω → Prop
  | .done chain diff => (live chain : ℤ) = n + diff
  | .clash => True
  | .new chain => live chain = n + 1

variable [DecidableEq ω]

theorem live_eraseObjectLoop (nkeys erased : ℕ) :
    live (eraseObjectLoop K fixed type hval obj nkeys erased chain).1 +
        (eraseObjectLoop K fixed type hval obj nkeys erased chain).2.1 = live chain + erased := by
  induction chain generalizing nkeys erased with
  | nil => rfl
  | cons b chain ih =>
    rw [eraseObjectLoop]
    split_ifs <;> grind [live_cons, pseudoDeleted_of_hasLiveKey]

theorem findObject_eq {before after : List (HashDbTerm ω)} {q : HashDbTerm ω}
    (h : findObject K k hval obj chain = some (before, q, after)) : chain =
      before ++ q :: after := by
  induction chain generalizing before with
  | nil => cases h
  | cons b chain ih =>
    rw [findObject] at h
    split_ifs at h
    · cases h
      rfl
    · obtain ⟨⟨before', r⟩, hr, heq⟩ := Option.map_eq_some_iff.mp h
      cases heq
      rw [ih hr]
      rfl

theorem counts_putFound (clash : Bool) (b : HashDbTerm ω) :
    (putFound K type clash hval obj b chain).Counts (live (b :: chain)) := by
  rw [putFound.eq_def]
  cases type with
  | set =>
    dsimp only
    split_ifs with hpd <;> simp [Put.Counts, live_cons, hpd]
  | bag =>
    dsimp only
    split_ifs
    · trivial
    · simp [Put.Counts, live_cons]
    · cases h : findObject K (K.key obj) hval obj (b :: chain) with
      | none => simp [Put.Counts, live_cons]
      | some r =>
        obtain ⟨before, q, after⟩ := r
        dsimp only
        split_ifs with hpd
        · rw [findObject_eq h]
          simp only [Put.Counts, live_cons, live_append, hpd, cons_append]
          simp
        · simp [Put.Counts]
  | duplicateBag =>
    dsimp only
    split_ifs
    · trivial
    · simp [Put.Counts, live_cons]

theorem counts_putLoop (clash : Bool) :
    (putLoop K type clash hval obj chain).Counts (live chain) := by
  induction chain with
  | nil => simp [putLoop, Put.Counts, live]
  | cons b chain ih =>
    rw [putLoop]
    split_ifs
    · exact counts_putFound clash b
    · cases h : putLoop K type clash hval obj chain <;> rw [h] at ih <;>
        simp only [Put.cons, Put.Counts, live_cons] at ih ⊢ <;> omega

end Loops

/-! ## Tables -/

variable {tb tb' : DbTableHash ω} {ix : ℕ} {marks : Bool} {counters : Counters}
  {objects : List ω}

/-- The number of objects in a table that are not pseudo deleted. -/
def liveCount (tb : DbTableHash ω) : ℕ := ∑ ix ∈ Finset.range tb.nactive, live (tb.bucket ix)

/-- The keys of the live objects. -/
def liveKeys (K : Keying κ ω) (tb : DbTableHash ω) : Multiset κ :=
  ∑ ix ∈ Finset.range tb.nactive, (chainKeys K (purgeChain (tb.bucket ix)) : Multiset κ)

theorem card_liveKeys : (liveKeys K tb).card = liveCount tb := by
  rw [liveKeys, Multiset.card_sum, liveCount]
  exact Finset.sum_congr rfl fun ix _ => by
    simp [chainKeys, purgeChain, live, countP_eq_length_filter]

variable [DecidableEq κ]

/-- A key has as many live objects as its chain has of it. -/
theorem TableOk.count_liveKeys (h : TableOk K tb) (k : κ) :
    (liveKeys K tb).count k = (objectsOf K tb k).length := by
  rw [liveKeys, Multiset.count_sum', Finset.sum_eq_single (slotOfKey K tb k)]
  · rw [Multiset.coe_count, chainKeys, count, countP_map, purgeChain, countP_filter,
      countP_eq_length_filter]
    simp only [objectsOf, liveObjects, buildTermList, filter_filter, length_reverse, length_map]
    congr 1
    exact filter_congr fun t _ => Bool.and_comm _ _
  · intro ix hix hne
    rw [Multiset.coe_count, count_eq_zero]
    intro hmem
    obtain ⟨t, ht, rfl⟩ := mem_map.mp hmem
    have ht := mem_of_mem_filter ht
    have hix := Finset.mem_range.mp hix
    rw [slotOfKey, ← (h.stored.chains ix hix).hashed t ht, h.stored.placed ix hix t ht] at hne
    exact hne rfl
  · exact fun hno => absurd (Finset.mem_range.mpr (h.sized.hashToIx_lt _)) hno

theorem Keeps.liveCount_eq (hk : Keeps K tb tb') (h : TableOk K tb) :
    liveCount tb' = liveCount tb := by
  rw [← card_liveKeys (K := K), ← card_liveKeys (K := K)]
  congr 1
  ext k
  rw [hk.ok.count_liveKeys, h.count_liveKeys, hk.objects]

theorem liveCount_edited (h : ix < tb.nactive) (chain : List (HashDbTerm ω)) (marks : Bool)
    (counters : Counters) :
    liveCount (edited tb ix chain marks counters) + live (tb.bucket ix) =
      liveCount tb + live chain := by
  have hmem := Finset.mem_range.mpr h
  have hnew : ∀ i, live (update tb.bucket ix chain i) =
      update (fun i => live (tb.bucket i)) ix (live chain) i :=
    fun i => apply_update (fun _ => live) _ _ _ _
  rw [liveCount, liveCount, Finset.sum_eq_add_sum_sdiff_singleton_of_mem hmem]
  simp only [edited, hnew, Finset.sum_update_of_mem hmem]
  omega

/-! ## Resizing -/

theorem grow_counters (nitems limit : ℕ) : (grow nitems limit tb).counters = tb.counters := by
  induction limit generalizing tb with
  | zero => rfl
  | succ limit ih =>
    rw [grow]
    split_ifs
    · rfl
    · rw [ih, growStep]
      split_ifs <;> rfl

theorem shrink_counters (nitems limit : ℕ) : (shrink nitems limit tb).counters = tb.counters := by
  induction limit generalizing tb with
  | zero => rfl
  | succ limit ih =>
    rw [shrink]
    split_ifs
    · rfl
    · rw [ih, shrinkStep]
      dsimp only
      split_ifs <;> rfl

theorem tryShrink_counters (nitems : ℤ) : (tryShrink tb nitems).counters = tb.counters := by
  rw [tryShrink]
  split_ifs
  · exact shrink_counters _ _
  · rfl

theorem Resized.counters_eq (hr : Resized tb tb') : tb'.counters = tb.counters := by
  cases hr with
  | same => rfl
  | grow nitems limit => exact grow_counters nitems limit
  | shrink nitems limit => exact shrink_counters nitems limit
  | tryShrink nitems => exact tryShrink_counters nitems

/-! ## Operations -/

/-- How far the counter of a table is above the number of its live objects. -/
def excess (tb : DbTableHash ω) : ℤ := tb.counters.total - liveCount tb

theorem Resized.excess_eq (hr : Resized tb tb') (h : TableOk K tb) : excess tb' = excess tb := by
  rw [excess, excess, hr.counters_eq, (hr.ok h).liveCount_eq h]

section

variable (h : TableOk K tb)

include h

/-- An edit that counts `n` terms less than it adds. -/
theorem excess_of_edit {n : ℤ}
    (hr : Replaces K tb.type k (tb.bucket (slotOfKey K tb k)) chain fixed marks objects)
    (hm : marks = true → tb.isFixed = true)
    (hres : Resized (edited tb (slotOfKey K tb k) chain marks counters) tb')
    (hcount : counters.total + live (tb.bucket (slotOfKey K tb k)) + n =
      tb.counters.total + live chain) : excess tb' = excess tb - n := by
  have hlt : slotOfKey K tb k < tb.nactive := h.sized.hashToIx_lt _
  have hlive := liveCount_edited hlt chain marks counters
  rw [hres.excess_eq (h.edited hr hm _).1]
  show counters.total - _ = _
  rw [excess]
  omega

theorem excess_finishErase {erased n : ℕ}
    (hr : Replaces K tb.type k (tb.bucket (slotOfKey K tb k)) chain tb.isFixed marks objects)
    (hm : marks = true → tb.isFixed = true)
    (hcount : live chain + erased = live (tb.bucket (slotOfKey K tb k)) + n) :
    excess (finishErase tb (slotOfKey K tb k) (K.makeHash k) chain erased marks) =
      excess tb - n := by
  have hset : (if marks = true then (tb.setBucket (slotOfKey K tb k) chain).addFixedDeletion
      (slotOfKey K tb k) else tb.setBucket (slotOfKey K tb k) chain) =
      edited tb (slotOfKey K tb k) chain marks tb.counters := by
    cases marks <;> rfl
  unfold finishErase
  dsimp only
  rw [hset]
  split_ifs with hne
  · refine excess_of_edit h hr hm (.tryShrink _) ?_
    show tb.counters.total + -(erased : ℤ) + _ + _ = _
    omega
  · exact excess_of_edit h hr hm .same (by omega)

theorem excess_dbPutHash [DecidableEq ω] (obj : ω) (clash : Bool) :
    excess (dbPutHash K tb obj clash).1 = excess tb := by
  have hspec := putLoop_spec (h.stored.chains _ (h.sized.hashToIx_lt (K.makeHash (K.key obj))))
    obj clash
  have hcount : (putLoop K tb.type clash (K.makeHash (K.key obj)) obj
      (tb.bucket (tb.hashToIx (K.makeHash (K.key obj))))).Counts
        (live (tb.bucket (tb.hashToIx (K.makeHash (K.key obj))))) := counts_putLoop clash
  have hedit : ∀ {chain diff tb'}, Replaces K tb.type (K.key obj)
      (tb.bucket (slotOfKey K tb (K.key obj))) chain true false
      (putObjects tb.type obj (objectsOf K tb (K.key obj))) →
      (live chain : ℤ) = live (tb.bucket (slotOfKey K tb (K.key obj))) + diff →
      Resized ((tb.setBucket (slotOfKey K tb (K.key obj)) chain).addNitems
        (K.makeHash (K.key obj)) diff) tb' → excess tb' = excess tb := by
    intro chain diff tb' hr hn hres
    refine (excess_of_edit (n := 0) h hr (by simp) hres ?_).trans (by simp)
    show tb.counters.total + diff + _ + _ = _
    omega
  unfold dbPutHash
  dsimp only
  revert hspec hcount
  cases putLoop K tb.type clash (K.makeHash (K.key obj)) obj
      (tb.bucket (tb.hashToIx (K.makeHash (K.key obj)))) with
  | clash => exact fun _ _ => rfl
  | done chain diff => exact fun hspec hcount => hedit hspec.2 hcount .same
  | new chain =>
    intro hspec hcount
    dsimp only
    split_ifs
    · exact hedit hspec.2 (by exact_mod_cast hcount) (.grow _ _)
    · exact hedit hspec.2 (by exact_mod_cast hcount) .same

theorem excess_dbEraseHash (k : κ) : excess (dbEraseHash K tb k) = excess tb := by
  have hlt : slotOfKey K tb k < tb.nactive := h.sized.hashToIx_lt _
  refine (excess_finishErase h (eraseLoop_spec (h.stored.chains _ hlt) k tb.isFixed) ?_
    (n := 0) (live_eraseLoop 0)).trans (by simp)
  intro hm
  exact (Bool.and_eq_true_iff.mp hm).1

theorem excess_dbEraseObjectHash [DecidableEq ω] (object : ω) :
    excess (dbEraseObjectHash K tb object) = excess tb := by
  have hlt : slotOfKey K tb (K.key object) < tb.nactive := h.sized.hashToIx_lt _
  refine (excess_finishErase h (eraseObjectLoop_spec (h.stored.chains _ hlt) object tb.isFixed) ?_
    (n := 0) (live_eraseObjectLoop 0 0)).trans (by simp)
  intro hm
  by_contra hf
  rw [Bool.not_eq_true] at hf
  rw [hf, eraseObjectLoop_not_fixed] at hm
  cases hm

theorem excess_dbTakeHash (k : κ) : excess (dbTakeHash K tb k).1 =
    excess tb - marked K tb.type k (K.makeHash k) (tb.bucket (slotOfKey K tb k)) := by
  have hlt : slotOfKey K tb k < tb.nactive := h.sized.hashToIx_lt _
  refine excess_finishErase h (takeLoop_spec tb.isFixed (h.stored.chains _ hlt) k).2
    ?_ live_takeLoop
  intro hm
  exact (Bool.and_eq_true_iff.mp hm).1

theorem excess_unfixTable : excess (unfixTable tb) = excess tb := by
  have hcounters : (unfixTable tb).counters = tb.counters := by
    rw [unfixTable]
    split_ifs
    · rfl
    · obtain ⟨bucket, heq, -⟩ := foldl_purgeSlot (tb.fixdel.flatMap FixedDeletion.slots)
        { tb with fixCount := tb.fixCount - 1 }
      unfold dbUnfixTableHash
      rw [heq]
  rw [excess, excess, hcounters, h.unfixTable.liveCount_eq h]

/-! ## `select_delete` -/

theorem patternSlots_lt (isThreadSafe : Bool) (pattern : Pattern K) :
    ∀ ix ∈ patternSlots K tb isThreadSafe pattern, ix < tb.nactive := by
  unfold patternSlots
  cases pattern.keys with
  | none =>
    intro ix hix
    rw [slotsFrom_zero h.sized.locked] at hix
    exact (mem_slotOrder h.sized.locked.pos h.sized.locked.2).mp hix
  | some ks =>
    refine foldlRecOn (motive := fun slots => ∀ ix ∈ slots, ix < tb.nactive) ks _ (by simp)
      fun slots hslots k _ => ?_
    dsimp only
    split_ifs
    · exact hslots
    · exact hslots
    · exact forall_mem_append.mpr ⟨hslots, forall_mem_singleton.mpr (h.sized.hashToIx_lt _)⟩

end

theorem excess_selectSlot (pseudo : Bool) (accepts : ω → Bool) (s : DbTableHash ω × Option ℕ × ℕ)
    (hix : ix < s.1.nactive) : excess (selectSlot pseudo accepts s ix).1 = excess s.1 ∧
      (selectSlot pseudo accepts s ix).1.nactive = s.1.nactive := by
  have hfold : ∀ (hvals : List ℕ) (tb : DbTableHash ω), ∃ counters : Counters,
      hvals.foldl (fun tb h => tb.addNitems h (-1)) tb = { tb with counters := counters } ∧
        counters.total = tb.counters.total - hvals.length := by
    intro hvals
    induction hvals with
    | nil => exact fun tb => ⟨tb.counters, rfl, by simp⟩
    | cons h hvals ih =>
      intro tb
      obtain ⟨counters, heq, htotal⟩ := ih (tb.addNitems h (-1))
      refine ⟨counters, heq, htotal.trans ?_⟩
      show tb.counters.total + -1 - _ = _
      rw [length_cons]
      omega
  have hchain := live_selectChain pseudo accepts (s.1.bucket ix)
  obtain ⟨counters, heq, htotal⟩ := hfold (selectChain pseudo accepts (s.1.bucket ix)).2
    (s.1.setBucket ix (selectChain pseudo accepts (s.1.bucket ix)).1)
  have hedit : ∀ marks, excess (edited s.1 ix (selectChain pseudo accepts (s.1.bucket ix)).1 marks
      counters) = excess s.1 := by
    intro marks
    have hlive := liveCount_edited hix (selectChain pseudo accepts (s.1.bucket ix)).1 marks
      counters
    show counters.total - _ = _
    rw [excess, htotal]
    show s.1.counters.total - _ - _ = _
    omega
  unfold selectSlot
  dsimp only
  rw [heq]
  split_ifs
  · exact ⟨hedit true, rfl⟩
  · exact ⟨hedit false, rfl⟩

theorem excess_foldl_selectSlot (pseudo : Bool) (accepts : ω → Bool) (slots : List ℕ)
    (s : DbTableHash ω × Option ℕ × ℕ) (hs : ∀ ix ∈ slots, ix < s.1.nactive) :
    excess (slots.foldl (selectSlot pseudo accepts) s).1 = excess s.1 := by
  induction slots generalizing s with
  | nil => rfl
  | cons ix slots ih =>
    obtain ⟨hix, hslots⟩ := forall_mem_cons.mp hs
    obtain ⟨heq, hactive⟩ := excess_selectSlot pseudo accepts s hix
    rw [foldl_cons, ih _ (by rwa [hactive]), heq]

section

variable (h : TableOk K tb)

include h

theorem excess_dbSelectDeleteHash [DecidableEq ω] (pattern : Pattern K) (isThreadSafe : Bool)
    (random : ℕ) :
    excess (dbSelectDeleteHash K tb pattern isThreadSafe random).1 = excess tb := by
  have hok := (foldl_selectSlot_ok
    (decide ((if isThreadSafe = true then 0 else 1) < tb.fixCount)) pattern.accepts
    (s := (tb, none, 0)) h (by intro ix hix; cases hix) (by
      intro hp
      exact decide_eq_true (Nat.ne_of_gt (Nat.zero_lt_of_lt (of_decide_eq_true hp))))
    (patternSlots K tb isThreadSafe pattern)).1
  have hfold := excess_foldl_selectSlot
    (decide ((if isThreadSafe = true then 0 else 1) < tb.fixCount)) pattern.accepts
    (patternSlots K tb isThreadSafe pattern) (tb, none, 0) (patternSlots_lt h isThreadSafe pattern)
  unfold dbSelectDeleteHash
  dsimp only
  revert hok hfold
  generalize (patternSlots K tb isThreadSafe pattern).foldl _ (tb, none, 0) = r
  intro hok hfold
  split_ifs
  · exact ((Resized.tryShrink _).excess_eq hok).trans hfold
  · exact hfold

theorem excess_etsSelectDelete [DecidableEq ω] (pattern : Pattern K)
    (iterUnsafe isThreadSafe : Bool)
    (random : ℕ) :
    excess (etsSelectDelete K tb pattern iterUnsafe isThreadSafe random).1 = excess tb := by
  cases iterUnsafe with
  | false => exact excess_dbSelectDeleteHash h pattern isThreadSafe random
  | true =>
    have hstands := dbSelectDeleteHash_ok h.fixTable pattern isThreadSafe random
    exact (excess_unfixTable hstands.ok).trans
      (excess_dbSelectDeleteHash h.fixTable pattern isThreadSafe random)

end

/-! ## `delete_all_objects` -/

/-- `db_mark_all_deleted_hash(tbl, reds)`, with the rounds after its traps. -/
def dbMarkAllDeletedHash (tb : DbTableHash ω) : DbTableHash ω :=
  { tb with
    bucket := fun ix =>
      if ix < tb.nactive then (tb.bucket ix).map ({ · with pseudoDeleted := true })
      else tb.bucket ix
    fixdel := ⟨tb.nactive - 1, true⟩ :: tb.fixdel
    counters := { tb.counters with total := 0 } }

/-- `db_delete_all_objects_hash`; a table that is not fixed is created anew. -/
def dbDeleteAllObjectsHash (tb : DbTableHash ω) : DbTableHash ω :=
  if tb.isFixed then dbMarkAllDeletedHash tb
  else
    dbCreateHash tb.type (if tb.nlocks = 1 then none else some tb.nlocks)
      tb.counters.isDecentralized

theorem thins_mark (chain : List (HashDbTerm ω)) :
    Thins (chain.map ({ · with pseudoDeleted := true })) chain := by
  induction chain with
  | nil => exact .nil
  | cons t chain ih => exact .mark t ih

omit [DecidableEq κ] in
theorem TableOk.dbMarkAllDeletedHash (h : TableOk K tb) (hf : tb.isFixed = true) :
    TableOk K (dbMarkAllDeletedHash tb) ∧ excess (DbHash.dbMarkAllDeletedHash tb) = 0 := by
  have hbucket : ∀ ix < tb.nactive, (DbHash.dbMarkAllDeletedHash tb).bucket ix =
      (tb.bucket ix).map ({ · with pseudoDeleted := true }) := fun ix hix => if_pos hix
  refine ⟨⟨⟨h.sized.mask, h.sized.slots, h.sized.locked, h.sized.limit⟩, ?_, ?_, ?_⟩, ?_⟩
  · intro ix hix
    rw [hbucket ix hix]
    exact (thins_mark _).chainOk (h.stored.chains ix hix)
  · intro ix hix t ht
    rw [hbucket ix hix] at ht
    obtain ⟨u, hu, rfl⟩ := mem_map.mp ht
    exact h.stored.placed ix hix u hu
  · intro ix hix t ht _
    refine ⟨hf, _, mem_cons_self, ?_⟩
    change ix < tb.nactive at hix
    simp [FixedDeletion.slots]
    omega
  · have hlive : ∀ chain : List (HashDbTerm ω),
        live (chain.map ({ · with pseudoDeleted := true })) = 0 := by
      intro chain
      simp [live]
    rw [excess, liveCount, Finset.sum_eq_zero]
    · rfl
    · intro ix hix
      rw [hbucket ix (Finset.mem_range.mp hix), hlive]

theorem excess_dbCreateHash (type : TableType) (locks : Option ℕ) (dec : Bool) :
    excess (dbCreateHash (ω := ω) type locks dec) = 0 := by
  have hcounters : ∀ (fuel : ℕ) (tb : DbTableHash ω),
      (allocSegs tb fuel).counters = tb.counters := by
    intro fuel
    induction fuel with
    | zero => exact fun _ => rfl
    | succ fuel ih =>
      intro tb
      rw [allocSegs]
      split_ifs
      · exact ih _
      · rfl
  have hempty := (dbCreateHash_ok (K := ⟨id, fun _ => 0⟩) (ω := ω) type locks dec).2.2
  rw [excess, liveCount, Finset.sum_eq_zero fun ix _ => by rw [hempty ix]; rfl, dbCreateHash,
    hcounters]
  rfl

omit [DecidableEq κ] in
theorem TableOk.dbDeleteAllObjectsHash (h : TableOk K tb) :
    TableOk K (dbDeleteAllObjectsHash tb) ∧ excess (DbHash.dbDeleteAllObjectsHash tb) = 0 := by
  unfold DbHash.dbDeleteAllObjectsHash
  split_ifs with hf
  · exact h.dbMarkAllDeletedHash hf
  all_goals exact ⟨(dbCreateHash_ok _ _ _).1, excess_dbCreateHash _ _ _⟩

/-! ## Histories -/

variable [DecidableEq ω]

/-- The operations of a history, with `delete_all_objects`. -/
inductive Command (K : Keying κ ω) where
  | call (op : Op K)
  | deleteAllObjects

variable (K) in
/-- A command on a table. -/
def Command.apply (tb : DbTableHash ω) : Command K → DbTableHash ω
  | .call op => (step K tb op).1
  | .deleteAllObjects => dbDeleteAllObjectsHash tb

variable (K) in
/-- The pseudo deleted objects that have been counted as taken since the counter was reset. -/
def Command.miscount (tb : DbTableHash ω) (n : ℕ) : Command K → ℕ
  | .call (.take k) => n + marked K tb.type k (K.makeHash k) (tb.bucket (slotOfKey K tb k))
  | .call _ => n
  | .deleteAllObjects => 0

variable (K) in
/-- A history: the table, and what has been counted wrongly. -/
def history (tb : DbTableHash ω) (n : ℕ) : List (Command K) → DbTableHash ω × ℕ
  | [] => (tb, n)
  | c :: cs => history (c.apply K tb) (c.miscount K tb n) cs

theorem TableOk.command (h : TableOk K tb) {n : ℕ} (hn : excess tb = -n) (c : Command K) :
    TableOk K (c.apply K tb) ∧ excess (c.apply K tb) = -(c.miscount K tb n : ℤ) := by
  have hstands : StandsFor K tb.type tb (objectsOf K tb) := ⟨h, rfl, fun _ => rfl⟩
  cases c with
  | deleteAllObjects =>
    obtain ⟨hok, hexcess⟩ := h.dbDeleteAllObjectsHash
    exact ⟨hok, hexcess⟩
  | call op =>
    refine ⟨(hstands.step op).1.ok, ?_⟩
    cases op with
    | insert obj => exact (excess_dbPutHash h obj false).trans hn
    | insertNew obj => exact (excess_dbPutHash h obj true).trans hn
    | delete k => exact (excess_dbEraseHash h k).trans hn
    | deleteObject obj => exact (excess_dbEraseObjectHash h obj).trans hn
    | take k =>
      refine (excess_dbTakeHash h k).trans ?_
      rw [hn, Command.miscount]
      omega
    | selectDelete pattern iterUnsafe isThreadSafe random =>
      exact (excess_etsSelectDelete h pattern iterUnsafe isThreadSafe random).trans hn
    | fix => exact hn
    | unfix => exact (excess_unfixTable h).trans hn

theorem excess_history (h : TableOk K tb) {n : ℕ} (hn : excess tb = -n) (cs : List (Command K)) :
    excess (history K tb n cs).1 = -((history K tb n cs).2 : ℤ) := by
  induction cs generalizing tb n with
  | nil => exact hn
  | cons c cs ih =>
    obtain ⟨hok, hc⟩ := h.command hn c
    exact ih hok hc

theorem type_command (h : TableOk K tb) (c : Command K) : (c.apply K tb).type = tb.type := by
  cases c with
  | call op =>
    have hstands : StandsFor K tb.type tb (objectsOf K tb) := ⟨h, rfl, fun _ => rfl⟩
    exact (hstands.step op).1.type
  | deleteAllObjects =>
    rw [Command.apply, dbDeleteAllObjectsHash]
    cases tb.isFixed with
    | true => rfl
    | false => exact (dbCreateHash_ok (K := K) tb.type _ _).2.1

/-- A set has one term for each key, and a take finds it live or not at all. -/
theorem TableOk.history_set (h : TableOk K tb) {n : ℕ} (hn : excess tb = -n) (hset : tb.type = .set)
    (cs : List (Command K)) : (history K tb 0 cs).2 = 0 := by
  induction cs generalizing tb n with
  | nil => rfl
  | cons c cs ih =>
    have hc : c.miscount K tb 0 = 0 := by
      cases c with
      | call op => cases op <;> simp [Command.miscount, hset, marked_set]
      | deleteAllObjects => rfl
    obtain ⟨hok, hexcess⟩ := h.command hn c
    rw [history, hc]
    exact ih hok hexcess ((type_command h c).trans hset)

/-- **The item counter.** After any history of a new table the counter is right just if no pseudo
deleted object has been counted as taken since all objects were deleted; otherwise it is too low
by the number of them. In a set it is always right. -/
theorem nitems_exact_iff (K : Keying κ ω) (type : TableType) (locks : Option ℕ)
    (cs : List (Command K)) :
    let r := history K (dbCreateHash type locks false) 0 cs
    r.1.counters.total = liveCount r.1 - r.2 ∧
      (r.1.counters.total = liveCount r.1 ↔ r.2 = 0) ∧
      (type = .set → r.1.counters.total = liveCount r.1) := by
  intro r
  obtain ⟨hok, htype, -⟩ := dbCreateHash_ok (K := K) type locks false
  have hnew : excess (dbCreateHash type locks false : DbTableHash ω) = -((0 : ℕ) : ℤ) :=
    excess_dbCreateHash type locks false
  have hr : excess r.1 = -(r.2 : ℤ) := excess_history hok hnew cs
  rw [excess] at hr
  refine ⟨by omega, by omega, fun hset => ?_⟩
  have hzero : r.2 = 0 := hok.history_set hnew (htype.trans hset) cs
  omega

/-- In a fixed set the deleted object is counted off once. -/
theorem nitems_exact_set :
    let r := history pairs (dbCreateHash .set none false) 0
      [.call .fix, .call (.insert (1, 2)), .call (.deleteObject (1, 2)), .call (.insert (1, 3)),
        .call (.take 1)]
    r.1.counters.total = liveCount r.1 :=
  (nitems_exact_iff pairs .set none _).2.2 rfl

/-- The object that was deleted in a fixed bag is taken off the counter once more. -/
theorem nitems_negative :
    let r := history pairs (dbCreateHash .bag none false) 0
      [.call .fix, .call (.insert (1, 2)), .call (.deleteObject (1, 2)), .call (.insert (1, 3)),
        .call (.take 1)]
    r.1.counters.total = -1 := by
  decide +kernel

end Otp.Erts.DbHash
