import Otp.Erts.DbHash.Operations

/-!
# Tables refine keyed collections

A table stands for the collection that gives each key its live objects. A new
table stands for the empty collection, every operation leads from a table that
stands for a collection to one that stands for the collection after the same
operation, with the same answer, and a lookup reads the collection.
-/

namespace Otp.Erts.DbHash

open Otp.Lib

variable {κ ω : Type*} {K : Keying κ ω} {tb : DbTableHash ω}

/-! ## New tables -/

theorem maskFits_log2 {n : ℕ} (hn : 1 < n) : ∃ m,
    (if 2 ^ Nat.log2 n ≠ n then 2 * 2 ^ Nat.log2 n - 1 else 2 ^ Nat.log2 n - 1) = 2 ^ m - 1 ∧
      MaskFits m n := by
  have hle : 2 ^ Nat.log2 n ≤ n := Nat.log2_self_le (by omega)
  have hlt : n < 2 ^ (Nat.log2 n + 1) := Nat.lt_log2_self
  split_ifs with heq
  · refine ⟨Nat.log2 n + 1, by rw [pow_succ, Nat.mul_comm], Nat.succ_pos _, ?_, ?_⟩
    · omega
    · omega
  · refine ⟨Nat.log2 n, rfl, ?_, by omega, by omega⟩
    by_contra hz
    rw [Nat.eq_zero_of_not_pos hz] at heq
    omega

/-- What holds of a new table while its segments are allocated. -/
structure Fresh (tb : DbTableHash ω) : Prop where
  mask : ∃ m, tb.Masked m
  slots : tb.nactive = tb.nslots
  locks : ∃ l, tb.nlocks = 2 ^ l
  limit : tb.shrinkLimit ≠ 0 →
    tb.nlocks + extSegsz ≤ tb.nslots ∧ firstSegsz + 2 * extSegsz ≤ tb.nslots
  bucket : ∀ ix, tb.bucket ix = []

theorem Fresh.allocSeg (h : Fresh tb) : Fresh (tb.allocSeg true) := by
  have hext : 1 < extSegsz := by simp [extSegsz]
  obtain ⟨m, hszm, hfit⟩ := maskFits_log2 (n := tb.nactive + extSegsz) (by omega)
  refine ⟨⟨m, hszm, hfit⟩, ?_, h.locks, ?_, ?_⟩
  · show tb.nactive + extSegsz = tb.nslots + extSegsz
    rw [h.slots]
  · intro hl
    exact calcShrinkLimit_limit _ hl
  · intro ix
    show (if _ then [] else tb.bucket ix) = []
    rw [h.bucket, ite_self]

theorem Fresh.allocSegs (h : Fresh tb) : ∀ fuel, Fresh (allocSegs tb fuel) := by
  intro fuel
  induction fuel generalizing tb with
  | zero => exact h
  | succ fuel ih =>
    unfold DbHash.allocSegs
    split_ifs
    · exact ih h.allocSeg
    · exact h

/-- There are as many slots as locks in the end. -/
theorem allocSegs_nslots (fuel : ℕ) (h : tb.nlocks ≤ tb.nslots + fuel) :
    (allocSegs tb fuel).nlocks ≤ (allocSegs tb fuel).nslots := by
  induction fuel generalizing tb with
  | zero => exact h
  | succ fuel ih =>
    unfold allocSegs
    split_ifs with hlt
    · apply ih
      show tb.nlocks ≤ tb.nslots + extSegsz + fuel
      unfold extSegsz
      omega
    · omega

theorem allocSegs_type (fuel : ℕ) : (allocSegs tb fuel).type = tb.type := by
  induction fuel generalizing tb with
  | zero => rfl
  | succ fuel ih =>
    unfold allocSegs
    split_ifs
    · rw [ih]
      rfl
    · rfl

theorem lockCount_eq_two_pow (locks : Option ℕ) : ∃ l, lockCount locks = 2 ^ l := by
  cases locks with
  | none => exact ⟨0, rfl⟩
  | some asked =>
    obtain h | h := max_choice (2 ^ Nat.log2 (if asked = 0 then 64 else asked))
      nlocksWithItemCounters
    · exact ⟨_, h⟩
    · exact ⟨6, h⟩

theorem dbCreateHash_ok (type : TableType) (locks : Option ℕ) (dec : Bool) :
    TableOk K (dbCreateHash type locks dec) ∧ (dbCreateHash (ω := ω) type locks dec).type = type ∧
      ∀ ix, (dbCreateHash (ω := ω) type locks dec).bucket ix = [] := by
  have hfresh : Fresh (dbCreateHash (ω := ω) type locks dec) := by
    refine Fresh.allocSegs ⟨⟨8, rfl, ?_⟩, rfl, lockCount_eq_two_pow locks, ?_, fun _ => rfl⟩ _
    · exact ⟨by omega, by simp [firstSegsz], by simp [firstSegsz]⟩
    · intro hl
      exact absurd rfl hl
  have hlocks : (dbCreateHash (ω := ω) type locks dec).nlocks ≤
      (dbCreateHash (ω := ω) type locks dec).nslots := by
    apply allocSegs_nslots
    exact Nat.le_add_left _ _
  refine ⟨⟨⟨hfresh.mask, ⟨Nat.le_of_eq hfresh.slots, ?_⟩, ⟨hfresh.locks, ?_⟩, hfresh.limit⟩,
    ?_, ?_, ?_⟩, allocSegs_type _, hfresh.bucket⟩
  · rw [hfresh.slots]
    simp [extSegsz]
  · rw [hfresh.slots]
    exact hlocks
  · intro ix _
    rw [hfresh.bucket]
    exact ⟨by simp, Grouped.nil, fun _ => List.nodup_nil, fun _ => List.Pairwise.nil⟩
  · intro ix _ t ht
    rw [hfresh.bucket] at ht
    cases ht
  · intro ix _ t ht
    rw [hfresh.bucket] at ht
    cases ht

/-! ## The slots of a pattern -/

section Pattern

variable [DecidableEq κ] {k : κ}

theorem mem_liveObjects {chain : List (HashDbTerm ω)} {obj : ω} :
    obj ∈ liveObjects K k chain ↔
      ∃ t ∈ chain, K.key t.obj = k ∧ t.pseudoDeleted = false ∧ t.obj = obj := by
  simp [liveObjects, buildTermList]
  grind

theorem mem_keySlots {slots : List ℕ} {isThreadSafe : Bool} (ks : List κ) {ix : ℕ}
    (h : ix ∈ slots ∨ ∃ k ∈ ks, slotOfKey K tb k = ix ∧
      ¬ (isThreadSafe = true ∧
        searchList K k (K.makeHash k) (tb.bucket (slotOfKey K tb k)) = false)) :
    ix ∈ ks.foldl
      (fun slots k =>
        let ix := tb.hashToIx (K.makeHash k)
        if isThreadSafe = true ∧ searchList K k (K.makeHash k) (tb.bucket ix) = false then slots
        else if ix ∈ slots then slots
        else slots ++ [ix]) slots := by
  induction ks generalizing slots with
  | nil => simpa using h
  | cons k ks ih =>
    refine ih ?_
    rcases h with h | ⟨k', hk', rfl, hk⟩
    · dsimp only
      split_ifs <;> simp [h]
    · rcases List.mem_cons.mp hk' with rfl | hk'
      · rw [slotOfKey] at hk ⊢
        simp only [hk, if_false]
        split_ifs <;> simp_all
      · exact .inr ⟨k', hk', rfl, hk⟩

/-- A key whose slot is not visited has no object that the pattern accepts. -/
theorem filter_of_notMem_patternSlots (h : TableOk K tb) (isThreadSafe : Bool) (pattern : Pattern K)
    (hk : slotOfKey K tb k ∉ patternSlots K tb isThreadSafe pattern) :
    (objectsOf K tb k).filter (!pattern.accepts ·) = objectsOf K tb k := by
  have hlt : slotOfKey K tb k < tb.nactive := h.sized.hashToIx_lt _
  unfold patternSlots at hk
  rw [List.filter_eq_self]
  intro obj hobj
  obtain ⟨t, ht, htk, hl, rfl⟩ := mem_liveObjects.mp hobj
  by_contra hacc
  simp only [Bool.not_eq_true', Bool.not_eq_false] at hacc
  cases hkeys : pattern.keys with
  | none =>
    rw [hkeys] at hk
    rw [slotsFrom_zero h.sized.locked] at hk
    exact hk ((mem_slotOrder h.sized.locked.pos h.sized.locked.2).mpr hlt)
  | some ks =>
    rw [hkeys] at hk
    have hmem := pattern.key_mem ks hkeys _ hacc
    rw [htk] at hmem
    refine hk (mem_keySlots ks (.inr ⟨k, hmem, rfl, ?_⟩))
    -- the term itself is what the search finds
    rintro ⟨-, hs⟩
    unfold searchList at hs
    rw [List.any_eq_false] at hs
    apply hs t ht
    have hh := (h.stored.chains _ hlt).hashed t ht
    simp [hasLiveKey, hh, hl, htk]

end Pattern

section Select

variable [DecidableEq κ]

/-- The table stands for the collection. -/
structure StandsFor (K : Keying κ ω) (type : TableType) (tb : DbTableHash ω)
    (C : Collection κ ω) : Prop where
  ok : TableOk K tb
  type : tb.type = type
  objects : ∀ k, objectsOf K tb k = C k

theorem StandsFor.keeps {type : TableType} {tb' : DbTableHash ω} {C : Collection κ ω}
    (h : StandsFor K type tb C) (hk : Keeps K tb tb') : StandsFor K type tb' C :=
  ⟨hk.ok, hk.type.trans h.type, fun k => (hk.objects k).trans (h.objects k)⟩

variable [DecidableEq ω]

theorem dbSelectDeleteHash_ok (h : TableOk K tb) (pattern : Pattern K) (isThreadSafe : Bool)
    (random : ℕ) :
    StandsFor K tb.type (dbSelectDeleteHash K tb pattern isThreadSafe random).1
      fun k => (objectsOf K tb k).filter (!pattern.accepts ·) := by
  obtain ⟨hok, htype, hobj⟩ := foldl_selectSlot_ok
    (decide ((if isThreadSafe = true then 0 else 1) < tb.fixCount)) pattern.accepts
    (s := (tb, none, 0)) h (by intro ix hix; cases hix) (by
      intro hp
      exact decide_eq_true (Nat.ne_of_gt (Nat.zero_lt_of_lt (of_decide_eq_true hp))))
    (patternSlots K tb isThreadSafe pattern)
  have hstands : StandsFor K tb.type ((patternSlots K tb isThreadSafe pattern).foldl
      (selectSlot (decide ((if isThreadSafe = true then 0 else 1) < tb.fixCount)) pattern.accepts)
      (tb, none, 0)).1 fun k => (objectsOf K tb k).filter (!pattern.accepts ·) := by
    refine ⟨hok, htype, fun k => ?_⟩
    rw [hobj k]
    split_ifs with hmem
    · rfl
    · exact (filter_of_notMem_patternSlots h isThreadSafe pattern hmem).symm
  unfold dbSelectDeleteHash
  dsimp only
  revert hstands
  generalize (patternSlots K tb isThreadSafe pattern).foldl _ (tb, none, 0) = r
  intro hstands
  split_ifs
  · exact hstands.keeps (hstands.ok.tryShrink _)
  · exact hstands

theorem etsSelectDelete_ok (h : TableOk K tb) (pattern : Pattern K)
    (iterUnsafe isThreadSafe : Bool) (random : ℕ) :
    StandsFor K tb.type (etsSelectDelete K tb pattern iterUnsafe isThreadSafe random).1
      fun k => (objectsOf K tb k).filter (!pattern.accepts ·) := by
  cases iterUnsafe with
  | false => exact dbSelectDeleteHash_ok h pattern isThreadSafe random
  | true =>
    have hstands := dbSelectDeleteHash_ok h.fixTable pattern isThreadSafe random
    exact hstands.keeps hstands.ok.unfixTable

end Select

/-! ## Histories -/

section Histories

variable [DecidableEq κ]

variable {type : TableType} {C : Collection κ ω} {tb' : DbTableHash ω}

theorem StandsFor.editsKey (h : StandsFor K type tb C) {k : κ} {objects : List ω}
    (he : EditsKey K k objects tb tb') : StandsFor K type tb' (C.update k objects) := by
  obtain ⟨hok, htype, hobj⟩ := he.ok h.ok
  refine ⟨hok, htype.trans h.type, ?_⟩
  intro k'
  rw [hobj, show objectsOf K tb = C from funext h.objects]
  rfl

theorem standsFor_dbCreateHash (type : TableType) (locks : Option ℕ) (dec : Bool) :
    StandsFor K type (dbCreateHash type locks dec) Collection.empty := by
  obtain ⟨hok, htype, hbucket⟩ := dbCreateHash_ok (K := K) type locks dec
  refine ⟨hok, htype, ?_⟩
  intro k
  unfold objectsOf
  rw [hbucket]
  rfl

/-- A table that stands for a collection does so after its buckets are split or joined. -/
theorem StandsFor.resized (h : StandsFor K type tb C) (hr : Resized tb tb') :
    StandsFor K type tb' C :=
  h.keeps (hr.ok h.ok)

variable [DecidableEq ω]

section

variable (h : StandsFor K type tb C)

include h

theorem StandsFor.lookup (k : κ) : dbGetHash K tb k = C k :=
  (dbGetHash_eq h.ok k).trans (h.objects k)

theorem StandsFor.put (obj : ω) (clash : Bool) :
    StandsFor K type (dbPutHash K tb obj clash).1 (C.put K type obj clash).1 ∧
      (dbPutHash K tb obj clash).2 = (C.put K type obj clash).2 := by
  unfold Collection.put
  rw [← h.objects]
  obtain ⟨heq, hfail⟩ | ⟨hdone, hnot, hedit⟩ := dbPutHash_spec h.ok obj clash
  · rw [heq, if_pos hfail]
    exact ⟨h, rfl⟩
  · rw [h.type] at hedit
    rw [if_neg hnot, hdone]
    exact ⟨h.editsKey hedit, rfl⟩

/-- **Step.** An operation leads from a collection to the collection after the operation, with the
same answer. -/
theorem StandsFor.step (op : Op K) :
    StandsFor K type (step K tb op).1 (C.step K type op).1 ∧
      (step K tb op).2 = (C.step K type op).2 := by
  cases op with
  | insert obj =>
    obtain ⟨hs, ha⟩ := h.put obj false
    exact ⟨hs, congrArg Answer.bool ha⟩
  | insertNew obj =>
    obtain ⟨hs, ha⟩ := h.put obj true
    exact ⟨hs, congrArg Answer.bool ha⟩
  | delete k => exact ⟨h.editsKey (dbEraseHash_spec h.ok k), rfl⟩
  | deleteObject obj =>
    refine ⟨?_, rfl⟩
    show StandsFor K type _ (C.update (K.key obj) ((C (K.key obj)).filter (· ≠ obj)))
    rw [← h.objects]
    exact h.editsKey (dbEraseObjectHash_spec h.ok obj)
  | take k =>
    obtain ⟨ha, hedit⟩ := dbTakeHash_spec h.ok k
    exact ⟨h.editsKey hedit, congrArg Answer.objects (ha.trans (h.objects k))⟩
  | selectDelete pattern iterUnsafe isThreadSafe random =>
    obtain ⟨hok, htype, hobj⟩ := etsSelectDelete_ok h.ok pattern iterUnsafe isThreadSafe random
    refine ⟨⟨hok, htype.trans h.type, ?_⟩, rfl⟩
    intro k
    refine (hobj k).trans ?_
    rw [h.objects]
    rfl
  | fix => exact ⟨⟨h.ok.fixTable, h.type, h.objects⟩, rfl⟩
  | unfix => exact ⟨h.keeps h.ok.unfixTable, rfl⟩

/-- **Run.** The same for a history. -/
theorem StandsFor.run (ops : List (Op K)) :
    StandsFor K type (run K tb ops).1 (C.run K type ops).1 ∧
      (run K tb ops).2 = (C.run K type ops).2 := by
  induction ops generalizing tb C with
  | nil => exact ⟨h, rfl⟩
  | cons op ops ih =>
    obtain ⟨hs, ha⟩ := h.step op
    obtain ⟨hs', ha'⟩ := ih hs
    refine ⟨hs', ?_⟩
    show (DbHash.step K tb op).2 :: (DbHash.run K (DbHash.step K tb op).1 ops).2 = _
    rw [ha, ha']
    rfl

end

/-- **Hash tables refine keyed collections.** After any history, starting with a new table of any
type, number of locks and kind of counters, and for any hash function: the answers and lookups
are those of the collection, every term stands in the slot of the hash value of its key, the
terms of one key are adjacent, and splitting or joining buckets changes no lookup. -/
theorem run_refines_collection (K : Keying κ ω) (type : TableType) (locks : Option ℕ)
    (isDecentralized : Bool) (ops : List (Op K)) :
    let table := run K (dbCreateHash type locks isDecentralized) ops
    let collection := Collection.run K type Collection.empty ops
    table.2 = collection.2 ∧ (∀ k, dbGetHash K table.1 k = collection.1 k) ∧
      (∀ ix < table.1.nactive, ∀ t ∈ table.1.bucket ix,
        table.1.hashToIx (K.makeHash (K.key t.obj)) = ix) ∧
      (∀ ix < table.1.nactive, Grouped (chainKeys K (table.1.bucket ix))) ∧
      (∀ nitems limit k, dbGetHash K (grow nitems limit table.1) k = collection.1 k) ∧
      (∀ nitems limit k, dbGetHash K (shrink nitems limit table.1) k = collection.1 k) := by
  intro table collection
  obtain ⟨h, ha⟩ := (standsFor_dbCreateHash type locks isDecentralized).run ops
  refine ⟨ha, h.lookup, ?_, ?_, ?_, ?_⟩
  · intro ix hix t ht
    rw [← (h.ok.stored.chains ix hix).hashed t ht]
    exact h.ok.stored.placed ix hix t ht
  · intro ix hix
    exact (h.ok.stored.chains ix hix).grouped
  · intro nitems limit k
    exact (h.resized (.grow nitems limit)).lookup k
  · intro nitems limit k
    exact (h.resized (.shrink nitems limit)).lookup k

end Histories

/-- Pairs under their first elements. -/
def pairs : Keying ℕ (ℕ × ℕ) := ⟨Prod.fst, id⟩

-- heads that give the key 1 leave the objects of the key 2 alone
example :
    let table := (run pairs (dbCreateHash .bag none false)
      [.insert (1, 2), .insert (2, 3), .insert (1, 4),
        .selectDelete (.ofHeads pairs [(1, fun obj => obj.2 = 4)]) false true 0]).1
    dbGetHash pairs table 1 = [(1, 2)] ∧ dbGetHash pairs table 2 = [(2, 3)] := by
  decide +kernel

end Otp.Erts.DbHash
