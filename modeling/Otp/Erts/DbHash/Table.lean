import Otp.Lib.Links

/-!
# ETS hash tables

The hash tables of `erl_db_hash.c`: an array of chains that grows and shrinks by
one bucket at a time (linear hashing). While a table is fixed it is not resized,
and the last object of a key is not unlinked but marked as deleted, so that a
traversal that stands there can go on; the slots with such objects are kept in a
list and purged when the table is no longer fixed.

A chain is a list of terms, first the newest of each key. Where the code moves a
pointer to a pointer along a chain and unlinks or inserts terms there, the
functions here are recursive on the chain; the split of a bucket, which writes
through two such pointers in turn, is modelled with the cells they point to.
Operations come one after the other, so the locks are left out, but not their
number, which is the stride of a traversal. Slots that are not active hold
whatever stood there before.
-/

namespace Otp.Erts.DbHash

open Otp.Lib

/-- `FIRST_SEGSZ`. -/
def firstSegsz : ℕ := 256

/-- `EXT_SEGSZ`. -/
def extSegsz : ℕ := 2048

/-- `NLOCKS_WITH_ITEM_COUNTERS`. -/
def nlocksWithItemCounters : ℕ := 64

/-- How objects have keys (`GETKEY`) and keys are hashed (`MAKE_HASH`). -/
structure Keying (κ ω : Type*) where
  key : ω → κ
  makeHash : κ → ℕ

/-- A term in a chain; its `next` is the rest of the chain. -/
structure HashDbTerm (ω : Type*) where
  hvalue : ℕ
  obj : ω
  pseudoDeleted : Bool
deriving DecidableEq, Repr

/-- `DB_SET`, `DB_BAG` and `DB_DUPLICATE_BAG`. -/
inductive TableType where
  | set
  | bag
  | duplicateBag
deriving DecidableEq, Repr

/-- A slot, or all slots up to it, to purge when the table is no longer fixed. -/
structure FixedDeletion where
  slot : ℕ
  all : Bool
deriving DecidableEq, Repr

/-- The item counters: one for the table and, decentralized, one per lock for the first locks. -/
structure Counters where
  isDecentralized : Bool
  total : ℤ
  locks : ℕ → ℤ

/-- `DbTableHash`, with the parts of `DbTableCommon` it uses. -/
structure DbTableHash (ω : Type*) where
  type : TableType
  szm : ℕ
  nactive : ℕ
  nslots : ℕ
  nlocks : ℕ
  shrinkLimit : ℕ
  bucket : ℕ → List (HashDbTerm ω)
  fixCount : ℕ
  fixdel : List FixedDeletion
  counters : Counters

variable {κ ω : Type*}

namespace DbTableHash

variable (tb : DbTableHash ω)

/-- `IS_FIXED(tb)`. -/
def isFixed : Bool := tb.fixCount ≠ 0

/-- `BUCKET(tb, ix) = chain`. -/
def setBucket (ix : ℕ) (chain : List (HashDbTerm ω)) : DbTableHash ω :=
  { tb with bucket := Function.update tb.bucket ix chain }

/-- `ADD_NITEMS(tb, lck_ctr, hval, to_add)`. -/
def addNitems (hval : ℕ) (toAdd : ℤ) : DbTableHash ω :=
  { tb with
    counters :=
      { tb.counters with
        total := tb.counters.total + toAdd
        locks :=
          if tb.counters.isDecentralized then
            Function.update tb.counters.locks (hval % nlocksWithItemCounters)
              (tb.counters.locks (hval % nlocksWithItemCounters) + toAdd)
          else tb.counters.locks } }

/-- `NITEMS_ESTIMATE(tb, lck_ctr, hval)`. -/
def nitemsEstimate (hval : ℕ) : ℤ :=
  if tb.counters.isDecentralized then
    tb.counters.locks (hval % nlocksWithItemCounters) * nlocksWithItemCounters
  else tb.counters.total

/-- `hash_to_ix(tb, hval)`. -/
def hashToIx (hval : ℕ) : ℕ :=
  let ix := hval &&& tb.szm
  if tb.nactive ≤ ix then ix &&& (tb.szm >>> 1) else ix

/-- `add_fixed_deletion(tb, ix, fixated_by_me)`, without a race. -/
def addFixedDeletion (ix : ℕ) : DbTableHash ω := { tb with fixdel := ⟨ix, false⟩ :: tb.fixdel }

/-- `calc_shrink_limit(tb)`. -/
def calcShrinkLimit : DbTableHash ω :=
  let sampleSizeIsEnough :=
    !(tb.counters.isDecentralized && decide (tb.nslots < 100 * nlocksWithItemCounters))
  { tb with
    shrinkLimit :=
      if sampleSizeIsEnough = true ∧
          max (tb.nlocks + extSegsz) (firstSegsz + 2 * extSegsz) ≤ tb.nslots then
        (tb.nslots - extSegsz) / 2
      else 0 }

/-- `alloc_seg(tb, activate_buckets)`. -/
def allocSeg (activateBuckets : Bool) : DbTableHash ω :=
  let tb := { tb with nslots := tb.nslots + extSegsz }
  let tb :=
    if activateBuckets then
      let nactiveNow := tb.nactive + extSegsz
      let floor2Mult := 2 ^ Nat.log2 nactiveNow
      { tb with
        szm := if floor2Mult ≠ nactiveNow then 2 * floor2Mult - 1 else floor2Mult - 1
        bucket := fun ix => if tb.nactive ≤ ix ∧ ix < nactiveNow then [] else tb.bucket ix
        nactive := nactiveNow }
    else tb
  tb.calcShrinkLimit

end DbTableHash

/-- Segments until there are as many slots as locks. -/
def allocSegs (tb : DbTableHash ω) : ℕ → DbTableHash ω
  | 0 => tb
  | fuel + 1 => if tb.nslots < tb.nlocks then allocSegs (tb.allocSeg true) fuel else tb

/-- The number of locks for what was asked for: none without fine locking. -/
def lockCount : Option ℕ → ℕ
  | none => 1
  | some asked => max (2 ^ Nat.log2 (if asked = 0 then 64 else asked)) nlocksWithItemCounters

/-- `db_create_hash`. -/
def dbCreateHash (type : TableType) (locks : Option ℕ) (isDecentralized : Bool) : DbTableHash ω :=
  let tb : DbTableHash ω :=
    { type := type
      szm := firstSegsz - 1
      nactive := firstSegsz
      nslots := firstSegsz
      nlocks := lockCount locks
      shrinkLimit := 0
      bucket := fun _ => []
      fixCount := 0
      fixdel := []
      counters := ⟨isDecentralized, 0, fun _ => 0⟩ }
  allocSegs tb tb.nlocks

/-! ## Growing and shrinking -/

/-- A `Sint` where an `UWord` is expected. -/
def asUWord (n : ℤ) : ℕ := (n % 2 ^ 64).toNat

/-- `GROW_LIMIT(nactive)`. -/
def growLimit (nactive : ℕ) : ℕ := nactive * 1

/-- The heads of the two chains of a split, and the `next` fields of the terms of the old chain,
which are numbered in its order. -/
inductive SplitHead where
  | oldHead
  | newHead
deriving DecidableEq, Repr

/-- The cells before the split. The new slot holds anything. -/
def splitInit (n : ℕ) : Links SplitHead
  | .head .oldHead => if 0 < n then some 0 else none
  | .head .newHead => some 0
  | .next i => if i + 1 < n then some (i + 1) else none

/-- The loop that splits a bucket, with its variables `pnext`, `to_pnext` and `from_ix`. -/
def splitLoop (chain : List (HashDbTerm ω)) (szm : ℕ) :
    ℕ → Links SplitHead → Cell SplitHead → Cell SplitHead → ℕ → Links SplitHead
  | 0, m, _, _, _ => m
  | fuel + 1, m, pnext, toPnext, fromIx =>
    match m pnext with
    | none => Function.update m toPnext none
    | some p =>
      match chain[p]? with
      | none => m
      | some term =>
        if term.pseudoDeleted then
          splitLoop chain szm fuel (Function.update m pnext (m (.next p))) pnext toPnext fromIx
        else if term.hvalue &&& szm ≠ fromIx then
          -- the term ends the other chain, and the two chains change roles
          splitLoop chain szm fuel (Function.update m toPnext (some p)) (.next p) pnext
            (term.hvalue &&& szm)
        else splitLoop chain szm fuel m (.next p) toPnext fromIx

/-- A chain read back from the cells. -/
def readChain (chain : List (HashDbTerm ω)) (m : Links SplitHead) (h : SplitHead) :
    List (HashDbTerm ω) :=
  (m.collect (chain.length + 1) (.head h)).filterMap (chain[·]?)

/-- The two chains a chain is split into. -/
def splitChain (chain : List (HashDbTerm ω)) (szm fromIx : ℕ) :
    List (HashDbTerm ω) × List (HashDbTerm ω) :=
  let m := splitLoop chain szm (chain.length + 1) (splitInit chain.length) (.head .oldHead)
    (.head .newHead) fromIx
  (readChain chain m .oldHead, readChain chain m .newHead)

/-- One new bucket. -/
def growStep (tb : DbTableHash ω) : DbTableHash ω :=
  let tb := if tb.nactive = tb.nslots then tb.allocSeg false else tb
  let fromIx := if tb.nactive ≤ tb.szm then tb.nactive &&& (tb.szm >>> 1) else 0
  let szm := if tb.nactive ≤ tb.szm then tb.szm else (tb.szm <<< 1) ||| 1
  let toIx := tb.nactive
  let chains := splitChain (tb.bucket fromIx) szm fromIx
  let tb :=
    { tb with
      nactive := tb.nactive + 1
      szm := if fromIx = 0 then szm else tb.szm }
  (tb.setBucket fromIx chains.1).setBucket toIx chains.2

/-- `grow(tb, nitems)`, with its `loop_limit`. -/
def grow (nitems : ℕ) : ℕ → DbTableHash ω → DbTableHash ω
  | 0, tb => tb
  | loopLimit + 1, tb =>
    if nitems ≤ growLimit tb.nactive ∨ tb.isFixed = true then tb
    else grow nitems loopLimit (growStep tb)

/-- The chain of the removed bucket without pseudo deleted terms, and the other one behind it. -/
def joinChains : List (HashDbTerm ω) → List (HashDbTerm ω) → List (HashDbTerm ω)
  | [], tail => tail
  | b :: src, tail => if b.pseudoDeleted then joinChains src tail else b :: joinChains src tail

/-- One bucket less. -/
def shrinkStep (tb : DbTableHash ω) : DbTableHash ω :=
  let srcIx := tb.nactive - 1
  let lowSzm := tb.szm >>> 1
  let dstIx := srcIx &&& lowSzm
  let src := tb.bucket srcIx
  let tb :=
    { tb with
      nactive := srcIx
      szm := if dstIx = 0 then lowSzm else tb.szm }
  let tb :=
    if extSegsz ≤ tb.nslots - srcIx then
      { tb with nslots := tb.nslots - extSegsz }.calcShrinkLimit
    else tb
  tb.setBucket dstIx (joinChains src (tb.bucket dstIx))

/-- `shrink(tb, nitems)`, with its `loop_limit`. -/
def shrink (nitems : ℕ) : ℕ → DbTableHash ω → DbTableHash ω
  | 0, tb => tb
  | loopLimit + 1, tb =>
    if ¬ nitems < tb.shrinkLimit ∨ tb.isFixed = true then tb
    else shrink nitems loopLimit (shrinkStep tb)

/-- `try_shrink(tb, nitems)`. -/
def tryShrink (tb : DbTableHash ω) (nitems : ℤ) : DbTableHash ω :=
  if nitems < tb.shrinkLimit ∧ tb.isFixed = false then shrink (asUWord nitems) 5 tb else tb

/-! ## Storing and deleting objects -/

section Operations

variable [DecidableEq κ] [DecidableEq ω] (K : Keying κ ω)

/-- `has_key(tb, b, key, hval)`. -/
def hasKey (b : HashDbTerm ω) (k : κ) (hval : ℕ) : Bool := b.hvalue = hval ∧ K.key b.obj = k

/-- `has_live_key(tb, b, key, hval)`. -/
def hasLiveKey (b : HashDbTerm ω) (k : κ) (hval : ℕ) : Bool :=
  b.hvalue = hval ∧ b.pseudoDeleted = false ∧ K.key b.obj = k

/-- What `db_put_hash` does to a chain: it changes a term of the key and counts the items up by
`diff`, it fails, or it links in a new term. -/
inductive Put (ω : Type*) where
  | done (chain : List (HashDbTerm ω)) (diff : ℤ)
  | clash
  | new (chain : List (HashDbTerm ω))

/-- The same for a chain with one more term before. -/
def Put.cons (b : HashDbTerm ω) : Put ω → Put ω
  | .done chain diff => .done (b :: chain) diff
  | .clash => .clash
  | .new chain => .new (b :: chain)

/-- The search for an object equal to `obj` among the terms of the key: the terms before it, the
term and the rest of the chain. -/
def findObject (k : κ) (hval : ℕ) (obj : ω) :
    List (HashDbTerm ω) → Option (List (HashDbTerm ω) × HashDbTerm ω × List (HashDbTerm ω))
  | [] => none
  | q :: chain =>
    if hasKey K q k hval then
      if q.obj = obj then some ([], q, chain)
      else (findObject k hval obj chain).map fun r => (q :: r.1, r.2)
    else none

/-- Is one of the terms of the key at the start of the chain live? -/
def liveInGroup (k : κ) (hval : ℕ) : List (HashDbTerm ω) → Bool
  | [] => false
  | q :: chain => hasKey K q k hval && (!q.pseudoDeleted || liveInGroup k hval chain)

/-- `db_put_hash` once the key is found at the start of the chain. -/
def putFound (type : TableType) (keyClashFail : Bool) (hval : ℕ) (obj : ω) (b : HashDbTerm ω)
    (chain : List (HashDbTerm ω)) : Put ω :=
  let new := Put.new (⟨hval, obj, false⟩ :: b :: chain)
  match type with
  | .set =>
    if b.pseudoDeleted then .done ({ b with obj := obj, pseudoDeleted := false } :: chain) 1
    else if keyClashFail then .clash
    else .done ({ b with obj := obj } :: chain) 0
  | .bag =>
    if keyClashFail then
      if liveInGroup K (K.key obj) hval (b :: chain) then .clash else new
    else
      match findObject K (K.key obj) hval obj (b :: chain) with
      | some (before, q, after) =>
        -- a revived term moves to the front of its key
        if q.pseudoDeleted then .done ({ q with pseudoDeleted := false } :: before ++ after) 1
        else .done (b :: chain) 0
      | none => new
  | .duplicateBag =>
    if keyClashFail = true ∧ liveInGroup K (K.key obj) hval (b :: chain) = true then .clash
    else new

/-- The search of `db_put_hash` for the key. -/
def putLoop (type : TableType) (keyClashFail : Bool) (hval : ℕ) (obj : ω) :
    List (HashDbTerm ω) → Put ω
  | [] => .new [⟨hval, obj, false⟩]
  | b :: chain =>
    if hasKey K b (K.key obj) hval then putFound K type keyClashFail hval obj b chain
    else (putLoop type keyClashFail hval obj chain).cons b

/-- `db_put_hash(tbl, obj, key_clash_fail)`; `false` is `DB_ERROR_BADKEY`. -/
def dbPutHash (tb : DbTableHash ω) (obj : ω) (keyClashFail : Bool) : DbTableHash ω × Bool :=
  let hval := K.makeHash (K.key obj)
  let ix := tb.hashToIx hval
  match putLoop K tb.type keyClashFail hval obj (tb.bucket ix) with
  | .clash => (tb, false)
  | .done chain diff => ((tb.setBucket ix chain).addNitems hval diff, true)
  | .new chain =>
    let tb := (tb.setBucket ix chain).addNitems hval 1
    let nitems := tb.nitemsEstimate hval
    if growLimit tb.nactive < asUWord nitems ∧ tb.isFixed = false then
      (grow (asUWord nitems) 5 tb, true)
    else (tb, true)

/-- The terms from the first live one of a key to the last of the key (`bend`), and the rest. -/
def termsOfKey (type : TableType) (k : κ) (hval : ℕ) (b : HashDbTerm ω)
    (chain : List (HashDbTerm ω)) : List (HashDbTerm ω) × List (HashDbTerm ω) :=
  match type with
  | .set => ([b], chain)
  | _ => (b :: chain.takeWhile (hasKey K · k hval), chain.dropWhile (hasKey K · k hval))

/-- `build_term_list`: the last term of the chain comes first. -/
def buildTermList (terms : List (HashDbTerm ω)) : List ω :=
  ((terms.filter (!·.pseudoDeleted)).map (·.obj)).reverse

/-- The loop of `db_get_hash`. -/
def getLoop (type : TableType) (k : κ) (hval : ℕ) : List (HashDbTerm ω) → List ω
  | [] => []
  | b :: chain =>
    if hasLiveKey K b k hval then buildTermList (termsOfKey K type k hval b chain).1
    else getLoop type k hval chain

/-- `db_get_hash(tbl, key)`. -/
def dbGetHash (tb : DbTableHash ω) (k : κ) : List ω :=
  getLoop K tb.type k (K.makeHash k) (tb.bucket (tb.hashToIx (K.makeHash k)))

/-- The loop of `db_erase_hash` with the number of terms erased so far: the new chain and the
number in the end. -/
def eraseLoop (fixed : Bool) (k : κ) (hval : ℕ) :
    ℕ → List (HashDbTerm ω) → List (HashDbTerm ω) × ℕ
  | erased, [] => ([], erased)
  | erased, b :: chain =>
    if hasLiveKey K b k hval then
      let r := eraseLoop fixed k hval (erased + 1) chain
      if erased = 0 ∧ fixed = true then ({ b with pseudoDeleted := true } :: r.1, r.2) else r
    else if erased ≠ 0 ∧ b.pseudoDeleted = false then (b :: chain, erased)
    else
      let r := eraseLoop fixed k hval erased chain
      (b :: r.1, r.2)

/-- The end of the deleting functions: the slot of a pseudo deletion is kept, the items are
counted and the table may shrink. -/
def finishErase (tb : DbTableHash ω) (ix hval : ℕ) (chain : List (HashDbTerm ω)) (erased : ℕ)
    (pseudo : Bool) : DbTableHash ω :=
  let tb := tb.setBucket ix chain
  let tb := if pseudo then tb.addFixedDeletion ix else tb
  if erased ≠ 0 then
    let tb := tb.addNitems hval (-erased)
    tryShrink tb (tb.nitemsEstimate hval)
  else tb

/-- `db_erase_hash(tbl, key)`. -/
def dbEraseHash (tb : DbTableHash ω) (k : κ) : DbTableHash ω :=
  let hval := K.makeHash k
  let ix := tb.hashToIx hval
  let r := eraseLoop K tb.isFixed k hval 0 (tb.bucket ix)
  finishErase tb ix hval r.1 r.2 (tb.isFixed && r.2 ≠ 0)

/-- The loop of `db_erase_object_hash`, with the numbers of live terms of the key seen and of
terms erased so far: the new chain, the number of terms erased and whether one of them was
only marked. -/
def eraseObjectLoop (fixed : Bool) (type : TableType) (hval : ℕ) (object : ω) :
    ℕ → ℕ → List (HashDbTerm ω) → List (HashDbTerm ω) × ℕ × Bool
  | _, erased, [] => ([], erased, false)
  | nkeys, erased, b :: chain =>
    if hasLiveKey K b (K.key object) hval then
      if b.obj = object then
        let r :=
          if type = .duplicateBag then
            eraseObjectLoop fixed type hval object (nkeys + 1) (erased + 1) chain
          else (chain, erased + 1, false)
        if nkeys = 0 ∧ fixed = true then ({ b with pseudoDeleted := true } :: r.1, r.2.1, true)
        else r
      else
        let r := eraseObjectLoop fixed type hval object (nkeys + 1) erased chain
        (b :: r.1, r.2)
    else if erased ≠ 0 ∧ b.pseudoDeleted = false then (b :: chain, erased, false)
    else
      let r := eraseObjectLoop fixed type hval object nkeys erased chain
      (b :: r.1, r.2)

/-- `db_erase_object_hash(tbl, object)`. -/
def dbEraseObjectHash (tb : DbTableHash ω) (object : ω) : DbTableHash ω :=
  let hval := K.makeHash (K.key object)
  let ix := tb.hashToIx hval
  let r := eraseObjectLoop K tb.isFixed tb.type hval object 0 0 (tb.bucket ix)
  finishErase tb ix hval r.1 r.2.1 r.2.2

/-- The loop of `db_take_hash`: the objects taken, the new chain and the number of terms counted
as erased, which are all from the first live one of the key on. -/
def takeLoop (fixed : Bool) (type : TableType) (k : κ) (hval : ℕ) :
    List (HashDbTerm ω) → List ω × List (HashDbTerm ω) × ℕ
  | [] => ([], [], 0)
  | b :: chain =>
    if hasLiveKey K b k hval then
      let r := termsOfKey K type k hval b chain
      (buildTermList r.1,
        (if fixed then { b with pseudoDeleted := true } :: r.2 else r.2), r.1.length)
    else
      let r := takeLoop fixed type k hval chain
      (r.1, b :: r.2.1, r.2.2)

/-- `db_take_hash(tbl, key)`. -/
def dbTakeHash (tb : DbTableHash ω) (k : κ) : DbTableHash ω × List ω :=
  let hval := K.makeHash k
  let ix := tb.hashToIx hval
  let r := takeLoop K tb.isFixed tb.type k hval (tb.bucket ix)
  (finishErase tb ix hval r.2.1 r.2.2 (tb.isFixed && r.2.2 ≠ 0), r.1)

/-! ## Slots, `select_delete` and fixation -/

/-- `next_slot(tb, ix)`; zero is the end of the table. -/
def nextSlot (tb : DbTableHash ω) (ix : ℕ) : ℕ :=
  if ix + tb.nlocks < tb.nactive then ix + tb.nlocks
  else (ix + tb.nlocks + 1) &&& (tb.nlocks - 1)

/-- The slots from `ix` to the end of the table. -/
def slotsFrom (tb : DbTableHash ω) : ℕ → ℕ → List ℕ
  | 0, _ => []
  | fuel + 1, ix =>
    ix :: (if nextSlot tb ix = 0 then [] else slotsFrom tb fuel (nextSlot tb ix))

/-- A match specification: the objects it accepts, and the keys if every head gives one. -/
structure Pattern (K : Keying κ ω) where
  accepts : ω → Bool
  keys : Option (List κ)
  key_mem : ∀ ks, keys = some ks → ∀ obj, accepts obj = true → K.key obj ∈ ks

/-- Heads that give a key each, and what else they ask of an object. -/
def Pattern.ofHeads (K : Keying κ ω) (heads : List (κ × (ω → Bool))) :
    Pattern K where
  accepts obj := heads.any fun head => head.1 = K.key obj && head.2 obj
  keys := some (heads.map Prod.fst)
  key_mem := by
    rintro ks ⟨⟩ obj haccepts
    simp only [List.any_eq_true, Bool.and_eq_true, decide_eq_true_eq] at haccepts
    obtain ⟨head, hmem, hkey, -⟩ := haccepts
    exact List.mem_map.mpr ⟨head, hmem, hkey⟩

/-- `search_list(tb, key, hval, list) != NULL`. -/
def searchList (k : κ) (hval : ℕ) (chain : List (HashDbTerm ω)) : Bool :=
  chain.any (hasLiveKey K · k hval)

/-- The buckets `analyze_pattern` lists for the keys; a table that nobody else can change is
searched for the key first. -/
def keySlots (tb : DbTableHash ω) (isThreadSafe : Bool) (ks : List κ) : List ℕ :=
  ks.foldl
    (fun slots k =>
      let ix := tb.hashToIx (K.makeHash k)
      if isThreadSafe = true ∧ searchList K k (K.makeHash k) (tb.bucket ix) = false then slots
      else if ix ∈ slots then slots
      else slots ++ [ix])
    []

/-- The slots a traversal for a pattern goes to. -/
def patternSlots (tb : DbTableHash ω) (isThreadSafe : Bool) (pattern : Pattern K) : List ℕ :=
  match pattern.keys with
  | some ks => keySlots K tb isThreadSafe ks
  | none => slotsFrom tb tb.nactive 0

/-- `select_delete_on_match_res` along a chain: the new chain and the hash values of the terms
deleted. -/
def selectChain (pseudo : Bool) (accepts : ω → Bool) :
    List (HashDbTerm ω) → List (HashDbTerm ω) × List ℕ
  | [] => ([], [])
  | b :: chain =>
    let r := selectChain pseudo accepts chain
    if b.pseudoDeleted = false ∧ accepts b.obj = true then
      ((if pseudo then { b with pseudoDeleted := true } :: r.1 else r.1), b.hvalue :: r.2)
    else (b :: r.1, r.2)

/-- One slot of a `select_delete`, with `last_pseudo_delete` and the number of objects deleted. -/
def selectSlot (pseudo : Bool) (accepts : ω → Bool)
    (s : DbTableHash ω × Option ℕ × ℕ) (ix : ℕ) : DbTableHash ω × Option ℕ × ℕ :=
  let r := selectChain pseudo accepts (s.1.bucket ix)
  let tb := r.2.foldl (fun tb h => tb.addNitems h (-1)) (s.1.setBucket ix r.1)
  if pseudo = true ∧ r.2 ≠ [] ∧ s.2.1 ≠ some ix then
    (tb.addFixedDeletion ix, some ix, s.2.2 + r.2.length)
  else (tb, s.2.1, s.2.2 + r.2.length)

/-- `db_select_delete_hash`: the table and the number of objects deleted. The estimate for the
decision to shrink is taken from a random lock. -/
def dbSelectDeleteHash (tb : DbTableHash ω) (pattern : Pattern K) (isThreadSafe : Bool)
    (random : ℕ) : DbTableHash ω × ℕ :=
  let fixatedByMe := if isThreadSafe then 0 else 1
  let r := (patternSlots K tb isThreadSafe pattern).foldl
    (selectSlot (fixatedByMe < tb.fixCount) pattern.accepts) (tb, none, 0)
  (if r.2.2 ≠ 0 then tryShrink r.1 (r.1.nitemsEstimate random) else r.1, r.2.2)

/-- A chain without its pseudo deleted terms. -/
def purgeChain (chain : List (HashDbTerm ω)) : List (HashDbTerm ω) :=
  chain.filter (!·.pseudoDeleted)

/-- A slot purged, if it is active. -/
def purgeSlot (tb : DbTableHash ω) (slot : ℕ) : DbTableHash ω :=
  if slot < tb.nactive then tb.setBucket slot (purgeChain (tb.bucket slot)) else tb

/-- The slots of a record: one, or all down to the first. -/
def FixedDeletion.slots (d : FixedDeletion) : List ℕ :=
  if d.all then (List.range (d.slot + 1)).reverse else [d.slot]

/-- `db_unfix_table_hash(tb)`. -/
def dbUnfixTableHash (tb : DbTableHash ω) : DbTableHash ω :=
  { (tb.fixdel.flatMap FixedDeletion.slots).foldl purgeSlot tb with fixdel := [] }

/-- The effect of a fixation on the table. -/
def fixTable (tb : DbTableHash ω) : DbTableHash ω := { tb with fixCount := tb.fixCount + 1 }

/-- A fixation less; the last one purges. -/
def unfixTable (tb : DbTableHash ω) : DbTableHash ω :=
  let tb := { tb with fixCount := tb.fixCount - 1 }
  if tb.isFixed then tb else dbUnfixTableHash tb

/-- `ets_internal_select_delete_2`, which fixes the table for its own time if the iteration is
not safe otherwise. -/
def etsSelectDelete (tb : DbTableHash ω) (pattern : Pattern K) (iterUnsafe isThreadSafe : Bool)
    (random : ℕ) : DbTableHash ω × ℕ :=
  let tb := if iterUnsafe then fixTable tb else tb
  let r := dbSelectDeleteHash K tb pattern isThreadSafe random
  (if iterUnsafe then unfixTable r.1 else r.1, r.2)

end Operations

end Otp.Erts.DbHash
