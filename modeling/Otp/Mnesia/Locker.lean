import Otp.Erts.MatchSpec

/-!
# The lock manager of mnesia (`mnesia_locker.erl`)

Transactions ask for locks on records and on whole tables. The locks they hold
are objects of an ordered set, and the locks that are in the way of a request are
found by match specifications that the oid of the request is put into. A request
that has to wait is queued, and tried again when a transaction releases its locks.

There are no sticky locks here. The state also has the locks that were granted in
a reply and not released since. `none` is a crash of the process: a match
specification is refused.
-/

namespace Otp.Mnesia.Locker

open Otp.Erts.MatchSpec

/-- `#tid{}`. -/
structure Tid where
  counter : ℕ
  pid : ℕ
deriving DecidableEq

def Tid.term (t : Tid) : Term :=
  .cell .tuple (.atom ['t', 'i', 'd']) (.cell .tuple (.num (.int t.counter))
    (.cell .tuple (.other t.pid t.pid) (.last .tuple)))

/-- `{Tab, Key}`. -/
structure Oid where
  tab : List Char
  key : Term
deriving DecidableEq

def Oid.equal (o o' : Oid) : Bool := o.tab = o'.tab && o.key.equal o'.key

/-- `?ALL`: the key that stands for the whole table. -/
def all : Term := .atom "______WHOLETABLE_____".toList

inductive Lock where
  | read
  | write
deriving DecidableEq

inductive Op where
  | read
  | write
  | readWrite
  | ixRead (ixKey : Term) (pos : ℕ)
deriving DecidableEq

def Op.lock : Op → Lock
  | .read => .read
  | .write => .write
  | .readWrite => .write
  | .ixRead _ _ => .read

/-- The oid that is locked: an index read locks the table. -/
def Op.target (op : Op) (oid : Oid) : Oid :=
  match op with
  | .ixRead _ _ => ⟨oid.tab, all⟩
  | _ => oid

/-- An entry of `mnesia_held_locks`. -/
structure Held where
  oid : Oid
  lock : Lock
  tid : Tid
deriving DecidableEq

def Held.equal (l l' : Held) : Bool := l.oid.equal l'.oid && l.lock = l'.lock && l.tid = l'.tid

/-- `#queue{}`. -/
structure Queue where
  oid : Oid
  tid : Tid
  op : Op
  pid : ℕ
  lucky : Tid
deriving DecidableEq

inductive Mark where
  | held (lock : Lock)
  | queued (op : Op)
deriving DecidableEq

def Mark.equal : Mark → Mark → Bool
  | .queued (.ixRead k n), .queued (.ixRead l m) => k.equal l && n = m
  | a, b => a = b

/-- An entry of `mnesia_tid_locks`. -/
structure TidLock where
  tid : Tid
  oid : Oid
  mark : Mark
deriving DecidableEq

def TidLock.equal (l l' : TidLock) : Bool :=
  l.tid = l'.tid && l.oid.equal l'.oid && l.mark.equal l'.mark

structure State where
  heldLocks : List Held
  tidLocks : List TidLock
  lockQueue : List Queue
  granted : List Held

def init : State := ⟨[], [], [], []⟩

/-- How terms are compared: `allowed_to_be_queued/2`, which also sorts the queue, and the order of
terms for the entries of two tables. -/
structure Order where
  allowed : Tid → Tid → Bool
  heldLe : Held → Held → Bool
  tidLe : TidLock → TidLock → Bool

/-- `ets:insert/2` into an ordered set. -/
def orderedInsert {α : Type} (equal : α → α → Bool) (x : α) (l : List α) : List α :=
  l.filter (fun y => !equal y x) ++ [x]

def setLock (st : State) (tid : Tid) (oid : Oid) (lock : Lock) : State :=
  { st with
    tidLocks := orderedInsert TidLock.equal ⟨tid, oid, .held lock⟩ st.tidLocks
    heldLocks := orderedInsert Held.equal ⟨oid, lock, tid⟩ st.heldLocks
    granted := ⟨oid, lock, tid⟩ :: st.granted }

section Model

variable (ord : Order) (found : Tid → Op → Oid → Bool) (st : State)

/-! ## Requests -/

/-- The oid as a part of a head. -/
def matchOid (o o' : Oid) (b : Bindings) : Option Bindings :=
  (dbMatch (.atom o.tab) (.atom o'.tab) b).bind (dbMatch o.key o'.key)

/-- `{{Oid, Lock, '$1'}}`, where a read lock looks for write locks only. -/
def selects (oid : Oid) (lock : Lock) (l : Held) : Bool :=
  (lock = .write || l.lock = .write) && (matchOid oid l.oid [(1, l.tid.term)]).isSome

/-- `ets:select(mnesia_held_locks, …)`. -/
def holders (oid : Oid) (lock : Lock) : Option (List Tid) :=
  if compiles oid.key then
    some (((st.heldLocks.filter (selects oid lock)).mergeSort ord.heldLe).map Held.tid)
  else none

inductive Answer where
  | yes
  | no (lucky : Tid)
  | queue (lucky : Tid)
deriving DecidableEq

def queueOf (oid : Oid) : List Queue := st.lockQueue.filter (·.oid = oid)

def sortQueue (l : List Queue) : List Queue := l.mergeSort fun q q' => ord.allowed q.tid q'.tid

/-- `max/1`. -/
def maxTid : List Queue → Option Tid
  | [] => none
  | [q] => some q.tid
  | l => (sortQueue ord l).head?.map Queue.tid

def canQueue (waitForTid tid : Tid) (oid : Oid) (res : Answer) : Answer :=
  if waitForTid = tid then res
  else if ord.allowed waitForTid tid then
    if tid.pid = waitForTid.pid ∧ (queueOf st oid ≠ [] ∨ queueOf st ⟨oid.tab, all⟩ ≠ []) then
      .no waitForTid
    else .queue waitForTid
  else .no waitForTid

/-- `check_queue/4` for a request that is not queued. -/
def checkQueue (tid : Tid) (tab : List Char) (x : Answer) : Answer :=
  match maxTid ord (queueOf st ⟨tab, all⟩) with
  | none => x
  | some waitForTid =>
    if waitForTid = tid then x
    else if ord.allowed waitForTid tid then .queue waitForTid
    else .no waitForTid

/-- `check_lock/7` for the held locks, those of the table and then those of the record. -/
def checkHeld (tid : Tid) (oid : Oid) : List Tid → Answer → Answer
  | [], x => x
  | lockTid :: locks, x =>
    match canQueue ord st lockTid tid oid x with
    | .no lucky => .no lucky
    | res => checkHeld tid oid locks res

def checkLock (tid : Tid) (oid : Oid) (locks : List Tid) (alreadyQ : Bool) (type : Lock) : Answer :=
  match checkHeld ord st tid oid locks .yes with
  | .yes =>
    if alreadyQ then .yes
    else if type = .write ∨ oid.key = all then checkQueue ord st tid oid.tab .yes
    else
      match maxTid ord (queueOf st oid) with
      | none => checkQueue ord st tid oid.tab .yes
      | some objL =>
        if ord.allowed objL tid then checkQueue ord st tid oid.tab (.queue objL) else .no objL
  | x => x

def canLock (tid : Tid) (lock : Lock) (oid : Oid) (alreadyQ : Bool) : Option Answer :=
  if oid.key = all then
    (holders ord st ⟨oid.tab, .atom ['_']⟩ lock).map (checkLock ord st tid oid · alreadyQ lock)
  else
    (holders ord st ⟨oid.tab, all⟩ lock).bind fun tabLocks =>
      (holders ord st oid lock).map fun objLocks =>
        checkLock ord st tid oid (tabLocks ++ objLocks) alreadyQ lock

/-- The record or the index may have to be looked up before the lock is granted. -/
def Op.looksUp (oid : Oid) : Op → Bool
  | .write => false
  | .ixRead _ _ => true
  | _ => oid.key ≠ all && oid.tab ≠ "______GLOBAL_____".toList

/-- `grant_lock/4`. The table may be gone. -/
def grantLock (tid : Tid) (op : Op) (oid : Oid) : State :=
  if op.looksUp oid && !found tid op oid then st else setLock st tid oid op.lock

/-- `try_lock/4` and `set_read_lock_on_all_keys/5`. -/
def tryLock (tid : Tid) (op : Op) (pid : ℕ) (oid : Oid) : Option State :=
  (canLock ord st tid op.lock oid false).map fun
    | .yes => grantLock found st tid op oid
    | .no _ => st
    | .queue lucky =>
      { st with
        lockQueue := st.lockQueue.insert ⟨oid, tid, op, pid, lucky⟩
        tidLocks := orderedInsert TidLock.equal ⟨tid, oid, .queued op⟩ st.tidLocks }

/-! ## Releases -/

def matchOp : Op → Op → Bindings → Option Bindings
  | .ixRead k n, .ixRead l m, b => if n = m then dbMatch k l b else none
  | op, op', b => if op = op' then some b else none

/-- `#queue{oid = Oid, tid = Tid, op = Op, pid = ReplyTo, lucky = '_'}`. -/
def matchWaiter (q q' : Queue) : Bool :=
  q.tid = q'.tid && q.pid = q'.pid && ((matchOid q.oid q'.oid []).bind (matchOp q.op q'.op)).isSome

def Op.compiles : Op → Bool
  | .ixRead k _ => Otp.Erts.MatchSpec.compiles k
  | _ => true

/-- `try_waiter/1`, and whether the waiter stays in the queue. -/
def tryWaiter (q : Queue) : Option (State × Bool) :=
  (canLock ord st q.tid q.op.lock q.oid true).bind fun
    | .queue _ => some (st, true)
    | answer =>
      let st' := { st with lockQueue := st.lockQueue.filter (!matchWaiter q ·) }
      if q.op.compiles then
        some (if answer = .yes then grantLock found st' q.tid q.op q.oid else st', false)
      else none

/-- Try the waiters, and after one that stays only those that are kept. -/
def tryWaiters (keep : Queue → Queue → Bool) (st : State) : List Queue → Option State
  | [] => some st
  | q :: qs =>
    (tryWaiter ord found st q).bind fun r =>
      if r.2 then tryWaiters keep r.1 (qs.filter (keep q)) else tryWaiters keep r.1 qs
termination_by qs => qs.length
decreasing_by
  · simpa using Nat.lt_succ_of_le (List.length_filter_le (keep q) qs)
  · exact Nat.lt_succ_self _

def tryWaitersObj : List Queue → Option State := tryWaiters ord found (fun _ _ => false) st

def tryWaitersTab : List Queue → Option State :=
  tryWaiters ord found (fun q q' => q.oid.key ≠ all && !q'.oid.equal q.oid) st

def rearrangeQueue (st : State) : List TidLock → Option State
  | [] => some st
  | l :: locks =>
    (if l.oid.key ≠ all then
      tryWaitersObj ord found st
        (sortQueue ord (queueOf st ⟨l.oid.tab, all⟩ ++ queueOf st l.oid))
    else
      tryWaitersTab ord found st (sortQueue ord
        (st.lockQueue.filter fun q => (matchOid ⟨l.oid.tab, .atom ['_']⟩ q.oid []).isSome))).bind
    fun st => rearrangeQueue st locks

def releaseLock (l : TidLock) : State :=
  match l.mark with
  | .queued _ =>
    { st with
      lockQueue := st.lockQueue.filter fun q =>
        !(l.tid = q.tid && (matchOid l.oid q.oid []).isSome) }
  | .held lock =>
    { st with heldLocks := st.heldLocks.filter fun h => !h.equal ⟨l.oid, lock, l.tid⟩ }

def keyunique : List TidLock → List TidLock → List TidLock
  | [], acc => acc
  | l :: ls, [] => keyunique ls [l]
  | l :: ls, a :: acc =>
    if l.oid = a.oid then keyunique ls (a :: acc) else keyunique ls (l :: a :: acc)

def doReleaseTid (tid : Tid) : Option State :=
  let locks := (st.tidLocks.filter (·.tid = tid)).mergeSort ord.tidLe
  let st' :=
    { st with
      tidLocks := st.tidLocks.filter (·.tid ≠ tid)
      granted := st.granted.filter (·.tid ≠ tid) }
  rearrangeQueue ord found (locks.foldl releaseLock st') (keyunique locks [])

inductive Event where
  | request (tid : Tid) (pid : ℕ) (op : Op) (oid : Oid)
  | release (tid : Tid)

/-- One turn of `loop/1`. -/
def step : Event → Option State
  | .request tid pid op oid => tryLock ord found st tid op pid (op.target oid)
  | .release tid => doReleaseTid ord found st tid

/-- The messages in turn, each with the tables as they are then. -/
def run : List (Event × (Tid → Op → Oid → Bool)) → Option State :=
  List.foldlM (fun st e => step ord e.2 st e.1) st

end Model

/-! ## Exclusion -/

/-- Two locks that only one transaction can hold. -/
def Conflicts (l l' : Held) : Prop :=
  l.oid.tab = l'.oid.tab ∧ (l.oid.key = l'.oid.key ∨ l.oid.key = all ∨ l'.oid.key = all) ∧
    (l.lock = .write ∨ l'.lock = .write)

def Exclusive (st : State) : Prop :=
  ∀ g ∈ st.granted, ∀ g' ∈ st.granted, Conflicts g g' → g.tid = g'.tid

def Event.Within (S : Set Oid) : Event → Prop
  | .request _ _ op oid => op.target oid ∈ S
  | .release _ => True

/-- No variable of the oid is `'$1'`, and none has two names. -/
def NoClash (o : Oid) : Prop :=
  let names := vars (.atom o.tab) ++ vars o.key
  (∀ s ∈ names, varNumber s ≠ 1) ∧
    names.Pairwise fun s s' => varNumber s = varNumber s' → s = s'

variable {ord : Order} {found : Tid → Op → Oid → Bool} {st st' : State} {tid : Tid} {lock : Lock}
  {oid : Oid} {l : Held} {S : Set Oid}

theorem Conflicts.symm {l' : Held} (h : Conflicts l l') : Conflicts l' l :=
  ⟨h.1.symm, h.2.1.elim (.inl ·.symm) fun h => .inr h.symm, h.2.2.symm⟩

/-! ### The patterns of a request -/

theorem varNumber_all : varNumber "______WHOLETABLE_____".toList < 0 := by decide

/-- An oid as a head matches its own locks if its variables allow it. -/
theorem matchOid_self_isSome (o : Oid) (t : Tid) :
    (matchOid o o [(1, t.term)]).isSome ↔ NoClash o := by
  have hfold : matchOid o o [(1, t.term)] = (vars (.atom o.tab) ++ vars o.key).foldlM
      (fun b s => matchAtom s (.atom s) b) [(1, t.term)] := by
    rw [matchOid, List.foldlM_append, dbMatch_self]
    exact congrArg _ (funext (dbMatch_self o.key))
  rw [hfold, foldlM_matchAtom_isSome fun s hs =>
    (List.mem_append.mp hs).elim varNumber_nonneg varNumber_nonneg]
  refine and_congr (forall₂_congr fun s _ => ?_) Iff.rfl
  by_cases hs : varNumber s = 1
  · simp [hs, Tid.term]
  · have hne : (varNumber s == 1) = false := beq_eq_false_iff_ne.mpr hs
    simp [hs, List.lookup_cons, hne]

theorem dbMatch_underscore (t : Term) (b : Bindings) : dbMatch (.atom ['_']) t b = some b := by
  rw [dbMatch, matchAtom, if_neg (by decide)]
  simp

theorem dbMatch_all (b : Bindings) : dbMatch all all b = some b := by
  rw [all, dbMatch, matchAtom, if_neg (not_le.mpr varNumber_all)]
  simp

theorem matchOid_of_key {o o' : Oid} (h : ∀ b, dbMatch o.key o'.key b = some b) (b : Bindings) :
    matchOid o o' b = dbMatch (.atom o.tab) (.atom o'.tab) b := by
  rw [matchOid, show dbMatch o.key o'.key = some from funext h, Option.bind_fun_some]

/-- The table of an oid with no clash is matched as well. -/
theorem NoClash.tab_isSome (h : NoClash oid) (t : Tid) :
    (dbMatch (.atom oid.tab) (.atom oid.tab) [(1, t.term)]).isSome := by
  have hself := (matchOid_self_isSome oid t).mpr h
  rw [matchOid] at hself
  exact Option.isSome_of_isSome_bind hself

/-- The whole table is not a record. -/
theorem matchOid_all {tab : List Char} (h : l.oid.key ≠ all) (b : Bindings) :
    matchOid ⟨tab, all⟩ l.oid b = none := by
  rw [matchOid, Option.bind_eq_none_iff]
  intro b' _
  rw [all, dbMatch, matchAtom, if_neg (not_le.mpr varNumber_all), if_neg]
  rintro (heq | heq)
  · exact absurd heq (by decide)
  · exact h heq

theorem canQueue_yes {waitForTid : Tid} {x : Answer}
    (h : canQueue ord st waitForTid tid oid x = .yes) : waitForTid = tid ∧ x = .yes := by
  unfold canQueue at h
  split_ifs at h with heq
  exact ⟨heq, h⟩

theorem checkHeld_yes {locks : List Tid} {x : Answer}
    (h : checkHeld ord st tid oid locks x = .yes) : x = .yes ∧ ∀ t ∈ locks, t = tid := by
  induction locks generalizing x with
  | nil => exact ⟨h, nofun⟩
  | cons t locks ih =>
    rw [checkHeld] at h
    split at h
    · cases h
    · obtain ⟨hres, hlocks⟩ := ih h
      obtain ⟨ht, hx⟩ := canQueue_yes hres
      exact ⟨hx, List.forall_mem_cons.mpr ⟨ht, hlocks⟩⟩

theorem checkLock_yes {locks : List Tid} {alreadyQ : Bool} {type : Lock}
    (h : checkLock ord st tid oid locks alreadyQ type = .yes) : ∀ t ∈ locks, t = tid := by
  unfold checkLock at h
  split at h
  · next hyes => exact (checkHeld_yes hyes).2
  · next hx => exact absurd h hx

theorem mem_holders {tids : List Tid} (h : holders ord st oid lock = some tids)
    (hl : l ∈ st.heldLocks) (hsel : selects oid lock l = true) : l.tid ∈ tids := by
  unfold holders at h
  split_ifs at h
  obtain rfl := Option.some.inj h
  exact List.mem_map_of_mem (List.mem_mergeSort.mpr (List.mem_filter.mpr ⟨hl, hsel⟩))

/-- A lock that can be granted is not in conflict with one that another transaction holds. -/
theorem tid_eq_of_canLock {alreadyQ : Bool} (h : canLock ord st tid lock oid alreadyQ = some .yes)
    (hclash : NoClash oid) (hl : l ∈ st.heldLocks) (hc : Conflicts ⟨oid, lock, tid⟩ l) :
    l.tid = tid := by
  obtain ⟨htab, hkey, hlock⟩ := hc
  have hsel {o : Oid} (ho : (matchOid o l.oid [(1, l.tid.term)]).isSome) :
      selects o lock l = true := by
    simp only [selects, Bool.and_eq_true, Bool.or_eq_true, decide_eq_true_eq]
    exact ⟨hlock, ho⟩
  have hoid : l.oid = ⟨oid.tab, l.oid.key⟩ := by rw [show oid.tab = l.oid.tab from htab]
  unfold canLock at h
  split_ifs at h with hall
  · obtain ⟨tids, htids, hcheck⟩ := Option.map_eq_some_iff.mp h
    refine checkLock_yes hcheck _ (mem_holders htids hl (hsel ?_))
    rw [hoid, matchOid_of_key (dbMatch_underscore _)]
    exact hclash.tab_isSome l.tid
  · obtain ⟨tabLocks, htabs, h⟩ := Option.bind_eq_some_iff.mp h
    obtain ⟨objLocks, hobjs, hcheck⟩ := Option.map_eq_some_iff.mp h
    refine checkLock_yes hcheck _ (List.mem_append.mpr ?_)
    obtain hsame | hall' | hall' := hkey
    · refine .inr (mem_holders hobjs hl (hsel ?_))
      rw [show l.oid = oid from hoid.trans (by rw [← hsame])]
      exact (matchOid_self_isSome oid l.tid).mpr hclash
    · exact absurd hall' hall
    · refine .inl (mem_holders htabs hl (hsel ?_))
      rw [hoid, hall', matchOid_of_key dbMatch_all]
      exact hclash.tab_isSome l.tid

theorem compiles_of_canLock {alreadyQ : Bool} {answer : Answer}
    (h : canLock ord st tid lock oid alreadyQ = some answer) : compiles oid.key = true := by
  unfold canLock at h
  split_ifs at h with hall
  · rw [hall]
    rfl
  · obtain ⟨tabLocks, -, h⟩ := Option.bind_eq_some_iff.mp h
    obtain ⟨objLocks, hobjs, -⟩ := Option.map_eq_some_iff.mp h
    unfold holders at hobjs
    split_ifs at hobjs with hcomp
    exact hcomp

/-! ### Keys that are safe -/

/-- What holds between the messages, with oids from a set. -/
structure Inv (S : Set Oid) (st : State) : Prop where
  held : ∀ g ∈ st.granted, g ∈ st.heldLocks
  within : ∀ g ∈ st.granted, g.oid ∈ S ∧ compiles g.oid.key = true
  queue : ∀ q ∈ st.lockQueue, q.oid ∈ S
  exclusive : Exclusive st

/-- The oids of a set are told apart by the tables of the lock manager. -/
structure Safe (S : Set Oid) : Prop where
  noClash : ∀ o ∈ S, compiles o.key = true → NoClash o
  eq_of_equal : ∀ o ∈ S, ∀ o' ∈ S, compiles o.key = true → compiles o'.key = true →
    o.equal o' = true → o = o'

/-- The queue may be changed as long as it is one of oids of the set. -/
theorem Inv.withQueue (h : Inv S st) {queue : List Queue} {tidLocks : List TidLock}
    (hq : ∀ q ∈ queue, q.oid ∈ S) :
    Inv S { st with lockQueue := queue, tidLocks := tidLocks } :=
  ⟨h.held, h.within, hq, h.exclusive⟩

theorem Inv.filterQueue (h : Inv S st) (p : Queue → Bool) :
    Inv S { st with lockQueue := st.lockQueue.filter p } :=
  h.withQueue fun q hq => h.queue q (List.mem_of_mem_filter hq)

theorem Inv.grantLock (h : Inv S st) (hS : Safe S) {op : Op} (hoid : oid ∈ S)
    (hcomp : compiles oid.key = true)
    (hfree : ∀ l ∈ st.heldLocks, Conflicts ⟨oid, op.lock, tid⟩ l → l.tid = tid) :
    Inv S (grantLock found st tid op oid) := by
  unfold Locker.grantLock
  split_ifs
  · exact h
  · refine ⟨List.forall_mem_cons.mpr ⟨?_, ?_⟩, List.forall_mem_cons.mpr ⟨⟨hoid, hcomp⟩, h.within⟩,
      h.queue, ?_⟩
    · exact List.mem_append.mpr (.inr (List.mem_singleton_self _))
    · intro g hg
      by_cases heq : g.equal ⟨oid, op.lock, tid⟩ = true
      · -- the entry that is replaced is the same one
        simp only [Held.equal, Bool.and_eq_true, decide_eq_true_eq] at heq
        obtain ⟨⟨hequal, hlock⟩, htid⟩ := heq
        have hsame := hS.eq_of_equal g.oid (h.within g hg).1 oid hoid (h.within g hg).2 hcomp hequal
        refine List.mem_append.mpr (.inr (List.mem_singleton.mpr ?_))
        rw [← hsame, ← hlock, ← htid]
      · refine List.mem_append.mpr (.inl (List.mem_filter.mpr ⟨h.held g hg, ?_⟩))
        simpa using heq
    · intro g hg g' hg' hc
      obtain rfl | hg := List.mem_cons.mp hg
      · obtain rfl | hg' := List.mem_cons.mp hg'
        · rfl
        · exact (hfree g' (h.held g' hg') hc).symm
      · obtain rfl | hg' := List.mem_cons.mp hg'
        · exact hfree g (h.held g hg) hc.symm
        · exact h.exclusive g hg g' hg' hc

theorem Inv.tryLock (h : Inv S st) (hS : Safe S) {op : Op} {pid : ℕ} (hoid : oid ∈ S)
    (hst : tryLock ord found st tid op pid oid = some st') : Inv S st' := by
  obtain ⟨answer, hcan, rfl⟩ := Option.map_eq_some_iff.mp hst
  have hcomp := compiles_of_canLock hcan
  cases answer with
  | yes => exact h.grantLock hS hoid hcomp fun l hl =>
      tid_eq_of_canLock hcan (hS.noClash oid hoid hcomp) hl
  | no lucky => exact h
  | queue lucky =>
    refine h.withQueue ?_
    intro q hq
    obtain rfl | hq := List.mem_insert_iff.mp hq
    · exact hoid
    · exact h.queue q hq

theorem Inv.tryWaiter (h : Inv S st) (hS : Safe S) {q : Queue} {stays : Bool} (hq : q.oid ∈ S)
    (hst : tryWaiter ord found st q = some (st', stays)) : Inv S st' := by
  obtain ⟨answer, hcan, hst⟩ := Option.bind_eq_some_iff.mp hst
  have hcomp := compiles_of_canLock hcan
  have hdel := h.filterQueue (!matchWaiter q ·)
  cases answer with
  | queue lucky =>
    cases hst
    exact h
  | no lucky =>
    simp only [reduceCtorEq, if_false] at hst
    split_ifs at hst
    cases hst
    exact hdel
  | yes =>
    simp only [if_true] at hst
    split_ifs at hst
    cases hst
    exact hdel.grantLock hS hq hcomp fun l hl =>
      tid_eq_of_canLock hcan (hS.noClash q.oid hq hcomp) hl

theorem Inv.tryWaiters (h : Inv S st) (hS : Safe S) {keep : Queue → Queue → Bool}
    {qs : List Queue} (hqs : ∀ q ∈ qs, q.oid ∈ S)
    (hst : tryWaiters ord found keep st qs = some st') : Inv S st' := by
  fun_induction Locker.tryWaiters ord found keep st qs with
  | case1 st => exact Option.some.inj hst ▸ h
  | case2 st q qs ih ih' =>
    obtain ⟨r, hr, hst⟩ := Option.bind_eq_some_iff.mp hst
    obtain ⟨hq, hqs⟩ := List.forall_mem_cons.mp hqs
    have hr' := h.tryWaiter hS hq hr
    split_ifs at hst
    · exact ih _ hr' (fun q hq => hqs q (by simp at hq; exact hq.1)) (by simpa using hst)
    · exact ih' _ hr' hqs hst

theorem Inv.rearrangeQueue (h : Inv S st) (hS : Safe S) {locks : List TidLock}
    (hst : rearrangeQueue ord found st locks = some st') : Inv S st' := by
  induction locks generalizing st with
  | nil => exact Option.some.inj hst ▸ h
  | cons l locks ih =>
    obtain ⟨st₁, hst₁, hst⟩ := Option.bind_eq_some_iff.mp hst
    refine ih ?_ hst
    split_ifs at hst₁
    · refine h.tryWaiters hS ?_ hst₁
      intro q hq
      obtain hq | hq := List.mem_append.mp (List.mem_mergeSort.mp hq)
      · exact h.queue q (List.mem_of_mem_filter hq)
      · exact h.queue q (List.mem_of_mem_filter hq)
    · refine h.tryWaiters hS ?_ hst₁
      intro q hq
      exact h.queue q (List.mem_of_mem_filter (List.mem_mergeSort.mp hq))

/-- A lock of a transaction without granted locks is deleted. -/
theorem Inv.releaseLocks (h : Inv S st) (tid : Tid) (hg : ∀ g ∈ st.granted, g.tid ≠ tid)
    {locks : List TidLock} (hl : ∀ l ∈ locks, l.tid = tid) :
    Inv S (locks.foldl releaseLock st) := by
  induction locks generalizing st with
  | nil => exact h
  | cons l locks ih =>
    obtain ⟨hl, hls⟩ := List.forall_mem_cons.mp hl
    rw [List.foldl_cons, releaseLock]
    cases l.mark with
    | queued op => exact ih (h.filterQueue _) hg hls
    | held lock =>
      refine ih ⟨?_, h.within, h.queue, h.exclusive⟩ hg hls
      intro g hmem
      refine List.mem_filter.mpr ⟨h.held g hmem, ?_⟩
      simp [Held.equal, hl, hg g hmem]

theorem Inv.step (h : Inv S st) (hS : Safe S) {e : Event} (he : e.Within S)
    (hst : step ord found st e = some st') : Inv S st' := by
  cases e with
  | request tid pid op oid => exact h.tryLock hS he hst
  | release tid =>
    have hkept : Inv S { st with granted := st.granted.filter (·.tid ≠ tid) } := by
      refine ⟨?_, ?_, h.queue, ?_⟩
      · exact fun g hg => h.held g (List.mem_of_mem_filter hg)
      · exact fun g hg => h.within g (List.mem_of_mem_filter hg)
      · exact fun g hg g' hg' =>
          h.exclusive g (List.mem_of_mem_filter hg) g' (List.mem_of_mem_filter hg')
    refine ((hkept.withQueue hkept.queue).releaseLocks tid ?_ ?_).rearrangeQueue hS hst
    · intro g hg
      simpa using List.of_mem_filter hg
    · intro l hl
      simpa using List.of_mem_filter (List.mem_mergeSort.mp hl)

theorem Inv.run (h : Inv S st) (hS : Safe S) {events : List (Event × (Tid → Op → Oid → Bool))}
    (he : ∀ e ∈ events, e.1.Within S) (hst : run ord st events = some st') : Inv S st' := by
  induction events generalizing st with
  | nil => exact Option.some.inj hst ▸ h
  | cons e events ih =>
    rw [Locker.run, List.foldlM_cons] at hst
    obtain ⟨st₁, hst₁, hst⟩ := Option.bind_eq_some_iff.mp hst
    obtain ⟨he, hes⟩ := List.forall_mem_cons.mp he
    exact ih (h.step hS he hst₁) hes hst

/-! ### Keys that are not -/

/-- A write request, with every table in place. -/
def write (tid : Tid) (oid : Oid) : Event × (Tid → Op → Oid → Bool) :=
  (.request tid tid.pid .write oid, fun _ _ _ => true)

theorem checkHeld_of_forall {locks : List Tid} (h : ∀ t ∈ locks, t = tid) :
    checkHeld ord st tid oid locks .yes = .yes := by
  induction locks with
  | nil => rfl
  | cons t locks ih =>
    obtain ⟨ht, hlocks⟩ := List.forall_mem_cons.mp h
    rw [checkHeld, canQueue, if_pos ht]
    exact ih hlocks

/-- With an empty queue, a write lock is granted if no lock of another transaction is selected. -/
theorem run_write (hq : st.lockQueue = []) (hcomp : compiles oid.key = true)
    (hfree : ∀ l ∈ st.heldLocks, l.tid ≠ tid → matchOid oid l.oid [(1, l.tid.term)] = none ∧
      matchOid ⟨oid.tab, if oid.key = all then .atom ['_'] else all⟩ l.oid [(1, l.tid.term)] = none)
    (events : List (Event × (Tid → Op → Oid → Bool))) :
    run ord st (write tid oid :: events) = run ord (setLock st tid oid .write) events := by
  have hlock {locks : List Tid} (h : ∀ t ∈ locks, t = tid) :
      checkLock ord st tid oid locks false .write = .yes := by
    simp [checkLock, checkHeld_of_forall h, checkQueue, queueOf, hq, maxTid]
  have hholders {o : Oid} (ho : compiles o.key = true) (hnone : ∀ l ∈ st.heldLocks, l.tid ≠ tid →
      matchOid o l.oid [(1, l.tid.term)] = none) :
      ∃ tids, holders ord st o .write = some tids ∧ ∀ t ∈ tids, t = tid := by
    refine ⟨_, if_pos ho, ?_⟩
    intro t ht
    obtain ⟨l, hl, rfl⟩ := List.mem_map.mp ht
    obtain ⟨hl, hsel⟩ := List.mem_filter.mp (List.mem_mergeSort.mp hl)
    by_contra hne
    simp [selects, hnone l hl hne] at hsel
  have hcan : canLock ord st tid .write oid false = some .yes := by
    by_cases hall : oid.key = all
    · simp only [if_pos hall] at hfree
      obtain ⟨tids, htids, hown⟩ := hholders rfl fun l hl hne => (hfree l hl hne).2
      rw [canLock, if_pos hall, htids, Option.map_some, hlock hown]
    · simp only [if_neg hall] at hfree
      obtain ⟨tabs, htabs, htown⟩ := hholders rfl fun l hl hne => (hfree l hl hne).2
      obtain ⟨objs, hobjs, hown⟩ := hholders hcomp fun l hl hne => (hfree l hl hne).1
      rw [canLock, if_neg hall, htabs, Option.bind_some, hobjs, Option.map_some, hlock]
      exact fun t ht => (List.mem_append.mp ht).elim (htown t) (hown t)
  simp [run, write, step, tryLock, Op.target, Op.lock, hcan, grantLock, Op.looksUp]

/-- Two transactions hold a write lock on an oid. -/
theorem not_exclusive {t t' : Tid} (ht : t ≠ t') (h : ⟨oid, .write, t⟩ ∈ st.granted)
    (h' : ⟨oid, .write, t'⟩ ∈ st.granted) : ¬ Exclusive st :=
  fun hex => ht (hex _ h _ h' ⟨rfl, .inl rfl, .inl rfl⟩)

/-- A second transaction is granted the lock on an oid that does not match itself. -/
theorem run_clash (ord : Order) {t t' : Tid} (ht : t ≠ t') (hcomp : compiles oid.key = true)
    (hclash : ¬ NoClash oid) :
    ∃ st, run ord init [write t oid, write t' oid] = some st ∧ ¬ Exclusive st := by
  have hself : matchOid oid oid [(1, t.term)] = none := by
    simpa using mt (matchOid_self_isSome oid t).mp hclash
  rw [run_write rfl hcomp (by simp [init]), run_write rfl hcomp]
  · exact ⟨_, rfl, not_exclusive ht (.tail _ (.head _)) (.head _)⟩
  · intro l hl _
    obtain rfl : l = ⟨oid, .write, t⟩ := List.mem_singleton.mp hl
    refine ⟨hself, ?_⟩
    split_ifs with hall
    · -- the table does not match itself either
      rw [matchOid_of_key (dbMatch_underscore _)]
      rwa [matchOid_of_key (by rw [hall]; exact dbMatch_all)] at hself
    · exact matchOid_all hall _

/-- A lock that was replaced by an equal one is not found. -/
theorem run_equal (ord : Order) {t t' : Tid} (ht : t ≠ t') {oid' : Oid}
    (hcomp : compiles oid.key = true)
    (hcomp' : compiles oid'.key = true) (heq : oid.equal oid' = true) (hne : oid ≠ oid') :
    ∃ st, run ord init [write t oid, write t oid', write t' oid] = some st ∧ ¬ Exclusive st := by
  simp only [Oid.equal, Bool.and_eq_true, decide_eq_true_eq] at heq
  obtain ⟨htab, hkey⟩ := heq
  have hne' : oid.key ≠ oid'.key := by
    intro h
    exact hne (by cases oid; cases oid'; simp_all)
  have hall : oid.key ≠ all := by
    intro h
    rw [h] at hkey hne'
    cases hk : oid'.key <;> simp_all [all, Term.equal]
  have hall' : oid'.key ≠ all := by
    intro h
    rw [h] at hkey hne'
    cases hk : oid.key <;> simp_all [all, Term.equal]
  rw [run_write rfl hcomp (by simp [init]), run_write rfl hcomp', run_write rfl hcomp]
  · exact ⟨_, rfl, not_exclusive ht (.tail _ (.tail _ (.head _))) (.head _)⟩
  · intro l hl hlt
    have hl' : l ∈ orderedInsert Held.equal ⟨oid', .write, t⟩ [⟨oid, .write, t⟩] := hl
    obtain rfl : l = ⟨oid', .write, t⟩ := by
      simpa [orderedInsert, Held.equal, Oid.equal, htab, hkey] using hl'
    rw [if_neg hall]
    refine ⟨?_, matchOid_all hall' _⟩
    rw [matchOid, Option.bind_eq_none_iff]
    intro b _
    by_contra hm
    obtain ⟨b', hb'⟩ := Option.ne_none_iff_exists'.mp hm
    exact hne' (eq_of_equal_of_dbMatch hkey hb')
  · intro l hl hlt
    obtain rfl : l = ⟨oid, .write, t⟩ := List.mem_singleton.mp hl
    exact absurd rfl hlt

theorem two_tids : (⟨0, 0⟩ : Tid) ≠ ⟨1, 1⟩ := by decide

/-- **Exclusion.** The granted locks of all histories with the oids of a set exclude each other if
and only if no oid of the set clashes with the variable of the match specifications and no two
of them are equal without being the same. -/
theorem run_exclusive_iff (ord : Order) (S : Set Oid) :
    (∀ events st, (∀ e ∈ events, e.1.Within S) → run ord init events = some st → Exclusive st) ↔
      (∀ o ∈ S, compiles o.key = true → NoClash o) ∧
        ∀ o ∈ S, ∀ o' ∈ S, compiles o.key = true → compiles o'.key = true →
          o.equal o' = true → o = o' := by
  constructor
  · intro h
    refine ⟨?_, ?_⟩
    · intro o ho hcomp
      by_contra hclash
      obtain ⟨st, hst, hex⟩ := run_clash ord two_tids hcomp hclash
      exact hex (h _ st (by simpa [write, Event.Within, Op.target] using ho) hst)
    · intro o ho o' ho' hcomp hcomp' heq
      by_contra hne
      obtain ⟨st, hst, hex⟩ := run_equal ord two_tids hcomp hcomp' heq hne
      exact hex (h _ st (by simpa [write, Event.Within, Op.target] using ⟨ho, ho', ho⟩) hst)
  · rintro ⟨hclash, heq⟩ events st he hst
    have hinit : Inv S init := ⟨nofun, nofun, nofun, nofun⟩
    exact (hinit.run ⟨hclash, heq⟩ he hst).exclusive

/-- The order of the counters. -/
def byCounter : Order := ⟨fun t t' => t'.counter < t.counter, fun _ _ => true, fun _ _ => true⟩

/-- Two transactions write the record `'$1'`, and after a lock on `1.0` the record `1`. -/
theorem run_not_exclusive :
    (∃ st, run byCounter init
        [write ⟨0, 0⟩ ⟨['t'], .atom ['$', '1']⟩, write ⟨1, 1⟩ ⟨['t'], .atom ['$', '1']⟩] = some st ∧
      ¬ Exclusive st) ∧
    ∃ st, run byCounter init [write ⟨0, 0⟩ ⟨['t'], .num (.int 1)⟩,
        write ⟨0, 0⟩ ⟨['t'], .num (.float 1 false)⟩,
          write ⟨1, 1⟩ ⟨['t'], .num (.int 1)⟩] = some st ∧
      ¬ Exclusive st := by
  refine ⟨run_clash byCounter two_tids rfl ?_, run_equal byCounter two_tids rfl rfl rfl nofun⟩
  intro h
  exact h.1 ['$', '1'] (by decide) (by decide)

end Otp.Mnesia.Locker
