import Mathlib

/-!
# The space allocator of dets

`dets_utils.erl` keeps the free space of a table file in a free table: element `i`
holds the addresses of the free buddies of size `2 ^ (i - 1)`.  While a table is
fixed (`do_safe_fixtable`, `dets.erl`) there are two copies of the free table: new
blocks are found in the copy frozen when the table was fixed, and blocks are given
back to the current one.

The elements of a free table are B+ trees in the source; the allocator uses them as
ordered sets of addresses, and here they are finite sets.
-/

namespace Otp.Stdlib.Dets

/-- How a call of the allocator raises. -/
inductive DetsError
  | noMoreSpaceOnFile (filename : String)
  | badarg
  | functionClause
deriving DecidableEq

/-! ## Ordered sets of addresses -/

/-- A B+ tree, by its keys. -/
abbrev Tree := Finset ℤ

def bplusEmptyTree : Tree := ∅

def bplusLookup (tree : Tree) (key : ℤ) : Option ℤ := if key ∈ tree then some key else none

/-- The smallest key. -/
def bplusLookupFirst (tree : Tree) : Option ℤ :=
  if h : tree.Nonempty then some (tree.min' h) else none

def bplusInsert (tree : Tree) (key : ℤ) : Tree := insert key tree

def bplusDelete (tree : Tree) (key : ℤ) : Tree := tree.erase key

/-! ## Free tables -/

/-- 2 GB is the maximum file size. -/
def maxBud : ℕ := 32

/-- Bytes reserved for the free lists, at the end of the file. -/
def maxFreelists : ℤ := 50000000

def pow (x : ℕ) : ℤ := 2 ^ x

/-- A tuple of `maxBud` elements, element `i` handling buddies of size `2 ^ (i - 1)`. -/
structure FreeTable where
  elements : Vector Tree maxBud
deriving DecidableEq

namespace FreeTable

/-- `element/2`: positions count from 1. -/
def element (pos : ℕ) (ftab : FreeTable) : Except DetsError Tree :=
  if h : 1 ≤ pos ∧ pos ≤ maxBud then .ok (ftab.elements.get ⟨pos - 1, by omega⟩)
  else .error .badarg

def setelement (pos : ℕ) (ftab : FreeTable) (tree : Tree) : FreeTable :=
  ⟨ftab.elements.setIfInBounds (pos - 1) tree⟩

end FreeTable

open FreeTable

def emptyFreeLists : FreeTable := ⟨Vector.replicate maxBud bplusEmptyTree⟩

def initAlloc (base : ℤ) : FreeTable :=
  setelement maxBud emptyFreeLists (bplusInsert bplusEmptyTree base)

/-! ## Sizes and buddies -/

/-- Returns the i such that 2^(i-1) < N =< 2^i, for N of at least two. -/
def log2 (n : ℕ) : ℕ :=
  if n > 2 ^ 8 then
    if n > 2 ^ 10 then
      if n > 2 ^ 11 then
        if n > 2 ^ 12 then
          12 + if n &&& (2 ^ 12 - 1) = 0 then log2 (n >>> 12) else log2 (1 + n >>> 12)
        else 12
      else 11
    else if n > 2 ^ 9 then 10 else 9
  else if n > 2 ^ 4 then
    if n > 2 ^ 6 then
      if n > 2 ^ 7 then 8 else 7
    else if n > 2 ^ 5 then 6 else 5
  else if n > 2 ^ 2 then
    if n > 2 ^ 3 then 4 else 3
  else if n > 2 ^ 1 then 2
  else if n ≥ 2 ^ 0 then 1
  else 0
termination_by n
decreasing_by all_goals simp only [Nat.shiftRight_eq_div_pow]; omega

/-- The position of the buddies that hold `n` bytes; a block of `2 ^ k` bytes gets a
buddy twice as large. -/
def sz2pos (n : ℕ) : Except DetsError ℕ :=
  if n > 0 then .ok (1 + log2 (n + 1)) else .error .functionClause

/-- The buddy of an address, and the address of the block they make together. -/
def myBuddy (addr sz base : ℤ) : ℤ × ℤ :=
  if Int.land (addr - base) sz = 0 then
    -- even, buddy is higher addr
    (addr + sz, addr)
  else
    -- odd, buddy is lower addr
    (addr - sz, addr - sz)

/-! ## Reserving and freeing buddies -/

def findFirstFree (ftab : FreeTable) (pos pos0 : ℕ) (filename : String) :
    Except DetsError (ℕ × ℤ) :=
  if pos > maxBud then .error (.noMoreSpaceOnFile filename)
  else do
    let posTab ← element pos ftab
    match bplusLookupFirst posTab with
    | none => findFirstFree ftab (pos + 1) pos0 filename
    | some addr =>
      -- a block must not occupy (some of) the area reserved for the free lists
      if addr + pow (pos0 - 1) > pow (maxBud - 1) - maxFreelists then
        .error (.noMoreSpaceOnFile filename)
      else .ok (pos, addr)
termination_by maxBud + 1 - pos

/-- Frees the high half of the block at `addr` of position `pos`, the high half of its
low half and so on, until a block of position `pos0` is left. -/
def moveDown (ftab : FreeTable) (pos pos0 : ℕ) (addr : ℤ) : Except DetsError FreeTable :=
  if pos = pos0 then .ok ftab
  else
    match pos with
    | 0 => .error .badarg
    | pos1 + 1 => do
      let highBuddy := addr + pow pos1 / 2
      let tab ← element pos1 ftab
      moveDown (setelement pos1 ftab (bplusInsert tab highBuddy)) pos1 pos0 addr

def reserveBuddy (ftab : FreeTable) (pos pos0 : ℕ) (addr : ℤ) : Except DetsError FreeTable := do
  let posTab ← element pos ftab
  moveDown (setelement pos ftab (bplusDelete posTab addr)) pos pos0 addr

/-- When the table is fixed, `free` may have joined buddies so that the requested block
is now part of some larger block.  That block is found, and free buddies are inserted
along the way. -/
def undoFree (ftab : FreeTable) (pos : ℕ) (addr base : ℤ) : Except DetsError FreeTable :=
  if 1 ≤ pos ∧ pos ≤ maxBud then do
    let posTab ← element pos ftab
    match bplusLookup posTab addr with
    | none =>
      let (buddyAddr, moveUpAddr) := myBuddy addr (pow (pos - 1)) base
      undoFree (setelement pos ftab (bplusInsert posTab buddyAddr)) (pos + 1) moveUpAddr base
    | some addr => .ok (setelement pos ftab (bplusDelete posTab addr))
  else .error .badarg
termination_by maxBud + 1 - pos

def freeInPos (ftab : FreeTable) (addr : ℤ) (pos : ℕ) (base : ℤ) : Except DetsError FreeTable :=
  if pos > maxBud then .ok ftab
  else do
    let posTab ← element pos ftab
    let (buddyAddr, moveUpAddr) := myBuddy addr (pow (pos - 1)) base
    match bplusLookup posTab buddyAddr with
    | none => .ok (setelement pos ftab (bplusInsert posTab addr))
    | some buddyAddr =>
      let posTab1 := bplusDelete posTab addr
      let posTab2 := bplusDelete posTab1 buddyAddr
      freeInPos (setelement pos ftab posTab2) moveUpAddr (pos + 1) base
termination_by maxBud + 1 - pos

/-! ## The head of a table -/

abbrev Pid := ℕ

/-- The fields `fixed` and `freelists` of the head: while processes have fixed the table,
with a counter each, there are two free tables. -/
inductive Freelists
  | unfixed (ftab : FreeTable)
  | fixed (timeStamp : ℤ × ℤ) (counters : List (Pid × ℕ)) (frozen ftab : FreeTable)
deriving DecidableEq

structure Head where
  filename : String
  base : ℤ
  freelists : Freelists
deriving DecidableEq

def getFreelists (head : Head) : FreeTable :=
  match head.freelists with
  | .unfixed ftab => ftab
  | .fixed _ _ _ current => current

def setFreelists (head : Head) (ftab : FreeTable) : Head :=
  match head.freelists with
  | .unfixed _ => { head with freelists := .unfixed ftab }
  | .fixed stamp counters frozen _ =>
    { head with freelists := .fixed stamp counters frozen ftab }

/-- The new head, the address of the block and its position. -/
def alloc (head : Head) (sz : ℕ) : Except DetsError (Head × ℤ × ℕ) := do
  match head.freelists with
  | .fixed stamp counters frozen ftab =>
    let pos ← sz2pos sz
    let (fpos, addr) ← findFirstFree frozen pos pos head.filename
    let newFrozen ← reserveBuddy frozen fpos pos addr
    let ftab1 ← undoFree ftab fpos addr head.base
    let newFtab ← moveDown ftab1 fpos pos addr
    .ok ({ head with freelists := .fixed stamp counters newFrozen newFtab }, addr, pos)
  | .unfixed ftab =>
    let pos ← sz2pos sz
    let (fpos, addr) ← findFirstFree ftab pos pos head.filename
    let newFtab ← reserveBuddy ftab fpos pos addr
    .ok ({ head with freelists := .unfixed newFtab }, addr, pos)

/-- The new head and the position of the block. -/
def free (head : Head) (addr : ℤ) (sz : ℕ) : Except DetsError (Head × ℕ) := do
  let ftab := getFreelists head
  let pos ← sz2pos sz
  let newFtab ← freeInPos ftab addr pos head.base
  .ok (setFreelists head newFtab, pos)

/-! ## Fixing and releasing a table -/

/-- `lists:keyreplace/4` on the first component. -/
def keyreplace (pid : Pid) (entry : Pid × ℕ) : List (Pid × ℕ) → List (Pid × ℕ)
  | [] => []
  | c :: counters => if c.1 = pid then entry :: counters else c :: keyreplace pid entry counters

/-- `lists:keydelete/3` on the first component. -/
def keydelete (pid : Pid) (counters : List (Pid × ℕ)) : List (Pid × ℕ) :=
  counters.eraseP fun c => c.1 = pid

/-- `How =:= close` when the process closes the table. -/
inductive How
  | false
  | close
deriving DecidableEq

def removeFix (head : Head) (pid : Pid) (how : How) : Head :=
  match head.freelists with
  | .unfixed _ => head
  | .fixed stamp counters frozen ftab =>
    match counters.lookup pid with
    | some counter =>
      if counter = 1 ∨ how = .close then
        match keydelete pid counters with
        | [] => { head with freelists := .unfixed ftab }
        | newCounters => { head with freelists := .fixed stamp newCounters frozen ftab }
      else
        let newCounters := keyreplace pid (pid, counter - 1) counters
        { head with freelists := .fixed stamp newCounters frozen ftab }
    | none => head

/-- Fixes the table for a process at the time `now`, or releases it. -/
def doSafeFixtable (head : Head) (pid : Pid) (now : ℤ × ℤ) (fix : Bool) : Head :=
  if fix then
    match head.freelists with
    | .unfixed ftab => { head with freelists := .fixed now [(pid, 1)] ftab ftab }
    | .fixed stamp counters frozen ftab =>
      match counters.lookup pid with
      | some counter =>
        let newCounters := keyreplace pid (pid, counter + 1) counters
        { head with freelists := .fixed stamp newCounters frozen ftab }
      | none => { head with freelists := .fixed stamp ((pid, 1) :: counters) frozen ftab }
  else removeFix head pid .false

/-- Releases the table for all processes, when it is closed. -/
def unlinkFixingProcs (head : Head) : Head :=
  match head.freelists with
  | .unfixed _ => head
  | .fixed _ _ _ ftab => { head with freelists := .unfixed ftab }

end Otp.Stdlib.Dets
