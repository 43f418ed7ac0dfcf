import Otp.Erts.BinarySearch.BoyerMoore

/-!
# Search for several patterns in a binary (`erl_bif_binary.c`)

A node of the trie is known by its address, and the address of a node is the list of bytes that
leads to it from the root: the allocator may give a new node any address that is not in use.
The depth of a node and its mark are fields of 32 bits, the indices of the queue of nodes are
`int`s.  A read through a pointer to nothing, a write outside the queue, and an index that
leaves the range of `int`, is `none`.

The loops that follow failure functions have the length of the address as fuel, since each
failure is shorter than its node.
-/

namespace Otp.Erts.BinarySearch

open Lib.Occurrences

abbrev Addr := List Byte

structure ACNode where
  d : ℕ
  final : ℤ
  h : Option Addr
  g : Byte → Option Addr

structure ACTrie where
  counter : ℕ
  rootByteCount : ℕ
  rootBytes : List Byte
  nodes : Addr → Option ACNode

namespace ACTrie

def root : Addr := []

/-- Write a node. -/
def set (act : ACTrie) (a : Addr) (node : ACNode) : ACTrie :=
  { act with nodes := Function.update act.nodes a (some node) }

end ACTrie

open ACTrie (root)

def createAcdata : ACTrie :=
  ⟨0, 0, [], fun a => if a = root then some ⟨0, 0, none, fun _ => none⟩ else none⟩

/-! ## The trie -/

def acRootSimdMax : ℕ := 16

/-- The bytes with which patterns start, as long as they are few. -/
def countRootByte (act : ACTrie) (b : Byte) : ACTrie :=
  if act.rootByteCount ≤ acRootSimdMax then
    { act with
      rootBytes := if act.rootByteCount < acRootSimdMax then act.rootBytes ++ [b] else act.rootBytes
      rootByteCount := act.rootByteCount + 1 }
  else act

/-- The way of a pattern through the trie, with the nodes that are missing. -/
def addBytes (act : ACTrie) (acn : Addr) (i : ℕ) : List Byte → Option (ACTrie × Addr)
  | [] => some (act, acn)
  | b :: x =>
    match act.nodes acn with
    | none => none
    | some node =>
      match node.g b with
      | some next => addBytes act next (i + 1) x
      | none =>
        let nn := acn ++ [b]
        let counted := if acn = root then countRootByte act b else act
        addBytes
          ((counted.set nn ⟨(i + 1) % 2 ^ 32, 0, some root, fun _ => none⟩).set acn
            { node with g := Function.update node.g b (some nn) })
          nn (i + 1) x

def acAddOnePattern (act : ACTrie) (x : List Byte) : Option ACTrie :=
  let n := (act.counter + 1) % 2 ^ 32
  match addBytes { act with counter := n } root 0 x with
  | none => none
  | some (act, acn) =>
    match act.nodes acn with
    | none => none
    | some node =>
      if node.final = 0 then some (act.set acn { node with final := toInt n }) else some act

def addPatterns (act : ACTrie) : List (List Byte) → Option ACTrie
  | [] => some act
  | x :: patterns =>
    match acAddOnePattern act x with
    | none => none
    | some act => addPatterns act patterns

/-! ## Failure functions -/

/-- All values of a byte, in order. -/
def allBytes : List Byte := (List.range alphabetSize).map UInt8.ofNat

/-- `qbuff[qt++] = node` in a queue of the given size. -/
def push (size : ℕ) (qbuff : List Addr) (node : Addr) : Option (List Addr) :=
  if qbuff.length < size ∧ qbuff.length + 1 < 2 ^ 31 then some (qbuff ++ [node]) else none

/-- `while (r != NULL && r->g[i] == NULL) r = r->h` -/
def followFailure (act : ACTrie) (b : Byte) : ℕ → Option Addr → Option (Option Addr)
  | _, none => some none
  | 0, some _ => none
  | fuel + 1, some r =>
    match act.nodes r with
    | none => none
    | some node => if node.g b = none then followFailure act b fuel node.h else some (some r)

/-- The failure function of a child, and its mark. -/
def setFailure (act : ACTrie) (parent : Addr) (b : Byte) (child : Addr) : Option ACTrie :=
  match act.nodes parent, act.nodes child with
  | some p, some c =>
    match followFailure act b (parent.length + 1) p.h with
    | none => none
    | some none =>
      match act.nodes root with
      | none => none
      | some rootNode =>
        some (act.set child { c with h := if rootNode.g b = none then some root else rootNode.g b })
    | some (some r) =>
      match (act.nodes r).bind fun node => node.g b with
      | none => none
      | some h =>
        match act.nodes h with
        | none => none
        | some hnode =>
          some (act.set child
            { c with h := some h, final := if c.final = 0 ∧ hnode.final ≠ 0 then -1 else c.final })
  | _, _ => none

/-- The turn of a parent for one byte. -/
def visit (size : ℕ) (parent : Addr) (act : ACTrie) (qbuff : List Addr) (b : Byte) :
    Option (ACTrie × List Addr) :=
  match act.nodes parent with
  | none => none
  | some p =>
    match p.g b with
    | none => some (act, qbuff)
    | some child =>
      match push size qbuff child, setFailure act parent b child with
      | some qbuff, some act => some (act, qbuff)
      | _, _ => none

/-- The turns of a parent for the bytes of a list. -/
def visitAll (size : ℕ) (parent : Addr) (act : ACTrie) (qbuff : List Addr) :
    List Byte → Option (ACTrie × List Addr)
  | [] => some (act, qbuff)
  | b :: bs =>
    match visit size parent act qbuff b with
    | none => none
    | some (act, qbuff) => visitAll size parent act qbuff bs

/-- The children of the root. -/
def visitRoot (size : ℕ) (act : ACTrie) (qbuff : List Addr) :
    List Byte → Option (ACTrie × List Addr)
  | [] => some (act, qbuff)
  | b :: bs =>
    match act.nodes root with
    | none => none
    | some rootNode =>
      match rootNode.g b with
      | none => visitRoot size act qbuff bs
      | some child =>
        match act.nodes child, push size qbuff child with
        | some c, some qbuff => visitRoot size (act.set child { c with h := some root }) qbuff bs
        | _, _ => none

/-- `while (qh < qt)`; every turn takes a node from the queue. -/
def failureLoop (size : ℕ) : ℕ → ACTrie → List Addr → ℕ → Option ACTrie
  | 0, _, _, _ => none
  | fuel + 1, act, qbuff, qh =>
    match qbuff[qh]? with
    | none => some act
    | some parent =>
      match visitAll size parent act qbuff allBytes with
      | none => none
      | some (act, qbuff) => failureLoop size fuel act qbuff (qh + 1)

def acComputeFailureFunctions (size : ℕ) (act : ACTrie) : Option ACTrie :=
  match visitRoot size act [] allBytes with
  | none => none
  | some (act, qbuff) =>
    match failureLoop size (size + 1) act qbuff 0 with
    | none => none
    | some act =>
      (act.nodes root).map fun rootNode => act.set root { rootNode with h := some root }

/-- The number of characters is the size of the queue. -/
def acCompile (patterns : List (List Byte)) : Option ACTrie :=
  match addPatterns createAcdata patterns with
  | none => none
  | some act => acComputeFailureFunctions (patterns.map List.length).sum act

/-! ## Search -/

/-- `while (q->g[c] == NULL && q->h != q) q = q->h; if (q->g[c] != NULL) q = q->g[c]` -/
def acAdvance (act : ACTrie) (c : Byte) : ℕ → Addr → Option Addr
  | 0, _ => none
  | fuel + 1, q =>
    match act.nodes q with
    | none => none
    | some node =>
      match node.g c, node.h with
      | some next, _ => some next
      | none, none => none
      | none, some h => if h = q then some q else acAdvance act c fuel h

/-- `while (r->final < 0) r = r->h` -/
def firstFinal (act : ACTrie) : ℕ → Addr → Option (Addr × ACNode)
  | 0, _ => none
  | fuel + 1, r =>
    match act.nodes r with
    | none => none
    | some node =>
      if node.final < 0 then
        match node.h with
        | none => none
        | some h => firstFinal act fuel h
      else some (r, node)

/-- Does a pattern start with the byte? -/
def rootTransition (act : ACTrie) (c : Option Byte) : Bool :=
  (c.bind fun c => (act.nodes root).bind fun rootNode => rootNode.g c).isSome

/-- How many bytes are skipped, what is left of the reductions, and whether the next byte has a
transition from the root. -/
structure Skip where
  skip : ℕ
  left : ℕ
  found : Bool

/-- The first of 16 bytes that a pattern starts with. -/
def acRootSimdSkipBlock (act : ACTrie) (haystack : List Byte) (i : ℕ) : ℕ :=
  ((haystack.drop i).take 16).findIdx fun c => c ∈ act.rootBytes

def skipBlocks (act : ACTrie) (haystack : List Byte) (len pos : ℕ) : ℕ → ℕ → Skip
  | 0, skip => ⟨skip, 0, false⟩
  | left + 1, skip =>
    if len - (pos + skip) ≥ 16 then
      let block := acRootSimdSkipBlock act haystack (pos + skip)
      if block < 16 then ⟨skip + block, left, true⟩
      else skipBlocks act haystack len pos left (skip + block)
    else ⟨skip, left + 1, false⟩

def skipBytes (act : ACTrie) (haystack : List Byte) (len pos : ℕ) : ℕ → ℕ → Skip
  | 0, skip => ⟨skip, 0, false⟩
  | left + 1, skip =>
    if pos + skip < len then
      if rootTransition act haystack[pos + skip]? then ⟨skip, left, true⟩
      else skipBytes act haystack len pos left (skip + 1)
    else ⟨skip, left + 1, false⟩

/-- With `simd`, the skip goes over blocks of bytes while there are enough of them. -/
def acRootSkip (simd : Bool) (act : ACTrie) (haystack : List Byte) (len maxReductions pos : ℕ) :
    Skip :=
  if simd ∧ act.rootByteCount ≠ 0 ∧ act.rootByteCount ≤ acRootSimdMax then
    let blocks := skipBlocks act haystack len pos maxReductions 0
    if blocks.found then blocks else skipBytes act haystack len pos blocks.left blocks.skip
  else skipBytes act haystack len pos maxReductions 0

/-! ### First match -/

structure ACFindFirstState where
  q : Addr
  pos : ℕ
  candidate : Option Addr
  candidateStart : ℕ
deriving DecidableEq

inductive ACFirstResult
  | restart (state : ACFindFirstState)
  | notFound
  | ok (match_ : Span)
deriving DecidableEq

/-- The end of the search. -/
def firstDone (act : ACTrie) (st : ACFindFirstState) : Option ACFirstResult :=
  match st.candidate with
  | none => some .notFound
  | some c => (act.nodes c).map fun node => .ok ⟨st.candidateStart, node.d⟩

/-- The candidate after a step to `q` before the byte at `i`. -/
def newCandidate (act : ACTrie) (q : Addr) (qnode : ACNode) (i : ℕ) (st : ACFindFirstState) :
    Option ACFindFirstState :=
  if qnode.final ≠ 0 then
    match firstFinal act (q.length + 1) q with
    | none => none
    | some (r, rnode) =>
      let rstart := i - rnode.d
      match st.candidate with
      | none => some ⟨q, i, some r, rstart⟩
      | some c =>
        match act.nodes c with
        | none => none
        | some cnode =>
          if rstart < st.candidateStart ∨ (rstart = st.candidateStart ∧ cnode.d < qnode.d) then
            some ⟨q, i, some r, rstart⟩
          else some ⟨q, i, some c, st.candidateStart⟩
  else some ⟨q, i, st.candidate, st.candidateStart⟩

def acFindFirstMatch (simd : Bool) (act : ACTrie) (haystack : List Byte) (len reds : ℕ)
    (st : ACFindFirstState) : Option ACFirstResult :=
  if st.pos < len then
    let s := if st.candidate = none ∧ st.q = root then
        acRootSkip simd act haystack len reds st.pos else ⟨0, reds, false⟩
    let i := st.pos + s.skip
    if i = len then firstDone act st
    else if ¬ s.found ∧ s.left = 0 then some (.restart { st with pos := i })
    else
      match haystack[i]?.bind fun c => acAdvance act c (st.q.length + 1) st.q with
      | none => none
      | some q =>
        match act.nodes q with
        | none => none
        | some qnode =>
          if st.candidate ≠ none ∧ i + 1 - qnode.d > st.candidateStart then firstDone act st
          else
            match newCandidate act q qnode (i + 1) st with
            | none => none
            | some st' =>
              acFindFirstMatch simd act haystack len (if s.found then s.left else s.left - 1)
                { st' with pos := i + 1 }
  else firstDone act st
termination_by len - st.pos

def acInitFindFirstMatch (hsstart : ℕ) : ACFindFirstState := ⟨root, hsstart, none, 0⟩

/-! ### All matches -/

structure ACFindAllState where
  q : Addr
  pos : ℕ
  out : List Span
deriving DecidableEq

inductive ACAllResult
  | restart (state : ACFindAllState)
  | notFound
  | ok (out : List Span)
deriving DecidableEq

/-- The end of the search. -/
def acAllDone (out : List Span) : ACAllResult :=
  if out = [] then .notFound else .ok out

/-- Matches that start later, or at the same place and are shorter, are popped.  If the last one
left overlaps with the new one, they are put back. -/
def addMatch (out : List Span) (rstart d : ℕ) : List Span :=
  let kept := out.rdropWhile fun s => s.pos > rstart ∨ (s.pos = rstart ∧ s.len < d)
  match kept.getLast? with
  | none => [⟨rstart, d⟩]
  | some last => if last.pos + last.len ≤ rstart then kept ++ [⟨rstart, d⟩] else out

/-- `while (r->final) { while (r->final < 0) r = r->h; ...; r = r->h; }` -/
def addMatches (act : ACTrie) (i : ℕ) : ℕ → Addr → List Span → Option (List Span)
  | 0, _, _ => none
  | fuel + 1, r, out =>
    match act.nodes r with
    | none => none
    | some node =>
      if node.final ≠ 0 then
        match firstFinal act (r.length + 1) r with
        | none => none
        | some (_, rnode) =>
          match rnode.h with
          | none => none
          | some h => addMatches act i fuel h (addMatch out (i - rnode.d) rnode.d)
      else some out

def acFindAllNonOverlapping (simd : Bool) (act : ACTrie) (haystack : List Byte) (len reds : ℕ)
    (st : ACFindAllState) : Option ACAllResult :=
  if st.pos < len then
    let max := if reds > 0 then reds - 1 else 0
    let s := if st.q = root then acRootSkip simd act haystack len max st.pos else ⟨0, max, false⟩
    let i := st.pos + s.skip
    let reds := reds - (max - s.left)
    let reds' := if s.found then reds else (reds + (wordSize - 1)) % wordSize
    if i = len then some (acAllDone st.out)
    else if ¬ s.found ∧ reds' = 0 then some (.restart { st with pos := i })
    else
      match haystack[i]?.bind fun c => acAdvance act c (st.q.length + 1) st.q with
      | none => none
      | some q =>
        match addMatches act (i + 1) (q.length + 1) q st.out with
        | none => none
        | some out => acFindAllNonOverlapping simd act haystack len reds' ⟨q, i + 1, out⟩
  else some (acAllDone st.out)
termination_by len - st.pos

def acInitFindAll (hsstart : ℕ) : ACFindAllState := ⟨root, hsstart, []⟩

/-! ### Slices -/

/-- The first match, with a new budget of reductions each time the last one is used up.  The
answer is `none` when there are no more budgets. -/
def firstSlices (simd : Bool) (act : ACTrie) (haystack : List Byte) (len : ℕ) :
    List ℕ → ACFindFirstState → Option (Option ACFirstResult)
  | [], _ => some none
  | reds :: budgets, st =>
    match acFindFirstMatch simd act haystack len reds st with
    | none => none
    | some (.restart st) => firstSlices simd act haystack len budgets st
    | some r => some (some r)

/-- All matches, in the same way. -/
def allSlices (simd : Bool) (act : ACTrie) (haystack : List Byte) (len : ℕ) :
    List ℕ → ACFindAllState → Option (Option ACAllResult)
  | [], _ => some none
  | reds :: budgets, st =>
    match acFindAllNonOverlapping simd act haystack len reds st with
    | none => none
    | some (.restart st) => allSlices simd act haystack len budgets st
    | some r => some (some r)

end Otp.Erts.BinarySearch
