import Otp.Lib.Occurrences

/-!
# Search for one pattern in a binary (`erl_bif_binary.c`)

The tables of shifts are computed once for a pattern, and the search moves the pattern over
the haystack by them.  An array is a list; a read or a write outside it, and a read of an
element that has not been written, is `none`.  The loop variables of `compute_suffixes` are
`int`s of 32 bits, all other sizes fit in a word.

A search has a budget of reductions and answers `restart` when it has used them up.  A budget
of `none` never runs out.
-/

namespace Otp.Erts.BinarySearch

open Lib.Occurrences

abbrev Byte := UInt8

/-- An element of an array. -/
def readAt {β : Type*} (l : List β) (i : ℤ) : Option β :=
  if i < 0 then none else l[i.toNat]?

/-- An array with an element replaced. -/
def writeAt {β : Type*} (l : List β) (i : ℤ) (v : β) : Option (List β) :=
  if i < 0 ∨ l.length ≤ i then none else some (l.set i.toNat v)

/-- A number assigned to a variable of type `int`. -/
def toInt (n : ℤ) : ℤ := n.bmod (2 ^ 32)

def alphabetSize : ℕ := 256

/-! ## Tables of shifts -/

/-- For every byte, how far its last place in the pattern is from the end; the last byte of the
pattern does not count. -/
def computeBadshifts (x : List Byte) : List ℤ :=
  x.dropLast.zipIdx.foldl (fun badshift xi => badshift.set xi.1.toNat (x.length - xi.2 - 1))
    (List.replicate alphabetSize (x.length : ℤ))

/-- `while (g >= 0 && x[g] == x[g + m - 1 - f]) --g` -/
def matchBack (x : List Byte) (m f g : ℤ) : Option ℤ :=
  if g ≥ 0 then
    match readAt x g, readAt x (g + m - 1 - f) with
    | some a, some b => if a = b then matchBack x m f (g - 1) else some g
    | _, _ => none
  else some g
termination_by (g + 1).toNat

/-- The value that an earlier one gives for `suffixes[i]`, if it does. -/
def reused (m f g i : ℤ) (suffixes : List (Option ℤ)) : Option (Option ℤ) :=
  if i > g then
    (readAt suffixes (i + m - 1 - f)).join.map fun s => if s < i - g then some s else none
  else some none

def suffixesLoop (x : List Byte) (m f g i : ℤ) (suffixes : List (Option ℤ)) :
    Option (List (Option ℤ)) :=
  if i ≥ 0 then
    match reused m f g i suffixes with
    | none => none
    | some (some s) => suffixesLoop x m f g (i - 1) (suffixes.set i.toNat (some s))
    | some none =>
      match matchBack x m i (if i < g then i else g) with
      | none => none
      | some g => suffixesLoop x m i g (i - 1) (suffixes.set i.toNat (some (i - g)))
  else some suffixes
termination_by (i + 1).toNat

/-- For every place in the pattern, how many bytes before it are those at the end of the
pattern. -/
def computeSuffixes (x : List Byte) : Option (List (Option ℤ)) :=
  let m : ℤ := x.length
  suffixesLoop x m 0 (toInt (m - 1)) (toInt (m - 2))
    ((List.replicate x.length none).set (x.length - 1) (some m))

/-- `while (j < m - 1 - i) { if (goodshift[j] == m) goodshift[j] = m - 1 - i; ++j; }` -/
def fillLoop (m i : ℤ) (j : ℕ) (goodshift : List ℤ) : Option (ℕ × List ℤ) :=
  if j < m - 1 - i then
    match goodshift[j]? with
    | none => none
    | some v => fillLoop m i (j + 1) (if v = m then goodshift.set j (m - 1 - i) else goodshift)
  else some (j, goodshift)
termination_by (m - 1 - i - j).toNat

/-- The loop of `compute_goodshifts` down to `i = -1`; the counter is `i + 1`. -/
def borderLoop (m : ℤ) (suffixes : List (Option ℤ)) : ℕ → ℕ → List ℤ → Option (List ℤ)
  | 0, j, goodshift => (fillLoop m (-1) j goodshift).map Prod.snd
  | i + 1, j, goodshift =>
    match suffixes[i]?.join with
    | none => none
    | some s =>
      if s = i + 1 then
        match fillLoop m i j goodshift with
        | none => none
        | some (j, goodshift) => borderLoop m suffixes i j goodshift
      else borderLoop m suffixes i j goodshift

/-- The second loop of `compute_goodshifts`, from `i` on. -/
def innerLoop (m : ℤ) (suffixes : List (Option ℤ)) (i : ℕ) (goodshift : List ℤ) :
    Option (List ℤ) :=
  if i ≤ m - 2 then
    match suffixes[i]?.join with
    | none => none
    | some s =>
      match writeAt goodshift (m - 1 - s) (m - 1 - i) with
      | none => none
      | some goodshift => innerLoop m suffixes (i + 1) goodshift
  else some goodshift
termination_by (m - 1 - i).toNat

/-- For every place of a mismatch, how far the pattern can move. -/
def computeGoodshifts (x : List Byte) : Option (List ℤ) :=
  let m : ℤ := x.length
  match computeSuffixes x with
  | none => none
  | some suffixes =>
    match borderLoop m suffixes x.length 0 (List.replicate x.length m) with
    | none => none
    | some goodshift => innerLoop m suffixes 0 goodshift

structure BMData where
  x : List Byte
  badshift : List ℤ
  goodshift : List ℤ

/-- A pattern of one byte has no tables. -/
def createBmdata (x : List Byte) : Option BMData :=
  if 1 < x.length then (computeGoodshifts x).map fun goodshift => ⟨x, computeBadshifts x, goodshift⟩
  else some ⟨x, [], []⟩

/-! ## Budgets -/

def wordSize : ℕ := 2 ^ 64

def mcLoopFactor : ℕ := 8

/-- `reds -= n` -/
def charge (reds : Option ℕ) (n : ℕ) : Option ℕ :=
  reds.map fun r => (r + (wordSize - n % wordSize)) % wordSize

/-- `MIN(mem_read, 1 + (reds - 1) * MC_LOOP_FACTOR)` -/
def affordable (reds : Option ℕ) (memRead : ℕ) : ℕ :=
  match reds with
  | none => memRead
  | some r => min memRead ((1 + (r + (wordSize - 1)) * mcLoopFactor) % wordSize)

/-! ## Search -/

/-- The first place of a byte among `n` bytes. -/
def memchr (haystack : List Byte) (pos : ℕ) (c : Byte) (n : ℕ) : Option ℕ :=
  (((haystack.drop pos).take n).findIdx? (· = c)).map (pos + ·)

/-- `for (i = needle_last; i >= 0 && needle[i] == haystack[i + j]; --i)`, with `i + 1` as
counter: the place of the mismatch, or none. -/
def compareBack (needle haystack : List Byte) (j : ℕ) : ℕ → Option ℕ
  | 0 => none
  | i + 1 => if needle[i]? = haystack[i + j]? then compareBack needle haystack j i else some i

/-- `MAX(gs[i], bs[haystack[i + j]] - blen + 1 + i)` -/
def shift (bmd : BMData) (haystack : List Byte) (i j : ℕ) : Option ℤ :=
  match bmd.goodshift[i]?, haystack[i + j]? with
  | some gs, some c =>
    bmd.badshift[c.toNat]?.map fun bs => max gs (bs - bmd.x.length + 1 + i)
  | _, _ => none

/-- Where `memchr` finds the last byte of the pattern, and the reductions left.  Nothing where
there is no room for the pattern. -/
def skipTo (bmd : BMData) (haystack : List Byte) (len : ℕ) (reds : Option ℕ) (j : ℕ) :
    Option (Option ℕ × ℕ) :=
  let needleLast := bmd.x.length - 1
  if len ≤ needleLast + j then none
  else
    let memRead := affordable reds (len - needleLast - j)
    match bmd.x[needleLast]?.bind fun c => memchr haystack (j + needleLast) c memRead with
    | none => some (charge reds (memRead / mcLoopFactor), j + memRead)
    | some pos => some (charge reds ((pos - j) / mcLoopFactor), pos - needleLast)

inductive FirstResult
  | restart (pos : ℕ)
  | notFound
  | ok (match_ : Span)
deriving DecidableEq

/-- One turn after the other, as many as there is fuel. -/
def findFirstLoop (bmd : BMData) (haystack : List Byte) (len : ℕ) :
    ℕ → Option ℕ → ℕ → Option FirstResult
  | 0, _, _ => none
  | fuel + 1, reds, j =>
    if j + bmd.x.length > len then some .notFound
    else if charge reds 1 = some 0 then some (.restart j)
    else
      match compareBack bmd.x haystack j bmd.x.length with
      | none => some (.ok ⟨j, bmd.x.length⟩)
      | some i =>
        match shift bmd haystack i j with
        | none => none
        | some s => findFirstLoop bmd haystack len fuel (charge reds 1) (j + s).toNat

/-- A turn moves the pattern to the right, so there are no more turns than places. -/
def bmFindFirstMatch (bmd : BMData) (haystack : List Byte) (pos len : ℕ) (reds : Option ℕ) :
    Option FirstResult :=
  match skipTo bmd haystack len reds pos with
  | none => some .notFound
  | some (reds, j) => findFirstLoop bmd haystack len (len + 1) reds j

inductive AllResult
  | restart (pos : ℕ) (out : List Span)
  | notFound
  | ok (out : List Span)
deriving DecidableEq

/-- The end of the search: is anything found? -/
def allDone (out : List Span) : AllResult :=
  if out = [] then .notFound else .ok out

/-- Here `memchr` is used on start and on every match (`i` is none). -/
def findAllLoop (bmd : BMData) (haystack : List Byte) (len : ℕ) :
    ℕ → Option ℕ → Option ℕ → ℕ → List Span → Option AllResult
  | 0, _, _, _, _ => none
  | fuel + 1, i, reds, j, out =>
    match (if i = none then skipTo bmd haystack len reds j else some (reds, j)) with
    | none => some (allDone out)
    | some (reds, j) =>
      if j + bmd.x.length > len then some (allDone out)
      else if charge reds 1 = some 0 then some (.restart j out)
      else
        match compareBack bmd.x haystack j bmd.x.length with
        | none =>
          findAllLoop bmd haystack len fuel none (charge reds 1) (j + bmd.x.length)
            (out ++ [⟨j, bmd.x.length⟩])
        | some i =>
          match shift bmd haystack i j with
          | none => none
          | some s =>
            findAllLoop bmd haystack len fuel (some i) (charge reds 1) (j + s).toNat out

def bmFindAllNonOverlapping (bmd : BMData) (haystack : List Byte) (pos len : ℕ)
    (out : List Span) (reds : Option ℕ) : Option AllResult :=
  findAllLoop bmd haystack len (len + 1) none reds pos out

end Otp.Erts.BinarySearch
