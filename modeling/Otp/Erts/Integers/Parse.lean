import Otp.Lib.Positional

/-!
# Reading integers

`binary_to_integer/2` and `list_to_integer/2` (`erlang.erl`) first call a function of
the run-time system (`big.c`), which reads integers that fit in one word.  For longer
ones it answers `big`; then the digits are cut into segments of one word each, the
segments are read by the same function, and the results are combined in pairs.
-/

namespace Otp.Erts.Integers

/-! ## The machine -/

/-- The size of a word in bytes. -/
inductive WordSize
  | four
  | eight
deriving DecidableEq

namespace WordSize

def bits : WordSize → ℕ
  | four => 32
  | eight => 64

def smallBits : WordSize → ℕ
  | four => 28
  | eight => 60

def bigArityMax : WordSize → ℕ
  | four => 2 ^ 17 - 1
  | eight => 2 ^ 16 - 1

end WordSize

def minSmall (ws : WordSize) : ℤ := -2 ^ (ws.smallBits - 1)

def maxSmall (ws : WordSize) : ℤ := 2 ^ (ws.smallBits - 1) - 1

def isSmall (ws : WordSize) (n : ℤ) : Bool := decide (minSmall ws ≤ n ∧ n ≤ maxSmall ws)

/-- An unsigned word. -/
def uint (ws : WordSize) (n : ℕ) : ℕ := n % 2 ^ ws.bits

/-- An unsigned word read as a signed one. -/
def sint (ws : WordSize) (n : ℕ) : ℤ := Int.bmod n (2 ^ ws.bits)

/-- The integer held by the immediate term made from a signed word. -/
def makeSmall (ws : WordSize) (n : ℤ) : ℤ := Int.bmod n (2 ^ ws.smallBits)

inductive Reason
  | badarg
  | systemLimit
deriving DecidableEq

/-- The largest integer has `bigArityMax` words. -/
def limit (ws : WordSize) : ℕ := 2 ^ (ws.bits * ws.bigArityMax)

/-- The result of an arithmetic operation. -/
def checked (ws : WordSize) (n : ℤ) : Except Reason ℤ :=
  if n.natAbs < limit ws then .ok n else .error .systemLimit

variable {ws : WordSize}

theorem checked_cases (ws : WordSize) (n : ℤ) :
    checked ws n = .ok n ∨ checked ws n = .error .systemLimit := by
  rw [checked]
  split
  · exact .inl rfl
  · exact .inr rfl

/-! ## Characters -/

def isValidChar (ch : UInt8) (base : ℕ) : Bool :=
  if base ≤ 10 then decide (48 ≤ ch.toNat ∧ ch.toNat < 48 + base)
  else decide ((48 ≤ ch.toNat ∧ ch.toNat ≤ 57) ∨
    (65 ≤ ch.toNat ∧ ch.toNat < 65 + base - 10) ∨
    (97 ≤ ch.toNat ∧ ch.toNat < 97 + base - 10))

def digitFromBase (ch : UInt8) : ℕ :=
  if ch.toNat ≤ 57 then ch.toNat - 48
  else 10 + if ch.toNat ≤ 90 then ch.toNat - 65 else ch.toNat - 97

def minus : UInt8 := 45

def plus : UInt8 := 43

def zero : UInt8 := 48

/-- How many digits fit into a small integer, by base from 2 to 36. -/
def digitsPerSmallLookup : WordSize → List ℕ
  | .four =>
    [27, 17, 13, 11, 10, 9, 9, 8, 8, 7, 7, 7, 7, 6, 6, 6, 6, 6, 6, 6, 6, 5, 5, 5,
      5, 5, 5, 5, 5, 5, 5, 5, 5, 5, 5]
  | .eight =>
    [59, 37, 29, 25, 22, 21, 19, 18, 17, 17, 16, 15, 15, 15, 14, 14, 14, 13, 13,
      13, 13, 13, 12, 12, 12, 12, 12, 12, 12, 11, 11, 11, 11, 11, 11]

def getDigitsPerSmall (ws : WordSize) (base : ℕ) : ℕ := (digitsPerSmallLookup ws).getD (base - 2) 0

/-! ## Reading from bytes in the run-time system -/

/-- What `erts_internal:binary_to_integer/2` answers. -/
inductive Answer
  | int (n : ℤ)
  | big
  | badarg
deriving DecidableEq

/-- The digits of a base up to ten. -/
def readLow (ws : WordSize) (base : ℕ) : List UInt8 → ℕ → Option ℕ
  | [], i => some i
  | b :: bytes, i =>
    let digit := uint ws (b.toNat + 2 ^ ws.bits - 48)
    if digit ≥ base then none else readLow ws base bytes (uint ws (i * base + digit))

def readHigh (ws : WordSize) (base : ℕ) : List UInt8 → ℕ → Option ℕ
  | [], i => some i
  | b :: bytes, i =>
    if isValidChar b base then readHigh ws base bytes (uint ws (i * base + digitFromBase b))
    else none

def skipZeroes : List UInt8 → List UInt8
  | [] => []
  | b :: bytes => if b = zero then skipZeroes bytes else b :: bytes

/-- The sign is cut off; is it a minus? -/
def readSign (bytes : List UInt8) : Bool × List UInt8 :=
  match bytes with
  | [] => (false, [])
  | b :: rest =>
    if b = minus then (true, rest) else if b = plus then (false, rest) else (false, bytes)

def charsToInteger (ws : WordSize) (bytes : List UInt8) (base : ℕ) : Answer :=
  let (neg, digits) := readSign bytes
  if digits = [] then .badarg
  else
    match skipZeroes digits with
    | [] => .int (makeSmall ws 0)
    | bytes =>
      if bytes.length > getDigitsPerSmall ws base then .big
      else
        match if base ≤ 10 then readLow ws base bytes 0 else readHigh ws base bytes 0 with
        | none => .badarg
        | some i => .int (makeSmall ws (if neg then -sint ws i else sint ws i))

def ertsInternalBinaryToInteger (ws : WordSize) (bytes : List UInt8) (base : ℕ) : Answer :=
  if base < 2 ∨ base > 36 then .badarg else charsToInteger ws bytes base

/-! ## Long digit strings -/

def getSign (bin : List UInt8) : List UInt8 × ℤ :=
  match bin with
  | [] => ([], 1)
  | b :: rest => if b = minus then (rest, -1) else if b = plus then (rest, 1) else (bin, 1)

def trimZeroes : List UInt8 → List UInt8
  | [] => []
  | b :: bin => if b = zero then trimZeroes bin else b :: bin

def digitsPerSmall (ws : WordSize) (base : ℕ) : ℕ :=
  let t := match ws with
    | .four =>
      [27, 17, 13, 11, 10, 9, 9, 8,
       8, 7, 7, 7, 7, 6, 6, 6, 6,
       6, 6, 6, 6, 5, 5, 5, 5, 5,
       5, 5, 5, 5, 5, 5, 5, 5, 5]
    | .eight =>
      [59, 37, 29, 25, 22, 21, 19, 18, 17,
       17, 16, 15, 15, 15, 14, 14, 14, 13,
       13, 13, 13, 13, 12, 12, 12, 12, 12,
       12, 12, 11, 11, 11, 11, 11, 11]
  t.getD (base - 1 - 1) 0

def radix (ws : WordSize) (base : ℕ) : ℕ :=
  let t := match ws with
    | .four =>
      [134217728, 129140163, 67108864, 48828125, 60466176,
       40353607, 134217728, 43046721, 100000000, 19487171,
       35831808, 62748517, 105413504, 11390625, 16777216,
       24137569, 34012224, 47045881, 64000000, 85766121,
       113379904, 6436343, 7962624, 9765625, 11881376,
       14348907, 17210368, 20511149, 24300000, 28629151,
       33554432, 39135393, 45435424, 52521875, 60466176]
    | .eight =>
      [576460752303423488, 450283905890997363,
       288230376151711744, 298023223876953125,
       131621703842267136, 558545864083284007,
       144115188075855872, 150094635296999121,
       100000000000000000, 505447028499293771,
       184884258895036416, 51185893014090757,
       155568095557812224, 437893890380859375,
       72057594037927936, 168377826559400929,
       374813367582081024, 42052983462257059,
       81920000000000000, 154472377739119461,
       282810057883082752, 504036361936467383,
       36520347436056576, 59604644775390625,
       95428956661682176, 150094635296999121,
       232218265089212416, 353814783205469041,
       531441000000000000, 25408476896404831,
       36028797018963968, 50542106513726817,
       70188843638032384, 96549157373046875,
       131621703842267136]
  t.getD (base - 1 - 1) 0

/-- Segments of `logRadix` bytes; a shorter rest matches no clause. -/
def segmentize1 (ws : WordSize) (logRadix base : ℕ) (bin : List UInt8) (acc : List ℤ) :
    Except Reason (List ℤ) :=
  if bin = [] then .ok acc
  else if 0 < logRadix ∧ logRadix ≤ bin.length then
    match ertsInternalBinaryToInteger ws (bin.take logRadix) base with
    | .int n => segmentize1 ws logRadix base (bin.drop logRadix) (n :: acc)
    | _ => .error .badarg
  else .error .badarg
termination_by bin.length
decreasing_by simp only [List.length_drop]; omega

/-- The first segment takes what is left over, so that the others are full. -/
def segmentize (ws : WordSize) (bin : List UInt8) (size base logRadix : ℕ) :
    Except Reason (List ℤ) :=
  let numFirst := size % logRadix
  if numFirst = 0 then segmentize1 ws logRadix base bin []
  else
    match ertsInternalBinaryToInteger ws (bin.take numFirst) base with
    | .int first => segmentize1 ws logRadix base (bin.drop numFirst) [first]
    | _ => .error .badarg

def combinePairs (ws : WordSize) (radix : ℤ) : List ℤ → Except Reason (List ℤ)
  | a :: b :: pairs => do
    let product ← checked ws (b * radix)
    let sum ← checked ws (product + a)
    .ok (sum :: (← combinePairs ws radix pairs))
  | l => .ok l

/-- Where nothing is too large, the result is that of exact arithmetic. -/
theorem combinePairs_cases (ws : WordSize) (radix : ℤ) (l : List ℤ) :
    combinePairs ws radix l = .ok (Lib.Positional.pairs radix l) ∨
      combinePairs ws radix l = .error .systemLimit := by
  induction l using Lib.Positional.pairs.induct with
  | case1 a b pairs ih =>
    rw [combinePairs, Lib.Positional.pairs]
    rcases checked_cases ws (b * radix) with hproduct | hproduct
    · rcases checked_cases ws (b * radix + a) with hsum | hsum
      · rcases ih with hrest | hrest <;> simp [bind, Except.bind, hproduct, hsum, hrest]
      · simp [bind, Except.bind, hproduct, hsum]
    · simp [bind, Except.bind, hproduct]
  | case2 l hl =>
    rcases l with _ | ⟨a, _ | ⟨b, pairs⟩⟩
    · exact .inl rfl
    · exact .inl rfl
    · exact absurd rfl (hl a b pairs)

theorem combinePairs_ok {radix : ℤ} {l l' : List ℤ} (h : combinePairs ws radix l = .ok l') :
    l' = Lib.Positional.pairs radix l := by
  rcases combinePairs_cases ws radix l with heq | heq
  · exact Except.ok.inj (h.symm.trans heq)
  · cases h.symm.trans heq

/-- The least significant segment comes first. -/
def combine (ws : WordSize) (l : List ℤ) (radix : ℤ) : Except Reason ℤ :=
  match _h : combinePairs ws radix l with
  | .error e => .error e
  | .ok [result] => .ok result
  | .ok [] => .error .badarg
  | .ok (a :: b :: l') => do
    combine ws (a :: b :: l') (← checked ws (radix * radix))
termination_by l.length
decreasing_by
  have hlen := congrArg List.length (combinePairs_ok _h)
  rw [Lib.Positional.length_pairs] at hlen
  simp only [List.length_cons] at hlen ⊢
  omega

def bigBinaryToInt (ws : WordSize) (bin0 : List UInt8) (base : ℕ) : Except Reason ℤ := do
  let (bin1, sign) := getSign bin0
  let bin := trimZeroes bin1
  let size := bin.length
  if size > 4194304 then
    -- too large even for base 2
    .error .systemLimit
  else if size > 1262611 ∧ base ≥ 10 then .error .systemLimit
  else
    let segments ← segmentize ws bin size base (digitsPerSmall ws base)
    checked ws (sign * (← combine ws segments (radix ws base)))

def binaryToInteger (ws : WordSize) (binary : List UInt8) (base : ℕ) : Except Reason ℤ :=
  match ertsInternalBinaryToInteger ws binary base with
  | .int n => .ok n
  | .big => bigBinaryToInt ws binary base
  | .badarg => .error .badarg

/-! ## Reading from a list -/

/-- What `erts_internal:list_to_integer/2` answers; an integer comes with the rest of
the list. -/
inductive ListAnswer
  | int (n : ℤ) (rest : List ℤ)
  | big
  | noInteger
  | badarg
deriving DecidableEq

/-- The character of an element is its lowest byte. -/
def lowByte (n : ℤ) : UInt8 := UInt8.ofNat (n % 256).toNat

/-- Skips zero digits and counts them; `none` if a character follows that is no digit. -/
def skipZeroDigits (ws : WordSize) (base : ℕ) : List ℤ → ℕ → List ℤ × ℕ × Bool
  | [], n => ([], n, true)
  | x :: list, n =>
    if !isSmall ws x then (x :: list, n, true)
    else if lowByte x ≠ zero then (x :: list, n, isValidChar (lowByte x) base)
    else skipZeroDigits ws base list (n + 1)

/-- Reads at most one digit more than a small integer holds. -/
def readDigits (ws : WordSize) (base : ℕ) : List ℤ → ℕ → ℕ → ℕ × ℕ × List ℤ
  | [], ui, n => (ui, n, [])
  | x :: list, ui, n =>
    if n ≤ getDigitsPerSmall ws base ∧ isSmall ws x ∧ isValidChar (lowByte x) base then
      readDigits ws base list (uint ws (ui * base + digitFromBase (lowByte x))) (n + 1)
    else (ui, n, x :: list)

def ertsInternalListToInteger (ws : WordSize) (string : List ℤ) (base : ℕ) : ListAnswer :=
  match string with
  | [] => .noInteger
  | x :: rest =>
    if base < 2 ∨ base > 36 then .badarg
    else
      let (neg, list) :=
        if x = 45 then (true, rest) else if x = 43 then (false, rest) else (false, string)
      let (list, n, valid) := skipZeroDigits ws base list 0
      if !valid ∨ list = [] then
        if n = 0 then .noInteger else .int (makeSmall ws 0) list
      else
        let (ui, n, list) := readDigits ws base list 0 0
        if n = 0 then .noInteger
        else if n > getDigitsPerSmall ws base then .big
        else .int (makeSmall ws (if neg then -sint ws ui else sint ws ui)) list

/-- `list_to_binary/1` on a list of integers. -/
def listToBinary (string : List ℤ) : Except Reason (List UInt8) :=
  if ∀ x ∈ string, 0 ≤ x ∧ x ≤ 255 then .ok (string.map lowByte) else .error .badarg

def listToInteger (ws : WordSize) (string : List ℤ) (base : ℕ) : Except Reason ℤ :=
  match ertsInternalListToInteger ws string base with
  | .int n [] => .ok n
  | .big => do
    let binary ← listToBinary string
    bigBinaryToInt ws binary base
  | _ => .error .badarg

end Otp.Erts.Integers
