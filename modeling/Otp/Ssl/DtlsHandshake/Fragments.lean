import Mathlib

/-!
# Handshake fragments in DTLS

`dtls_handshake.erl` takes the handshake fragments out of a record, puts those of the
next handshake message together and keeps those of later messages for when their turn
comes.  A complete message is decoded and returned with its bytes.

What a message means is not modelled: `decodeHandshake` stands for
`decode_handshake/2` at the negotiated version, and may raise.
-/

namespace Otp.Ssl.DtlsHandshake

abbrev Bytes := List UInt8

structure Alert where
  level : ℕ
  description : ℕ
  reason : String
deriving DecidableEq

def fatal : ℕ := 2

def decodeErrorDescription : ℕ := 50

def malformedHandshakeFragment : Alert :=
  ⟨fatal, decodeErrorDescription, "malformed_handshake_fragment"⟩

/-- How the functions below raise: an error of the run-time system, or an alert thrown. -/
inductive Raised
  | error
  | thrown (alert : Alert)
deriving DecidableEq

structure HandshakeFragment where
  type : UInt8
  length : ℕ
  messageSeq : ℕ
  fragmentOffset : ℕ
  fragmentLength : ℕ
  fragment : Bytes
deriving DecidableEq

/-! ## Big-endian integers -/

def uint16 (n : ℕ) : Bytes := [UInt8.ofNat (n / 2 ^ 8), UInt8.ofNat n]

def uint24 (n : ℕ) : Bytes :=
  [UInt8.ofNat (n / 2 ^ 16), UInt8.ofNat (n / 2 ^ 8), UInt8.ofNat n]

def ofUint16 (b1 b0 : UInt8) : ℕ := b1.toNat * 2 ^ 8 + b0.toNat

def ofUint24 (b2 b1 b0 : UInt8) : ℕ := b2.toNat * 2 ^ 16 + b1.toNat * 2 ^ 8 + b0.toNat

/-! ## Merging two fragments -/

/-- Two fragments become one, or there is a gap between them. -/
inductive Merge
  | one (fragment : HandshakeFragment)
  | gap (previous current : HandshakeFragment)
deriving DecidableEq

def mergeFragments (previous current : HandshakeFragment) : Except Raised Merge :=
  let previousOffset := previous.fragmentOffset
  let previousLen := previous.fragmentLength
  let currentOffset := current.fragmentOffset
  let currentLen := current.fragmentLength
  -- duplicate
  if previousOffset = currentOffset ∧ previousLen = currentLen ∧
      previous.fragment = current.fragment then
    .ok (.one previous)
  -- fully contained fragment
  else if previousOffset ≤ currentOffset ∧ currentOffset ≤ previousOffset + previousLen ∧
      currentOffset + currentLen ≤ previousOffset + previousLen then
    .ok (.one previous)
  -- fully overlapping fragments
  else if currentOffset ≤ previousOffset ∧
      currentOffset + currentLen ≥ previousOffset + previousLen then
    .ok (.one current)
  -- overlapping fragments, the current one first
  else if currentOffset < previousOffset ∧
      currentOffset + currentLen < previousOffset + previousLen then
    let newDataLen := previousOffset - currentOffset
    if newDataLen ≤ current.fragment.length then
      .ok (.one { previous with
        fragmentLength := previousLen + newDataLen
        fragment := current.fragment.take newDataLen ++ previous.fragment })
    else .error .error
  -- overlapping fragments, the previous one first
  else if currentOffset > previousOffset ∧ currentOffset < previousOffset + previousLen then
    let newDataLen := currentOffset + currentLen - (previousOffset + previousLen)
    let dropLen := currentLen - newDataLen
    if dropLen ≤ current.fragment.length then
      .ok (.one { previous with
        fragmentLength := previousLen + newDataLen
        fragment := previous.fragment ++ current.fragment.drop dropLen })
    else .error .error
  -- adjacent fragments
  else if currentOffset = previousOffset + previousLen then
    .ok (.one { previous with
      fragmentLength := previousLen + currentLen
      fragment := previous.fragment ++ current.fragment })
  else if previousOffset = currentOffset + currentLen then
    .ok (.one { previous with
      fragmentLength := previousLen + currentLen
      fragment := current.fragment ++ previous.fragment })
  else .ok (.gap previous current)

/-- Merges the first fragment with those after it, up to the first gap. -/
def mergeFragment (frag0 : HandshakeFragment) :
    List HandshakeFragment → Except Raised (List HandshakeFragment)
  | [] => .ok [frag0]
  | frag1 :: rest => do
    match ← mergeFragments frag0 frag1 with
    | .gap previous current => .ok (previous :: current :: rest)
    | .one frag => mergeFragment frag rest

/-! ## Reassembly of one message -/

def isCompleteHandshake (fragment : HandshakeFragment) : Bool :=
  fragment.length = fragment.fragmentLength

/-- The bytes of a whole message. -/
def handshakeBin (type : UInt8) (length seq : ℕ) (fragmentData : Bytes) : Bytes :=
  type :: uint24 length ++ uint16 seq ++ uint24 0 ++ uint24 length ++ fragmentData.take length

/-- `handshake_bin/1` takes a fragment that is a whole message. -/
def handshakeBinOf (f : HandshakeFragment) : Except Raised Bytes :=
  if f.fragmentLength = f.length ∧ f.fragmentOffset = 0 ∧ f.length ≤ f.fragment.length then
    .ok (handshakeBin f.type f.length f.messageSeq f.fragment)
  else .error .error

inductive Reassembled
  | moreData (fragments : List HandshakeFragment)
  | raw (handshake : Bytes)
deriving DecidableEq

/-- `lists:keysort/2` on the offset; the sort is stable. -/
def sortByOffset (fragments : List HandshakeFragment) : List HandshakeFragment :=
  fragments.insertionSort fun f g => f.fragmentOffset ≤ g.fragmentOffset

def reassembleFragments (current : HandshakeFragment) (fragments0 : List HandshakeFragment) :
    Except Raised Reassembled :=
  match sortByOffset (current :: fragments0) with
  | [] => .error .error
  | frag1 :: frags => do
    match ← mergeFragment frag1 frags with
    | [] => .error .error
    | fragment :: rest =>
      if isCompleteHandshake fragment then .ok (.raw (← handshakeBinOf fragment))
      else .ok (.moreData (fragment :: rest))

/-! ## The next message and the later ones -/

/-- Takes the fragments of the message `seq` off the front. -/
def splitFrags (seq : ℕ) :
    List HandshakeFragment → List HandshakeFragment →
      List HandshakeFragment × List HandshakeFragment
  | frag :: rest, acc =>
    if frag.messageSeq = seq then splitFrags seq rest (frag :: acc)
    else (acc.reverse, frag :: rest)
  | [], acc => (acc.reverse, [])

/-- `lists:keysort/2` on the message number. -/
def sortBySeq (fragments : List HandshakeFragment) : List HandshakeFragment :=
  fragments.insertionSort fun f g => f.messageSeq ≤ g.messageSeq

/-- The fragments of the first message among the later ones, and the rest. -/
def nextFragments (laterFragments : List HandshakeFragment) :
    List HandshakeFragment × List HandshakeFragment :=
  match sortBySeq laterFragments with
  | [] => ([], [])
  | frag :: fragments => splitFrags frag.messageSeq (frag :: fragments) []

structure ProtocolBuffers where
  dtlsHandshakeNextSeq : ℕ
  /-- Fragments of the next handshake message. -/
  dtlsHandshakeNextFragments : List HandshakeFragment
  /-- Fragments of handshake messages that come after the one in the next buffer. -/
  dtlsHandshakeLaterFragments : List HandshakeFragment
deriving DecidableEq

section

variable {H : Type} (decodeHandshake : Bytes → Except Raised H)

/-- Takes one fragment in; returns a message, if it completes the next one. -/
def reassemble (fragment : HandshakeFragment) (buffers0 : ProtocolBuffers) :
    Except Raised (Option (H × Bytes) × ProtocolBuffers) :=
  if fragment.messageSeq = buffers0.dtlsHandshakeNextSeq then do
    match ← reassembleFragments fragment buffers0.dtlsHandshakeNextFragments with
    | .moreData fragments =>
      .ok (none, { buffers0 with dtlsHandshakeNextFragments := fragments })
    | .raw rawHandshake =>
      let handshake ← decodeHandshake rawHandshake
      let (next, later) := nextFragments buffers0.dtlsHandshakeLaterFragments
      .ok (some (handshake, rawHandshake),
        { buffers0 with
          dtlsHandshakeNextSeq := fragment.messageSeq + 1
          dtlsHandshakeNextFragments := next
          dtlsHandshakeLaterFragments := later })
  else if fragment.messageSeq > buffers0.dtlsHandshakeNextSeq then
    .ok (none, { buffers0 with
      dtlsHandshakeLaterFragments := fragment :: buffers0.dtlsHandshakeLaterFragments })
  else
    -- disregard fragments of messages returned before
    .ok (none, buffers0)

def doHandleFragments : List HandshakeFragment → ProtocolBuffers → List (H × Bytes) →
    Except Alert (List (H × Bytes) × ProtocolBuffers)
  | [], buffers, acc => .ok (acc.reverse, buffers)
  | fragment :: fragments, buffers0, acc =>
    match reassemble decodeHandshake fragment buffers0 with
    | .ok (none, buffers) => doHandleFragments fragments buffers acc
    | .ok (some packet, buffers) => doHandleFragments fragments buffers (packet :: acc)
    | .error .error => .error malformedHandshakeFragment
    | .error (.thrown alert) => .error alert

/-! ## Fragments on the wire -/

def decodeHandshakeFragments (bytes : Bytes) : Except Raised (List HandshakeFragment) :=
  match bytes with
  | [] => .ok []
  | t :: l2 :: l1 :: l0 :: s1 :: s0 :: o2 :: o1 :: o0 :: f2 :: f1 :: f0 :: rest =>
    let fragmentLength := ofUint24 f2 f1 f0
    if fragmentLength ≤ rest.length then do
      let fragments ← decodeHandshakeFragments (rest.drop fragmentLength)
      .ok (⟨t, ofUint24 l2 l1 l0, ofUint16 s1 s0, ofUint24 o2 o1 o0, fragmentLength,
        rest.take fragmentLength⟩ :: fragments)
    else .error .error
  | _ => .error .error
termination_by bytes.length
decreasing_by simp only [List.length_cons, List.length_drop]; omega

/-- Given buffered and new data, collects and returns it as a list of handshake messages,
also returns possible leftover data in the new buffers. -/
def getDtlsHandshake (fragment : Bytes) (buffers : ProtocolBuffers) :
    Except Alert (List (H × Bytes) × ProtocolBuffers) :=
  match decodeHandshakeFragments fragment with
  | .ok fragments => doHandleFragments decodeHandshake fragments buffers []
  | .error _ => .error malformedHandshakeFragment

end

end Otp.Ssl.DtlsHandshake
