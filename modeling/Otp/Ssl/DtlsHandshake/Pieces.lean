import Otp.Ssl.DtlsHandshake.Fragments

/-!
# Pieces of one message

A piece of a message carries the bytes of an interval of its body.  Two pieces that
overlap or touch merge into the piece of the union, so what reassembly keeps are pieces
of the message again, with the same bytes, and it returns the message as soon as these
are all of them (`reassembleFragments_pieces`).
-/

namespace Otp.Ssl.DtlsHandshake

open List

structure Message where
  type : UInt8
  seq : ℕ
  body : Bytes
deriving DecidableEq

/-- The bytes of a message as they are returned. -/
def Message.raw (m : Message) : Bytes := handshakeBin m.type m.body.length m.seq m.body

/-- The fragment of `len` bytes from `offset` on. -/
def piece (m : Message) (offset len : ℕ) : HandshakeFragment :=
  ⟨m.type, m.body.length, m.seq, offset, len, (m.body.drop offset).take len⟩

def IsPiece (m : Message) (f : HandshakeFragment) : Prop :=
  ∃ offset len, offset + len ≤ m.body.length ∧ f = piece m offset len

variable {m : Message} {frags : List HandshakeFragment} {f : HandshakeFragment} {off : ℕ}

theorem IsPiece.messageSeq_eq (h : IsPiece m f) : f.messageSeq = m.seq := by
  obtain ⟨_, _, _, rfl⟩ := h
  rfl

theorem take_drop_append (body : Bytes) (offset len k : ℕ) :
    (body.drop offset).take len ++ (body.drop (offset + len)).take k =
      (body.drop offset).take (len + k) := by
  rw [take_add, drop_drop]

/-- Pieces that touch or overlap merge into the piece of their union; others stay apart. -/
theorem mergeFragments_piece (m : Message) {len off' len' : ℕ} (hin' : off' + len' ≤ m.body.length)
    (hle : off ≤ off') :
    mergeFragments (piece m off len) (piece m off' len') =
      if off' ≤ off + len then .ok (.one (piece m off (max len (off' + len' - off))))
      else .ok (.gap (piece m off len) (piece m off' len')) := by
  dsimp only [mergeFragments, piece]
  have hnot4 : ¬ (off' < off ∧ off' + len' < off + len) := by omega
  by_cases htouch : off' ≤ off + len
  · rw [if_pos htouch]
    by_cases hinside : off' + len' ≤ off + len
    · have hmax : max len (off' + len' - off) = len := by omega
      have hin2 : off ≤ off' ∧ off' ≤ off + len ∧ off' + len' ≤ off + len :=
        ⟨hle, htouch, hinside⟩
      rw [hmax, if_pos hin2, ite_self]
    · have hnot2 : ¬ (off ≤ off' ∧ off' ≤ off + len ∧ off' + len' ≤ off + len) := by omega
      have hmax : max len (off' + len' - off) = len + (off' + len' - (off + len)) := by omega
      have hnot1 : ¬ (off = off' ∧ len = len' ∧
          (m.body.drop off).take len = (m.body.drop off').take len') := by omega
      rw [hmax, if_neg hnot1, if_neg hnot2]
      by_cases hsame : off' = off
      · subst hsame
        rw [if_pos (by omega), show len + (off' + len' - (off' + len)) = len' by omega]
      · rw [if_neg (by omega), if_neg hnot4]
        by_cases hover : off' < off + len
        · -- the bytes of the second piece that the first does not have
          have hdrop : len' - (off' + len' - (off + len)) ≤
              ((m.body.drop off').take len').length := by
            rw [length_take, length_drop]
            omega
          rw [if_pos (by omega), if_pos hdrop, drop_take, drop_drop,
            show off' + (len' - (off' + len' - (off + len))) = off + len by omega,
            take_drop_append, show len' - (len' - (off' + len' - (off + len))) =
              off' + len' - (off + len) by omega]
        · obtain rfl : off' = off + len := by omega
          rw [if_neg (by omega), if_pos rfl, take_drop_append,
            show off + len + len' - (off + len) = len' by omega]
  · rw [if_neg htouch, if_neg (by omega), if_neg (by omega), if_neg (by omega), if_neg hnot4,
      if_neg (by omega), if_neg (by omega), if_neg (by omega)]

/-- Some fragment has the byte `i` of the body. -/
def Received (frags : List HandshakeFragment) (i : ℕ) : Prop :=
  ∃ f ∈ frags, f.fragmentOffset ≤ i ∧ i < f.fragmentOffset + f.fragmentLength

/-- The fragments have all bytes of the message. -/
def Covered (m : Message) (frags : List HandshakeFragment) : Prop :=
  ∀ i < m.body.length, Received frags i

theorem received_cons {i : ℕ} : Received (f :: frags) i ↔
    (f.fragmentOffset ≤ i ∧ i < f.fragmentOffset + f.fragmentLength) ∨ Received frags i := by
  simp [Received]

/-- Merging pieces in the order of their offsets gives pieces with the same bytes, the first
of them apart from the others. -/
theorem mergeFragment_pieces {len : ℕ} (hin : off + len ≤ m.body.length)
    (hall : ∀ f ∈ frags, IsPiece m f)
    (hsorted : (piece m off len :: frags).Pairwise fun f g => f.fragmentOffset ≤ g.fragmentOffset) :
    ∃ len' rest, mergeFragment (piece m off len) frags = .ok (piece m off len' :: rest) ∧
      off + len' ≤ m.body.length ∧ (∀ f ∈ rest, IsPiece m f ∧ off + len' < f.fragmentOffset) ∧
      ∀ i, Received (piece m off len' :: rest) i ↔ Received (piece m off len :: frags) i := by
  induction frags generalizing len with
  | nil => exact ⟨len, [], rfl, hin, by simp, fun i => .rfl⟩
  | cons frag1 frags ih =>
    obtain ⟨h1, hrest⟩ := forall_mem_cons.1 hall
    obtain ⟨hhead, htail⟩ := pairwise_cons.1 hsorted
    obtain ⟨off', len', hin', rfl⟩ := h1
    have hle : off ≤ off' := hhead _ mem_cons_self
    rw [mergeFragment, mergeFragments_piece m hin' hle]
    split
    · -- the merged piece starts where the first one does
      obtain ⟨k, rest, hrun, hk, hapart, hiff⟩ := ih
        (show off + max len (off' + len' - off) ≤ _ by omega) hrest
        (pairwise_cons.2 ⟨fun f hf => hhead f (mem_cons_of_mem _ hf), (pairwise_cons.1 htail).2⟩)
      refine ⟨k, rest, hrun, hk, hapart, fun i => ?_⟩
      rw [hiff, received_cons, received_cons, received_cons, ← or_assoc]
      refine or_congr_left ?_
      simp only [piece]
      omega
    · next hgap =>
      refine ⟨len, _, rfl, hin, fun f hf => ⟨hall f hf, ?_⟩, fun i => .rfl⟩
      have hmin : off' ≤ f.fragmentOffset := by
        rcases mem_cons.1 hf with rfl | hf
        · exact le_rfl
        · exact (pairwise_cons.1 htail).1 f hf
      omega

theorem sortByOffset_perm (frags : List HandshakeFragment) : (sortByOffset frags).Perm frags :=
  perm_insertionSort _ _

theorem sortByOffset_sorted (frags : List HandshakeFragment) :
    (sortByOffset frags).Pairwise fun f g => f.fragmentOffset ≤ g.fragmentOffset := by
  exact pairwise_insertionSort _ _

/-- Reassembly of pieces returns the message if they cover it, and otherwise keeps pieces
with the same bytes. -/
theorem reassembleFragments_pieces {current : HandshakeFragment} (hc : IsPiece m current)
    (hall : ∀ f ∈ frags, IsPiece m f) :
    (¬ Covered m (current :: frags) ∧
        ∃ frags', reassembleFragments current frags = .ok (.moreData frags') ∧
          (∀ f ∈ frags', IsPiece m f) ∧ ∀ i, Received frags' i ↔ Received (current :: frags) i) ∨
      (Covered m (current :: frags) ∧ reassembleFragments current frags = .ok (.raw m.raw)) := by
  have hperm := sortByOffset_perm (current :: frags)
  have hpieces : ∀ f ∈ sortByOffset (current :: frags), IsPiece m f := fun f hf =>
    forall_mem_cons.2 ⟨hc, hall⟩ f (hperm.mem_iff.1 hf)
  have hsorted := sortByOffset_sorted (current :: frags)
  have hsame : ∀ i, Received (sortByOffset (current :: frags)) i ↔ Received (current :: frags) i :=
    fun i => exists_congr fun f => and_congr_left fun _ => hperm.mem_iff
  rw [reassembleFragments]
  cases hs : sortByOffset (current :: frags) with
  | nil => simp [hs] at hperm
  | cons frag1 frags1 =>
    rw [hs] at hpieces hsorted hsame
    obtain ⟨⟨off, len, hin, rfl⟩, hrest⟩ := forall_mem_cons.1 hpieces
    obtain ⟨len', rest, hmerge, hin', hapart, hiff⟩ := mergeFragment_pieces hin hrest hsorted
    have hbytes : ∀ i, Received (piece m off len' :: rest) i ↔ Received (current :: frags) i :=
      fun i => (hiff i).trans (hsame i)
    -- neither the byte before the first piece nor the one after it is in the others
    have hout : ∀ i ≤ off + len', ¬ Received rest i := by
      rintro i hi ⟨f, hf, hle, -⟩
      have := (hapart f hf).2
      omega
    simp only [hmerge, bind, Except.bind]
    split
    · next hcomplete =>
      have hlen : m.body.length = len' := of_decide_eq_true hcomplete
      obtain rfl : off = 0 := by omega
      subst hlen
      refine .inr ⟨fun i hi => (hbytes i).1 (received_cons.2 (.inl ⟨Nat.zero_le i, ?_⟩)), ?_⟩
      · simpa [piece] using hi
      · simp [handshakeBinOf, piece, Message.raw]
    · next hcomplete =>
      refine .inl ⟨fun hcov => hcomplete (decide_eq_true ?_), _, rfl,
        forall_mem_cons.2 ⟨⟨off, len', hin', rfl⟩, fun f hf => (hapart f hf).1⟩, hbytes⟩
      have hfirst : ∀ i < m.body.length, i ≤ off + len' → off ≤ i ∧ i < off + len' :=
        fun i hi hle => (received_cons.1 ((hbytes i).2 (hcov i hi))).resolve_right (hout i hle)
      show m.body.length = len'
      have hzero := hfirst 0
      have hlast := hfirst (off + len')
      omega

end Otp.Ssl.DtlsHandshake
