import Otp.Ssl.DtlsHandshake.Delivery

/-!
# Cutting a message up and putting it together

The sender cuts a message into fragments of a given size.  The receiver reports the message
with the first fragment after which all its bytes have come, whatever the fragments are.
-/

namespace Otp.Ssl.DtlsHandshake

open List

/-! ## The sender -/

/-- What `encode_handshake/3` returns, as the list it is. -/
structure EncodedHandshake where
  msgType : UInt8
  len : Bytes
  seq : Bytes
  fragmentOffset : Bytes
  fragmentLen : Bytes
  bin : Bytes

/-- `encode_handshake/3` for a message encoded to `msgType` and `bin`. -/
def encodeHandshake (msgType : UInt8) (bin : Bytes) (seq : ℕ) : EncodedHandshake :=
  ⟨msgType, uint24 bin.length, uint16 seq, uint24 0, uint24 bin.length, bin⟩

def binFragments (bin : Bytes) (binSize : ℕ) (fragSize : ℤ) (offset : ℕ)
    (fragments : List (Bytes × ℕ)) : Option (List (Bytes × ℕ)) :=
  if (binSize : ℤ) - offset - fragSize > 0 then
    if 0 < fragSize then
      let frag := (bin.drop offset).take fragSize.toNat
      binFragments bin binSize fragSize (offset + fragSize.toNat) ((frag, offset) :: fragments)
    else none -- for a negative size `binary:part/2` raises, and for `0` there is no end
  else
    let frag := (bin.drop offset).take (binSize - offset)
    some ((frag, offset) :: fragments).reverse
termination_by binSize - offset

def handshakeFragments (msgType : UInt8) (seq len : Bytes) :
    List (Bytes × ℕ) → List Bytes → List Bytes
  | [], acc => acc.reverse
  | (bin, offset) :: bins, acc =>
    handshakeFragments msgType seq len bins
      ((msgType :: len ++ seq ++ uint24 offset ++ uint24 bin.length ++ bin) :: acc)

/-- `fragment_handshake/2` for a handshake message.  Its other clause leaves a
change_cipher_spec, which is no handshake message, as it is. -/
def fragmentHandshake (h : EncodedHandshake) (size : ℤ) : Option (List Bytes) :=
  if h.len = h.fragmentLen then
    (binFragments h.bin h.bin.length (size - 26) 0 []).map fun bins =>
      handshakeFragments h.msgType h.seq h.len bins []
  else none

/-! ## The receiver -/

/-- One more fragment, as long as the message has not been returned. -/
def feedStep : Reassembled → HandshakeFragment → Except Raised Reassembled
  | .moreData kept, f => reassembleFragments f kept
  | .raw handshake, _ => .ok (.raw handshake)

/-- The report after the fragments have come one by one. -/
def feed (frags : List HandshakeFragment) : Except Raised Reassembled :=
  frags.foldlM feedStep (.moreData [])

variable {m : Message} {frags : List HandshakeFragment}

theorem feed_concat (frags : List HandshakeFragment) (f : HandshakeFragment) :
    feed (frags ++ [f]) = (feed frags).bind fun r => feedStep r f := by
  simp only [feed, foldlM_append, foldlM_cons, foldlM_nil, bind_pure]
  rfl

theorem Covered.concat (h : Covered m frags) (f : HandshakeFragment) :
    Covered m (frags ++ [f]) := fun i hi =>
  let ⟨g, hg, hbyte⟩ := h i hi
  ⟨g, mem_append_left _ hg, hbyte⟩

/-- What is kept has the bytes of all fragments that came, and is not the message yet. -/
theorem feed_pieces (hall : ∀ f ∈ frags, IsPiece m f) :
    (frags ≠ [] ∧ Covered m frags ∧ feed frags = .ok (.raw m.raw)) ∨
      ((frags = [] ∨ ¬ Covered m frags) ∧ ∃ kept, feed frags = .ok (.moreData kept) ∧
        (∀ f ∈ kept, IsPiece m f) ∧ ∀ i, Received kept i ↔ Received frags i) := by
  induction frags using List.reverseRecOn with
  | nil => exact .inr ⟨.inl rfl, [], rfl, by simp, fun i => .rfl⟩
  | append_singleton frags f ih =>
    rw [feed_concat]
    have hf := hall f (mem_append_right _ mem_cons_self)
    rcases ih fun g hg => hall g (mem_append_left _ hg) with
      ⟨-, hcov, hrun⟩ | ⟨-, kept, hrun, hkept, hiff⟩
    · exact .inl ⟨by simp, hcov.concat f, by rw [hrun]; rfl⟩
    · have hbytes : ∀ i, Received (f :: kept) i ↔ Received (frags ++ [f]) i := fun i => by
        rw [received_cons, hiff]
        simp [Received, or_and_right, exists_or, or_comm]
      have hcov : Covered m (f :: kept) ↔ Covered m (frags ++ [f]) :=
        forall₂_congr fun i _ => hbytes i
      rw [hrun]
      rcases reassembleFragments_pieces hf hkept with
        ⟨hnot, frags', hstep, hall', hiff'⟩ | ⟨hc, hstep⟩
      · exact .inr ⟨.inr (hcov.not.1 hnot), frags', hstep, hall', fun i =>
          (hiff' i).trans (hbytes i)⟩
      · exact .inl ⟨by simp, hcov.1 hc, hstep⟩

/-! ## The fragments of the sender -/

/-- The body is cut into intervals that leave out no byte from the offset on. -/
theorem binFragments_spec (bin : Bytes) {fragSize : ℤ} (hsize : 0 < fragSize) {offset : ℕ}
    (hoff : offset ≤ bin.length) (fragments : List (Bytes × ℕ)) :
    ∃ cuts : List (ℕ × ℕ), cuts ≠ [] ∧ binFragments bin bin.length fragSize offset fragments =
        some (fragments.reverse ++ cuts.map fun c => ((bin.drop c.1).take c.2, c.1)) ∧
      (∀ c ∈ cuts, c.1 + c.2 ≤ bin.length) ∧
      ∀ i, offset ≤ i → i < bin.length → ∃ c ∈ cuts, c.1 ≤ i ∧ i < c.1 + c.2 := by
  rw [binFragments]
  split
  · next hmore =>
    obtain ⟨cuts, -, hrun, hin, hcover⟩ := binFragments_spec bin hsize
      (show offset + fragSize.toNat ≤ bin.length by omega)
      (((bin.drop offset).take fragSize.toNat, offset) :: fragments)
    refine ⟨(offset, fragSize.toNat) :: cuts, by simp, ?_, ?_, fun i hle hi => ?_⟩
    · rw [hrun]
      simp
    · exact forall_mem_cons.2 ⟨by show offset + fragSize.toNat ≤ _; omega, hin⟩
    · by_cases hcut : i < offset + fragSize.toNat
      · exact ⟨_, mem_cons_self, hle, hcut⟩
      · obtain ⟨c, hc, hbyte⟩ := hcover i (by omega) hi
        exact ⟨c, mem_cons_of_mem _ hc, hbyte⟩
  · refine ⟨[(offset, bin.length - offset)], by simp, by simp, ?_, fun i hle hi => ?_⟩
    · simp only [mem_singleton, forall_eq]
      omega
    · exact ⟨_, mem_cons_self, hle, by show i < offset + (bin.length - offset); omega⟩
termination_by bin.length - offset

theorem handshakeFragments_eq (msgType : UInt8) (seq len : Bytes) (bins : List (Bytes × ℕ))
    (acc : List Bytes) : handshakeFragments msgType seq len bins acc = acc.reverse ++
      bins.map fun b => msgType :: len ++ seq ++ uint24 b.2 ++ uint24 b.1.length ++ b.1 := by
  induction bins generalizing acc with
  | nil => simp [handshakeFragments]
  | cons b bins ih => simp [handshakeFragments, ih]

/-- The sender's fragments are pieces that cover the message. -/
theorem fragmentHandshake_pieces (m : Message) {size : ℤ} (hsize : 26 < size) :
    ∃ frags, fragmentHandshake (encodeHandshake m.type m.body m.seq) size =
        some (frags.map encodeFragment) ∧
      frags ≠ [] ∧ (∀ f ∈ frags, IsPiece m f) ∧ Covered m frags := by
  obtain ⟨cuts, hne, hrun, hin, hcover⟩ :=
    binFragments_spec m.body (show 0 < size - 26 by omega) (Nat.zero_le _) []
  refine ⟨cuts.map fun c => piece m c.1 c.2, ?_, by simpa using hne, ?_, fun i hi => ?_⟩
  · simp only [fragmentHandshake, encodeHandshake, if_true, hrun, Option.map_some,
      handshakeFragments_eq, reverse_nil, nil_append, map_map]
    refine congrArg some (map_congr_left fun c hc => ?_)
    have hlen : min c.2 (m.body.length - c.1) = c.2 := by
      have := hin c hc
      omega
    simp [encodeFragment, piece, hlen]
  · intro f hf
    obtain ⟨c, hc, rfl⟩ := mem_map.1 hf
    exact ⟨c.1, c.2, hin c hc, rfl⟩
  · obtain ⟨c, hc, hbyte⟩ := hcover i (Nat.zero_le i) hi
    exact ⟨_, mem_map_of_mem hc, hbyte⟩

/-- The message is returned, with its body, with the first fragment after which all bytes of
the body have come, and not before; and what the sender makes of it for any size above that
of the headers decodes to fragments that are put together again, in any order. -/
theorem reassembly_exact (m : Message) (frags : List HandshakeFragment)
    (hall : ∀ f ∈ frags, IsPiece m f) :
    (feed frags = .ok (.raw m.raw) ↔ frags ≠ [] ∧ Covered m frags) ∧
      (¬ (frags ≠ [] ∧ Covered m frags) → ∃ kept, feed frags = .ok (.moreData kept)) ∧
      m.raw.drop 12 = m.body ∧
      (m.seq < 2 ^ 16 → m.body.length < 2 ^ 24 → ∀ size : ℤ, 26 < size →
        ∃ records sent, fragmentHandshake (encodeHandshake m.type m.body m.seq) size =
          some records ∧
          records.map decodeHandshakeFragments = sent.map (fun f => .ok [f]) ∧
          ∀ received, received.Perm sent → feed received = .ok (.raw m.raw)) := by
  refine ⟨?_, fun hnot => ?_, by simp [Message.raw, handshakeBin, uint24, uint16],
    fun hseq hlen size hsize => ?_⟩
  · rcases feed_pieces hall with ⟨hne, hcov, hrun⟩ | ⟨hnot, kept, hrun, -⟩
    · simp [hne, hcov, hrun]
    · have : ¬ (frags ≠ [] ∧ Covered m frags) := by tauto
      simp [hrun, this]
  · rcases feed_pieces hall with ⟨hne, hcov, -⟩ | ⟨-, kept, hrun, -⟩
    · exact absurd ⟨hne, hcov⟩ hnot
    · exact ⟨kept, hrun⟩
  · obtain ⟨sent, hrun, hne, hpieces, hcov⟩ := fragmentHandshake_pieces m hsize
    refine ⟨_, sent, hrun, ?_, fun received hperm => ?_⟩
    · let flight : Flight := ⟨m.seq, [m], by simp [getElem?_singleton], by simpa using ⟨hseq, hlen⟩⟩
      rw [map_map]
      refine map_congr_left fun f hf => ?_
      have hgen : ∀ g ∈ [f], flight.Genuine g := by
        simpa [flight, Flight.Genuine] using hpieces f hf
      simpa [encodeRecord] using decode_encodeRecord hgen
    · have hcov' : Covered m received := by
        intro i hi
        obtain ⟨f, hf, hbyte⟩ := hcov i hi
        exact ⟨f, hperm.mem_iff.2 hf, hbyte⟩
      rcases feed_pieces fun f hf => hpieces f (hperm.mem_iff.1 hf) with ⟨-, -, hfeed⟩ | ⟨hnot, -⟩
      · exact hfeed
      · rcases hnot with rfl | hnot
        · exact absurd hperm.nil_eq.symm hne
        · exact absurd hcov' hnot

/-- Nested and overlapping fragments of a message, the last byte first. -/
theorem reassembly_exact_overlapping :
    let m : Message := ⟨11, 1, [7, 8, 9]⟩
    feed [piece m 2 1, piece m 0 1] ≠ .ok (.raw m.raw) ∧
      feed [piece m 2 1, piece m 0 1, piece m 0 2] = .ok (.raw m.raw) := by
  intro m
  have hpieces : ∀ f ∈ [piece m 2 1, piece m 0 1, piece m 0 2], IsPiece m f := by
    simp only [forall_mem_cons]
    exact ⟨⟨2, 1, by decide, rfl⟩, ⟨0, 1, by decide, rfl⟩, ⟨0, 2, by decide, rfl⟩, by simp⟩
  constructor
  · intro hrun
    obtain ⟨-, hcov⟩ := (reassembly_exact m [piece m 2 1, piece m 0 1]
      fun f hf => hpieces f (by simp at hf ⊢; tauto)).1.1 hrun
    have := hcov 1 (by decide)
    simp [Received, piece] at this
  · refine (reassembly_exact m _ hpieces).1.2 ⟨by simp, fun i hi => ?_⟩
    have hi : i < 3 := hi
    simp only [Received, piece, mem_cons, exists_eq_or_imp]
    omega

end Otp.Ssl.DtlsHandshake
