import Otp.Ssl.DtlsHandshake.Pieces

/-!
# Delivery of a flight of messages

The fragments of consecutive messages arrive in any order, some of them more than once
and some never.  When a message is returned, the fragments of the first message kept for
later become those of the next one, whether that is the message awaited then or one
after it.  In the second case the fragments of the message awaited are put together with
those of another message.

`deliver_in_order_iff` says for which orders of arrival, by the numbers of the messages, that
cannot happen; then the messages returned are a prefix of those sent.  For all other orders there
are messages, and fragments of them, that are returned wrongly.
-/

namespace Otp.Ssl.DtlsHandshake

open List

/-! ## Messages sent and fragments received -/

/-- Consecutive messages, of the sizes that the fields of a fragment allow. -/
structure Flight where
  start : ℕ
  messages : List Message
  numbered : ∀ k m, messages[k]? = some m → m.seq = start + k
  sized : ∀ m ∈ messages, m.seq < 2 ^ 16 ∧ m.body.length < 2 ^ 24

theorem drop_of_getElem? {α : Type*} {l : List α} {k : ℕ} {x : α} (h : l[k]? = some x) :
    l.drop k = x :: l.drop (k + 1) := by
  obtain ⟨hlt, rfl⟩ := List.getElem?_eq_some_iff.1 h
  exact drop_eq_getElem_cons hlt

/-- A fragment of one of the messages. -/
def Flight.Genuine (flight : Flight) (f : HandshakeFragment) : Prop :=
  ∃ m ∈ flight.messages, IsPiece m f

def encodeFragment (f : HandshakeFragment) : Bytes :=
  f.type :: uint24 f.length ++ uint16 f.messageSeq ++ uint24 f.fragmentOffset ++
    uint24 f.fragmentLength ++ f.fragment

/-- The contents of a record with the given fragments. -/
def encodeRecord (fragments : List HandshakeFragment) : Bytes := fragments.flatMap encodeFragment

/-- The buffers of a connection that awaits the message `seq`. -/
def emptyBuffers (seq : ℕ) : ProtocolBuffers := ⟨seq, [], []⟩

section

variable {H : Type} (decodeHandshake : Bytes → Except Raised H)

/-- The messages that successive calls return, up to the first alert. -/
def returned : ProtocolBuffers → List Bytes → List (H × Bytes)
  | _, [] => []
  | buffers, record :: records =>
    match getDtlsHandshake decodeHandshake record buffers with
    | .ok (packets, buffers') => packets ++ returned buffers' records
    | .error _ => []

/-- One fragment taken in: the buffers before, and the message it completes. -/
structure Step (H : Type) where
  before : ProtocolBuffers
  fragment : HandshakeFragment
  reply : Option (H × Bytes)

/-- The fragments taken in, up to the first one that raises. -/
def trace : ProtocolBuffers → List HandshakeFragment → List (Step H)
  | _, [] => []
  | buffers, f :: fs =>
    match reassemble decodeHandshake f buffers with
    | .ok (reply, buffers') => ⟨buffers, f, reply⟩ :: trace buffers' fs
    | .error _ => [⟨buffers, f, none⟩]

end

variable {H : Type} {frags seen fs : List HandshakeFragment} {flight : Flight} {m : Message}
  {k n : ℕ} {f : HandshakeFragment} {b b' : ProtocolBuffers}

/-- A fragment of the message awaited is put together with fragments of that message only. -/
def Step.Unmixed (s : Step H) : Prop :=
  s.fragment.messageSeq = s.before.dtlsHandshakeNextSeq →
    ∀ g ∈ s.before.dtlsHandshakeNextFragments, g.messageSeq = s.fragment.messageSeq

/-- Fragments of messages with these numbers arrive, after others with the numbers `seen`. If a
fragment may complete the message awaited, as all messages before have had a fragment in turn, and a
message after the next one has shown up, then the next one has as well or does not afterwards. -/
def InStep (start : ℕ) (seen : List ℕ) : List ℕ → Prop
  | [] => True
  | n :: after =>
    (range' start (n - start) <+ seen → (∃ g ∈ seen, n + 1 < g) → n + 1 ∈ seen ∨ n + 1 ∉ after) ∧
      InStep start (seen ++ [n]) after

instance decidableInStep (start : ℕ) (seen : List ℕ) :
    (numbers : List ℕ) → Decidable (InStep start seen numbers)
  | [] => isTrue trivial
  | n :: after =>
    have := decidableInStep start (seen ++ [n]) after
    inferInstanceAs (Decidable (_ ∧ _))

/-- Records with fragments of the messages of a flight, which have these numbers in the order of
arrival. -/
structure Arrival (start : ℕ) (numbers : List ℕ) where
  flight : Flight
  records : List (List HandshakeFragment)
  start_eq : flight.start = start
  genuine : ∀ record ∈ records, ∀ f ∈ record, flight.Genuine f
  numbers_eq : records.flatten.map HandshakeFragment.messageSeq = numbers

/-- The messages returned are the first ones sent, with the bytes sent. -/
def InOrder (decodeHandshake : Bytes → Except Raised H) (flight : Flight)
    (packets : List (H × Bytes)) : Prop :=
  packets.map Prod.snd <+: flight.messages.map Message.raw ∧
    ∀ p ∈ packets, decodeHandshake p.2 = .ok p.1

/-! ## Promotion of later fragments -/

theorem sortBySeq_perm (frags : List HandshakeFragment) : (sortBySeq frags).Perm frags :=
  perm_insertionSort _ _

theorem sortBySeq_sorted (frags : List HandshakeFragment) :
    (sortBySeq frags).Pairwise fun f g => f.messageSeq ≤ g.messageSeq := by
  exact pairwise_insertionSort _ _

theorem mem_splitFrags {seq : ℕ} (acc : List HandshakeFragment)
    (hmin : ∀ f ∈ frags, seq ≤ f.messageSeq)
    (hsorted : frags.Pairwise fun f g => f.messageSeq ≤ g.messageSeq) :
    (∀ g, g ∈ (splitFrags seq frags acc).1 ↔ g ∈ acc ∨ (g ∈ frags ∧ g.messageSeq = seq)) ∧
      ∀ g, g ∈ (splitFrags seq frags acc).2 ↔ g ∈ frags ∧ seq < g.messageSeq := by
  induction frags generalizing acc with
  | nil => simp [splitFrags]
  | cons f frags ih =>
    obtain ⟨hf, hmin'⟩ := forall_mem_cons.1 hmin
    obtain ⟨hhead, hsorted'⟩ := pairwise_cons.1 hsorted
    rw [splitFrags]
    by_cases heq : f.messageSeq = seq
    · rw [if_pos heq]
      obtain ⟨h1, h2⟩ := ih (f :: acc) hmin' hsorted'
      refine ⟨fun g => ?_, fun g => ?_⟩
      · rw [h1, mem_cons, mem_cons]
        constructor
        · rintro ((rfl | hg) | ⟨hg, hs⟩)
          · exact .inr ⟨.inl rfl, heq⟩
          · exact .inl hg
          · exact .inr ⟨.inr hg, hs⟩
        · rintro (hg | ⟨rfl | hg, hs⟩)
          · exact .inl (.inr hg)
          · exact .inl (.inl rfl)
          · exact .inr ⟨hg, hs⟩
      · rw [h2, mem_cons]
        constructor
        · rintro ⟨hg, hs⟩
          exact ⟨.inr hg, hs⟩
        · rintro ⟨rfl | hg, hs⟩
          · omega
          · exact ⟨hg, hs⟩
    · -- the rest is sorted, so it has no fragment of the message
      rw [if_neg heq]
      have hlarge : ∀ g ∈ f :: frags, seq < g.messageSeq := by
        refine forall_mem_cons.2 ⟨by omega, fun g hg => ?_⟩
        have := hhead g hg
        omega
      refine ⟨fun g => ?_, fun g => ?_⟩
      · rw [mem_reverse]
        exact (or_iff_left_of_imp fun ⟨hg, hs⟩ => absurd hs (hlarge g hg).ne').symm
      · exact ⟨fun hg => ⟨hg, hlarge g hg⟩, And.left⟩

/-- The fragments promoted are those of the first later message. -/
theorem nextFragments_spec (later : List HandshakeFragment) :
    (later = [] ∧ nextFragments later = ([], [])) ∨
      ∃ first ∈ later, (∀ g ∈ later, first.messageSeq ≤ g.messageSeq) ∧
        (∀ g, g ∈ (nextFragments later).1 ↔ g ∈ later ∧ g.messageSeq = first.messageSeq) ∧
        ∀ g, g ∈ (nextFragments later).2 ↔ g ∈ later ∧ first.messageSeq < g.messageSeq := by
  have hperm := sortBySeq_perm later
  have hsorted := sortBySeq_sorted later
  rw [nextFragments]
  cases hs : sortBySeq later with
  | nil =>
    rw [hs] at hperm
    exact .inl ⟨hperm.nil_eq.symm, rfl⟩
  | cons first frags =>
    rw [hs] at hperm hsorted
    have hmin : ∀ g ∈ first :: frags, first.messageSeq ≤ g.messageSeq :=
      forall_mem_cons.2 ⟨le_rfl, (pairwise_cons.1 hsorted).1⟩
    obtain ⟨h1, h2⟩ := mem_splitFrags [] hmin hsorted
    refine .inr ⟨first, hperm.mem_iff.1 mem_cons_self,
      fun g hg => hmin g (hperm.mem_iff.2 hg), fun g => ?_, fun g => ?_⟩
    · rw [h1, ← hperm.mem_iff]
      simp
    · rw [h2, ← hperm.mem_iff]

/-! ## States of a connection -/

theorem Flight.getElem?_of_seq (hm : m ∈ flight.messages) (hk : m.seq = flight.start + k) :
    flight.messages[k]? = some m := by
  obtain ⟨i, hi⟩ := mem_iff_getElem?.1 hm
  have hseq := flight.numbered i m hi
  obtain rfl : i = k := by omega
  exact hi

/-- The first `k` messages have been returned, and the buffers hold fragments of the message
awaited and all that came of later ones. -/
structure OnTrack (flight : Flight) (seen : List HandshakeFragment) (k : ℕ)
    (b : ProtocolBuffers) : Prop where
  nextSeq : b.dtlsHandshakeNextSeq = flight.start + k
  genuine : ∀ g ∈ seen, flight.Genuine g
  next : ∀ g ∈ b.dtlsHandshakeNextFragments,
    flight.Genuine g ∧ g.messageSeq = b.dtlsHandshakeNextSeq
  later : ∀ g, g ∈ b.dtlsHandshakeLaterFragments ↔
    g ∈ seen ∧ b.dtlsHandshakeNextSeq < g.messageSeq

/-- Fragments of a message after the one awaited have been promoted. -/
structure Ahead (b : ProtocolBuffers) : Prop where
  nonempty : b.dtlsHandshakeNextFragments ≠ []
  later : ∀ g ∈ b.dtlsHandshakeNextFragments, b.dtlsHandshakeNextSeq < g.messageSeq

theorem Flight.Genuine.isPiece (h : flight.Genuine f) (hf : f.messageSeq = flight.start + k)
    (hm : flight.messages[k]? = some m) : IsPiece m f := by
  obtain ⟨m', hm', hp⟩ := h
  have hk := Flight.getElem?_of_seq hm' (hp.messageSeq_eq ▸ hf)
  rw [hm] at hk
  cases hk
  exact hp

namespace OnTrack

variable {flight : Flight} {seen : List HandshakeFragment} {k : ℕ} {b : ProtocolBuffers}

theorem init (flight : Flight) : OnTrack flight [] 0 (emptyBuffers flight.start) where
  nextSeq := rfl
  genuine := by simp
  next := by simp [emptyBuffers]
  later := by simp [emptyBuffers]

variable (h : OnTrack flight seen k b) (hf : flight.Genuine f)

include h hf

/-- A fragment of a later message is kept. -/
theorem keep (hgt : b.dtlsHandshakeNextSeq < f.messageSeq) :
    OnTrack flight (f :: seen) k
      { b with dtlsHandshakeLaterFragments := f :: b.dtlsHandshakeLaterFragments } where
  nextSeq := h.nextSeq
  genuine := forall_mem_cons.2 ⟨hf, h.genuine⟩
  next := h.next
  later g := by
    simp only [mem_cons, h.later]
    constructor
    · rintro (rfl | ⟨hg, hs⟩)
      · exact ⟨.inl rfl, hgt⟩
      · exact ⟨.inr hg, hs⟩
    · rintro ⟨rfl | hg, hs⟩
      · exact .inl rfl
      · exact .inr ⟨hg, hs⟩

/-- Other fragments change what is kept for later not at all. -/
theorem ignore (hle : f.messageSeq ≤ b.dtlsHandshakeNextSeq)
    (hnext : ∀ g ∈ frags, flight.Genuine g ∧ g.messageSeq = b.dtlsHandshakeNextSeq) :
    OnTrack flight (f :: seen) k { b with dtlsHandshakeNextFragments := frags } where
  nextSeq := h.nextSeq
  genuine := forall_mem_cons.2 ⟨hf, h.genuine⟩
  next := hnext
  later g := by
    simp only [h.later, mem_cons]
    constructor
    · rintro ⟨hg, hs⟩
      exact ⟨.inr hg, hs⟩
    · rintro ⟨rfl | hg, hs⟩
      · omega
      · exact ⟨hg, hs⟩

/-- When a message is returned, the connection stays on track if no message after the next
one has shown up, or the next one has as well; otherwise it runs ahead. -/
theorem promote (heq : f.messageSeq = b.dtlsHandshakeNextSeq) :
    let b' : ProtocolBuffers := ⟨f.messageSeq + 1,
      (nextFragments b.dtlsHandshakeLaterFragments).1,
      (nextFragments b.dtlsHandshakeLaterFragments).2⟩
    (OnTrack flight (f :: seen) (k + 1) b' ∧ ((∃ g ∈ seen, f.messageSeq + 1 < g.messageSeq) →
          ∃ g ∈ seen, g.messageSeq = f.messageSeq + 1)) ∨
      (Ahead b' ∧ (∃ g ∈ seen, f.messageSeq + 1 < g.messageSeq) ∧
        ¬ ∃ g ∈ seen, g.messageSeq = f.messageSeq + 1) := by
  intro b'
  have hseen : ∀ g ∈ f :: seen, flight.Genuine g := forall_mem_cons.2 ⟨hf, h.genuine⟩
  have hseq : b'.dtlsHandshakeNextSeq = flight.start + (k + 1) := by
    have hk := h.nextSeq
    show f.messageSeq + 1 = _
    omega
  -- what is after the next message among all fragments seen
  have hafter : ∀ g, (g ∈ f :: seen ∧ f.messageSeq + 1 < g.messageSeq) ↔
      g ∈ b.dtlsHandshakeLaterFragments ∧ f.messageSeq + 1 < g.messageSeq := by
    intro g
    rw [h.later, mem_cons]
    constructor
    · rintro ⟨rfl | hg, hs⟩
      · omega
      · exact ⟨⟨hg, by omega⟩, hs⟩
    · rintro ⟨⟨hg, -⟩, hs⟩
      exact ⟨.inr hg, hs⟩
  rcases nextFragments_spec b.dtlsHandshakeLaterFragments with
    ⟨hnone, hnext⟩ | ⟨first, hfirst, hmin, h1, h2⟩
  · refine .inl ⟨⟨hseq, hseen, ?_, fun g => ?_⟩, ?_⟩
    · simp [b', hnext]
    · have hg := hafter g
      rw [hnone] at hg
      rw [hg]
      simp [b', hnext]
    · rintro ⟨g, hg, hs⟩
      have := (hafter g).1 ⟨mem_cons_of_mem _ hg, hs⟩
      rw [hnone] at this
      simp at this
  · obtain ⟨hfs, hlt⟩ := (h.later first).1 hfirst
    by_cases hnext : first.messageSeq = f.messageSeq + 1
    · refine .inl ⟨⟨hseq, hseen, fun g hg => ?_, fun g => ?_⟩, fun _ => ⟨first, hfs, hnext⟩⟩
      · obtain ⟨hg, hs⟩ := (h1 g).1 hg
        exact ⟨h.genuine g ((h.later g).1 hg).1, hs.trans hnext⟩
      · rw [hafter]
        exact (h2 g).trans (by rw [hnext])
    · refine .inr ⟨⟨?_, fun g hg => ?_⟩, ⟨first, hfs, by omega⟩, ?_⟩
      · exact ne_nil_of_mem ((h1 first).2 ⟨hfirst, rfl⟩)
      · obtain ⟨-, hs⟩ := (h1 g).1 hg
        show f.messageSeq + 1 < g.messageSeq
        omega
      · rintro ⟨g, hg, hs⟩
        have := hmin g ((h.later g).2 ⟨hg, by omega⟩)
        omega

end OnTrack

/-! ## One fragment -/

variable {decodeHandshake : Bytes → Except Raised H} {p : H × Bytes} {reply : Option (H × Bytes)}

theorem OnTrack.unmixed (h : OnTrack flight seen k b) (f : HandshakeFragment)
    (reply : Option (H × Bytes)) : Step.Unmixed ⟨b, f, reply⟩ :=
  fun heq g hg => (h.next g hg).2.trans heq.symm

/-- On track a fragment is taken in, completes the message awaited, or raises. -/
theorem OnTrack.reassemble (decodeHandshake : Bytes → Except Raised H) (h : OnTrack flight seen k b)
    (hf : flight.Genuine f) :
    (∃ b', DtlsHandshake.reassemble decodeHandshake f b = .ok (none, b') ∧
        OnTrack flight (f :: seen) k b') ∨
      (f.messageSeq = b.dtlsHandshakeNextSeq ∧ ∃ m handshake, flight.messages[k]? = some m ∧
        decodeHandshake m.raw = .ok handshake ∧
        DtlsHandshake.reassemble decodeHandshake f b = .ok (some (handshake, m.raw),
          ⟨f.messageSeq + 1, (nextFragments b.dtlsHandshakeLaterFragments).1,
            (nextFragments b.dtlsHandshakeLaterFragments).2⟩)) ∨
      ∃ e, DtlsHandshake.reassemble decodeHandshake f b = .error e := by
  rw [DtlsHandshake.reassemble]
  by_cases heq : f.messageSeq = b.dtlsHandshakeNextSeq
  · obtain ⟨m, hm, hp⟩ := hf
    have hk := Flight.getElem?_of_seq hm (hp.messageSeq_eq.symm.trans (heq.trans h.nextSeq))
    have hnext : ∀ g ∈ b.dtlsHandshakeNextFragments, IsPiece m g := fun g hg =>
      (h.next g hg).1.isPiece ((h.next g hg).2.trans h.nextSeq) hk
    rw [if_pos heq]
    rcases reassembleFragments_pieces hp hnext with ⟨-, frags, hrun, hall, -⟩ | ⟨-, hrun⟩
    · refine .inl ⟨_, by rw [hrun]; rfl, h.ignore ⟨m, hm, hp⟩ heq.le fun g hg => ?_⟩
      refine ⟨⟨m, hm, hall g hg⟩, ?_⟩
      rw [(hall g hg).messageSeq_eq, ← hp.messageSeq_eq, heq]
    · rw [hrun]
      cases hd : decodeHandshake m.raw with
      | error e => exact .inr (.inr ⟨e, by simp only [bind, Except.bind, hd]⟩)
      | ok handshake =>
        refine .inr (.inl ⟨heq, m, handshake, hk, hd, ?_⟩)
        simp only [bind, Except.bind, hd]
  · rw [if_neg heq]
    by_cases hgt : f.messageSeq > b.dtlsHandshakeNextSeq
    · rw [if_pos hgt]
      exact .inl ⟨_, rfl, h.keep hf hgt⟩
    · rw [if_neg hgt]
      exact .inl ⟨b, rfl, h.ignore hf (by omega) h.next⟩

/-- Ahead of the message awaited only its fragments do harm. -/
theorem reassemble_other (decodeHandshake : Bytes → Except Raised H)
    (hne : f.messageSeq ≠ b.dtlsHandshakeNextSeq) :
    ∃ b', reassemble decodeHandshake f b = .ok (none, b') ∧
      b'.dtlsHandshakeNextFragments = b.dtlsHandshakeNextFragments ∧
      b'.dtlsHandshakeNextSeq = b.dtlsHandshakeNextSeq := by
  rw [reassemble, if_neg hne]
  split
  · exact ⟨_, rfl, rfl, rfl⟩
  · exact ⟨b, rfl, rfl, rfl⟩

/-! ## Whole runs -/

theorem trace_of_ok
    (h : reassemble decodeHandshake f b = .ok (reply, b')) (fs : List HandshakeFragment) :
    trace decodeHandshake b (f :: fs) = ⟨b, f, reply⟩ :: trace decodeHandshake b' fs := by
  rw [trace, h]

/-- As long as no fragment of the message awaited comes, nothing is put together or returned. -/
theorem trace_other (decodeHandshake : Bytes → Except Raised H)
    (hne : ∀ f ∈ fs, f.messageSeq ≠ b.dtlsHandshakeNextSeq) :
    ∀ s ∈ trace decodeHandshake b fs, s.Unmixed ∧ s.reply = none := by
  induction fs generalizing b with
  | nil => simp [trace]
  | cons f fs ih =>
    obtain ⟨hf, hfs⟩ := forall_mem_cons.1 hne
    obtain ⟨b', hrun, -, hseq⟩ := reassemble_other decodeHandshake hf
    rw [trace_of_ok hrun]
    exact forall_mem_cons.2 ⟨⟨fun heq => absurd heq hf, rfl⟩, ih (by rwa [hseq])⟩

/-- The messages returned in a run. -/
def replies (t : List (Step H)) : List (H × Bytes) := t.filterMap Step.reply

theorem replies_cons_some (b : ProtocolBuffers) (f : HandshakeFragment) (p : H × Bytes)
    (t : List (Step H)) : replies (⟨b, f, some p⟩ :: t) = p :: replies t := rfl

theorem replies_append (t t' : List (Step H)) : replies (t ++ t') = replies t ++ replies t' :=
  filterMap_append

/-- The numbers of the fragments that came, the first one first. -/
def numbersOf (seen : List HandshakeFragment) : List ℕ :=
  (seen.map HandshakeFragment.messageSeq).reverse

theorem numbersOf_cons (f : HandshakeFragment) (seen : List HandshakeFragment) :
    numbersOf (f :: seen) = numbersOf seen ++ [f.messageSeq] := by
  simp [numbersOf]

theorem mem_numbersOf : n ∈ numbersOf seen ↔ ∃ g ∈ seen, g.messageSeq = n := by
  simp [numbersOf]

/-- On track and in step fragments stay unmixed, and the messages returned are the ones that
follow. -/
theorem OnTrack.run (decodeHandshake : Bytes → Except Raised H) (h : OnTrack flight seen k b)
    (hfs : ∀ f ∈ fs, flight.Genuine f) (hchain : range' flight.start k <+ numbersOf seen)
    (hstep : InStep flight.start (numbersOf seen) (fs.map HandshakeFragment.messageSeq)) :
    (∀ s ∈ trace decodeHandshake b fs, s.Unmixed) ∧
      (replies (trace decodeHandshake b fs)).map Prod.snd <+:
        (flight.messages.drop k).map Message.raw := by
  induction fs generalizing b seen k with
  | nil => simp [trace, replies]
  | cons f fs ih =>
    obtain ⟨hf, hfs'⟩ := forall_mem_cons.1 hfs
    rw [map_cons, InStep, ← numbersOf_cons] at hstep
    have hchain' : range' flight.start k <+ numbersOf (f :: seen) := by
      rw [numbersOf_cons]
      exact hchain.trans (sublist_append_left _ _)
    rcases h.reassemble decodeHandshake hf with
      ⟨b', hrun, htrack⟩ | ⟨heq, m, handshake, hm, hd, hrun⟩ | ⟨e, hrun⟩
    · -- taken in without a reply
      rw [trace_of_ok hrun]
      obtain ⟨hun, hprefix⟩ := ih htrack hfs' hchain' hstep.2
      exact ⟨forall_mem_cons.2 ⟨h.unmixed f none, hun⟩, hprefix⟩
    · -- the message awaited is complete
      have hk : f.messageSeq = flight.start + k := heq.trans h.nextSeq
      rw [trace_of_ok hrun, replies_cons_some, forall_mem_cons, drop_of_getElem? hm, map_cons,
        map_cons, cons_prefix_cons]
      rcases h.promote hf heq with ⟨htrack, -⟩ | ⟨-, ⟨g, hg, hgt⟩, hnot⟩
      · obtain ⟨hun, hprefix⟩ := ih htrack hfs' (by
          rw [range'_1_concat, numbersOf_cons, hk]
          exact hchain.append_right _) hstep.2
        exact ⟨⟨h.unmixed f _, hun⟩, rfl, hprefix⟩
      · -- the next message does not come any more
        have hnone := (hstep.1 (by rwa [show f.messageSeq - flight.start = k by omega])
          ⟨_, mem_numbersOf.2 ⟨g, hg, rfl⟩, hgt⟩).resolve_left (mt mem_numbersOf.1 hnot)
        have hquiet : ∀ s ∈ trace decodeHandshake ⟨f.messageSeq + 1,
            (nextFragments b.dtlsHandshakeLaterFragments).1,
            (nextFragments b.dtlsHandshakeLaterFragments).2⟩ fs, s.Unmixed ∧ s.reply = none :=
          trace_other decodeHandshake fun g hg heq => hnone (mem_map.2 ⟨g, hg, heq⟩)
        refine ⟨⟨h.unmixed f _, fun s hs => (hquiet s hs).1⟩, rfl, ?_⟩
        have hnil : replies _ = [] := filterMap_eq_nil_iff.2 fun s hs => (hquiet s hs).2
        rw [hnil]
        exact nil_prefix
    · -- the step raises, and the run ends
      rw [trace, hrun]
      simp [h.unmixed, replies]

/-! ## Records -/

theorem ofUint16_uint16 (h : n < 2 ^ 16) :
    ofUint16 (UInt8.ofNat (n / 2 ^ 8)) (UInt8.ofNat n) = n := by
  simp only [ofUint16, UInt8.toNat_ofNat']
  omega

theorem ofUint24_uint24 (h : n < 2 ^ 24) :
    ofUint24 (UInt8.ofNat (n / 2 ^ 16)) (UInt8.ofNat (n / 2 ^ 8)) (UInt8.ofNat n) = n := by
  simp only [ofUint24, UInt8.toNat_ofNat']
  omega

/-- A record is decoded to the fragments put into it. -/
theorem decode_encodeRecord (hfs : ∀ f ∈ fs, flight.Genuine f) :
    decodeHandshakeFragments (encodeRecord fs) = .ok fs := by
  induction fs with
  | nil => rw [encodeRecord, flatMap_nil, decodeHandshakeFragments]
  | cons f fs ih =>
    obtain ⟨⟨m, hm, off, len, hin, rfl⟩, hfs'⟩ := forall_mem_cons.1 hfs
    obtain ⟨hseq, hlen⟩ := flight.sized m hm
    have hdata : ((m.body.drop off).take len).length = len := by
      rw [length_take, length_drop]
      omega
    have hrest := ih hfs'
    rw [encodeRecord] at hrest
    rw [encodeRecord, flatMap_cons, encodeFragment]
    simp only [piece, uint24, uint16, cons_append, nil_append]
    rw [decodeHandshakeFragments, ofUint24_uint24 hlen, ofUint16_uint16 hseq,
      ofUint24_uint24 (show off < 2 ^ 24 by omega), ofUint24_uint24 (show len < 2 ^ 24 by omega),
      if_pos (by rw [length_append]; omega), drop_left' hdata, hrest,
      take_left' hdata]
    rfl

/-- A call returns the messages completed by the fragments of its record. -/
theorem doHandleFragments_ok {acc packets : List (H × Bytes)}
    (h : doHandleFragments decodeHandshake fs b acc = .ok (packets, b')) :
    packets = acc.reverse ++ replies (trace decodeHandshake b fs) ∧
      ∀ gs, trace decodeHandshake b (fs ++ gs) =
        trace decodeHandshake b fs ++ trace decodeHandshake b' gs := by
  induction fs generalizing b acc with
  | nil =>
    cases h
    simp [trace, replies]
  | cons f fs ih =>
    rw [doHandleFragments] at h
    split at h
    · next b1 hrun =>
      obtain ⟨hp, ht⟩ := ih h
      rw [trace_of_ok hrun]
      refine ⟨hp, fun gs => ?_⟩
      rw [cons_append, trace_of_ok hrun, ht, cons_append]
    · next packet b1 hrun =>
      obtain ⟨hp, ht⟩ := ih h
      rw [trace_of_ok hrun, replies_cons_some]
      refine ⟨by rw [hp]; simp, fun gs => ?_⟩
      rw [cons_append, trace_of_ok hrun, ht, cons_append]
    · cases h
    · cases h

theorem returned_isPrefix {records : List (List HandshakeFragment)}
    (hgen : ∀ record ∈ records, ∀ f ∈ record, flight.Genuine f) (b : ProtocolBuffers) :
    returned decodeHandshake b (records.map encodeRecord) <+:
      replies (trace decodeHandshake b records.flatten) := by
  induction records generalizing b with
  | nil => exact nil_prefix
  | cons record records ih =>
    obtain ⟨hrecord, hrest⟩ := forall_mem_cons.1 hgen
    rw [map_cons, returned, getDtlsHandshake, decode_encodeRecord hrecord]
    split
    · next packets b' hrun =>
      obtain ⟨hp, ht⟩ := doHandleFragments_ok hrun
      rw [flatten_cons, ht, replies_append, hp, reverse_nil]
      exact (prefix_append_right_inj _).2 (ih hrest b')
    · exact nil_prefix

theorem decode_of_reply (h : reassemble decodeHandshake f b = .ok (some p, b')) :
    decodeHandshake p.2 = .ok p.1 := by
  rw [reassemble] at h
  split at h
  · cases hr : reassembleFragments f b.dtlsHandshakeNextFragments with
    | error e => simp [hr, bind, Except.bind] at h
    | ok r =>
      cases r with
      | moreData frags => simp [hr, bind, Except.bind] at h
      | raw bytes =>
        cases hd : decodeHandshake bytes with
        | error e => simp [hr, hd, bind, Except.bind] at h
        | ok handshake =>
          simp only [hr, hd, bind, Except.bind, Except.ok.injEq, Prod.mk.injEq,
            Option.some.injEq] at h
          obtain ⟨rfl, -⟩ := h
          exact hd
  · split at h <;> simp at h

theorem decode_of_mem_replies (h : p ∈ replies (trace decodeHandshake b fs)) :
    decodeHandshake p.2 = .ok p.1 := by
  induction fs generalizing b with
  | nil => simp [trace, replies] at h
  | cons f fs ih =>
    rw [trace] at h
    split at h
    · next reply b' hrun =>
      cases reply with
      | none => exact ih h
      | some q =>
        rw [replies_cons_some, mem_cons] at h
        rcases h with rfl | h
        · exact decode_of_reply hrun
        · exact ih h
    · simp [replies] at h

/-! ## Orders of arrival that are out of step -/

/-- A message with one byte. -/
def plain (n : ℕ) : Message := ⟨0, n, [0]⟩

/-- As many such messages as there are numbers. -/
def plainFlight (start : ℕ) : Flight where
  start := start
  messages := (range' start (2 ^ 16 - start)).map plain
  numbered k m h := by
    rw [getElem?_map, Option.map_eq_some_iff] at h
    obtain ⟨n, hn, rfl⟩ := h
    obtain ⟨-, rfl⟩ := List.getElem?_eq_some_iff.1 hn
    simp [plain]
  sized m hm := by
    obtain ⟨n, hn, rfl⟩ := mem_map.1 hm
    rw [mem_range'_1] at hn
    refine ⟨?_, by simp [plain]⟩
    show n < 2 ^ 16
    omega

/-- The message in one fragment if it is after the next one, and otherwise a fragment without any
bytes. -/
def fragmentFor (j n : ℕ) : HandshakeFragment := piece (plain n) 0 (if j + 1 < n then 1 else 0)

theorem plainFlight_getElem? {start : ℕ} (hk : start + k < 2 ^ 16) :
    (plainFlight start).messages[k]? = some (plain (start + k)) := by
  rw [plainFlight, getElem?_map, getElem?_range' (by omega), Nat.one_mul, Option.map_some]

theorem genuine_plain {start len : ℕ} (hn : start ≤ n ∧ n < 2 ^ 16) (hlen : len ≤ 1) :
    (plainFlight start).Genuine (piece (plain n) 0 len) := by
  refine ⟨plain n, mem_map_of_mem (mem_range'_1.2 (by omega)), 0, len, ?_, rfl⟩
  simpa [plain] using hlen

theorem genuine_fragmentFor {start j : ℕ} (hn : start ≤ n ∧ n < 2 ^ 16) :
    (plainFlight start).Genuine (fragmentFor j n) :=
  genuine_plain hn (by split_ifs <;> omega)

theorem plain_raw_inj {n' : ℕ} (hn : n < 2 ^ 16) (hn' : n' < 2 ^ 16)
    (h : (plain n).raw = (plain n').raw) : n = n' := by
  simp only [Message.raw, handshakeBin, plain, uint24, uint16, cons_append, nil_append, cons.injEq,
    true_and] at h
  rw [← ofUint16_uint16 hn, ← ofUint16_uint16 hn', h.1, h.2.1]

/-- Records with one fragment each. -/
def single (fs : List HandshakeFragment) : List (List HandshakeFragment) := fs.map fun f => [f]

theorem returned_single (hf : flight.Genuine f)
    (hrun : reassemble decodeHandshake f b = .ok (reply, b')) (fs : List HandshakeFragment) :
    returned decodeHandshake b ((single (f :: fs)).map encodeRecord) =
      reply.toList ++ returned decodeHandshake b' ((single fs).map encodeRecord) := by
  have hgen : ∀ g ∈ [f], flight.Genuine g := by simpa using hf
  have hdecode := decode_encodeRecord hgen
  rw [single, map_cons, map_cons, returned, getDtlsHandshake, hdecode]
  cases reply <;> simp [doHandleFragments, hrun, single]

/-- A run that returns something else than the messages from number `k` on. -/
def Astray (start k : ℕ) (b : ProtocolBuffers) (numbers : List ℕ) : Prop :=
  ∃ fs, fs.map HandshakeFragment.messageSeq = numbers ∧
    (∀ f ∈ fs, (plainFlight start).Genuine f) ∧
    ¬(returned Except.ok b ((single fs).map encodeRecord)).map Prod.snd <+:
      ((plainFlight start).messages.drop k).map Message.raw

section Astray

variable {start j : ℕ} {numbers : List ℕ}

theorem Astray.step (h : Astray start k b' numbers) (hf : (plainFlight start).Genuine f)
    (hrun : reassemble Except.ok f b = .ok (none, b')) :
    Astray start k b (f.messageSeq :: numbers) := by
  obtain ⟨fs, hfs, hgen, hnot⟩ := h
  refine ⟨f :: fs, by rw [map_cons, hfs], forall_mem_cons.2 ⟨hf, hgen⟩, ?_⟩
  rwa [returned_single hf hrun]

theorem Astray.completed (h : Astray start (k + 1) b' numbers) (hf : (plainFlight start).Genuine f)
    (hk : start + k < 2 ^ 16) (hrun : reassemble Except.ok f b =
      .ok (some ((plain (start + k)).raw, (plain (start + k)).raw), b')) :
    Astray start k b (f.messageSeq :: numbers) := by
  obtain ⟨fs, hfs, hgen, hnot⟩ := h
  refine ⟨f :: fs, by rw [map_cons, hfs], forall_mem_cons.2 ⟨hf, hgen⟩, ?_⟩
  rw [returned_single hf hrun, drop_of_getElem? (plainFlight_getElem? hk)]
  simpa [cons_prefix_cons] using hnot

/-- Whole messages are duplicates of each other, whatever their numbers. -/
theorem mergeFragment_plain (n : ℕ) (hall : ∀ g ∈ frags, ∃ n', g = piece (plain n') 0 1) :
    mergeFragment (piece (plain n) 0 1) frags = .ok [piece (plain n) 0 1] := by
  induction frags with
  | nil => rfl
  | cons g frags ih =>
    obtain ⟨⟨n', rfl⟩, hrest⟩ := forall_mem_cons.1 hall
    exact ih hrest

/-- A fragment without bytes gives way to a whole message, which is returned in its place. -/
theorem reassemble_swallowed (hf : f = fragmentFor j (j + 1))
    (hseq : b.dtlsHandshakeNextSeq = j + 1) (hne : b.dtlsHandshakeNextFragments ≠ [])
    (hall : ∀ g ∈ b.dtlsHandshakeNextFragments, ∃ n, j + 1 < n ∧ n < 2 ^ 16 ∧
      g = piece (plain n) 0 1) :
    ∃ n b', j + 1 < n ∧ n < 2 ^ 16 ∧
      reassemble Except.ok f b = .ok (some ((plain n).raw, (plain n).raw), b') := by
  obtain ⟨g, frags, hfrags⟩ := exists_cons_of_ne_nil hne
  rw [hfrags] at hall
  obtain ⟨⟨n, hlt, hn, rfl⟩, hrest⟩ := forall_mem_cons.1 hall
  have hf' : f = piece (plain (j + 1)) 0 0 := by simp [hf, fragmentFor]
  have hsort : sortByOffset (f :: piece (plain n) 0 1 :: frags) =
      f :: piece (plain n) 0 1 :: frags := by
    refine List.Pairwise.insertionSort_eq ?_
    refine pairwise_of_forall_mem_list fun x hx y hy => ?_
    have hzero : x.fragmentOffset = 0 := by
      rcases mem_cons.1 hx with rfl | hx
      · rw [hf']; rfl
      · obtain ⟨n', -, -, rfl⟩ := hall x hx
        rfl
    omega
  refine ⟨n, ⟨j + 2, (nextFragments b.dtlsHandshakeLaterFragments).1,
    (nextFragments b.dtlsHandshakeLaterFragments).2⟩, hlt, hn, ?_⟩
  have hmerge : mergeFragment f (piece (plain n) 0 1 :: frags) = .ok [piece (plain n) 0 1] := by
    rw [hf']
    exact mergeFragment_plain n fun g hg => by
      obtain ⟨n', -, -, hg⟩ := hrest g hg
      exact ⟨n', hg⟩
  rw [reassemble, if_pos (by rw [hf', hseq]; rfl), reassembleFragments, hfrags, hsort]
  simp only [hmerge, bind, Except.bind]
  rw [hf']
  rfl

/-- Ahead of the message `j + 1`, its next fragment brings another message out. -/
theorem astray_ahead (hj : start + k = j + 1) (hnum : ∀ n ∈ numbers, start ≤ n ∧ n < 2 ^ 16)
    (hseq : b.dtlsHandshakeNextSeq = j + 1) (hne : b.dtlsHandshakeNextFragments ≠ [])
    (hall : ∀ g ∈ b.dtlsHandshakeNextFragments, ∃ n, j + 1 < n ∧ n < 2 ^ 16 ∧
      g = piece (plain n) 0 1) (hmem : j + 1 ∈ numbers) : Astray start k b numbers := by
  induction numbers generalizing b with
  | nil => cases hmem
  | cons n numbers ih =>
    obtain ⟨hn, hnum'⟩ := forall_mem_cons.1 hnum
    have hf : (plainFlight start).Genuine (fragmentFor j n) := genuine_fragmentFor hn
    by_cases heq : n = j + 1
    · subst heq
      obtain ⟨n', b', hlt, hn', hrun⟩ := reassemble_swallowed rfl hseq hne hall
      refine ⟨fragmentFor j (j + 1) :: numbers.map (fragmentFor j), ?_, ?_, ?_⟩
      · rw [map_cons, map_map]
        exact congrArg ((j + 1) :: ·) (map_id _)
      · refine forall_mem_cons.2 ⟨hf, fun g hg => ?_⟩
        obtain ⟨n, hmem, rfl⟩ := mem_map.1 hg
        exact genuine_fragmentFor (hnum' n hmem)
      · rw [returned_single hf hrun, drop_of_getElem? (plainFlight_getElem? (by omega))]
        intro hprefix
        have hraw := (cons_prefix_cons.1 hprefix).1
        have := plain_raw_inj hn' (by omega) hraw
        omega
    · obtain ⟨b', hrun, hnext, hseq'⟩ := @reassemble_other _ (fragmentFor j n) b Except.ok
        (by rw [hseq]; exact heq)
      refine (ih hnum' (by rw [hseq', hseq]) (by rwa [hnext]) (by rwa [hnext]) ?_).step hf hrun
      exact (mem_cons.1 hmem).resolve_left (Ne.symm heq)

/-- A message in one fragment is complete when it is awaited. -/
theorem reassemble_plain (h : OnTrack (plainFlight start) seen k b) (hk : start + k < 2 ^ 16) :
    reassemble Except.ok (piece (plain (start + k)) 0 1) b =
      .ok (some ((plain (start + k)).raw, (plain (start + k)).raw), ⟨start + k + 1,
        (nextFragments b.dtlsHandshakeLaterFragments).1,
        (nextFragments b.dtlsHandshakeLaterFragments).2⟩) := by
  have hp : IsPiece (plain (start + k)) (piece (plain (start + k)) 0 1) :=
    ⟨0, 1, by simp [plain], rfl⟩
  have hnext : ∀ g ∈ b.dtlsHandshakeNextFragments, IsPiece (plain (start + k)) g := fun g hg =>
    (h.next g hg).1.isPiece ((h.next g hg).2.trans h.nextSeq) (plainFlight_getElem? hk)
  have hcovered : Covered (plain (start + k))
      (piece (plain (start + k)) 0 1 :: b.dtlsHandshakeNextFragments) := fun i hi =>
    received_cons.2 (.inl ⟨Nat.zero_le i, by simpa [plain, piece] using hi⟩)
  obtain ⟨hnot, -⟩ | ⟨-, hraw⟩ := reassembleFragments_pieces hp hnext
  · exact absurd hcovered hnot
  · rw [reassemble, if_pos (by rw [h.nextSeq]; rfl), hraw]
    rfl

/-- Fragments without bytes complete nothing. -/
theorem reassemble_fragmentFor (h : OnTrack (plainFlight start) seen k b)
    (hn : start ≤ n ∧ n < 2 ^ 16) (hj : start + k ≤ j)
    (hnone : ∀ i, ¬Received b.dtlsHandshakeNextFragments i) :
    ∃ b', reassemble Except.ok (fragmentFor j n) b = .ok (none, b') ∧
      OnTrack (plainFlight start) (fragmentFor j n :: seen) k b' ∧
      ∀ i, ¬Received b'.dtlsHandshakeNextFragments i := by
  have hf : (plainFlight start).Genuine (fragmentFor j n) := genuine_fragmentFor hn
  rw [reassemble]
  by_cases heq : (fragmentFor j n).messageSeq = b.dtlsHandshakeNextSeq
  · obtain rfl : n = start + k := heq.trans h.nextSeq
    have hp := hf.isPiece rfl (plainFlight_getElem? hn.2)
    have hnext : ∀ g ∈ b.dtlsHandshakeNextFragments, IsPiece (plain (start + k)) g := fun g hg =>
      (h.next g hg).1.isPiece ((h.next g hg).2.trans h.nextSeq) (plainFlight_getElem? hn.2)
    have hempty : ∀ i, ¬Received (fragmentFor j (start + k) :: b.dtlsHandshakeNextFragments) i := by
      intro i hi
      rcases received_cons.1 hi with hi | hi
      · simp [fragmentFor, piece, show ¬j + 1 < start + k by omega] at hi
      · exact hnone i hi
    obtain ⟨-, frags', hrun, hall, hiff⟩ | ⟨hcovered, -⟩ := reassembleFragments_pieces hp hnext
    · refine ⟨{ b with dtlsHandshakeNextFragments := frags' }, ?_, ?_, ?_⟩
      · rw [if_pos heq, hrun]
        rfl
      · refine h.ignore hf heq.le fun g hg => ⟨⟨_, ?_, hall g hg⟩, ?_⟩
        · exact mem_of_getElem? (plainFlight_getElem? hn.2)
        · rw [(hall g hg).messageSeq_eq, h.nextSeq]
          rfl
      · exact fun i hi => hempty i ((hiff i).1 hi)
    · exact absurd (hcovered 0 (by simp [plain])) (hempty 0)
  · rw [if_neg heq]
    by_cases hgt : (fragmentFor j n).messageSeq > b.dtlsHandshakeNextSeq
    · rw [if_pos hgt]
      exact ⟨_, rfl, h.keep hf hgt, hnone⟩
    · rw [if_neg hgt]
      exact ⟨b, rfl, h.ignore hf (by omega) h.next, hnone⟩

theorem mem_of_mem_nextFragments {later : List HandshakeFragment} {g : HandshakeFragment}
    (h : g ∈ (nextFragments later).1) : g ∈ later := by
  rcases nextFragments_spec later with ⟨-, hnil⟩ | ⟨first, -, -, h1, -⟩
  · rw [hnil] at h
    cases h
  · exact ((h1 g).1 h).1

theorem OnTrack.promoted (h : OnTrack (plainFlight start) seen k b)
    (hseen : ∀ f ∈ seen, start + k ≤ f.messageSeq → f = fragmentFor j f.messageSeq)
    {g : HandshakeFragment} (hg : g ∈ (nextFragments b.dtlsHandshakeLaterFragments).1) :
    g ∈ seen ∧ g = fragmentFor j g.messageSeq := by
  obtain ⟨hg, hgt⟩ := (h.later g).1 (mem_of_mem_nextFragments hg)
  rw [h.nextSeq] at hgt
  exact ⟨hg, hseen g hg hgt.le⟩

/-- The message `j` may be completed while one after the next one has shown up and the next one
has not, though it does later. -/
def OutOfStep (start : ℕ) (numbers : List ℕ) (j : ℕ) : Prop :=
  ∃ before after, numbers = before ++ j :: after ∧ range' start (j - start) <+ before ∧
    (∃ g ∈ before, j + 1 < g) ∧ j + 1 ∉ before ∧ j + 1 ∈ after

theorem exists_outOfStep {seen : List ℕ} (h : ¬InStep start seen numbers) :
    ∃ j, OutOfStep start (seen ++ numbers) j := by
  induction numbers generalizing seen with
  | nil => exact absurd trivial h
  | cons n after ih =>
    rw [InStep, not_and_or] at h
    rcases h with h | h
    · push Not at h
      obtain ⟨hchain, hlater, hnot, hafter⟩ := h
      exact ⟨n, seen, after, rfl, hchain, hlater, hnot, hafter⟩
    · have := ih h
      rwa [append_assoc, singleton_append] at this

/-- While the messages up to `j` are completed in turn, all goes well if `j` is the first one out of
step; what comes then does not. -/
theorem astray_of_chain {before after : List ℕ} (htrack : OnTrack (plainFlight start) seen k b)
    (hmin : ∀ i < j, ¬OutOfStep start numbers i)
    (hnum : ∀ n ∈ numbers, start ≤ n ∧ n < 2 ^ 16)
    (hnumbers : numbers = numbersOf seen ++ (before ++ j :: after))
    (hchain : range' start k <+ numbersOf seen) (hj : start + k ≤ j)
    (hrest : range' (start + k) (j - (start + k)) <+ before)
    (hseen : ∀ f ∈ seen, start + k ≤ f.messageSeq → f = fragmentFor j f.messageSeq)
    (hnone : ∀ i, ¬Received b.dtlsHandshakeNextFragments i)
    (hlater : ∃ g ∈ numbersOf seen ++ before, j + 1 < g)
    (hnext : j + 1 ∉ numbersOf seen ++ before) (hafter : j + 1 ∈ after) :
    Astray start k b (before ++ j :: after) := by
  have hjsize : j < 2 ^ 16 := (hnum j (by rw [hnumbers]; simp)).2
  induction before generalizing seen k b with
  | nil =>
    obtain rfl : start + k = j := by
      have := hrest.length_le
      simp at this
      omega
    rw [append_nil] at hlater hnext
    have hf := genuine_plain ⟨Nat.le_add_right start k, hjsize⟩ le_rfl
    rcases htrack.promote hf htrack.nextSeq.symm with ⟨-, hstep⟩ | ⟨hahead, -, -⟩
    · obtain ⟨g, hg, hgt⟩ := hlater
      obtain ⟨f, hf, rfl⟩ := mem_numbersOf.1 hg
      exact absurd (mem_numbersOf.2 (hstep ⟨f, hf, hgt⟩)) hnext
    · have hahead' : Astray start (k + 1) ⟨start + k + 1,
          (nextFragments b.dtlsHandshakeLaterFragments).1,
          (nextFragments b.dtlsHandshakeLaterFragments).2⟩ after := by
        refine astray_ahead rfl (fun n hn => hnum n ?_) rfl hahead.nonempty ?_ hafter
        · rw [hnumbers]
          simp [hn]
        · intro g hg
          obtain ⟨hmem, heq⟩ := htrack.promoted hseen hg
          have hgt : start + k + 1 < g.messageSeq := hahead.later g hg
          have hn := hnum g.messageSeq (by
            rw [hnumbers]
            exact mem_append_left _ (mem_numbersOf.2 ⟨g, hmem, rfl⟩))
          refine ⟨g.messageSeq, hgt, hn.2, ?_⟩
          rwa [fragmentFor, if_pos hgt] at heq
      exact hahead'.completed hf hjsize (reassemble_plain htrack hjsize)
  | cons n before ih =>
    rcases sublist_cons_iff.1 hrest with hskip | ⟨r, hr, hsub⟩
    · -- the fragment completes nothing
      have hn := hnum n (by rw [hnumbers]; simp)
      obtain ⟨b', hrun, htrack', hnone'⟩ := reassemble_fragmentFor htrack hn hj hnone
      have hcons : numbersOf (fragmentFor j n :: seen) = numbersOf seen ++ [n] := numbersOf_cons _ _
      have hsplit : numbersOf (fragmentFor j n :: seen) ++ before =
        numbersOf seen ++ n :: before := by
        rw [hcons, append_assoc, singleton_append]
      refine (ih htrack' ?_ ?_ hj hskip ?_ hnone' ?_ ?_).step (genuine_fragmentFor hn) hrun
      · rw [hnumbers, hcons, append_assoc, singleton_append, cons_append]
      · rw [hcons]
        exact hchain.trans (sublist_append_left _ _)
      · exact forall_mem_cons.2 ⟨fun _ => rfl, hseen⟩
      · rwa [hsplit]
      · rwa [hsplit]
    · -- the message awaited is completed in its turn
      have hlt : start + k < j := by
        have := congrArg length hr
        simp at this
        omega
      rw [show j - (start + k) = j - (start + (k + 1)) + 1 by omega, range'_succ, cons.injEq] at hr
      obtain ⟨rfl, rfl⟩ := hr
      have hk : start + k < 2 ^ 16 := by omega
      have hf := genuine_plain ⟨Nat.le_add_right start k, hk⟩ le_rfl
      have hcons : numbersOf (piece (plain (start + k)) 0 1 :: seen) =
          numbersOf seen ++ [start + k] := numbersOf_cons _ _
      have hsplit : numbersOf (piece (plain (start + k)) 0 1 :: seen) ++ before =
          numbersOf seen ++ (start + k) :: before := by
        rw [hcons, append_assoc, singleton_append]
      rcases htrack.promote hf htrack.nextSeq.symm with ⟨htrack', -⟩ | ⟨-, ⟨g, hg, hgt⟩, hnot⟩
      · refine (ih htrack' ?_ ?_ (by omega) hsub ?_ ?_ ?_ ?_).completed hf hk
          (reassemble_plain htrack hk)
        · rw [hnumbers, hcons, append_assoc, singleton_append, cons_append]
        · rw [hcons, range'_1_concat]
          exact hchain.append_right _
        · refine forall_mem_cons.2 ⟨fun hle => ?_, fun f hf hle => hseen f hf (by omega)⟩
          have hseq : (piece (plain (start + k)) 0 1).messageSeq = start + k := rfl
          omega
        · rintro i ⟨g, hg, -, hi⟩
          obtain ⟨-, heq⟩ := htrack.promoted hseen hg
          have hseq : g.messageSeq = start + k + 1 := (htrack'.next g hg).2
          rw [heq, fragmentFor, if_neg (by omega)] at hi
          simp [piece] at hi
        · rwa [hsplit]
        · rwa [hsplit]
      · -- it would be out of step before `j`
        refine absurd ⟨numbersOf seen, before ++ j :: after, hnumbers, ?_, ⟨_, mem_numbersOf.2
          ⟨g, hg, rfl⟩, hgt⟩, mt mem_numbersOf.1 hnot, ?_⟩ (hmin (start + k) hlt)
        · rwa [Nat.add_sub_cancel_left]
        · rw [mem_append, mem_cons]
          by_cases hlast : start + k + 1 = j
          · exact .inr (.inl hlast)
          · exact .inl (hsub.subset (mem_range'_1.2 (by omega)))

end Astray

/-- **Messages are delivered in order** for all messages and all their fragments if and only if the
numbers of the fragments arrive in step. Then fragments of different messages are never put
together. -/
theorem deliver_in_order_iff {start : ℕ} {numbers : List ℕ}
    (hnum : ∀ n ∈ numbers, start ≤ n ∧ n < 2 ^ 16) :
    ((∀ (H : Type) (decodeHandshake : Bytes → Except Raised H) (a : Arrival start numbers),
        InOrder decodeHandshake a.flight
          (returned decodeHandshake (emptyBuffers start) (a.records.map encodeRecord))) ↔
      InStep start [] numbers) ∧
    (InStep start [] numbers →
      ∀ (H : Type) (decodeHandshake : Bytes → Except Raised H) (a : Arrival start numbers),
        ∀ s ∈ trace decodeHandshake (emptyBuffers start) a.records.flatten, s.Unmixed) := by
  have hrun : InStep start [] numbers →
      ∀ (H : Type) (decodeHandshake : Bytes → Except Raised H) (a : Arrival start numbers),
        (∀ s ∈ trace decodeHandshake (emptyBuffers start) a.records.flatten, s.Unmixed) ∧
          (replies (trace decodeHandshake (emptyBuffers start) a.records.flatten)).map Prod.snd <+:
            a.flight.messages.map Message.raw := by
    rintro hstep H decodeHandshake ⟨flight, records, rfl, hgen, rfl⟩
    refine (OnTrack.init flight).run decodeHandshake (fun f hf => ?_) (Sublist.refl _) hstep
    obtain ⟨record, hrecord, hf⟩ := mem_flatten.1 hf
    exact hgen record hrecord f hf
  refine ⟨⟨fun h => ?_, fun hstep H decodeHandshake a => ?_⟩,
    fun hstep H decodeHandshake a => (hrun hstep H decodeHandshake a).1⟩
  · by_contra hnot
    have hex := exists_outOfStep hnot
    rw [nil_append] at hex
    obtain ⟨j, ⟨before, after, hsplit, hchain, hlater, hnext, hafter⟩, hmin⟩ :
        ∃ j, OutOfStep start numbers j ∧ ∀ i < j, ¬OutOfStep start numbers i := by
      classical
      exact ⟨Nat.find hex, Nat.find_spec hex, fun i => Nat.find_min hex⟩
    have hle : start ≤ j := (hnum j (by rw [hsplit]; simp)).1
    obtain ⟨fs, hfs, hgen, hastray⟩ := astray_of_chain (OnTrack.init (plainFlight start)) hmin hnum
      hsplit (Sublist.refl _) hle hchain (by simp) (by simp [emptyBuffers, Received]) hlater hnext
      hafter
    rw [← hsplit] at hfs
    have hflat : (single fs).flatten = fs := flatMap_singleton' fs
    refine hastray (h Bytes Except.ok ⟨plainFlight start, single fs, rfl, ?_, by rw [hflat, hfs]⟩).1
    intro record hrecord f hf
    rw [← hflat] at hgen
    exact hgen f (mem_flatten.2 ⟨record, hrecord, hf⟩)
  · have hpre := @returned_isPrefix H a.flight decodeHandshake a.records a.genuine
      (emptyBuffers start)
    refine ⟨(hpre.map Prod.snd).trans (hrun hstep H decodeHandshake a).2, fun p hp => ?_⟩
    exact decode_of_mem_replies (hpre.subset hp)

/-! ## A flight of three messages -/

def firstMessage : Message := ⟨2, 0, []⟩

def secondMessage : Message := ⟨11, 1, [7]⟩

def thirdMessage : Message := ⟨12, 2, [8, 9]⟩

def threeMessages : Flight where
  start := 0
  messages := [firstMessage, secondMessage, thirdMessage]
  numbered k m h := by
    match k with
    | 0 => cases h; rfl
    | 1 => cases h; rfl
    | 2 => cases h; rfl
    | k + 3 => cases h
  sized := by decide

/-- Every message in one fragment. -/
def whole (m : Message) : HandshakeFragment := piece m 0 m.body.length

theorem genuine_whole (hm : m ∈ flight.messages) :
    flight.Genuine (whole m) := ⟨m, hm, 0, _, by simp, rfl⟩

/-- The second message comes before the first one, and once more after it. -/
theorem deliver_in_order_iff_second_first :
    InStep 0 [] [1, 0, 1] ∧ InOrder (fun bytes => .ok bytes) threeMessages
      (returned (fun bytes => .ok bytes) (emptyBuffers 0)
        ([[whole secondMessage], [whole firstMessage, whole secondMessage]].map encodeRecord)) := by
  have hstep : InStep 0 [] [1, 0, 1] := by decide
  have hgen : ∀ record ∈ [[whole secondMessage], [whole firstMessage, whole secondMessage]],
      ∀ f ∈ record, threeMessages.Genuine f := by
    simp only [forall_mem_cons, not_mem_nil, false_implies, implies_true, and_true]
    exact ⟨genuine_whole (by decide), genuine_whole (by decide), genuine_whole (by decide)⟩
  exact ⟨hstep, (deliver_in_order_iff (by decide)).1.2 hstep _ _ ⟨threeMessages, _, rfl, hgen, rfl⟩⟩

/-- The third message comes first, and is returned in place of the second one. -/
theorem third_returned_for_second :
    (∀ record ∈ [[whole thirdMessage], [whole firstMessage], [whole secondMessage]],
      ∀ f ∈ record, threeMessages.Genuine f) ∧
    (returned (fun bytes => .ok bytes) (emptyBuffers 0)
      ([[whole thirdMessage], [whole firstMessage], [whole secondMessage]].map encodeRecord)).map
        Prod.snd = [firstMessage.raw, thirdMessage.raw] ∧
    ¬ [firstMessage.raw, thirdMessage.raw] <+: threeMessages.messages.map Message.raw := by
  refine ⟨?_, by decide +kernel, by decide⟩
  simp only [forall_mem_cons, not_mem_nil, false_implies, implies_true, and_true]
  exact ⟨genuine_whole (by decide), genuine_whole (by decide), genuine_whole (by decide)⟩

end Otp.Ssl.DtlsHandshake
