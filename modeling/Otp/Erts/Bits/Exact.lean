import Otp.Erts.Bits.Copy

/-!
# Copying bits is exact and local

The destination bytes are written one after the other, each with its bits of the
range and its own other bits. The byte of the destination that is written at a time, and
the source bytes that its bits come from, are given by one equation between the two
bit offsets.
-/

namespace Otp.Erts.Bits

open Otp.Lib

/-- What there is to copy, with the offsets as bytes and bits of a byte. -/
structure Job where
  src : ℤ → BitVec 8
  dst : ℤ → BitVec 8
  step : ℤ
  s₀ : ℕ
  s : ℕ
  d₀ : ℕ
  d : ℕ
  n : ℕ
  s_lt : s < 8
  d_lt : d < 8
  n_pos : 0 < n
  step_eq : step = 1 ∨ step = -1

namespace Job

variable (J : Job) {j d e k : ℕ}

/-- The address of destination byte `k`. -/
def addr (k : ℕ) : ℤ := J.step * (J.d₀ + k : ℕ)

/-- The address of source byte `q`. -/
def saddr (q : ℕ) : ℤ := (J.s₀ + q : ℕ)

/-- A source bit, counted from the first byte. -/
def srcBit (q : ℕ) : Bool := byteBit (J.src (J.saddr (q / 8))) (q % 8)

/-- Bit `j` of destination byte `k` belongs to the range. -/
def InRange (k j : ℕ) : Prop := J.d ≤ 8 * k + j ∧ 8 * k + j < J.d + J.n

instance (k j : ℕ) : Decidable (J.InRange k j) := inferInstanceAs (Decidable (_ ∧ _))

/-- The source bit for a destination bit of the range. -/
def origin (k j : ℕ) : Bool := J.srcBit (8 * k + j + J.s - J.d)

/-- The bit that belongs there in the end. -/
def want (k j : ℕ) : Bool := if J.InRange k j then J.origin k j else byteBit (J.dst (J.addr k)) j

theorem addr_succ (k : ℕ) : J.addr k + J.step = J.addr (k + 1) := by
  unfold addr
  push_cast
  ring

theorem saddr_succ (q : ℕ) : J.saddr q + 1 = J.saddr (q + 1) := by
  unfold saddr
  omega

theorem addr_inj {i : ℕ} (h : J.addr i = J.addr k) : i = k := by
  unfold addr at h
  obtain hstep | hstep := J.step_eq <;> rw [hstep] at h <;> omega

/-- The first `k` bytes are copied, nothing else is changed, and only bytes with bits of the range
were read or touched. -/
structure Progress (k : ℕ) (m : Mem) : Prop where
  done : ∀ i < k, ∀ j < 8, byteBit (m.bytes (J.addr i)) j = J.want i j
  frame : ∀ a, (∀ i < k, a ≠ J.addr i) → m.bytes a = J.dst a
  reads : ∀ a ∈ m.reads, ∃ q, a = J.saddr q ∧ 8 * q < J.s + J.n
  touched : ∀ a ∈ m.touched, ∃ i, a = J.addr i ∧ 8 * i < J.d + J.n

variable {J} {k : ℕ} {m : Mem}

theorem progress_zero : J.Progress 0 ⟨J.dst, [], []⟩ :=
  ⟨fun i hi => absurd hi (Nat.not_lt_zero i), fun _ _ => rfl, by simp, by simp⟩

theorem Progress.fetch (h : J.Progress k m) {q : ℕ} (hq : 8 * q < J.s + J.n) :
    J.Progress k (fetch J.src (J.saddr q) m).2 :=
  ⟨h.done, h.frame, List.forall_mem_cons.mpr ⟨⟨q, rfl, hq⟩, h.reads⟩, h.touched⟩

theorem Progress.store (h : J.Progress k m) (hk : 8 * k < J.d + J.n) {w : BitVec 64}
    (hw : ∀ j < 8, wordBit w j = J.want k j) : J.Progress (k + 1) (store (J.addr k) w m) := by
  refine ⟨?_, ?_, h.reads, List.forall_mem_cons.mpr ⟨⟨k, rfl, hk⟩, h.touched⟩⟩
  · intro i hi j hj
    show byteBit (Function.update m.bytes (J.addr k) (truncate w) (J.addr i)) j = _
    by_cases hik : i = k
    · rw [hik, Function.update_self, byteBit_truncate, hw j hj]
    · rw [Function.update_of_ne fun heq => hik (J.addr_inj heq)]
      exact h.done i (by omega) j hj
  · intro a ha
    show Function.update m.bytes (J.addr k) (truncate w) a = _
    rw [Function.update_of_ne (ha k (Nat.lt_succ_self k))]
    exact h.frame a fun i hi => ha i (by omega)

/-- A byte of which the mask selects the bits of the range. -/
theorem Progress.storeMasked (h : J.Progress k m) (hk : 8 * k < J.d + J.n) {w mask : BitVec 64}
    (hmask : ∀ j < 8, wordBit mask j = decide (J.InRange k j))
    (hw : ∀ j < 8, J.InRange k j → wordBit w j = J.origin k j) :
    J.Progress (k + 1) (storeMasked (J.addr k) w mask m) := by
  apply h.store hk
  intro j hj
  have hold : m.bytes (J.addr k) = J.dst (J.addr k) := by
    apply h.frame
    intro i hi heq
    exact Nat.ne_of_gt hi (J.addr_inj heq)
  rw [wordBit_maskBits, hmask j hj, wordBit_extend, hold]
  unfold want
  by_cases hr : J.InRange k j
  · rw [decide_eq_true hr, if_pos rfl, if_pos hr, hw j hj hr]
  · rw [decide_eq_false hr, if_neg hr]
    rfl

/-! ## Bits that are aligned -/

theorem origin_aligned (hsd : J.s = J.d) (hj : j < 8) :
    J.origin k j = byteBit (J.src (J.saddr k)) j := by
  unfold origin srcBit
  rw [hsd, Nat.add_sub_cancel, show (8 * k + j) / 8 = k by omega, show (8 * k + j) % 8 = j by omega]

theorem want_of_inRange (h : J.InRange k j) : J.want k j = J.origin k j := if_pos h

theorem progress_copyBytes (hsd : J.s = J.d) : ∀ {i k : ℕ} {m : Mem}, J.Progress k m →
    J.d ≤ 8 * k → 8 * (k + i) ≤ J.d + J.n →
      J.Progress (k + i) (copyBytes J.step J.src i (J.saddr k) (J.addr k) m) := by
  intro i
  induction i with
  | zero =>
    intro k m h _ _
    exact h
  | succ i ih =>
    intro k m h hd hn
    rw [copyBytes, addr_succ, show k + (i + 1) = k + 1 + i by omega]
    apply ih
    · apply (h.fetch (by omega)).store (by omega)
      intro j hj
      have hr : J.InRange k j := ⟨by omega, by omega⟩
      rw [want_of_inRange hr, origin_aligned hsd hj]
      exact wordBit_extend _ j
    · omega
    · omega

/-! ## The masks -/

/-- The mask for the first byte, or no mask where the range starts with a byte. -/
def lmask (d : ℕ) : BitVec 64 := if d ≠ 0 then makeMask (8 - d) else 0

/-- The mask for the last byte, or no mask where the range ends with a byte. -/
def rmask (e : ℕ) : BitVec 64 := if e ≠ 0 then makeMask e <<< (8 - e) else 0

theorem lmask_ne_zero (hd : d < 8) : lmask d ≠ 0 ↔ d ≠ 0 := by
  have h : ∀ d < 8, lmask d ≠ 0 ↔ d ≠ 0 := by decide
  exact h d hd

theorem rmask_ne_zero (he : e < 8) : rmask e ≠ 0 ↔ e ≠ 0 := by
  have h : ∀ e < 8, rmask e ≠ 0 ↔ e ≠ 0 := by decide
  exact h e he

theorem wordBit_lmask (hd : d < 8) (h0 : d ≠ 0) (hj : j < 8) :
    wordBit (lmask d) j = decide (d ≤ j) := by
  rw [lmask, if_pos h0, wordBit_makeMask hd hj]

theorem wordBit_rmask (he : e < 8) (h0 : e ≠ 0) (hj : j < 8) :
    wordBit (rmask e) j = decide (j < e) := by
  rw [rmask, if_pos h0, wordBit_makeMask_shiftLeft he hj]

/-- The test for one more source byte. -/
theorem rmask_shiftLeft_ne_zero {r : ℕ} (he : e < 8) (h0 : e ≠ 0) (hr : r < 8) :
    (rmask e <<< r) &&& 0xff#64 ≠ 0 ↔ r < e := by
  have h : ∀ e < 8, e ≠ 0 → ∀ r < 8, (rmask e <<< r) &&& 0xff#64 ≠ 0 ↔ r < e := by decide
  exact h e he h0 r hr

/-- The mask for a range inside of one byte. -/
theorem wordBit_inner (he : e < 8) (hde : d < e) (hj : j < 8) :
    wordBit (if lmask d &&& rmask e ≠ 0 then lmask d &&& rmask e else lmask d ||| rmask e) j =
      decide (d ≤ j ∧ j < e) := by
  have h : ∀ e < 8, ∀ d < e, ∀ j < 8,
      wordBit (if lmask d &&& rmask e ≠ 0 then lmask d &&& rmask e else lmask d ||| rmask e) j =
        decide (d ≤ j ∧ j < e) := by decide
  exact h e he d hde j hj

/-! ## The three ways to copy -/

theorem origin_eq {q b : ℕ} (h : 8 * k + j + J.s = J.d + (8 * q + b)) (hb : b < 8) :
    J.origin k j = byteBit (J.src (J.saddr q)) b := by
  unfold origin srcBit
  rw [show 8 * k + j + J.s - J.d = 8 * q + b by omega, show (8 * q + b) / 8 = q by omega,
    show (8 * q + b) % 8 = b by omega]

/-- All bits are in the first destination byte. -/
theorem progress_copyInByte (h : J.Progress 0 m) (hn : J.d + J.n < 8) {mask : BitVec 64}
    (hmask : ∀ j < 8, wordBit mask j = decide (J.d ≤ j ∧ j < J.d + J.n)) :
    J.Progress 1 (copyInByte J.src (J.saddr 0) (J.addr 0) J.s J.d J.n mask m) := by
  have hs := J.s_lt
  have hpos := J.n_pos
  have hmask' : ∀ j < 8, wordBit mask j = decide (J.InRange 0 j) := by
    intro j hj
    rw [hmask j hj, decide_eq_decide]
    unfold InRange
    omega
  have hrange : ∀ {j}, J.InRange 0 j → J.d ≤ j ∧ j < J.d + J.n := by
    intro j hj
    unfold InRange at hj
    omega
  have hfetch := h.fetch (q := 0) (by omega)
  unfold copyInByte
  split_ifs with heq hlt hnext
  · refine hfetch.storeMasked (by omega) hmask' ?_
    intro j hj _
    rw [origin_aligned heq hj]
    exact wordBit_extend _ j
  · -- the range goes on in the next source byte
    rw [saddr_succ]
    refine (hfetch.fetch (q := 0 + 1) (by omega)).storeMasked (by omega) hmask' ?_
    intro j hj hr
    obtain ⟨hd, -⟩ := hrange hr
    show wordBit ((extend _ <<< _) ||| (extend _ >>> _)) j = _
    rw [wordBit_or, wordBit_shiftLeft hj, wordBit_shiftRight hj]
    split_ifs with h₁ h₂ h₂
    · rw [Bool.or_false, origin_eq (q := 0) (b := j + (J.s - J.d)) (by omega) h₁]
    · omega
    · omega
    · rw [Bool.false_or, origin_eq (q := 0 + 1) (b := j - (8 - (J.s - J.d))) (by omega) (by omega)]
  · refine hfetch.storeMasked (by omega) hmask' ?_
    intro j hj hr
    obtain ⟨hd, hdn⟩ := hrange hr
    show wordBit (extend _ <<< _) j = _
    rw [wordBit_shiftLeft hj, if_pos (by omega),
      origin_eq (q := 0) (b := j + (J.s - J.d)) (by omega) (by omega)]
  · refine hfetch.storeMasked (by omega) hmask' ?_
    intro j hj hr
    obtain ⟨hd, -⟩ := hrange hr
    show wordBit (extend _ >>> _) j = _
    rw [wordBit_shiftRight hj, if_neg (by omega),
      origin_eq (q := 0) (b := j - (J.d - J.s)) (by omega) (by omega)]

/-- The number of whole bytes. -/
def count (J : Job) : ℕ := (if lmask J.d ≠ 0 then J.n - (8 - J.d) else J.n) >>> 3

/-- The bytes that the masks and the whole bytes make up. -/
theorem d_add_n (hn : 8 ≤ J.d + J.n) :
    J.d + J.n = 8 * ((if J.d ≠ 0 then 1 else 0) + J.count) + (J.d + J.n) % 8 := by
  have hd := J.d_lt
  unfold count
  by_cases h0 : J.d ≠ 0
  · rw [if_pos h0, if_pos ((lmask_ne_zero hd).mpr h0)]
    omega
  · rw [if_neg h0, if_neg fun h => h0 ((lmask_ne_zero hd).mp h)]
    omega

/-- The last byte, if the range does not end with a byte. -/
theorem inRange_last {c : ℕ} (hc : J.d + J.n = 8 * c + (J.d + J.n) % 8) (hd : J.d ≤ 8 * c)
    (hj : j < 8) : decide (j < (J.d + J.n) % 8) = decide (J.InRange c j) := by
  rw [decide_eq_decide]
  unfold InRange
  omega

/-- The first byte, if the range does not start with a byte. -/
theorem inRange_first (hn : 8 ≤ J.d + J.n) (hj : j < 8) :
    decide (J.d ≤ j) = decide (J.InRange 0 j) := by
  rw [decide_eq_decide]
  unfold InRange
  omega

theorem addr_add (k c : ℕ) : J.addr k + J.step * c = J.addr (k + c) := by
  unfold addr
  push_cast
  ring

theorem saddr_add (q c : ℕ) : J.saddr q + c = J.saddr (q + c) := by
  unfold saddr
  omega

theorem progress_copyAligned (h : J.Progress 0 m) (hsd : J.s = J.d) (hn : 8 ≤ J.d + J.n) :
    J.Progress ((J.d + J.n + 7) / 8)
      (copyAligned J.step J.src (lmask J.d) (rmask ((J.d + J.n) % 8)) J.count (J.saddr 0)
        (J.addr 0) m) := by
  have hd := J.d_lt
  have he : (J.d + J.n) % 8 < 8 := Nat.mod_lt _ (by omega)
  have hsum := d_add_n hn
  -- the first byte, if it is masked
  obtain ⟨k, hk, head, hhead, hprog⟩ : ∃ k, (k = if J.d ≠ 0 then 1 else 0) ∧ ∃ head,
      (if lmask J.d ≠ 0 then
        let r := fetch J.src (J.saddr 0) m
        (J.saddr 0 + 1, J.addr 0 + J.step, storeMasked (J.addr 0) r.1 (lmask J.d) r.2)
      else (J.saddr 0, J.addr 0, m)) = (J.saddr k, J.addr k, head) ∧ J.Progress k head := by
    by_cases h0 : J.d ≠ 0
    · refine ⟨1, (if_pos h0).symm, storeMasked (J.addr 0) (fetch J.src (J.saddr 0) m).1
        (lmask J.d) (fetch J.src (J.saddr 0) m).2, ?_, ?_⟩
      · rw [if_pos ((lmask_ne_zero hd).mpr h0), saddr_succ, addr_succ]
      · refine (h.fetch (q := 0) (by omega)).storeMasked (by omega) ?_ ?_
        · intro j hj
          rw [wordBit_lmask hd h0 hj, inRange_first hn hj]
        · intro j hj _
          rw [origin_aligned hsd hj]
          exact wordBit_extend _ j
    · refine ⟨0, (if_neg h0).symm, m, ?_, h⟩
      rw [if_neg fun hl => h0 ((lmask_ne_zero hd).mp hl)]
  rw [← hk] at hsum
  have hdk : J.d ≤ 8 * k := by
    rw [hk]
    split_ifs <;> omega
  have hbody := progress_copyBytes (i := J.count) hsd hprog hdk (by omega)
  unfold copyAligned
  rw [hhead]
  dsimp only
  split_ifs with hr
  · have h0 := (rmask_ne_zero he).mp hr
    rw [saddr_add, addr_add, show (J.d + J.n + 7) / 8 = k + J.count + 1 by omega]
    refine (hbody.fetch (q := k + J.count) (by omega)).storeMasked (by omega) ?_ ?_
    · intro j hj
      rw [wordBit_rmask he h0 hj, inRange_last hsum (by omega) hj]
    · intro j hj _
      rw [origin_aligned hsd hj]
      exact wordBit_extend _ j
  · have h0 : (J.d + J.n) % 8 = 0 := by
      by_contra hne
      exact hr ((rmask_ne_zero he).mpr hne)
    rw [show (J.d + J.n + 7) / 8 = k + J.count by omega]
    exact hbody

/-! ## Bits that must be shifted -/

variable (J) in
/-- The shifts, and how many bytes the source is ahead. -/
structure Shift (c lshift rshift : ℕ) : Prop where
  offsets : J.s + 8 = J.d + 8 * c + lshift
  sum : lshift + rshift = 8
  lshift_pos : 0 < lshift
  rshift_pos : 0 < rshift

variable (J) in
/-- The byte read last has the first bits for destination byte `k`. -/
def Carry (lshift k : ℕ) (bits : BitVec 64) : Prop :=
  ∃ b : BitVec 8, bits = extend b ∧
    ∀ j < 8, J.InRange k j → j + lshift < 8 → byteBit b (j + lshift) = J.origin k j

section Shifted

variable {c lshift rshift : ℕ} (hs : J.Shift c lshift rshift) {bits : BitVec 64}
include hs

/-- The byte read for one destination byte has the first bits for the next one. -/
theorem Shift.carry_succ (k : ℕ) : J.Carry lshift (k + 1) (extend (J.src (J.saddr (k + c)))) := by
  refine ⟨_, rfl, ?_⟩
  intro j hj _ hl
  have := hs.offsets
  rw [origin_eq (q := k + c) (b := j + lshift) (by omega) hl]

/-- The last bits of a destination byte are in the byte read last. -/
theorem Shift.wordBit_carry (hc : J.Carry lshift k bits) (hj : j < 8)
    (hr : J.InRange k j) (hl : j < rshift) : wordBit (bits <<< lshift) j = J.origin k j := by
  obtain ⟨b, rfl, hb⟩ := hc
  have := hs.sum
  rw [wordBit_shiftLeft hj, if_pos (by omega), hb j hj hr (by omega)]

/-- A destination byte is put together from two source bytes. -/
theorem Shift.wordBit_window (hc : J.Carry lshift k bits) (hj : j < 8) (hr : J.InRange k j) :
    wordBit ((bits <<< lshift) ||| (extend (J.src (J.saddr (k + c))) >>> rshift)) j =
      J.origin k j := by
  have hsum := hs.sum
  have hoff := hs.offsets
  rw [wordBit_or, wordBit_shiftRight hj]
  by_cases hl : j < rshift
  · rw [hs.wordBit_carry hc hj hr hl, if_pos hl, Bool.or_false]
  · obtain ⟨b, rfl, -⟩ := hc
    rw [wordBit_shiftLeft hj, if_neg (by omega), if_neg hl, Bool.false_or,
      origin_eq (q := k + c) (b := j - rshift) (by omega) (by omega)]

theorem Shift.progress_shiftBytes : ∀ {i k : ℕ} {bits : BitVec 64} {m : Mem}, J.Progress k m →
    J.Carry lshift k bits → J.d ≤ 8 * k → 8 * (k + i) ≤ J.d + J.n →
      ∃ bits' m', shiftBytes J.step J.src lshift rshift i bits (J.saddr (k + c)) (J.addr k) m =
          (bits', J.saddr (k + i + c), J.addr (k + i), m') ∧
        J.Progress (k + i) m' ∧ J.Carry lshift (k + i) bits' := by
  intro i
  induction i with
  | zero =>
    intro k bits m h hc _ _
    exact ⟨bits, m, rfl, h, hc⟩
  | succ i ih =>
    intro k bits m h hc hd hn
    have hoff := hs.offsets
    have hlp := hs.lshift_pos
    rw [shiftBytes, saddr_succ, addr_succ, show k + (i + 1) = k + 1 + i by omega,
      show k + c + 1 = k + 1 + c by omega]
    refine ih ?_ (hs.carry_succ k) (by omega) (by omega)
    apply (h.fetch (q := k + c) (by omega)).store (by omega)
    intro j hj
    have hr : J.InRange k j := ⟨by omega, by omega⟩
    rw [want_of_inRange hr]
    exact hs.wordBit_window hc hj hr

/-- The first byte, if it is masked. -/
theorem Shift.progress_head (h : J.Progress 0 m) (hc : J.Carry lshift 0 bits)
    (hn : 8 ≤ J.d + J.n) : ∃ bits' m',
      (if lmask J.d ≠ 0 then
        let bits1 := bits <<< lshift
        let r := fetch J.src (J.saddr c) m
        (r.1, J.saddr c + 1, J.addr 0 + J.step,
          storeMasked (J.addr 0) (bits1 ||| (r.1 >>> rshift)) (lmask J.d) r.2)
      else (bits, J.saddr c, J.addr 0, m)) =
        (bits', J.saddr ((if J.d ≠ 0 then 1 else 0) + c), J.addr (if J.d ≠ 0 then 1 else 0), m') ∧
      J.Progress (if J.d ≠ 0 then 1 else 0) m' ∧
      J.Carry lshift (if J.d ≠ 0 then 1 else 0) bits' := by
  have hd := J.d_lt
  have hoff := hs.offsets
  have hlp := hs.lshift_pos
  by_cases h0 : J.d ≠ 0
  · rw [if_pos ((lmask_ne_zero hd).mpr h0), if_pos h0]
    refine ⟨extend (J.src (J.saddr c)), storeMasked (J.addr 0) ((bits <<< lshift) |||
      (extend (J.src (J.saddr c)) >>> rshift)) (lmask J.d) (fetch J.src (J.saddr c) m).2,
      ?_, ?_, ?_⟩
    · rw [saddr_succ, addr_succ, Nat.add_comm c 1]
      rfl
    · refine (h.fetch (q := c) (by omega)).storeMasked (by omega) ?_ ?_
      · intro j hj
        rw [wordBit_lmask hd h0 hj, inRange_first hn hj]
      · intro j hj hr
        have hw := hs.wordBit_window hc hj hr
        rwa [Nat.zero_add] at hw
    · have hnext := hs.carry_succ 0
      rwa [Nat.zero_add, Nat.zero_add] at hnext
  · rw [if_neg fun hl => h0 ((lmask_ne_zero hd).mp hl), if_neg h0, Nat.zero_add]
    exact ⟨bits, m, rfl, h, hc⟩

theorem Shift.progress_copyShifted (h : J.Progress 0 m)
    (hc : J.Carry lshift 0 bits) (hn : 8 ≤ J.d + J.n) :
    J.Progress ((J.d + J.n + 7) / 8)
      (copyShifted J.step J.src (lmask J.d) (rmask ((J.d + J.n) % 8)) J.count lshift rshift bits
        (J.saddr c) (J.addr 0) m) := by
  have he : (J.d + J.n) % 8 < 8 := Nat.mod_lt _ (by omega)
  have hd := J.d_lt
  have hoff := hs.offsets
  have hlp := hs.lshift_pos
  have hsum := hs.sum
  have hdn := d_add_n hn
  obtain ⟨bits₁, m₁, hhead, hp₁, hc₁⟩ := hs.progress_head h hc hn
  have hdk : J.d ≤ 8 * (if J.d ≠ 0 then 1 else 0) := by split_ifs <;> omega
  generalize (if J.d ≠ 0 then 1 else 0) = k at hhead hp₁ hc₁ hdn hdk
  obtain ⟨bits₂, m₂, hbody, hp₂, hc₂⟩ :=
    hs.progress_shiftBytes (i := J.count) hp₁ hc₁ hdk (by omega)
  unfold copyShifted
  rw [hhead]
  dsimp only
  rw [hbody]
  have hmask : (J.d + J.n) % 8 ≠ 0 → ∀ j < 8, wordBit (rmask ((J.d + J.n) % 8)) j =
      decide (J.InRange (k + J.count) j) := by
    intro h0 j hj
    rw [wordBit_rmask he h0 hj, inRange_last hdn (by omega) hj]
  split_ifs with hr hmore
  · -- some of its bits are in one more source byte
    have h0 := (rmask_ne_zero he).mp hr
    have hlt := (rmask_shiftLeft_ne_zero he h0 (by omega)).mp hmore
    rw [show (J.d + J.n + 7) / 8 = k + J.count + 1 by omega]
    refine (hp₂.fetch (q := k + J.count + c) (by omega)).storeMasked (by omega) (hmask h0) ?_
    intro j hj hr
    exact hs.wordBit_window hc₂ hj hr
  · have h0 := (rmask_ne_zero he).mp hr
    have hle : ¬ rshift < (J.d + J.n) % 8 := by
      intro hlt
      exact hmore ((rmask_shiftLeft_ne_zero he h0 (by omega)).mpr hlt)
    rw [show (J.d + J.n + 7) / 8 = k + J.count + 1 by omega]
    refine hp₂.storeMasked (by omega) (hmask h0) ?_
    intro j hj hr
    have hje : j < (J.d + J.n) % 8 := by
      obtain ⟨_, hlt⟩ := hr
      omega
    exact hs.wordBit_carry hc₂ hj hr (by omega)
  · have h0 : (J.d + J.n) % 8 = 0 := by
      by_contra hne
      exact hr ((rmask_ne_zero he).mpr hne)
    rw [show (J.d + J.n + 7) / 8 = k + J.count by omega]
    exact hp₂

end Shifted

/-! ## The whole range -/

/-- The copy that a job describes. -/
theorem progress_copyBits (J : Job) :
    J.Progress ((J.d + J.n + 7) / 8) (copyBits J.step J.src (8 * J.s₀ + J.s) (8 * J.d₀ + J.d) J.n
      ⟨J.dst, [], []⟩) := by
  have hs := J.s_lt
  have hd := J.d_lt
  have hpos := J.n_pos
  have hand : ∀ x : ℕ, x &&& 7 = x % 8 := fun x => Nat.and_two_pow_sub_one_eq_mod x 3
  have hshift : ∀ x : ℕ, x >>> 3 = x / 8 := fun x => Nat.shiftRight_eq_div_pow x 3
  have hsaddr : ((J.s₀ : ℕ) : ℤ) = J.saddr 0 := rfl
  have haddr : J.step * ((J.d₀ : ℕ) : ℤ) = J.addr 0 := rfl
  have hzero : J.Progress 0 ⟨J.dst, [], []⟩ := progress_zero
  unfold copyBits
  rw [if_neg (by omega)]
  simp only [hand, hshift, show (8 * J.s₀ + J.s) % 8 = J.s by omega,
    show (8 * J.d₀ + J.d) % 8 = J.d by omega, show (8 * J.s₀ + J.s) / 8 = J.s₀ by omega,
    show (8 * J.d₀ + J.d) / 8 = J.d₀ by omega, hsaddr, haddr]
  rw [show (if J.d ≠ 0 then makeMask (8 - J.d) else 0) = lmask J.d from rfl,
    show (if (J.d + J.n) % 8 ≠ 0 then makeMask ((J.d + J.n) % 8) <<< (8 - (J.d + J.n) % 8) else 0) =
      rmask ((J.d + J.n) % 8) from rfl,
    ← show (if lmask J.d ≠ 0 then J.n - (8 - J.d) else J.n) >>> 3 = (_ / 8) from hshift _,
    show (if lmask J.d ≠ 0 then J.n - (8 - J.d) else J.n) >>> 3 = J.count from rfl]
  by_cases hn : J.d + J.n < 8
  · rw [if_pos hn, show (J.d + J.n + 7) / 8 = 1 by omega, show (J.d + J.n) % 8 = J.d + J.n by omega]
    exact progress_copyInByte hzero hn fun j hj => wordBit_inner hn (by omega) hj
  · rw [if_neg hn]
    by_cases heq : J.s = J.d
    · rw [if_pos heq]
      exact progress_copyAligned hzero heq (by omega)
    · rw [if_neg heq]
      by_cases hlt : J.d < J.s
      · rw [if_pos hlt, if_pos (by omega)]
        have hshift : J.Shift 1 (J.s - J.d) (8 - (J.s - J.d)) :=
          ⟨by omega, by omega, by omega, by omega⟩
        refine hshift.progress_copyShifted (hzero.fetch (q := 0) (by omega)) ?_ (by omega)
        refine ⟨_, rfl, ?_⟩
        intro j hj _ hl
        rw [origin_eq (q := 0) (b := j + (J.s - J.d)) (by omega) hl]
      · rw [if_neg hlt]
        have hshift : J.Shift 0 (8 - (J.d - J.s)) (J.d - J.s) :=
          ⟨by omega, by omega, by omega, by omega⟩
        refine hshift.progress_copyShifted hzero ?_ (by omega)
        -- nothing is read yet, and no bit of the range needs it
        refine ⟨0, by decide, ?_⟩
        intro j hj hr hl
        obtain ⟨hle, -⟩ := hr
        omega

end Job

/-- What a copy of `n` bits has to do: the bits of the range are those of the source, all other bits
of the destination are as before, and only bytes with bits of the two ranges are read or touched.
Byte `k` of the destination has address `step * k`. -/
structure CopiesExactly (step : ℤ) (src : ℤ → BitVec 8) (soffs : ℕ) (dst : ℤ → BitVec 8)
    (doffs n : ℕ) (m : Mem) : Prop where
  copied : ∀ i < n, byteBit (m.bytes (step * ((doffs + i) / 8 : ℕ))) ((doffs + i) % 8) =
    byteBit (src ((soffs + i) / 8 : ℕ)) ((soffs + i) % 8)
  unchanged : ∀ a, ∀ j < 8,
    (∀ i < n, ¬ (a = step * ((doffs + i) / 8 : ℕ) ∧ j = (doffs + i) % 8)) →
      byteBit (m.bytes a) j = byteBit (dst a) j
  reads : ∀ a ∈ m.reads, ∃ i < n, a = ((soffs + i) / 8 : ℕ)
  touched : ∀ a ∈ m.touched, ∃ i < n, a = step * ((doffs + i) / 8 : ℕ)

/-- A byte before the end of a range that starts in the first byte has a bit of the range. -/
theorem exists_bit_of_byte {o n q : ℕ} (ho : o < 8) (hn : 0 < n) (hq : 8 * q < o + n) (o₀ : ℕ) :
    ∃ i < n, o₀ + q = (8 * o₀ + o + i) / 8 := by
  refine ⟨8 * q - o, ?_, ?_⟩
  · omega
  · omega

namespace Job

variable {J : Job} {m : Mem}

/-- A copy that has come to the end is exact. -/
theorem Progress.copiesExactly (h : J.Progress ((J.d + J.n + 7) / 8) m) :
    CopiesExactly J.step J.src (8 * J.s₀ + J.s) J.dst (8 * J.d₀ + J.d) J.n m := by
  have hs := J.s_lt
  have hd := J.d_lt
  refine ⟨?_, ?_, ?_, ?_⟩
  · intro i hi
    have hr : J.InRange ((J.d + i) / 8) ((J.d + i) % 8) := ⟨by omega, by omega⟩
    have hdone := h.done ((J.d + i) / 8) (by omega) ((J.d + i) % 8) (by omega)
    rw [want_of_inRange hr,
      origin_eq (q := (J.s + i) / 8) (b := (J.s + i) % 8) (by omega) (by omega)] at hdone
    rwa [show (8 * J.d₀ + J.d + i) / 8 = J.d₀ + (J.d + i) / 8 by omega,
      show (8 * J.d₀ + J.d + i) % 8 = (J.d + i) % 8 by omega,
      show (8 * J.s₀ + J.s + i) / 8 = J.s₀ + (J.s + i) / 8 by omega,
      show (8 * J.s₀ + J.s + i) % 8 = (J.s + i) % 8 by omega]
  · intro a j hj hout
    by_cases ha : ∃ k < (J.d + J.n + 7) / 8, a = J.addr k
    · obtain ⟨k, hk, rfl⟩ := ha
      have hr : ¬ J.InRange k j := by
        intro hr
        obtain ⟨hle, hlt⟩ := hr
        refine hout (8 * k + j - J.d) (by omega) ⟨?_, by omega⟩
        unfold addr
        rw [show (8 * J.d₀ + J.d + (8 * k + j - J.d)) / 8 = J.d₀ + k by omega]
      rw [h.done k hk j hj]
      exact if_neg hr
    · rw [h.frame a fun i hi heq => ha ⟨i, hi, heq⟩]
  · intro a ha
    obtain ⟨q, rfl, hq⟩ := h.reads a ha
    obtain ⟨i, hi, heq⟩ := exists_bit_of_byte hs J.n_pos hq J.s₀
    exact ⟨i, hi, by rw [← heq]; rfl⟩
  · intro a ha
    obtain ⟨k, rfl, hk⟩ := h.touched a ha
    obtain ⟨i, hi, heq⟩ := exists_bit_of_byte hd J.n_pos hk J.d₀
    exact ⟨i, hi, by rw [← heq]; rfl⟩

end Job

/-- Both directions, and any number of bits. -/
theorem copyBits_copiesExactly {step : ℤ} (hstep : step = 1 ∨ step = -1) (src dst : ℤ → BitVec 8)
    (soffs doffs n : ℕ) :
    CopiesExactly step src soffs dst doffs n (copyBits step src soffs doffs n ⟨dst, [], []⟩) := by
  obtain rfl | hn := Nat.eq_zero_or_pos n
  · refine ⟨?_, fun _ _ _ _ => rfl, ?_, ?_⟩
    · intro i hi
      exact absurd hi (Nat.not_lt_zero i)
    · intro a ha
      exact absurd ha List.not_mem_nil
    · intro a ha
      exact absurd ha List.not_mem_nil
  · let J : Job :=
      { src, dst, step, n, s₀ := soffs / 8, s := soffs % 8, d₀ := doffs / 8, d := doffs % 8
        s_lt := Nat.mod_lt _ (by omega), d_lt := Nat.mod_lt _ (by omega), n_pos := hn
        step_eq := hstep }
    have h := J.progress_copyBits.copiesExactly
    have hsoffs : 8 * J.s₀ + J.s = soffs := Nat.div_add_mod soffs 8
    have hdoffs : 8 * J.d₀ + J.d = doffs := Nat.div_add_mod doffs 8
    rwa [hsoffs, hdoffs] at h

/-- Copying bits is exact and local, forwards and with the bytes of the destination towards lower
addresses. -/
theorem erts_copy_bits_exact (src dst : ℤ → BitVec 8) (soffs doffs n : ℕ) :
    CopiesExactly 1 src soffs dst doffs n (ertsCopyBitsFwd src soffs dst doffs n) ∧
      CopiesExactly (-1) src soffs dst doffs n (ertsCopyBitsRev src soffs dst doffs n) :=
  ⟨copyBits_copiesExactly (.inl rfl) src dst soffs doffs n,
    copyBits_copiesExactly (.inr rfl) src dst soffs doffs n⟩

end Otp.Erts.Bits
