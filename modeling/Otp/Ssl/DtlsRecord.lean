import Mathlib

/-!
# The replay window of a DTLS epoch (`dtls_record.erl`)

A record is dropped if `is_replay/2` says so; otherwise it is decoded, and
`update_replay_window/2` marks its sequence number.  Bit `i` of the mask stands for the number
`bottom + i`.  The invariant (`Records`) ties the window to the whole history: its top is the
highest number accepted so far, or the first top, and its bits are the numbers of the history that
lie in it, however far the window has slid.
-/

namespace Otp.Ssl.DtlsRecord

/-! ## The source -/

/-- `N bsl I`, which shifts to the right for a negative `I`. -/
def bsl (n : ℕ) (i : ℤ) : ℕ := if 0 ≤ i then n <<< i.toNat else n >>> (-i).toNat

def bsr (n : ℕ) (i : ℤ) : ℕ := bsl n (-i)

structure ReplayWindow where
  top : ℤ
  bottom : ℤ
  mask : ℕ
deriving DecidableEq, Repr

def initReplayWindow (size : ℕ) : ReplayWindow := ⟨size - 1, 0, 0⟩

def isReplay (sequenceNumber : ℕ) (window : ReplayWindow) : Bool :=
  if sequenceNumber < window.bottom then true
  else if window.bottom ≤ sequenceNumber ∧ sequenceNumber ≤ window.top then
    bsr window.mask (sequenceNumber - window.bottom) &&& 1 = 1
  else false

def updateReplayWindow (sequenceNumber : ℕ) (window : ReplayWindow) : ReplayWindow :=
  let noNewBits := sequenceNumber - window.top
  if noNewBits > 0 then
    let newBottom := window.bottom + noNewBits
    let index := sequenceNumber - newBottom
    ⟨window.top + noNewBits, newBottom, bsr window.mask noNewBits ||| bsl 1 index⟩
  else
    let index := sequenceNumber - window.bottom
    { window with mask := window.mask ||| bsl 1 index }

/-- One authentic record, as `next_record/1` handles it; the numbers accepted so far are kept
beside the window, the last first. -/
def nextRecord (s : ReplayWindow × List ℕ) (sequenceNumber : ℕ) : ReplayWindow × List ℕ :=
  if isReplay sequenceNumber s.1 then s
  else (updateReplayWindow sequenceNumber s.1, sequenceNumber :: s.2)

def run (size : ℕ) (records : List ℕ) : ReplayWindow × List ℕ :=
  records.foldl nextRecord (initReplayWindow size, [])

/-! ## The window and the history -/

/-- The highest top of a window of this size: the highest number, or the first top. -/
def highestTop (size : ℕ) : List ℕ → ℤ
  | [] => size - 1
  | n :: accepted => max n (highestTop size accepted)

/-- The window records the history. -/
structure Records (size : ℕ) (accepted : List ℕ) (w : ReplayWindow) : Prop where
  nodup : accepted.Nodup
  top : w.top = highestTop size accepted
  bottom : w.top - w.bottom = size - 1
  bits : ∀ i, w.mask.testBit i = true ↔ ∃ n ∈ accepted, (n : ℤ) = w.bottom + i

theorem le_highestTop (size : ℕ) {n : ℕ} {accepted : List ℕ} (h : n ∈ accepted) :
    (n : ℤ) ≤ highestTop size accepted := by
  induction accepted with
  | nil => cases h
  | cons m accepted ih =>
    rcases List.mem_cons.1 h with rfl | h
    · exact le_max_left _ _
    · exact (ih h).trans (le_max_right _ _)

theorem testBit_bsr (m j : ℕ) {k : ℤ} (hk : 0 ≤ k) :
    (bsr m k).testBit j = m.testBit (k.toNat + j) := by
  rw [bsr, bsl]
  split_ifs with hneg
  · simp [show k = 0 by omega]
  · rw [neg_neg, Nat.testBit_shiftRight]

theorem testBit_bsl_one (k : ℤ) (j : ℕ) : (bsl 1 k).testBit j = true ↔ (j : ℤ) = k := by
  rw [bsl]
  split_ifs with hk
  · rw [Nat.one_shiftLeft, Nat.testBit_two_pow, decide_eq_true_eq]
    omega
  · rw [Nat.shiftRight_eq_div_pow, Nat.div_eq_of_lt (Nat.one_lt_two_pow (by omega))]
    simp
    omega

section Step

variable {size n : ℕ} {accepted : List ℕ} {w : ReplayWindow} (h : Records size accepted w)

include h

/-- What the window answers, in terms of the history. -/
theorem isReplay_iff : isReplay n w = true ↔ (n : ℤ) < w.bottom ∨ n ∈ accepted := by
  rw [isReplay]
  split_ifs with hlow hin
  · simp [hlow]
  · have hbit := h.bits ((n : ℤ) - w.bottom).toNat
    rw [Nat.and_one_is_mod, ← Nat.testBit_zero, testBit_bsr _ _ (by omega), or_iff_right hlow,
      Nat.add_zero, hbit]
    constructor
    · rintro ⟨m, hm, heq⟩
      rwa [show n = m by omega]
    · exact fun hn => ⟨n, hn, by omega⟩
  · rw [or_iff_right hlow]
    refine ⟨nofun, fun hn => ?_⟩
    have hle := le_highestTop size hn
    have htop := h.top
    omega

/-- A number that is not a replay is recorded. -/
theorem Records.update (hn : isReplay n w = false) :
    Records size (n :: accepted) (updateReplayWindow n w) := by
  have hnew : ¬((n : ℤ) < w.bottom ∨ n ∈ accepted) := by simp [← isReplay_iff h, hn]
  obtain ⟨hlow, hmem⟩ := not_or.1 hnew
  have hnodup := List.nodup_cons.2 ⟨hmem, h.nodup⟩
  have hbottom := h.bottom
  have htop := h.top
  rw [updateReplayWindow]
  split_ifs with hslide
  · -- the window slides up to the new number, which becomes its highest bit
    refine ⟨hnodup, ?_, by dsimp only; omega, fun i => ?_⟩
    · rw [highestTop]
      dsimp only
      omega
    · have hold := h.bits (((n : ℤ) - w.top).toNat + i)
      rw [Nat.testBit_or, Bool.or_eq_true, testBit_bsl_one, testBit_bsr _ _ (by omega), hold,
        List.exists_mem_cons_iff, or_comm]
      dsimp only
      refine or_congr (by omega) (exists_congr fun m => and_congr_right fun _ => ?_)
      omega
  · refine ⟨hnodup, ?_, hbottom, fun i => ?_⟩
    · rw [highestTop]
      dsimp only
      omega
    · rw [Nat.testBit_or, Bool.or_eq_true, testBit_bsl_one, h.bits, List.exists_mem_cons_iff,
        or_comm]
      dsimp only
      exact or_congr (by omega) Iff.rfl

end Step

theorem Records.foldl {size : ℕ} {s : ReplayWindow × List ℕ} (h : Records size s.2 s.1)
    (records : List ℕ) :
    Records size (records.foldl nextRecord s).2 (records.foldl nextRecord s).1 := by
  induction records generalizing s with
  | nil => exact h
  | cons n records ih =>
    refine ih ?_
    rw [nextRecord]
    split_ifs with hn
    · exact h
    · exact h.update (by simpa using hn)

end Otp.Ssl.DtlsRecord
