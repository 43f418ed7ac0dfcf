import Mathlib

/-!
# Restart intensity of `supervisor`

`add_restart/1` decides whether a supervisor may restart a child once more. Two
shortcuts leave expired entries in the stored list, so the list is not the
window of the last `period` seconds itself. What relates the two is that every
window that can still be asked for has as many entries of the stored list as of
the whole history.
-/

namespace Otp.Stdlib.Supervisor

open List

/-- The fields of `#state` that `add_restart/1` and `purge_restarts/1` change. -/
structure State where
  restarts : List ℤ := []
  nrestarts : ℕ := 0

inductive Answer
  | ok
  | terminate
  deriving DecidableEq

/-- `?DIRTY_RESTART_LIMIT`. -/
def dirtyRestartLimit : ℕ := 1000

def canRestart : ℕ → ℤ → List ℤ → List ℤ → ℕ → Bool × ℕ × List ℤ
  | _, _, [], acc, nr => (true, nr, acc.reverse)
  | n, threshold, restart :: restarts, acc, nr =>
    if restart < threshold then (true, nr, acc.reverse)
    else match n with
      | 0 => (false, nr, acc.reverse)
      | n + 1 => canRestart n threshold restarts (restart :: acc) (nr + 1)

/-- A restart or a purge, at the second that `erlang:monotonic_time/1` answers. -/
inductive Event
  | restart (now : ℤ)
  | purge (now : ℤ)

def Event.time : Event → ℤ
  | .restart now => now
  | .purge now => now

def restartTimes : List Event → List ℤ
  | [] => []
  | .restart now :: es => now :: restartTimes es
  | .purge _ :: es => restartTimes es

/-- How many of `times` are not before `since`. -/
def countSince (since : ℤ) (times : List ℤ) : ℕ := times.countP (since ≤ ·)

section

-- the fields of `#state` that are only read
variable (intensity period : ℕ)

def addRestart (now : ℤ) (s : State) : Answer × State :=
  if intensity = 0 then (.terminate, s)
  else if s.nrestarts < min intensity dirtyRestartLimit then
    (.ok, { restarts := now :: s.restarts, nrestarts := s.nrestarts + 1 })
  else match canRestart (intensity - 1) (now - period) s.restarts [] 0 with
    | (true, nr, r) => (.ok, { restarts := now :: r, nrestarts := nr + 1 })
    | (false, nr, r) => (.terminate, { restarts := r, nrestarts := nr })

def purgeRestarts (now : ℤ) (s : State) : State :=
  match s.restarts with
  | [] => s
  | r :: _ => if r < now - period then { restarts := [], nrestarts := 0 } else s

/-- The answers of `add_restart/1` and the last state; a supervisor that is
told to terminate handles no further event. -/
def run : State → List Event → List Answer × State
  | s, [] => ([], s)
  | s, .purge now :: es => run (purgeRestarts period now s) es
  | s, .restart now :: es =>
    match addRestart intensity period now s with
    | (.ok, s') => (.ok :: (run s' es).1, (run s' es).2)
    | (.terminate, s') => ([.terminate], s')

/-- Restart `k` is one too many: the restarts up to it that lie in the period
that ends with it exceed the intensity. -/
def Exceeds (times : List ℤ) (k : ℕ) : Prop :=
  intensity < countSince (times.getD k 0 - period) (times.take (k + 1))

/-- The list is counted and no longer than the intensity. -/
structure Bounded (s : State) : Prop where
  counted : s.nrestarts = s.restarts.length
  length_le : s.restarts.length ≤ intensity

/-- The stored list is sorted, latest first, and stands for the history `past`
in every window that starts at `now - period` or later. -/
structure Tracks (past : List ℤ) (now : ℤ) (s : State) : Prop extends Bounded intensity s where
  sorted : s.restarts.Pairwise (· ≥ ·)
  le_now : ∀ r ∈ s.restarts, r ≤ now
  window : ∀ since, now - period ≤ since → countSince since past = countSince since s.restarts

end

/-! ## One event -/

/-- In a sorted list the latest entry decides whether all have expired. -/
theorem countSince_of_head_lt {since r : ℤ} {restarts : List ℤ}
    (hs : (r :: restarts).Pairwise (· ≥ ·)) (hr : r < since) :
    countSince since (r :: restarts) = 0 := by
  have hall : ∀ x ∈ r :: restarts, x < since :=
    forall_mem_cons.mpr ⟨hr, fun x hx => lt_of_le_of_lt ((pairwise_cons.mp hs).1 x hx) hr⟩
  simpa [countSince, countP_eq_zero] using hall

/-- The walk over a sorted list keeps the window and compares its length with
the bound. -/
theorem canRestart_eq (n : ℕ) (threshold : ℤ) (restarts acc : List ℤ) (nr : ℕ)
    (hs : restarts.Pairwise (· ≥ ·)) :
    canRestart n threshold restarts acc nr =
      if countSince threshold restarts ≤ n then
        (true, nr + countSince threshold restarts,
          acc.reverse ++ restarts.filter (threshold ≤ ·))
      else (false, nr + n, acc.reverse ++ restarts.take n) := by
  induction restarts generalizing n acc nr with
  | nil => simp [canRestart, countSince]
  | cons r restarts ih =>
    by_cases hlt : r < threshold
    · have hzero := countSince_of_head_lt hs hlt
      have hfilter : (r :: restarts).filter (threshold ≤ ·) = [] := by
        rw [← length_eq_zero_iff, ← countP_eq_length_filter]
        exact hzero
      cases n <;> simp [canRestart, hlt, hzero, hfilter]
    · have hcount : countSince threshold (r :: restarts) = countSince threshold restarts + 1 :=
        countP_cons_of_pos (by simpa using hlt)
      cases n with
      | zero => simp [canRestart, hlt, hcount]
      | succ n =>
        rw [canRestart, if_neg hlt, ih n _ _ hs.of_cons, hcount,
          filter_cons_of_pos (by simpa using hlt)]
        simp [Nat.add_assoc, Nat.add_comm 1]

variable {intensity period : ℕ} {s : State} {past : List ℤ} {now t : ℤ}

section

variable (h : Tracks intensity period past now s) (ht : now ≤ t)

include h ht

/-- An allowed restart: `kept` is what is left of the stored list. -/
theorem Tracks.push {kept : List ℤ}
    (hsub : kept.Sublist s.restarts) (hlen : kept.length < intensity)
    (hkept : ∀ since, t - period ≤ since → countSince since kept = countSince since s.restarts) :
    Tracks intensity period (past ++ [t]) t ⟨t :: kept, kept.length + 1⟩ := by
  have hle : ∀ r ∈ kept, r ≤ t := fun r hr => (h.le_now r (hsub.subset hr)).trans ht
  refine ⟨⟨rfl, hlen⟩, pairwise_cons.mpr ⟨hle, h.sorted.sublist hsub⟩,
    forall_mem_cons.mpr ⟨le_rfl, hle⟩, fun since hsince => ?_⟩
  have hpast := h.window since (by omega)
  have hnew := hkept since hsince
  simp only [countSince, countP_append, countP_cons, countP_nil] at hpast hnew ⊢
  omega

/-- One restart: it is refused exactly when its window holds too many. -/
theorem addRestart_spec : ((addRestart intensity period t s).1 = .terminate ↔
      intensity < countSince (t - period) (past ++ [t])) ∧
    ((addRestart intensity period t s).1 = .ok →
      Tracks intensity period (past ++ [t]) t (addRestart intensity period t s).2) ∧
    Bounded intensity (addRestart intensity period t s).2 := by
  have hcount : countSince (t - period) (past ++ [t]) =
      countSince (t - period) s.restarts + 1 := by
    rw [← h.window _ (by omega)]
    simp [countSince]
  have hle : countSince (t - period) s.restarts ≤ s.restarts.length := countP_le_length
  rw [addRestart, hcount, h.counted]
  split_ifs with hzero hdirty
  · exact ⟨by simp [hzero], by simp, h.toBounded⟩
  · have hlt := lt_of_lt_of_le hdirty (min_le_left _ _)
    have hpush := h.push ht (List.Sublist.refl _) hlt fun _ _ => rfl
    exact ⟨by simp; omega, fun _ => hpush, hpush.toBounded⟩
  · rw [canRestart_eq _ _ _ _ _ h.sorted]
    by_cases hfit : countSince (t - period) s.restarts ≤ intensity - 1
    · have hkept : (s.restarts.filter (t - period ≤ ·)).length =
          countSince (t - period) s.restarts := countP_eq_length_filter.symm
      have hsame : ∀ since, t - period ≤ since → countSince since
          (s.restarts.filter (t - period ≤ ·)) = countSince since s.restarts := by
        intro since hsince
        refine (countP_filter ..).trans (countP_congr fun r _ => ?_)
        simp
        omega
      have hpush := h.push ht filter_sublist (by omega) hsame
      rw [hkept] at hpush
      simp only [if_pos hfit, reverse_nil, nil_append, Nat.zero_add]
      exact ⟨by simp; omega, fun _ => hpush, hpush.toBounded⟩
    · simp only [if_neg hfit, reverse_nil, nil_append, Nat.zero_add]
      exact ⟨by simp; omega, by simp, ⟨by simp; omega, by simp⟩⟩

theorem purgeRestarts_tracks :
    Tracks intensity period past t (purgeRestarts period t s) := by
  have hlater : Tracks intensity period past t s :=
    ⟨h.toBounded, h.sorted, fun r hr => (h.le_now r hr).trans ht,
      fun since hsince => h.window since (by omega)⟩
  rw [purgeRestarts]
  split
  · exact hlater
  next r rest hr =>
    split_ifs with hlt
    · refine ⟨⟨rfl, Nat.zero_le _⟩, List.Pairwise.nil, by simp, fun since hsince => ?_⟩
      rw [hlater.window since hsince, hr]
      exact countSince_of_head_lt (hr ▸ h.sorted) (by omega)
    · exact hlater

end

/-! ## Whole histories -/

theorem exceeds_append (past rest : List ℤ) (t : ℤ) :
    Exceeds intensity period (past ++ t :: rest) past.length ↔
      intensity < countSince (t - period) (past ++ [t]) := by
  simp [Exceeds, take_append, take_of_length_le]

/-- From any state that tracks its history: restart `k` from now on is answered
when no earlier one exceeded, and with `terminate` when it does itself. -/
theorem run_spec (es : List Event) (h : Tracks intensity period past now s)
    (hes : (now :: es.map Event.time).Pairwise (· ≤ ·)) :
    (∀ k a, (run intensity period s es).1[k]? = some a ↔
      past.length + k < (past ++ restartTimes es).length ∧
      (∀ j < k, ¬ Exceeds intensity period (past ++ restartTimes es) (past.length + j)) ∧
      (a = .terminate ↔
        Exceeds intensity period (past ++ restartTimes es) (past.length + k))) ∧
    Bounded intensity (run intensity period s es).2 := by
  induction es generalizing s past now with
  | nil => exact ⟨by simp [run, restartTimes], h.toBounded⟩
  | cons e es ih =>
    obtain ⟨hnow, hes⟩ := pairwise_cons.mp hes
    have ht : now ≤ e.time := hnow _ mem_cons_self
    cases e with
    | purge t => exact ih (purgeRestarts_tracks h ht) hes
    | restart t =>
      obtain ⟨hanswer, htracks, hbounded⟩ := addRestart_spec h ht
      rw [Event.time, ← exceeds_append past (restartTimes es) t] at hanswer
      simp only [run, restartTimes]
      rcases hadd : addRestart intensity period t s with ⟨_ | _, s'⟩
      · rw [Event.time, hadd] at htracks
        obtain ⟨hrest, hbounded⟩ := ih (htracks rfl) hes
        refine ⟨fun k a => ?_, hbounded⟩
        cases k with
        | zero => cases a <;> simp_all
        | succ k =>
          have hlen (j : ℕ) : (past ++ [t]).length + j = past.length + (j + 1) := by
            simp
            omega
          rw [getElem?_cons_succ, hrest k a, Nat.forall_lt_succ_left]
          simp_all
      · rw [Event.time, hadd] at hbounded
        rw [hadd] at hanswer
        refine ⟨fun k a => ?_, hbounded⟩
        have hex := hanswer.mp rfl
        cases k with
        | zero => cases a <;> simp_all
        | succ k => simpa using fun _ hj => absurd hex (hj 0 (Nat.zero_le k))

/-- Restart intensity is enforced exactly: `add_restart/1` answers `ok` up to
the first restart whose window holds more than `intensity` restarts and
`terminate` at that one, whatever is purged in between. -/
theorem addRestart_enforces_intensity (intensity period : ℕ) (es : List Event)
    (hes : (es.map Event.time).Pairwise (· ≤ ·)) :
    (∀ k a, (run intensity period {} es).1[k]? = some a ↔
      k < (restartTimes es).length ∧
      (∀ j < k, ¬ Exceeds intensity period (restartTimes es) j) ∧
      (a = .terminate ↔ Exceeds intensity period (restartTimes es) k)) ∧
    (run intensity period {} es).2.restarts.length ≤ max intensity dirtyRestartLimit ∧
    (run intensity period {} es).2.nrestarts = (run intensity period {} es).2.restarts.length := by
  cases es with
  | nil => exact ⟨by simp [run, restartTimes], Nat.zero_le _, rfl⟩
  | cons e es =>
    have hfirst : (e.time :: (e :: es).map Event.time).Pairwise (· ≤ ·) :=
      pairwise_cons.mpr
        ⟨forall_mem_cons.mpr ⟨le_rfl, (pairwise_cons.mp hes).1⟩, hes⟩
    have hstart : Tracks intensity period [] e.time {} :=
      ⟨⟨rfl, Nat.zero_le _⟩, List.Pairwise.nil, by simp, fun _ _ => rfl⟩
    obtain ⟨hanswers, hbounded⟩ := run_spec (e :: es) hstart hfirst
    simp only [nil_append, length_nil, Nat.zero_add] at hanswers
    exact ⟨hanswers, hbounded.length_le.trans (le_max_left _ _), hbounded.counted⟩

/-- Two restarts are allowed in five seconds: the one at second 1 has expired
at second 8, and the one at second 10 is the third since second 5. -/
theorem addRestart_enforces_intensity_two_in_five :
    (([.restart 1, .restart 6, .purge 7, .restart 8, .restart 10] : List Event).map
      Event.time).Pairwise (· ≤ ·) ∧
    (run 2 5 {} [.restart 1, .restart 6, .purge 7, .restart 8, .restart 10]).1[3]? =
      some .terminate ∧
    ¬ Exceeds 2 5 [1, 6, 8, 10] 2 ∧ Exceeds 2 5 [1, 6, 8, 10] 3 := by
  have hes : (([.restart 1, .restart 6, .purge 7, .restart 8, .restart 10] : List Event).map
      Event.time).Pairwise (· ≤ ·) := by decide
  obtain ⟨-, hbefore, hat⟩ :=
    ((addRestart_enforces_intensity 2 5 _ hes).1 3 .terminate).mp (by decide)
  exact ⟨hes, by decide, hbefore 2 (by decide), hat.mp rfl⟩

end Otp.Stdlib.Supervisor
