import Otp.Erts.BinarySearch.Automaton

/-!
# The search for several patterns is leftmost-longest

Before the byte at `i`, the automaton is at the longest suffix of the bytes read that is a
prefix of a pattern.  The search for the first match keeps the best of the matches that end at
`i` or before (`FirstInv`), and stops when no match to come can start as early.  The search for
all matches keeps the greedy list of them (`AllInv`).  Both invariants hold in the states in
which a search is interrupted, so its answer does not depend on how it is cut into slices.
-/

namespace Otp.Erts.BinarySearch

open Lib.LongestSuffix List
open Lib.Occurrences
open ACTrie (root)

variable {act : ACTrie} {patterns : List (List Byte)} {haystack : List Byte}
  {hsstart hsend : ℕ} {i candidateStart : ℕ} {q : Addr} {p : List Byte} {st : ACFindFirstState}
  {s : Skip} {out : List Span}

/-- The matches that start in the range and end at `i` or before. -/
def Ended (patterns : List (List Byte)) (haystack : List Byte) (hsstart i : ℕ) (s : Span) : Prop :=
  Occurrence patterns haystack i s ∧ hsstart ≤ s.pos

/-- The automaton after the bytes before `i`. -/
def At (patterns : List (List Byte)) (haystack : List Byte) (hsstart i : ℕ) (q : Addr) : Prop :=
  IsLongest (PrefixOf patterns) ((haystack.take i).drop hsstart) q

/-! ## Steps -/

theorem At.length_le (h : At patterns haystack hsstart i q) : q.length ≤ i - hsstart := by
  have := h.suffix.length_le
  rw [length_drop, length_take] at this
  omega

/-- A match that has been started and not ended is part of where the automaton is. -/
theorem At.le_length (h : At patterns haystack hsstart i q) (hi : i ≤ haystack.length)
    (hp : p ∈ patterns) {s : ℕ} (hs : hsstart ≤ s) (hsi : s ≤ i) (hip : i ≤ s + p.length)
    (hocc : OccursAt p haystack s) : i - s ≤ q.length := by
  have hlen : (p.take (i - s)).length = i - s := by
    rw [length_take]
    omega
  have hsuf : p.take (i - s) <:+ (haystack.take i).drop hsstart := by
    rw [suffix_drop_take_iff hi, hlen]
    refine ⟨by omega, fun k hk => ?_⟩
    rw [List.getElem?_take_of_lt (by omega), show i - (i - s) + k = s + k by omega]
    exact hocc k (by omega)
  have := (h.longest _ (.inr ⟨p, hp, take_prefix _ _⟩) hsuf).length_le
  omega

/-- The matches that end at `i`. -/
theorem At.ended_iff (h : At patterns haystack hsstart (i + 1) q) (hi : i + 1 ≤ haystack.length)
    (hset : PatternSet patterns) (s : Span) :
    Ended patterns haystack hsstart (i + 1) s ↔
      Ended patterns haystack hsstart i s ∨
        ∃ p ∈ patterns, p <:+ q ∧ s = ⟨i + 1 - p.length, p.length⟩ := by
  constructor
  · intro hs
    obtain ⟨⟨p, hp, hlen, hstop, hocc⟩, hle⟩ := hs
    by_cases hold : s.stop ≤ i
    · exact .inl ⟨⟨p, hp, hlen, hold, hocc⟩, hle⟩
    · have hpos : s.pos = i + 1 - p.length := by
        rw [Span.stop] at hold hstop
        omega
      refine .inr ⟨p, hp, ?_, ?_⟩
      · refine h.longest p (prefixOf_of_mem hp) ((suffix_drop_take_iff hi).2 ⟨?_, hpos ▸ hocc⟩)
        rw [Span.stop] at hstop hold
        omega
      · rw [← hpos, ← hlen]
  · intro hs
    rcases hs with ⟨⟨p, hp, hlen, hstop, hocc⟩, hle⟩ | ⟨p, hp, hsuf, rfl⟩
    · exact ⟨⟨p, hp, hlen, by omega, hocc⟩, hle⟩
    · obtain ⟨hle, hocc⟩ := (suffix_drop_take_iff hi).1 (hsuf.trans h.suffix)
      have hpos := length_pos_iff.2 (hset.nonempty p hp)
      refine ⟨⟨p, hp, rfl, ?_, hocc⟩, ?_⟩
      · rw [Span.stop]
        dsimp only
        omega
      · dsimp only
        omega

/-- A step of the automaton. -/
theorem advance_spec (h : Automaton act patterns) (hq : At patterns haystack hsstart i q)
    (hle : hsstart ≤ i) (hi : i < haystack.length) :
    ∃ q', (haystack[i]?.bind fun c => acAdvance act c (q.length + 1) q) = some q' ∧
      At patterns haystack hsstart (i + 1) q' := by
  have hc := List.getElem?_eq_getElem hi
  obtain ⟨q', heq, hlong⟩ := acAdvance_spec h haystack[i] hq.mem (Nat.lt_succ_self q.length)
  refine ⟨q', by rw [hc]; exact heq, ?_⟩
  rw [At, drop_take_succ hle hc]
  exact IsLongest.concat h.closed hq hlong

/-- At the root, bytes that no pattern starts with change nothing. -/
theorem At.skip {k : ℕ} (ha : Automaton act patterns) (hset : PatternSet patterns)
    (h : At patterns haystack hsstart i root) (hle : hsstart ≤ i) (hik : i + k ≤ haystack.length)
    (hnone : ∀ j < k, ∀ c, haystack[i + j]? = some c → ¬ PrefixOf patterns [c]) :
    At patterns haystack hsstart (i + k) root ∧ ∀ s,
      Ended patterns haystack hsstart (i + k) s ↔ Ended patterns haystack hsstart i s := by
  induction k with
  | zero => exact ⟨h, fun s => Iff.rfl⟩
  | succ k ih =>
    obtain ⟨hat, hended⟩ := ih (by omega) fun j hj => hnone j (by omega)
    have hlt : i + k < haystack.length := by omega
    have hc := List.getElem?_eq_getElem hlt
    have hno := hnone k (by omega) _ hc
    have hat' : At patterns haystack hsstart (i + k + 1) root := by
      rw [At, drop_take_succ (by omega) hc]
      exact IsLongest.concat ha.closed hat (isLongest_of_no_step (.inl rfl) hno)
    refine ⟨hat', fun s => ?_⟩
    rw [← hended s, ← Nat.add_assoc, hat'.ended_iff (by omega) hset s]
    refine or_iff_left fun hp => ?_
    obtain ⟨p, hp, hsuf, -⟩ := hp
    exact hset.nonempty p hp (suffix_nil.1 hsuf)

/-! ## First match -/

/-- The candidate is the best of the matches that end at `i` or before. -/
def Best (patterns : List (List Byte)) (haystack : List Byte) (hsstart i : ℕ)
    (candidate : Option Addr) (candidateStart : ℕ) : Prop :=
  match candidate with
  | none => ∀ s, ¬ Ended patterns haystack hsstart i s
  | some c => c ∈ patterns ∧ Ended patterns haystack hsstart i ⟨candidateStart, c.length⟩ ∧
      ∀ s, Ended patterns haystack hsstart i s → Span.Before ⟨candidateStart, c.length⟩ s

theorem Best.congr {j : ℕ} {candidate : Option Addr}
    (h : Best patterns haystack hsstart i candidate candidateStart)
    (heq : ∀ s, Ended patterns haystack hsstart j s ↔ Ended patterns haystack hsstart i s) :
    Best patterns haystack hsstart j candidate candidateStart := by
  cases candidate with
  | none => exact fun s hs => h s ((heq s).1 hs)
  | some c => exact ⟨h.1, (heq _).2 h.2.1, fun s hs => h.2.2 s ((heq s).1 hs)⟩

structure FirstInv (patterns : List (List Byte)) (haystack : List Byte) (hsstart hsend : ℕ)
    (st : ACFindFirstState) : Prop where
  start : hsstart ≤ st.pos
  stop : st.pos ≤ hsend
  state : At patterns haystack hsstart st.pos st.q
  best : Best patterns haystack hsstart st.pos st.candidate st.candidateStart

/-- What a slice of the search may answer. -/
def ACFirstResult.Right (patterns : List (List Byte)) (haystack : List Byte) (hsstart hsend : ℕ)
    (pos reds : ℕ) : ACFirstResult → Prop
  | .notFound => Exhausted (Occurrence patterns haystack hsend) hsstart
  | .ok s => IsNext (Occurrence patterns haystack hsend) hsstart s
  | .restart st => FirstInv patterns haystack hsstart hsend st ∧ pos ≤ st.pos ∧
      (0 < reds → pos < st.pos)

theorem ended_pos {s : Span} (hset : PatternSet patterns)
    (h : Ended patterns haystack hsstart i s) :
    0 < s.len := by
  obtain ⟨⟨p, hp, hlen, -, -⟩, -⟩ := h
  rw [hlen]
  exact length_pos_iff.2 (hset.nonempty p hp)

/-- The answer, when the candidate is the best of all matches. -/
theorem firstDone_spec (h : Automaton act patterns) (pos reds : ℕ)
    (hbest : Best patterns haystack hsstart hsend st.candidate st.candidateStart) :
    ∃ r, firstDone act st = some r ∧ r.Right patterns haystack hsstart hsend pos reds := by
  rw [firstDone]
  cases hc : st.candidate with
  | none =>
    rw [hc] at hbest
    refine ⟨_, rfl, fun s hs => ?_⟩
    by_contra hle
    exact hbest s ⟨hs, Nat.not_lt.1 hle⟩
  | some c =>
    rw [hc] at hbest
    obtain ⟨hmem, hended, hall⟩ := hbest
    obtain ⟨node, hn⟩ := h.node (prefixOf_of_mem hmem)
    refine ⟨.ok ⟨st.candidateStart, node.d⟩, by dsimp only; rw [hn]; rfl, ?_⟩
    rw [h.depth c node hn]
    exact ⟨hended.1, hended.2, fun s hs hle => hall s ⟨hs, hle⟩⟩

/-- When the automaton has left the candidate behind, no match to come is better. -/
theorem best_of_left (hset : PatternSet patterns) {c : Addr}
    (hbest : Best patterns haystack hsstart i (some c) candidateStart)
    (hat : At patterns haystack hsstart (i + 1) q) (hi : i + 1 ≤ hsend)
    (hlen : hsend ≤ haystack.length) (hleft : i + 1 - q.length > candidateStart) :
    Best patterns haystack hsstart hsend (some c) candidateStart := by
  obtain ⟨hmem, hended, hall⟩ := hbest
  have hstop : candidateStart + c.length ≤ i := hended.1.choose_spec.2.2.1
  have hpos := ended_pos hset hended
  obtain ⟨⟨p, hp, hplen, -, hocc⟩, hle⟩ := hended
  refine ⟨hmem, ⟨⟨p, hp, hplen, by rw [Span.stop]; dsimp only; omega, hocc⟩, hle⟩, fun s hs => ?_⟩
  obtain ⟨⟨p', hp', hlen', hstop', hocc'⟩, hle'⟩ := hs
  by_cases hold : s.stop ≤ i
  · exact hall s ⟨⟨p', hp', hlen', hold, hocc'⟩, hle'⟩
  · refine .inl ?_
    dsimp only at hpos ⊢
    rw [Span.stop] at hold
    by_cases hstarted : s.pos ≤ i + 1
    · have := hat.le_length (by omega) hp' hle' hstarted (by omega) hocc'
      omega
    · omega

/-- The matches that end at `i + 1`, and the longest of them. -/
theorem longest_before {v : List Byte} (hsuf : p <:+ v) (hv : v.length ≤ i + 1) :
    Span.Before ⟨i + 1 - v.length, v.length⟩ ⟨i + 1 - p.length, p.length⟩ := by
  have := hsuf.length_le
  simp only [Span.Before]
  omega

section

variable (h : Automaton act patterns) (hset : PatternSet patterns)

include h hset

theorem newCandidate_spec {qnode : ACNode} (hat : At patterns haystack hsstart (i + 1) q)
    (hi : i + 1 ≤ haystack.length) (hn : act.nodes q = some qnode)
    (hbest : Best patterns haystack hsstart i st.candidate st.candidateStart) :
    ∃ st', newCandidate act q qnode (i + 1) st = some st' ∧ st'.q = q ∧
      Best patterns haystack hsstart (i + 1) st'.candidate st'.candidateStart := by
  have hended := hat.ended_iff hi hset
  rw [newCandidate]
  split_ifs with hfinal
  · obtain ⟨v, vn, hfirst, hvn, hv, hvsuf, hlong⟩ :=
      firstFinal_spec h hat.mem ((h.final_ne q qnode hn).1 hfinal) (Nat.lt_succ_self q.length)
    rw [hfirst]
    dsimp only
    rw [h.depth v vn hvn]
    have hvq := hvsuf.length_le
    have hqi := hat.length_le
    have hnew : Ended patterns haystack hsstart (i + 1) ⟨i + 1 - v.length, v.length⟩ :=
      (hended _).2 (.inr ⟨v, hv, hvsuf, rfl⟩)
    -- the new match is the best of those that end here
    have hhere : ∀ p ∈ patterns, p <:+ q →
        Span.Before ⟨i + 1 - v.length, v.length⟩ ⟨i + 1 - p.length, p.length⟩ :=
      fun p hp hsuf => longest_before (hlong p hp hsuf) (by omega)
    cases hc : st.candidate with
    | none =>
      rw [hc] at hbest
      refine ⟨_, rfl, rfl, hv, hnew, fun s hs => ?_⟩
      rcases (hended s).1 hs with hold | ⟨p, hp, hsuf, rfl⟩
      · exact absurd hold (hbest s)
      · exact hhere p hp hsuf
    | some c =>
      rw [hc] at hbest
      obtain ⟨hmem, hcend, hall⟩ := hbest
      obtain ⟨cn, hcn⟩ := h.node (prefixOf_of_mem hmem)
      have hstop : st.candidateStart + c.length ≤ i := hcend.1.choose_spec.2.2.1
      dsimp only
      rw [hcn]
      dsimp only
      rw [h.depth c cn hcn, h.depth q qnode hn]
      split_ifs with hbetter
      · refine ⟨_, rfl, rfl, hv, hnew, fun s hs => ?_⟩
        rcases (hended s).1 hs with hold | ⟨p, hp, hsuf, rfl⟩
        · have := hall s hold
          simp only [Span.Before] at this ⊢
          omega
        · exact hhere p hp hsuf
      · refine ⟨_, rfl, rfl, hmem, (hended _).2 (.inl hcend), fun s hs => ?_⟩
        rcases (hended s).1 hs with hold | ⟨p, hp, hsuf, rfl⟩
        · exact hall s hold
        · have := hhere p hp hsuf
          simp only [Span.Before] at this ⊢
          omega
  · have hsame : ∀ s, Ended patterns haystack hsstart (i + 1) s ↔
        Ended patterns haystack hsstart i s := by
      intro s
      rw [hended s]
      refine or_iff_left fun hp => hfinal ((h.final_ne q qnode hn).2 ?_)
      obtain ⟨p, hp, hsuf, -⟩ := hp
      exact ⟨p, hp, hsuf⟩
    exact ⟨_, rfl, rfl, hbest.congr hsame⟩

variable (simd : Bool) (hlen : hsend ≤ haystack.length) (reds : ℕ)

include simd hlen reds

/-- The place after the skip at the root, in both searches: the matches that have ended are
those before it. -/
theorem At.rootSkip (hstart : hsstart ≤ i) (hlt : i < hsend)
    (hat : At patterns haystack hsstart i q) {c : Prop} [Decidable c] (hroot : c → q = root)
    (hs : s = if c then acRootSkip simd act haystack hsend reds i else ⟨0, reds, false⟩) :
    (hsstart ≤ i + s.skip ∧ i + s.skip ≤ hsend ∧ At patterns haystack hsstart (i + s.skip) q ∧
      ∀ m, Ended patterns haystack hsstart (i + s.skip) m ↔ Ended patterns haystack hsstart i m) ∧
      (0 < reds → s.found = false → s.left = 0 → 0 < s.skip) := by
  split_ifs at hs with hc
  · obtain ⟨hright, hused⟩ := acRootSkip_spec h simd hlen hlt reds
    rw [← hs] at hright hused
    rw [hroot hc] at hat ⊢
    obtain ⟨hat', hsame⟩ := hat.skip h hset hstart (Nat.le_trans hright.le hlen) hright.none
    exact ⟨⟨Nat.le_trans hstart (Nat.le_add_right _ _), hright.le, hat', hsame⟩, hused⟩
  · subst hs
    exact ⟨⟨hstart, hlt.le, hat, fun _ => Iff.rfl⟩, fun hpos _ hz => absurd hz (Nat.ne_of_gt hpos)⟩

theorem acFindFirstMatch_spec (st : ACFindFirstState)
    (hinv : FirstInv patterns haystack hsstart hsend st) :
    ∃ r, acFindFirstMatch simd act haystack hsend reds st = some r ∧
      r.Right patterns haystack hsstart hsend st.pos reds := by
  induction hn : hsend - st.pos using Nat.strongRecOn generalizing reds st with
  | ind n ih =>
    rw [acFindFirstMatch]
    by_cases hlt : st.pos < hsend
    · dsimp only
      generalize hs : (if st.candidate = none ∧ st.q = root then
        acRootSkip simd act haystack hsend reds st.pos else (⟨0, reds, false⟩ : Skip)) = s
      obtain ⟨⟨hstart, hstop, hat, hsame⟩, hused⟩ :=
        hinv.state.rootSkip h hset simd hlen reds hinv.start hlt And.right hs.symm
      have hinv1 : FirstInv patterns haystack hsstart hsend { st with pos := st.pos + s.skip } :=
        ⟨hstart, hstop, hat, hinv.best.congr hsame⟩
      generalize (if s.found = true then s.left else s.left - 1) = reds'
      split_ifs with hend hreds
      · have hbest := hinv1.best
        rw [hend] at hbest
        exact firstDone_spec h _ _ hbest
      · refine ⟨_, rfl, hinv1, Nat.le_add_right _ _, fun hpos => ?_⟩
        have := hused hpos (by simpa using hreds.1) hreds.2
        show st.pos < st.pos + s.skip
        omega
      · have hi : st.pos + s.skip < hsend := Nat.lt_of_le_of_ne hinv1.stop hend
        have hroom : st.pos + s.skip < haystack.length := by omega
        obtain ⟨q, hq, hat⟩ := advance_spec h hinv1.state hinv1.start hroom
        rw [hq]
        dsimp only
        obtain ⟨qnode, hqn⟩ := h.node hat.mem
        rw [hqn]
        dsimp only
        rw [h.depth q qnode hqn]
        split_ifs with hleft
        · obtain ⟨c, hc⟩ := Option.ne_none_iff_exists'.1 hleft.1
          have hbest := hinv1.best
          rw [hc] at hbest
          refine firstDone_spec h _ _ ?_
          rw [hc]
          exact best_of_left hset hbest hat hi hlen hleft.2
        · obtain ⟨st', hnew, hq', hbest'⟩ :=
            newCandidate_spec h hset hat hroom hqn hinv1.best
          rw [show newCandidate act q qnode (st.pos + s.skip + 1) st = some st' from hnew]
          have hinv' : FirstInv patterns haystack hsstart hsend
              { st' with pos := st.pos + s.skip + 1 } :=
            ⟨Nat.le_trans hinv1.start (Nat.le_succ _), hi, by
              rw [hq']
              exact hat, hbest'⟩
          obtain ⟨r, heq, hright⟩ := ih (hsend - (st.pos + s.skip + 1)) (by omega) reds' _ hinv' rfl
          refine ⟨r, heq, ?_⟩
          cases r with
          | notFound | ok m => exact hright
          | restart st'' =>
            refine ⟨hright.1, ?_, fun _ => ?_⟩
            · exact Nat.le_trans (by show st.pos ≤ st.pos + s.skip + 1; omega) hright.2.1
            · exact Nat.lt_of_lt_of_le (by show st.pos < st.pos + s.skip + 1; omega) hright.2.1
    · have heq : st.pos = hsend := by
        have := hinv.stop
        omega
      rw [if_neg hlt]
      exact firstDone_spec h _ _ (heq ▸ hinv.best)

end

/-! ## All matches -/

theorem addMatch_eq (out : List Span) (rstart d : ℕ) :
    addMatch out rstart d = insertSpan out ⟨rstart, d⟩ := by
  have hpop : (fun s : Span => decide (s.pos > rstart ∨ s.pos = rstart ∧ s.len < d)) =
      fun s : Span => decide (¬ s.Before ⟨rstart, d⟩) := by
    funext s
    rw [decide_eq_decide, Span.Before]
    dsimp only
    omega
  rw [addMatch, insertSpan, hpop]
  generalize out.rdropWhile (fun s : Span => decide (¬ s.Before ⟨rstart, d⟩)) = kept
  cases hlast : kept.getLast? with
  | none =>
    rw [List.getLast?_eq_none_iff.1 hlast]
    simp
  | some last => simp [Span.stop]

/-- From a node on the way along the failures: the patterns at the end of the node are still to
be added. -/
theorem addMatches_spec (h : Automaton act patterns) (hset : PatternSet patterns)
    (hat : At patterns haystack hsstart (i + 1) q) (hi : i + 1 ≤ haystack.length) {r : Addr}
    (hr : PrefixOf patterns r) (hrq : r <:+ q) {fuel : ℕ} (hfuel : r.length < fuel)
    (hout : Greedy (fun s => Ended patterns haystack hsstart i s ∨ ∃ p ∈ patterns,
      p <:+ q ∧ ¬ p <:+ r ∧ s = ⟨i + 1 - p.length, p.length⟩) hsstart out) :
    ∃ out', addMatches act (i + 1) fuel r out = some out' ∧
      Greedy (Ended patterns haystack hsstart (i + 1)) hsstart out' := by
  have hqi := hat.length_le
  have hended := hat.ended_iff hi hset
  -- a match that has been added is one that ends here
  have hadded : ∀ r' s, (Ended patterns haystack hsstart i s ∨ ∃ p ∈ patterns,
      p <:+ q ∧ ¬ p <:+ r' ∧ s = ⟨i + 1 - p.length, p.length⟩) →
      Ended patterns haystack hsstart (i + 1) s := by
    intro r' s hs
    rcases hs with hs | ⟨p, hp, hsuf, -, rfl⟩
    · exact (hended s).2 (.inl hs)
    · exact (hended _).2 (.inr ⟨p, hp, hsuf, rfl⟩)
  induction fuel generalizing r out with
  | zero => omega
  | succ fuel ih =>
    obtain ⟨node, hn⟩ := h.node hr
    rw [addMatches, hn]
    dsimp only
    split_ifs with hfinal
    · obtain ⟨v, vn, hfirst, hvn, hv, hvsuf, hlong⟩ :=
        firstFinal_spec h hr ((h.final_ne r node hn).1 hfinal) (Nat.lt_succ_self r.length)
      have hvne := hset.nonempty v hv
      have hvlen := length_pos_iff.2 hvne
      obtain ⟨f, hh, hf⟩ := h.fail v vn hvne hvn
      have hflt := hf.length_lt
      have hvr := hvsuf.length_le
      have hrlen := hrq.length_le
      rw [hfirst]
      dsimp only
      rw [hh]
      rw [h.depth v vn hvn, addMatch_eq]
      refine ih hf.mem (hf.suffix.trans (hvsuf.trans hrq)) (by omega) ?_
      have hins := hout.insertSpan (y := ⟨i + 1 - v.length, v.length⟩)
        (fun s hs => ended_pos hset (hadded r s hs)) hvlen
        (fun s hs => by
          have hstop := (hadded r s hs).1.choose_spec.2.2.1
          rw [Span.stop] at hstop ⊢
          rw [Span.stop]
          dsimp only
          omega)
        (by dsimp only; omega)
      refine hins.congr (fun s hs _ => ?_) fun s _ => ?_
      · rcases hs with hs | rfl
        · exact ended_pos hset (hadded r s hs)
        · exact hvlen
      · -- the patterns that are not at the end of the failure: the old ones and `v`
        constructor
        · intro hs
          rcases hs with (hs | ⟨p, hp, hsuf, hno, rfl⟩) | rfl
          · exact .inl hs
          · refine .inr ⟨p, hp, hsuf, fun hpf => hno ?_, rfl⟩
            exact hpf.trans (hf.suffix.trans hvsuf)
          · refine .inr ⟨v, hv, hvsuf.trans hrq, fun hvf => ?_, rfl⟩
            have := hvf.length_le
            omega
        · intro hs
          rcases hs with hs | ⟨p, hp, hsuf, hno, rfl⟩
          · exact .inl (.inl hs)
          · by_cases hpr : p <:+ r
            · have hpv := hlong p hp hpr
              by_cases heq : p = v
              · rw [heq]
                exact .inr rfl
              · exact absurd (Automaton.suffix_fail hf hp hpv heq) hno
            · exact .inl (.inr ⟨p, hp, hsuf, hpr, rfl⟩)
    · refine ⟨out, rfl, hout.congr (fun s hs _ => ended_pos hset (hadded r s hs)) fun s _ => ?_⟩
      rw [hended s]
      refine or_congr_right ?_
      constructor
      · intro hs
        obtain ⟨p, hp, hsuf, -, heq⟩ := hs
        exact ⟨p, hp, hsuf, heq⟩
      · intro hs
        obtain ⟨p, hp, hsuf, heq⟩ := hs
        exact ⟨p, hp, hsuf, fun hpr => hfinal ((h.final_ne r node hn).2 ⟨p, hp, hpr⟩), heq⟩

structure AllInv (patterns : List (List Byte)) (haystack : List Byte) (hsstart hsend : ℕ)
    (st : ACFindAllState) : Prop where
  start : hsstart ≤ st.pos
  stop : st.pos ≤ hsend
  state : At patterns haystack hsstart st.pos st.q
  greedy : Greedy (Ended patterns haystack hsstart st.pos) hsstart st.out

/-- What a slice of the search may answer. -/
def ACAllResult.Right (patterns : List (List Byte)) (haystack : List Byte) (hsstart hsend : ℕ)
    (pos reds : ℕ) (r : ACAllResult) : Prop :=
  (∃ out, r = acAllDone out ∧ Greedy (Occurrence patterns haystack hsend) hsstart out) ∨
  ∃ st, r = .restart st ∧ AllInv patterns haystack hsstart hsend st ∧ pos ≤ st.pos ∧
    (1 < reds → reds < wordSize → pos < st.pos)

theorem right_acAllDone (hset : PatternSet patterns)
    (hgreedy : Greedy (Ended patterns haystack hsstart hsend) hsstart out) (pos reds : ℕ) :
    (acAllDone out).Right patterns haystack hsstart hsend pos reds := by
  refine .inl ⟨out, rfl, hgreedy.congr (fun s hs _ => ended_pos hset hs) fun s hle => ?_⟩
  exact and_iff_left hle

section

variable (h : Automaton act patterns) (hset : PatternSet patterns) (simd : Bool)
  (hlen : hsend ≤ haystack.length)

include h hset simd hlen

theorem acFindAllNonOverlapping_spec (reds : ℕ) (st : ACFindAllState)
    (hinv : AllInv patterns haystack hsstart hsend st) :
    ∃ r, acFindAllNonOverlapping simd act haystack hsend reds st = some r ∧
      r.Right patterns haystack hsstart hsend st.pos reds := by
  induction hn : hsend - st.pos using Nat.strongRecOn generalizing reds st with
  | ind n ih =>
    rw [acFindAllNonOverlapping]
    by_cases hlt : st.pos < hsend
    · dsimp only
      generalize hmax : (if reds > 0 then reds - 1 else 0) = max
      generalize hs : (if st.q = root then acRootSkip simd act haystack hsend max st.pos
        else (⟨0, max, false⟩ : Skip)) = s
      obtain ⟨⟨hstart, hstop, hat, hsame⟩, hused⟩ :=
        hinv.state.rootSkip h hset simd hlen max hinv.start hlt id hs.symm
      have hinv1 : AllInv patterns haystack hsstart hsend { st with pos := st.pos + s.skip } :=
        ⟨hstart, hstop, hat, hinv.greedy.congr (fun m hm _ => ended_pos hset hm) fun m _ =>
          (hsame m).symm⟩
      generalize hreds' : (if s.found = true then reds - (max - s.left)
        else (reds - (max - s.left) + (wordSize - 1)) % wordSize) = reds'
      split_ifs with hend hreds
      · have hgreedy := hinv1.greedy
        rw [hend] at hgreedy
        exact ⟨_, rfl, right_acAllDone hset hgreedy _ _⟩
      · refine ⟨_, rfl, .inr ⟨_, rfl, hinv1, Nat.le_add_right _ _, fun hpos hword => ?_⟩⟩
        -- the last reduction is used up, so the others have been used for the skip
        have hfalse : s.found = false := by simpa using hreds.1
        rw [hfalse] at hreds'
        simp only [Bool.false_eq_true, if_false, wordSize] at hreds' hword
        have := hused (by rw [← hmax]; omega) hfalse (by
          rw [if_pos (by omega)] at hmax
          omega)
        show st.pos < st.pos + s.skip
        omega
      · have hi : st.pos + s.skip < hsend := Nat.lt_of_le_of_ne hinv1.stop hend
        have hroom : st.pos + s.skip < haystack.length := by omega
        obtain ⟨q, hq, hat⟩ := advance_spec h hinv1.state hinv1.start hroom
        rw [hq]
        dsimp only
        -- nothing that ends here has been added yet
        have hold : Greedy (fun m => Ended patterns haystack hsstart (st.pos + s.skip) m ∨
            ∃ p ∈ patterns, p <:+ q ∧ ¬ p <:+ q ∧
              m = ⟨st.pos + s.skip + 1 - p.length, p.length⟩) hsstart st.out := by
          refine hinv1.greedy.congr (fun m hm _ => ended_pos hset hm) fun m _ => ?_
          refine (or_iff_left fun hp => ?_).symm
          obtain ⟨p, -, hsuf, hno, -⟩ := hp
          exact hno hsuf
        obtain ⟨out, hadd, hgreedy⟩ := addMatches_spec h hset hat hroom hat.mem
          (suffix_refl q) (Nat.lt_succ_self q.length) hold
        rw [hadd]
        obtain ⟨r, heq, hright⟩ := ih (hsend - (st.pos + s.skip + 1)) (by omega) reds'
          ⟨q, st.pos + s.skip + 1, out⟩
          ⟨Nat.le_trans hinv1.start (Nat.le_succ _), hi, hat, hgreedy⟩ rfl
        refine ⟨r, heq, ?_⟩
        rcases hright with hdone | ⟨st', hr, hinv', hle, -⟩
        · exact .inl hdone
        · dsimp only at hle
          exact .inr ⟨st', hr, hinv', by omega, fun _ _ => by omega⟩
    · have heq : st.pos = hsend := by
        have := hinv.stop
        omega
      rw [if_neg hlt]
      exact ⟨_, rfl, right_acAllDone hset (heq ▸ hinv.greedy) _ _⟩

/-! ## Slices -/

theorem firstSlices_spec (budgets : List ℕ) (hinv : FirstInv patterns haystack hsstart hsend st) :
    ∃ o, firstSlices simd act haystack hsend budgets st = some o ∧
      (∀ r, o = some r →
        r = .notFound ∧ Exhausted (Occurrence patterns haystack hsend) hsstart ∨
        ∃ s, r = .ok s ∧ IsNext (Occurrence patterns haystack hsend) hsstart s) ∧
      ((∀ reds ∈ budgets, 0 < reds) → hsend - st.pos < budgets.length → o ≠ none) := by
  induction budgets generalizing st with
  | nil => exact ⟨none, rfl, nofun, fun _ hlt => by simp at hlt⟩
  | cons reds budgets ih =>
    obtain ⟨r, heq, hright⟩ := acFindFirstMatch_spec h hset simd hlen reds st hinv
    rw [firstSlices, heq]
    cases r with
    | notFound =>
      refine ⟨_, rfl, fun r hr => ?_, fun _ _ => by simp⟩
      cases hr
      exact .inl ⟨rfl, hright⟩
    | ok s =>
      refine ⟨_, rfl, fun r hr => ?_, fun _ _ => by simp⟩
      cases hr
      exact .inr ⟨s, rfl, hright⟩
    | restart st' =>
      obtain ⟨o, heq', hanswer, hfinish⟩ := ih hright.1
      refine ⟨o, heq', hanswer, fun hpos hlt => hfinish ?_ ?_⟩
      · exact fun b hb => hpos b (mem_cons_of_mem _ hb)
      · have := hright.2.2 (hpos reds mem_cons_self)
        rw [length_cons] at hlt
        have := hright.1.stop
        omega

theorem allSlices_spec (budgets : List ℕ) {st : ACFindAllState}
    (hinv : AllInv patterns haystack hsstart hsend st) :
    ∃ o, allSlices simd act haystack hsend budgets st = some o ∧
      (∀ r, o = some r → ∃ out, r = acAllDone out ∧
        Greedy (Occurrence patterns haystack hsend) hsstart out) ∧
      ((∀ reds ∈ budgets, 1 < reds ∧ reds < wordSize) → hsend - st.pos < budgets.length →
        o ≠ none) := by
  induction budgets generalizing st with
  | nil => exact ⟨none, rfl, nofun, fun _ hlt => by simp at hlt⟩
  | cons reds budgets ih =>
    obtain ⟨r, heq, hright⟩ := acFindAllNonOverlapping_spec h hset simd hlen reds st hinv
    rw [allSlices, heq]
    rcases hright with ⟨out, rfl, hgreedy⟩ | ⟨st', rfl, hinv', -, hprogress⟩
    · refine ⟨some (acAllDone out), ?_, fun r hr => ?_, fun _ _ => by simp⟩
      · rw [acAllDone]
        split_ifs <;> rfl
      · cases hr
        exact ⟨out, rfl, hgreedy⟩
    · obtain ⟨o, heq', hanswer, hfinish⟩ := ih hinv'
      refine ⟨o, heq', hanswer, fun hpos hlt => hfinish ?_ ?_⟩
      · exact fun b hb => hpos b (mem_cons_of_mem _ hb)
      · have hreds := hpos reds mem_cons_self
        rw [length_cons] at hlt
        have := hinv'.stop
        omega

end

/-- Nothing has been read. -/
theorem at_start (patterns : List (List Byte)) (haystack : List Byte) (hsstart : ℕ) :
    At patterns haystack hsstart hsstart root := by
  have hnil : (haystack.take hsstart).drop hsstart = [] := by
    rw [drop_eq_nil_iff, length_take]
    omega
  rw [At, hnil]
  exact isLongest_nil (.inl rfl)

theorem not_ended_start (hset : PatternSet patterns) (s : Span) :
    ¬ Ended patterns haystack hsstart hsstart s := by
  intro hs
  have hpos := ended_pos hset hs
  have hstop : s.pos + s.len ≤ hsstart := hs.1.choose_spec.2.2.1
  have := hs.2
  omega

/-! ## Leftmost-longest search -/

/-- The answers of the searches in a range of a haystack, however they are cut into slices, and
with or without blocks in the skip at the root.  Slices that make progress come to an end. -/
structure ACTrie.LeftmostLongest (act : ACTrie) (patterns : List (List Byte)) : Prop where
  first : ∀ simd haystack hsstart hsend, hsstart ≤ hsend → hsend ≤ haystack.length →
    ∀ budgets, ∃ o,
      firstSlices simd act haystack hsend budgets (acInitFindFirstMatch hsstart) = some o ∧
      (∀ r, o = some r →
        r = .notFound ∧ Exhausted (Occurrence patterns haystack hsend) hsstart ∨
        ∃ s, r = .ok s ∧ IsNext (Occurrence patterns haystack hsend) hsstart s) ∧
      ((∀ reds ∈ budgets, 0 < reds) → hsend - hsstart < budgets.length → o ≠ none)
  all : ∀ simd haystack hsstart hsend, hsstart ≤ hsend → hsend ≤ haystack.length →
    ∀ budgets, ∃ o,
      allSlices simd act haystack hsend budgets (acInitFindAll hsstart) = some o ∧
      (∀ r, o = some r → ∃ out, r = acAllDone out ∧
        Greedy (Occurrence patterns haystack hsend) hsstart out) ∧
      ((∀ reds ∈ budgets, 1 < reds ∧ reds < wordSize) → hsend - hsstart < budgets.length →
        o ≠ none)

theorem leftmostLongest_of_automaton (h : Automaton act patterns) (hset : PatternSet patterns) :
    act.LeftmostLongest patterns where
  first := by
    intro simd haystack hsstart hsend hle hlen budgets
    exact firstSlices_spec h hset simd hlen budgets
      ⟨Nat.le_refl _, hle, at_start patterns haystack hsstart, not_ended_start hset⟩
  all := by
    intro simd haystack hsstart hsend hle hlen budgets
    refine allSlices_spec h hset simd hlen budgets
      ⟨Nat.le_refl _, hle, at_start patterns haystack hsstart, .done fun s hs => ?_⟩
    exact absurd hs (not_ended_start hset s)

/-- The search for a set of patterns is leftmost-longest, just if the trie has at most `2 ^ 31`
nodes. -/
theorem acCompile_leftmostLongest_iff (hne : patterns ≠ []) (hset : PatternSet patterns) :
    (∃ act, acCompile patterns = some act ∧ act.LeftmostLongest patterns) ↔
      (trieNodes patterns).length ≤ 2 ^ 31 := by
  rcases acCompile_spec hne hset with ⟨hnone, hlarge⟩ | ⟨act, heq, hsmall, hauto⟩
  · rw [hnone]
    simp only [reduceCtorEq, false_and, exists_false, hlarge]
  · refine iff_of_true ⟨act, heq, leftmostLongest_of_automaton hauto hset⟩ hsmall

/-- The match of `[2, 3]` is taken and given up for the longer one that starts before it. -/
theorem acCompile_leftmostLongest_popped :
    ∃ act, acCompile [[2, 3], [1, 2, 3, 4], [4, 2]] = some act ∧
      act.LeftmostLongest [[2, 3], [1, 2, 3, 4], [4, 2]] ∧
      allSlices true act [1, 2, 3, 4, 2, 3, 1] 7 (List.replicate 8 2) (acInitFindAll 0) =
        some (some (.ok [⟨0, 4⟩, ⟨4, 2⟩])) := by
  obtain ⟨act, heq, hleftmost⟩ :=
    (@acCompile_leftmostLongest_iff [[2, 3], [1, 2, 3, 4], [4, 2]] (by decide)
      ⟨by decide, by decide⟩).2 (by decide)
  refine ⟨act, heq, hleftmost, ?_⟩
  have hrun : ((acCompile [[2, 3], [1, 2, 3, 4], [4, 2]]).bind fun act =>
      allSlices true act [1, 2, 3, 4, 2, 3, 1] 7 (List.replicate 8 2) (acInitFindAll 0)) =
      some (some (.ok [⟨0, 4⟩, ⟨4, 2⟩])) := by decide +kernel
  rw [heq] at hrun
  exact hrun

/-- The `int`s of the queue cannot count the nodes for this set of patterns. -/
theorem acCompile_zeros_long : acCompile [List.replicate (2 ^ 31) 0, [1]] = none := by
  have hset : PatternSet [List.replicate (2 ^ 31) (0 : Byte), [1]] := by
    constructor
    · rw [nodup_cons, mem_singleton]
      refine ⟨fun heq => ?_, nodup_singleton _⟩
      have := congrArg List.length heq
      rw [length_replicate] at this
      exact absurd this (by decide)
    · intro p hp
      rcases mem_cons.1 hp with rfl | hp
      · decide
      · rw [mem_singleton.1 hp]
        decide
  rcases acCompile_spec (cons_ne_nil _ _) hset with ⟨hnone, -⟩ | ⟨act, -, hsmall, -⟩
  · exact hnone
  · have := length_lt_trieNodes (mem_cons_self (a := List.replicate (2 ^ 31) (0 : Byte))
      (l := [[1]]))
      (prefix_refl _)
    rw [length_replicate] at this
    omega

end Otp.Erts.BinarySearch
