import Otp.Erts.DbHash.Table

/-!
# Splitting a bucket

The loop that splits a bucket relinks as few terms as possible: it follows the
old chain, and where a term belongs to the other bucket than the one before it,
it writes the term to the end of the other chain and exchanges the two chains.
The invariant is that the terms passed so far stand in the two chains that the
two pointers end, each in the old order, and that the terms ahead are linked as
they were.
-/

namespace Otp.Erts.DbHash

open Otp.Lib Otp.Lib.Links List Function

variable {ω : Type*}

/-- The other of the two chains. -/
def SplitHead.other : SplitHead → SplitHead
  | .oldHead => .newHead
  | .newHead => .oldHead

theorem SplitHead.other_ne (h : SplitHead) : h.other ≠ h := by
  cases h <;> simp [SplitHead.other]

/-- The terms of the old chain before position `i` that go to the slot `ix`. -/
def passed (chain : List (HashDbTerm ω)) (szm i ix : ℕ) : List ℕ :=
  (List.range i).filter fun j =>
    match chain[j]? with
    | some term => !term.pseudoDeleted && (term.hvalue &&& szm == ix)
    | none => false

section Passed

variable {chain : List (HashDbTerm ω)} {szm i ix : ℕ} {term : HashDbTerm ω}

theorem nodup_passed : (passed chain szm i ix).Nodup := nodup_range.filter _

theorem lt_of_mem_passed {j : ℕ} (h : j ∈ passed chain szm i ix) : j < i :=
  mem_range.mp (mem_filter.mp h).1

theorem passed_disjoint {ix' : ℕ} (hne : ix ≠ ix') :
    (passed chain szm i ix).Disjoint (passed chain szm i ix') := by
  intro j hj hj'
  have h := (mem_filter.mp hj).2
  have h' := (mem_filter.mp hj').2
  cases hc : chain[j]? with
  | none => simp [hc] at h
  | some t =>
    simp only [hc, Bool.and_eq_true, beq_iff_eq] at h h'
    exact hne (h.2.symm.trans h'.2)

theorem passed_succ (hterm : chain[i]? = some term) :
    passed chain szm (i + 1) ix =
      if term.pseudoDeleted = false ∧ term.hvalue &&& szm = ix then passed chain szm i ix ++ [i]
      else passed chain szm i ix := by
  unfold passed
  rw [range_succ, filter_append]
  split_ifs with h
  · simp [hterm, h.1, h.2]
  · rw [filter_cons_of_neg (by simpa [hterm] using h)]
    simp

end Passed

/-- The state of the loop before the term at position `i`: the chain that `pnext` ends, which
began with the head `hd`, takes the slot `fromIx`, the other one `toIx`. -/
structure SplitInv (chain : List (HashDbTerm ω)) (szm i : ℕ) (m : Links SplitHead)
    (hd : SplitHead) (fromIx toIx : ℕ) : Prop where
  left : Follows m (.head hd) (passed chain szm i fromIx)
  right : Follows m (.head hd.other) (passed chain szm i toIx)
  here : m (endCell (.head hd) (passed chain szm i fromIx)) =
    if i < chain.length then some i else none
  ahead : ∀ j, i ≤ j → m (.next j) = if j + 1 < chain.length then some (j + 1) else none

section Invariant

variable {chain : List (HashDbTerm ω)} {szm i fromIx toIx : ℕ} {m : Links SplitHead}
  {hd : SplitHead} {term : HashDbTerm ω}

/-- The cells written to are not among those ahead. -/
theorem next_ne_endCell {ns : List ℕ} (hns : ∀ n ∈ ns, n < i) {j : ℕ} (hj : i ≤ j) :
    (.next j : Cell SplitHead) ≠ endCell (.head hd) ns := by
  intro h
  obtain he | ⟨n, hn, he⟩ := endCell_eq (.head hd : Cell SplitHead) ns
  · rw [he] at h
    cases h
  · rw [he] at h
    injection h with h
    have := hns n hn
    omega

theorem passed_pseudoDeleted (hterm : chain[i]? = some term) (hpd : term.pseudoDeleted = true)
    (ix : ℕ) : passed chain szm (i + 1) ix = passed chain szm i ix := by
  rw [passed_succ hterm, if_neg (by simp [hpd])]

/-- A live term is passed in its slot, and in no other one. -/
theorem passed_live (hterm : chain[i]? = some term) (hpd : term.pseudoDeleted = false)
    {ix other : ℕ}
    (hix : term.hvalue &&& szm = ix) (hne : ix ≠ other) :
    passed chain szm (i + 1) ix = passed chain szm i ix ++ [i] ∧
      passed chain szm (i + 1) other = passed chain szm i other := by
  rw [passed_succ hterm, passed_succ hterm, if_pos ⟨hpd, hix⟩,
    if_neg fun hh => hne (hix.symm.trans hh.2)]
  exact ⟨rfl, rfl⟩

section

variable (h : SplitInv chain szm i m hd fromIx toIx)

include h

theorem SplitInv.ahead_update (hd' : SplitHead) (ix : ℕ) (v : Option ℕ) : ∀ j, i + 1 ≤ j →
      update m (endCell (.head hd') (passed chain szm i ix)) v (.next j) =
        if j + 1 < chain.length then some (j + 1) else none := by
  intro j hj
  rw [update_of_ne (next_ne_endCell (fun _ => lt_of_mem_passed) (by omega))]
  exact h.ahead j (by omega)

section

variable (hne : fromIx ≠ toIx) (hterm : chain[i]? = some term)

include hne hterm

/-- A pseudo deleted term is unlinked. -/
theorem SplitInv.skip (hpd : term.pseudoDeleted = true) :
    SplitInv chain szm (i + 1)
      (update m (endCell (.head hd) (passed chain szm i fromIx)) (m (.next i))) hd
      fromIx toIx := by
  have hsame : ∀ ix, passed chain szm (i + 1) ix = passed chain szm i ix :=
    passed_pseudoDeleted hterm hpd
  refine ⟨?_, ?_, ?_, h.ahead_update hd fromIx _⟩
  · rw [hsame, follows_update (endCell_notMem_reads hd nodup_passed)]
    exact h.left
  · rw [hsame, follows_update
      (endCell_notMem_reads_of_disjoint (SplitHead.other_ne hd).symm (passed_disjoint hne))]
    exact h.right
  · rw [hsame, update_self]
    exact h.ahead i (Nat.le_refl i)

/-- A term that goes to the slot of the term before it stays where it is. -/
theorem SplitInv.stay (hpd : term.pseudoDeleted = false) (hix : term.hvalue &&& szm = fromIx) :
    SplitInv chain szm (i + 1) m hd fromIx toIx := by
  have hi : i < chain.length := (List.getElem?_eq_some_iff.mp hterm).1
  obtain ⟨hfrom, hto⟩ := passed_live hterm hpd hix hne
  refine ⟨?_, ?_, ?_, ?_⟩
  · rw [hfrom, follows_snoc]
    exact ⟨h.left, by rw [h.here, if_pos hi]⟩
  · rw [hto]
    exact h.right
  · rw [hfrom, endCell_snoc]
    exact h.ahead i (Nat.le_refl i)
  · intro j hj
    exact h.ahead j (by omega)

/-- A term that goes to the other slot ends the other chain, and the chains change roles. -/
theorem SplitInv.cross (hpd : term.pseudoDeleted = false) (hix : term.hvalue &&& szm = toIx) :
    SplitInv chain szm (i + 1)
      (update m (endCell (.head hd.other) (passed chain szm i toIx)) (some i)) hd.other
      toIx fromIx := by
  obtain ⟨hto, hfrom⟩ := passed_live hterm hpd hix hne.symm
  have hoo : hd.other.other = hd := by cases hd <;> rfl
  refine ⟨?_, ?_, ?_, h.ahead_update hd.other toIx _⟩
  · rw [hto, follows_snoc, follows_update (endCell_notMem_reads hd.other nodup_passed)]
    exact ⟨h.right, update_self ..⟩
  · rw [hoo, hfrom, follows_update
      (endCell_notMem_reads_of_disjoint (SplitHead.other_ne hd) (passed_disjoint hne.symm))]
    exact h.left
  · rw [hto, endCell_snoc,
      update_of_ne (next_ne_endCell (fun _ => lt_of_mem_passed) (Nat.le_refl i))]
    exact h.ahead i (Nat.le_refl i)

end

/-- Behind the last term both chains are ended. -/
theorem SplitInv.finish (hne : fromIx ≠ toIx) (hi : chain.length ≤ i) :
    let m' := update m (endCell (.head hd.other) (passed chain szm i toIx)) none
    collect m' (i + 1) (.head hd) = passed chain szm i fromIx ∧
      collect m' (i + 1) (.head hd.other) = passed chain szm i toIx := by
  intro m'
  have hlen : ∀ ix, (passed chain szm i ix).length < i + 1 := by
    intro ix
    have := length_filter_le (fun j => match chain[j]? with
      | some term => !term.pseudoDeleted && (term.hvalue &&& szm == ix)
      | none => false) (List.range i)
    rw [length_range] at this
    exact Nat.lt_succ_of_le this
  constructor
  · refine collect_eq ?_ ?_ (hlen fromIx)
    · rw [follows_update
        (endCell_notMem_reads_of_disjoint (SplitHead.other_ne hd) (passed_disjoint hne.symm))]
      exact h.left
    · show update m _ none _ = none
      rw [update_of_ne
        (endCell_ne_of_disjoint (SplitHead.other_ne hd).symm (passed_disjoint hne)), h.here,
        if_neg (by omega)]
  · refine collect_eq ?_ (update_self ..) (hlen toIx)
    rw [follows_update (endCell_notMem_reads hd.other nodup_passed)]
    exact h.right

end

/-- From any state of the loop on, the two chains in the end are those of the two slots. -/
theorem SplitInv.splitLoop (hne : fromIx ≠ toIx)
    (hslots : ∀ t ∈ chain, t.hvalue &&& szm = fromIx ∨ t.hvalue &&& szm = toIx) :
    ∀ fuel : ℕ, chain.length + 1 = i + fuel → i ≤ chain.length →
      SplitInv chain szm i m hd fromIx toIx →
      let m' := DbHash.splitLoop chain szm fuel m
        (endCell (.head hd) (passed chain szm i fromIx))
        (endCell (.head hd.other) (passed chain szm i toIx)) fromIx
      collect m' (chain.length + 1) (.head hd) = passed chain szm chain.length fromIx ∧
        collect m' (chain.length + 1) (.head hd.other) = passed chain szm chain.length toIx := by
  intro fuel
  induction fuel generalizing i m hd fromIx toIx with
  | zero => intro hfuel hi; omega
  | succ fuel ih =>
    intro hfuel hi h
    rw [DbHash.splitLoop, h.here]
    obtain hlt | rfl := Nat.lt_or_eq_of_le hi
    · -- there is a term at position `i`
      have hterm : chain[i]? = some chain[i] := List.getElem?_eq_getElem hlt
      generalize chain[i] = term at hterm
      have hslot := hslots term (mem_of_getElem? hterm)
      rw [if_pos hlt]
      dsimp only
      rw [hterm]
      dsimp only
      by_cases hpd : term.pseudoDeleted = true
      · rw [if_pos hpd]
        have hnext := h.skip hne hterm hpd
        have hrest := ih hne hslots (by omega) hlt hnext
        rwa [passed_pseudoDeleted hterm hpd, passed_pseudoDeleted hterm hpd] at hrest
      · rw [Bool.not_eq_true] at hpd
        rw [if_neg (by simp [hpd])]
        by_cases hix : term.hvalue &&& szm = fromIx
        · rw [if_neg (not_not.mpr hix)]
          have hrest := ih hne hslots (by omega) hlt (h.stay hne hterm hpd hix)
          obtain ⟨hfrom, hto⟩ := passed_live hterm hpd hix hne
          rwa [hfrom, hto, endCell_snoc] at hrest
        · have hix' : term.hvalue &&& szm = toIx := hslot.resolve_left hix
          rw [if_pos hix, hix']
          have hrest := ih hne.symm (fun t ht => (hslots t ht).symm) (by omega) hlt
            (h.cross hne hterm hpd hix')
          obtain ⟨hto, hfrom⟩ := passed_live hterm hpd hix' hne.symm
          have hoo : hd.other.other = hd := by cases hd <;> rfl
          rw [hfrom, hto, endCell_snoc, hoo] at hrest
          exact hrest.symm
    · rw [if_neg (Nat.lt_irrefl _)]
      exact h.finish hne (Nat.le_refl _)

end Invariant

/-- The positions passed, read as terms. -/
theorem filterMap_passed (chain : List (HashDbTerm ω)) (szm ix : ℕ) : ∀ i ≤ chain.length,
    (passed chain szm i ix).filterMap (chain[·]?) =
      (chain.take i).filter fun t => !t.pseudoDeleted && (t.hvalue &&& szm == ix) := by
  intro i
  induction i with
  | zero => intro _; simp [passed]
  | succ i ih =>
    intro hi
    have hterm : chain[i]? = some chain[i] := List.getElem?_eq_getElem hi
    rw [passed_succ hterm, take_add_one, filter_append, ← ih (by omega), hterm]
    split_ifs with h
    · simp [hterm, h.1, h.2]
    · rw [Option.toList_some, filter_cons_of_neg (by simpa using h)]
      simp

/-- **A split loses, duplicates and reorders nothing.** Each of the two chains has the live terms
that go to its slot, in the old order. -/
theorem splitChain_eq {chain : List (HashDbTerm ω)} {szm fromIx toIx : ℕ} (hne : fromIx ≠ toIx)
    (hslots : ∀ t ∈ chain, t.hvalue &&& szm = fromIx ∨ t.hvalue &&& szm = toIx) :
    splitChain chain szm fromIx =
      (chain.filter fun t => !t.pseudoDeleted && (t.hvalue &&& szm == fromIx),
        chain.filter fun t => !t.pseudoDeleted && (t.hvalue &&& szm == toIx)) := by
  have hinit : SplitInv chain szm 0 (splitInit chain.length) .oldHead fromIx toIx := by
    refine ⟨?_, ?_, ?_, ?_⟩
    · simp [passed, Follows]
    · simp [passed, Follows]
    · simp [passed, endCell, splitInit]
    · intro j _
      rfl
  have h := SplitInv.splitLoop hne hslots (chain.length + 1) (by omega) (Nat.zero_le _) hinit
  have hstart : ∀ ix, passed chain szm 0 ix = [] := fun ix => rfl
  simp only [hstart, endCell, SplitHead.other] at h
  unfold splitChain readChain
  dsimp only
  rw [h.1, h.2, filterMap_passed _ _ _ _ (Nat.le_refl _), filterMap_passed _ _ _ _ (Nat.le_refl _),
    take_length]

end Otp.Erts.DbHash
