import Mathlib

/-!
# Minimisation (`leex.erl`)

A state of a deterministic automaton has its transitions by ranges of characters, and the action
that is taken where it accepts; `maxchar` is above every character. States with the same
transitions and the same action are merged until there are none, and the numbers are packed.  Each
round renames states: every state of the automaton before it has one after it, with its action and
its transitions under the new names (`Renames`).
-/

namespace Otp.Parsetools.Leex

/-- A range of characters; the upper end may be `maxchar`. -/
@[ext] structure Cr where
  lo : ℕ
  hi : ℕ∞
  le : (lo : ℕ∞) ≤ hi
deriving DecidableEq

namespace Cr

instance : Membership ℕ Cr := ⟨fun r c => r.lo ≤ c ∧ (c : ℕ∞) ≤ r.hi⟩

instance (r : Cr) (c : ℕ) : Decidable (c ∈ r) := inferInstanceAs (Decidable (_ ∧ _))

/-- The range of one character. -/
def single (c : ℕ) : Cr := ⟨c, c, le_rfl⟩

end Cr

structure DfaState (α : Type) where
  no : ℕ
  nfa : List ℕ := []
  trans : List (Cr × ℕ) := []
  accept : Option α := none

open List

variable {α : Type} [DecidableEq α] {p : ℕ} {rs : List (ℕ × ℕ)} {dfa dfa' mdfa : List (DfaState α)}

def minDelete (t : List (Cr × ℕ)) (a : Option α) (newN : ℕ) :
    List (DfaState α) → List (ℕ × ℕ) → List (DfaState α) → List (DfaState α) × List (ℕ × ℕ)
  | d :: dfa, rs, mdfa =>
    if d.trans = t ∧ d.accept = a then minDelete t a newN dfa ((d.no, newN) :: rs) mdfa
    else minDelete t a newN dfa rs (d :: mdfa)
  | [], rs, mdfa => (mdfa, rs)

/-- The states that are left, and the names of the others. -/
theorem minDelete_eq (t : List (Cr × ℕ)) (a : Option α) (newN : ℕ) :
    minDelete t a newN dfa rs mdfa =
      ((dfa.filter fun d => ¬(d.trans = t ∧ d.accept = a)).reverse ++ mdfa,
        ((dfa.filter fun d => d.trans = t ∧ d.accept = a).map
          fun d => (d.no, newN)).reverse ++ rs) := by
  induction dfa generalizing rs mdfa with
  | nil => rfl
  | cons d dfa ih =>
    rw [minDelete]
    by_cases h : d.trans = t ∧ d.accept = a
    · rw [if_pos h, ih, filter_cons_of_neg (by simpa using h),
        filter_cons_of_pos (by simpa using h)]
      simp
    · rw [if_neg h, ih, filter_cons_of_pos (by simpa only [decide_eq_true_eq] using h),
        filter_cons_of_neg (by simpa only [decide_eq_true_eq] using h)]
      simp

def minDfaLoop : List (DfaState α) → List (ℕ × ℕ) → List (DfaState α) →
    List (DfaState α) × List (ℕ × ℕ)
  | d :: dfa₀, rs₀, mdfa =>
    let result := minDelete d.trans d.accept d.no dfa₀ rs₀ []
    minDfaLoop result.1 result.2 (d :: mdfa)
  | [], rs, mdfa => (mdfa, rs)
termination_by dfa => dfa.length
decreasing_by
  simp only [minDelete_eq, append_nil, length_reverse, length_cons]
  exact Nat.lt_succ_of_le (length_filter_le _ _)

variable (dfa rs mdfa) in
/-- A round loses no number: the states left and the rewrites have them all. -/
theorem minDfaLoop_perm :
    ((minDfaLoop dfa rs mdfa).1.map DfaState.no ++ (minDfaLoop dfa rs mdfa).2.map Prod.fst).Perm
      (dfa.map DfaState.no ++ mdfa.map DfaState.no ++ rs.map Prod.fst) := by
  induction dfa, rs, mdfa using minDfaLoop.induct with
  | case1 d dfa rs mdfa result ih =>
    rw [minDfaLoop]
    refine ih.trans (perm_iff_count.2 fun p => ?_)
    -- the states with the key of the first one and the others make up the rest of the list
    have hsplit := ((filter_append_perm (fun e : DfaState α =>
      e.trans = d.trans ∧ e.accept = d.accept) dfa).map DfaState.no).count_eq p
    have hfst : (Prod.fst ∘ fun e : DfaState α => (e.no, d.no)) = DfaState.no := rfl
    simp only [result, minDelete_eq, append_nil, map_append, map_reverse, map_map, hfst,
      count_append, count_reverse, map_cons, count_cons, ← decide_not] at hsplit ⊢
    omega
  | case2 rs mdfa => rw [minDfaLoop, map_nil, nil_append]

def minDfa (dfa : List (DfaState α)) : List (DfaState α) × List (ℕ × ℕ) := minDfaLoop dfa [] []

def minUse (old : ℕ) : List (ℕ × ℕ) → ℕ
  | (o, new) :: reds => if o = old then new else minUse old reds
  | [] => old

def minUpdateTrans (tr : List (Cr × ℕ)) (rs : List (ℕ × ℕ)) : List (Cr × ℕ) :=
  tr.map fun x => (x.1, minUse x.2 rs)

def minUpdate (dfa : List (DfaState α)) (rs : List (ℕ × ℕ)) : List (DfaState α) :=
  dfa.map fun d => { d with trans := minUpdateTrans d.trans rs }

def packDfaLoop : List (DfaState α) → ℕ → List (ℕ × ℕ) → List (DfaState α) →
    List (DfaState α) × List (ℕ × ℕ)
  | d :: dfa, newN, rs, pdfa =>
    packDfaLoop dfa (newN + 1) ((d.no, newN) :: rs) ({ d with no := newN } :: pdfa)
  | [], _, rs, pdfa => (pdfa, rs)

def packDfa (dfa : List (DfaState α)) : List (DfaState α) × List (ℕ × ℕ) := packDfaLoop dfa 0 [] []

def minimiseDfa (dfa₀ : List (DfaState α)) (df₀ : ℕ) : List (DfaState α) × ℕ :=
  match _h : minDfa dfa₀ with
  | (dfa₁, []) =>
    let (dfa₂, rs) := packDfa dfa₁
    (minUpdate dfa₂ rs, minUse df₀ rs)
  | (dfa₁, r :: rs) => minimiseDfa (minUpdate dfa₁ (r :: rs)) (minUse df₀ (r :: rs))
termination_by dfa₀.length
decreasing_by
  have hlen := (minDfaLoop_perm [] dfa₀ []).length_eq
  rw [← minDfa, _h] at hlen
  simp only [length_append, length_map, length_cons, length_nil] at hlen
  rw [minUpdate, length_map]
  omega

/-! ## One round -/

/-- The states have different transitions or different actions. -/
def Distinct (d d' : DfaState α) : Prop := ¬(d.trans = d'.trans ∧ d.accept = d'.accept)

variable (dfa rs mdfa) in
/-- The states left and the rewrites: each state that is gone has a rewrite to one that has its
transitions and its action. -/
theorem minDfaLoop_same :
    mdfa ⊆ (minDfaLoop dfa rs mdfa).1 ∧ rs ⊆ (minDfaLoop dfa rs mdfa).2 ∧
      ∀ d ∈ dfa, ∃ d' ∈ (minDfaLoop dfa rs mdfa).1, d'.trans = d.trans ∧ d'.accept = d.accept ∧
        (d'.no = d.no ∨ (d.no, d'.no) ∈ (minDfaLoop dfa rs mdfa).2) := by
  induction dfa, rs, mdfa using minDfaLoop.induct with
  | case1 d dfa rs mdfa result ih =>
    rw [minDfaLoop]
    simp only [result, minDelete_eq, append_nil] at ih ⊢
    obtain ⟨hkept, hnames, hsame⟩ := ih
    obtain ⟨hd, hmdfa⟩ := cons_subset.1 hkept
    obtain ⟨hequal, hrs⟩ := append_subset.1 hnames
    refine ⟨hmdfa, hrs, forall_mem_cons.2 ⟨⟨d, hd, rfl, rfl, .inl rfl⟩, fun e he => ?_⟩⟩
    by_cases hcase : e.trans = d.trans ∧ e.accept = d.accept
    · refine ⟨d, hd, hcase.1.symm, hcase.2.symm, .inr (hequal ?_)⟩
      simp only [mem_reverse, mem_map, mem_filter, decide_eq_true_eq]
      exact ⟨e, ⟨he, hcase⟩, rfl⟩
    · refine hsame e ?_
      simp only [mem_reverse, mem_filter, decide_eq_true_eq]
      exact ⟨he, hcase⟩
  | case2 rs mdfa =>
    rw [minDfaLoop]
    exact ⟨Subset.refl mdfa, Subset.refl rs, by simp⟩

variable (dfa rs mdfa) in
/-- No two states that a round leaves have the same transitions and the same action. -/
theorem minDfaLoop_distinct (hmdfa : mdfa.Pairwise Distinct)
    (hdfa : ∀ d ∈ dfa, ∀ e ∈ mdfa, Distinct d e) :
    (minDfaLoop dfa rs mdfa).1.Pairwise Distinct ∧
      ∀ d ∈ (minDfaLoop dfa rs mdfa).1, d ∈ dfa ∨ d ∈ mdfa := by
  induction dfa, rs, mdfa using minDfaLoop.induct with
  | case1 d dfa rs mdfa result ih =>
    rw [minDfaLoop]
    obtain ⟨hd, hdfa⟩ := forall_mem_cons.1 hdfa
    have hleft : ∀ e ∈ result.1, e ∈ dfa ∧ Distinct e d := by
      intro e he
      simpa only [Distinct, result, minDelete_eq, append_nil, mem_reverse, mem_filter,
        decide_eq_true_eq] using he
    obtain ⟨hpairs, hmem⟩ := ih (pairwise_cons.2 ⟨hd, hmdfa⟩) fun e he =>
      forall_mem_cons.2 ⟨(hleft e he).2, hdfa e (hleft e he).1⟩
    refine ⟨hpairs, fun e he => ?_⟩
    rcases hmem e he with he | he
    · exact .inl (mem_cons_of_mem d (hleft e he).1)
    · exact (mem_cons.1 he).imp (fun heq : e = d => heq ▸ mem_cons_self) id
  | case2 rs mdfa =>
    rw [minDfaLoop]
    exact ⟨hmdfa, fun d hd => .inr hd⟩

/-! ## Names -/

theorem minUse_of_mem {q : ℕ} (hkeys : (rs.map Prod.fst).Nodup) (h : (p, q) ∈ rs) :
    minUse p rs = q := by
  induction rs with
  | nil => cases h
  | cons x rs ih =>
    obtain ⟨o, new⟩ := x
    obtain ⟨hnot, hkeys⟩ := nodup_cons.1 hkeys
    rw [minUse]
    rcases mem_cons.1 h with heq | h
    · cases heq
      exact if_pos rfl
    · rw [if_neg, ih hkeys h]
      rintro rfl
      exact hnot (mem_map.2 ⟨_, h, rfl⟩)

theorem minUse_of_not_mem (h : p ∉ rs.map Prod.fst) : minUse p rs = p := by
  induction rs with
  | nil => rfl
  | cons x rs ih =>
    obtain ⟨o, new⟩ := x
    rw [map_cons, mem_cons, not_or] at h
    rw [minUse, if_neg (Ne.symm h.1), ih h.2]

/-- Every state has one with its action and its transitions, under new names. -/
def Renames (dfa dfa' : List (DfaState α)) (rename : ℕ → ℕ) : Prop :=
  ∀ d ∈ dfa, ∃ d' ∈ dfa', d'.no = rename d.no ∧ d'.accept = d.accept ∧
    d'.trans = d.trans.map fun x => (x.1, rename x.2)

omit [DecidableEq α] in
theorem Renames.trans {dfa'' : List (DfaState α)} {rename rename' : ℕ → ℕ}
    (h : Renames dfa dfa' rename) (h' : Renames dfa' dfa'' rename') :
    Renames dfa dfa'' (rename' ∘ rename) := by
  intro d hd
  obtain ⟨d', hd', hno, haccept, htrans⟩ := h d hd
  obtain ⟨d'', hd'', hno', haccept', htrans'⟩ := h' d' hd'
  refine ⟨d'', hd'', by rw [hno', hno]; rfl, haccept'.trans haccept, ?_⟩
  rw [htrans', htrans, map_map]
  rfl

/-- Every transition leads to a state. -/
def Closed (dfa : List (DfaState α)) : Prop := ∀ d ∈ dfa, ∀ x ∈ d.trans, x.2 ∈ dfa.map DfaState.no

omit [DecidableEq α] in
theorem Closed.minUpdate (h : Closed dfa) (hrenames : Renames dfa (minUpdate dfa' rs) (minUse · rs))
    (hfrom : ∀ d' ∈ dfa', ∃ d ∈ dfa, d'.trans = d.trans) : Closed (minUpdate dfa' rs) := by
  intro d'' hd'' x' hx'
  obtain ⟨d', hd', rfl⟩ := mem_map.1 hd''
  obtain ⟨x, hx, rfl⟩ := mem_map.1 hx'
  obtain ⟨d, hd, htrans⟩ := hfrom d' hd'
  obtain ⟨e, he, hno⟩ := mem_map.1 (h d hd x (htrans ▸ hx))
  obtain ⟨e', he', hno', -⟩ := hrenames e he
  exact mem_map.2 ⟨e', he', hno'.trans (congrArg (minUse · rs) hno)⟩

/-- A round renames the states. -/
theorem minDfa_renames (hnos : (dfa.map DfaState.no).Nodup) :
    ((minUpdate (minDfa dfa).1 (minDfa dfa).2).map DfaState.no).Nodup ∧
      Renames dfa (minUpdate (minDfa dfa).1 (minDfa dfa).2) (minUse · (minDfa dfa).2) := by
  have hall : ((minDfa dfa).1.map DfaState.no ++ (minDfa dfa).2.map Prod.fst).Nodup := by
    rw [minDfa, (minDfaLoop_perm [] dfa []).nodup_iff]
    simpa using hnos
  obtain ⟨hleft, hkeys, hapart⟩ := nodup_append.1 hall
  refine ⟨by rwa [minUpdate, map_map], fun d hd => ?_⟩
  obtain ⟨d', hd', htrans, haccept, hno⟩ := (minDfaLoop_same [] dfa []).2.2 d hd
  refine ⟨_, mem_map_of_mem hd', ?_, haccept, congrArg (minUpdateTrans · _) htrans⟩
  rcases hno with hno | hno
  · refine hno.trans (minUse_of_not_mem fun hmem => ?_).symm
    exact hapart _ (mem_map_of_mem hd') _ hmem hno
  · exact (minUse_of_mem hkeys hno).symm

theorem minDfa_closed (hnos : (dfa.map DfaState.no).Nodup) (h : Closed dfa) :
    Closed (minUpdate (minDfa dfa).1 (minDfa dfa).2) := by
  refine h.minUpdate (minDfa_renames hnos).2 fun d hd => ⟨d, ?_, rfl⟩
  simpa using (minDfaLoop_distinct [] dfa [] .nil (by simp)).2 d hd

/-! ## New numbers -/

omit [DecidableEq α] in
theorem packDfaLoop_eq (dfa : List (DfaState α)) (newN : ℕ) (rs : List (ℕ × ℕ))
    (pdfa : List (DfaState α)) :
    packDfaLoop dfa newN rs pdfa =
      (((dfa.zipIdx newN).map fun x => { x.1 with no := x.2 }).reverse ++ pdfa,
        ((dfa.zipIdx newN).map fun x => (x.1.no, x.2)).reverse ++ rs) := by
  induction dfa generalizing newN rs pdfa with
  | nil => rfl
  | cons d dfa ih =>
    rw [packDfaLoop, ih]
    simp

omit [DecidableEq α] in
theorem packDfa_eq (dfa : List (DfaState α)) :
    packDfa dfa = ((dfa.zipIdx.map fun x => { x.1 with no := x.2 }).reverse,
      (dfa.zipIdx.map fun x => (x.1.no, x.2)).reverse) := by
  rw [packDfa, packDfaLoop_eq, append_nil, append_nil]

section

variable (hnos : (dfa.map DfaState.no).Nodup) {d : DfaState α}

include hnos

omit [DecidableEq α] in
/-- The new number of a state is its position. -/
theorem minUse_packDfa {i : ℕ} (hd : (d, i) ∈ dfa.zipIdx) : minUse d.no (packDfa dfa).2 = i := by
  rw [packDfa_eq]
  refine minUse_of_mem ?_ (mem_reverse.2 (mem_map.2 ⟨_, hd, rfl⟩))
  have hkeys : (dfa.zipIdx.map fun x => (x.1.no, x.2)).map Prod.fst = dfa.map DfaState.no := by
    rw [map_map, ← zipIdx_map_fst 0 dfa, map_map, zipIdx_map_fst]
    rfl
  rwa [map_reverse, hkeys, nodup_reverse]

omit hnos in
omit [DecidableEq α] in
theorem exists_zipIdx (hd : d ∈ dfa) : ∃ i, (d, i) ∈ dfa.zipIdx := by
  rw [← zipIdx_map_fst 0 dfa] at hd
  obtain ⟨x, hx, rfl⟩ := mem_map.1 hd
  exact ⟨x.2, hx⟩

omit [DecidableEq α] in
theorem packDfa_renames :
    (minUpdate (packDfa dfa).1 (packDfa dfa).2).map DfaState.no = (range dfa.length).reverse ∧
      Renames dfa (minUpdate (packDfa dfa).1 (packDfa dfa).2) (minUse · (packDfa dfa).2) := by
  refine ⟨?_, fun d hd => ?_⟩
  · rw [minUpdate, map_map, range_eq_range', ← zipIdx_map_snd 0 dfa, packDfa_eq, map_reverse,
      map_map]
    rfl
  · obtain ⟨i, hi⟩ := exists_zipIdx hd
    refine ⟨{ d with no := i, trans := minUpdateTrans d.trans (packDfa dfa).2 },
      mem_map.2 ⟨{ d with no := i }, ?_, rfl⟩, (minUse_packDfa hnos hi).symm, rfl, rfl⟩
    rw [packDfa_eq, mem_reverse]
    exact mem_map.2 ⟨_, hi, rfl⟩

omit [DecidableEq α] in
theorem packDfa_closed (h : Closed dfa) :
    Closed (minUpdate (packDfa dfa).1 (packDfa dfa).2) := by
  refine h.minUpdate (packDfa_renames hnos).2 fun d' hd' => ?_
  rw [packDfa_eq, mem_reverse] at hd'
  obtain ⟨x, hx, rfl⟩ := mem_map.1 hd'
  exact ⟨x.1, fst_mem_of_mem_zipIdx hx, rfl⟩

omit [DecidableEq α] in
/-- States with different transitions have different ones under the new numbers: a number
tells the state. -/
theorem packDfa_distinct (hclosed : Closed dfa) (h : dfa.Pairwise Distinct) :
    (minUpdate (packDfa dfa).1 (packDfa dfa).2).Pairwise Distinct := by
  let old (i : ℕ) := (dfa[i]?.map DfaState.no).getD 0
  have hold : ∀ d ∈ dfa, (minUpdateTrans d.trans (packDfa dfa).2).map
      (fun x => (x.1, old x.2)) = d.trans := by
    intro d hd
    rw [minUpdateTrans, map_map]
    refine (map_congr_left fun x hx => ?_).trans (map_id d.trans)
    obtain ⟨e, he, hno⟩ := mem_map.1 (hclosed d hd x hx)
    obtain ⟨i, hi⟩ := exists_zipIdx he
    have hback : old (minUse x.2 (packDfa dfa).2) = x.2 := by
      simp only [old]
      rw [← hno, minUse_packDfa hnos hi, mem_zipIdx_iff_getElem?.1 hi]
      rfl
    exact Prod.ext rfl hback
  rw [← zipIdx_map_fst 0 dfa, pairwise_map] at h
  rw [minUpdate]
  generalize (packDfa dfa).2 = names at hold ⊢
  rw [packDfa_eq, pairwise_map, pairwise_reverse, pairwise_map]
  refine h.imp_of_mem fun {x y} hx hy hxy heq => hxy ⟨?_, heq.2.symm⟩
  rw [← hold x.1 (fst_mem_of_mem_zipIdx hx), ← hold y.1 (fst_mem_of_mem_zipIdx hy)]
  exact congrArg _ heq.1.symm

end

/-- Minimisation renames the states, the first one among them, and numbers them from 0 on. -/
theorem minimiseDfa_renames (dfa : List (DfaState α)) (df : ℕ)
    (hnos : (dfa.map DfaState.no).Nodup) :
    ∃ rename, (minimiseDfa dfa df).2 = rename df ∧ Renames dfa (minimiseDfa dfa df).1 rename ∧
      (minimiseDfa dfa df).1.map DfaState.no = (range (minimiseDfa dfa df).1.length).reverse ∧
      (Closed dfa → Closed (minimiseDfa dfa df).1 ∧ (minimiseDfa dfa df).1.Pairwise Distinct) := by
  induction dfa, df using minimiseDfa.induct with
  | case1 dfa df dfa₁ h dfa₂ rs h' =>
    obtain ⟨hnos₁, hrenames⟩ := minDfa_renames hnos
    have hclosed := minDfa_closed hnos
    have hdistinct := (minDfaLoop_distinct [] dfa [] .nil (by simp)).1
    rw [← minDfa, h] at hdistinct
    rw [h] at hnos₁ hrenames hclosed
    -- without names nothing is renamed
    have hsame : minUpdate dfa₁ [] = dfa₁ := by
      refine (map_congr_left fun d _ => ?_).trans (map_id dfa₁)
      simp [minUpdateTrans, minUse]
    rw [hsame] at hnos₁ hrenames hclosed
    have hpack := packDfa_renames hnos₁
    have hpack_closed := packDfa_closed hnos₁
    have hpack_distinct := packDfa_distinct hnos₁
    rw [h'] at hpack hpack_closed hpack_distinct
    have heq : minimiseDfa dfa df = (minUpdate dfa₂ rs, minUse df rs) := by
      rw [minimiseDfa]
      split
      · next dfa₁' h₁ =>
        rw [h] at h₁
        cases h₁
        rw [h']
      · next h₁ =>
        rw [h] at h₁
        cases h₁
    have hlength := congrArg length hpack.1
    rw [length_map, length_reverse, length_range] at hlength
    rw [heq, hlength]
    exact ⟨_, rfl, hrenames.trans hpack.2, hpack.1,
      fun hc => ⟨hpack_closed (hclosed hc), hpack_distinct (hclosed hc) hdistinct⟩⟩
  | case2 dfa df dfa₁ r rs h ih =>
    obtain ⟨hnos₁, hrenames⟩ := minDfa_renames hnos
    have hclosed := minDfa_closed hnos
    rw [h] at hnos₁ hrenames hclosed
    obtain ⟨rename, hfirst, hrenames', hnumbers, hdistinct⟩ := ih hnos₁
    have heq : minimiseDfa dfa df =
        minimiseDfa (minUpdate dfa₁ (r :: rs)) (minUse df (r :: rs)) := by
      rw [minimiseDfa]
      split
      · next h₁ =>
        rw [h] at h₁
        cases h₁
      · next dfa₁' r' rs' h₁ =>
        rw [h] at h₁
        cases h₁
        rfl
    rw [heq]
    exact ⟨_, hfirst, hrenames.trans hrenames', hnumbers, fun hc => hdistinct (hclosed hc)⟩

omit [DecidableEq α] in
theorem nodup_of_numbers {n : ℕ} (h : dfa.map DfaState.no = (range n).reverse) :
    (dfa.map DfaState.no).Nodup := by
  rw [h, nodup_reverse]
  exact nodup_range

/-! ## Words -/

def stateOf (dfa : List (DfaState α)) (no : ℕ) : Option (DfaState α) := dfa.find? (·.no = no)

omit [DecidableEq α] in
theorem stateOf_eq (h : (dfa.map DfaState.no).Nodup) {d : DfaState α} (hd : d ∈ dfa) :
    stateOf dfa d.no = some d := by
  rw [stateOf]
  induction dfa with
  | nil => cases hd
  | cons e dfa ih =>
    have hnos := nodup_cons.1 h
    rcases mem_cons.1 hd with rfl | hd
    · rw [find?_cons_of_pos (by simp)]
    · rw [find?_cons_of_neg, ih hnos.2 hd]
      intro heq
      have hno : e.no = d.no := by simpa using heq
      exact hnos.1 (hno ▸ mem_map_of_mem hd)

/-- The state that a word leads to, along the ranges with its characters. -/
def follow (dfa : List (DfaState α)) (no : ℕ) : List ℕ → Option (DfaState α)
  | [] => stateOf dfa no
  | c :: w => (stateOf dfa no).bind fun d =>
    (d.trans.find? fun x => c ∈ x.1).bind fun x => follow dfa x.2 w

omit [DecidableEq α] in
/-- A word leads to the state with the new name of the one it led to, or nowhere as before. -/
theorem Renames.follow {rename : ℕ → ℕ} (h : Renames dfa dfa' rename)
    (hnos : (dfa.map DfaState.no).Nodup) (hnos' : (dfa'.map DfaState.no).Nodup)
    (hclosed : Closed dfa) {no : ℕ} (hno : no ∈ dfa.map DfaState.no) (w : List ℕ) :
    (follow dfa' (rename no) w).map DfaState.accept = (follow dfa no w).map DfaState.accept := by
  induction w generalizing no with
  | nil =>
    obtain ⟨d, hd, rfl⟩ := mem_map.1 hno
    obtain ⟨d', hd', hno', haccept, -⟩ := h d hd
    rw [Leex.follow, Leex.follow, ← hno', stateOf_eq hnos hd, stateOf_eq hnos' hd',
      Option.map_some, Option.map_some, haccept]
  | cons c w ih =>
    obtain ⟨d, hd, rfl⟩ := mem_map.1 hno
    obtain ⟨d', hd', hno', -, htrans⟩ := h d hd
    rw [Leex.follow, Leex.follow, ← hno', stateOf_eq hnos hd, stateOf_eq hnos' hd',
      Option.bind_some, Option.bind_some, htrans, find?_map, Option.bind_map]
    cases hfind : d.trans.find? fun x => c ∈ x.1 with
    | none => simp [hfind]
    | some x =>
      have hx := hclosed d hd x (mem_of_find?_eq_some hfind)
      simpa [Function.comp_def, hfind] using ih hx

theorem minimiseDfa_equivalent (dfa : List (DfaState α)) (df : ℕ)
    (hnos : (dfa.map DfaState.no).Nodup) (hclosed : Closed dfa) (hdf : df ∈ dfa.map DfaState.no) :
    let (dfa', df') := minimiseDfa dfa df
    dfa'.map DfaState.no = (range dfa'.length).reverse ∧ df' ∈ dfa'.map DfaState.no ∧
      Closed dfa' ∧
      (∀ w, (follow dfa' df' w).map DfaState.accept = (follow dfa df w).map DfaState.accept) ∧
      dfa'.Pairwise Distinct := by
  obtain ⟨rename, hfirst, hrenames, hnumbers, hminimal⟩ := minimiseDfa_renames dfa df hnos
  obtain ⟨hclosed', hdistinct⟩ := hminimal hclosed
  refine ⟨hnumbers, ?_, hclosed', fun w => ?_, hdistinct⟩
  · obtain ⟨d, hd, rfl⟩ := mem_map.1 hdf
    obtain ⟨d', hd', hno', -⟩ := hrenames d hd
    exact mem_map.2 ⟨d', hd', hno'.trans hfirst.symm⟩
  · rw [hfirst]
    exact hrenames.follow hnos (nodup_of_numbers hnumbers) hclosed hdf w

/-- The last two states are the same but for their numbers. -/
def twins : List (DfaState ℕ) :=
  [{ no := 3, trans := [(Cr.single 97, 7), (Cr.single 98, 5)] }, { no := 7, accept := some 0 },
    { no := 5, accept := some 0 }]

theorem minimiseDfa_twins : (follow twins 3 [98]).map DfaState.accept = some (some 0) ∧
    (follow (minimiseDfa twins 3).1 (minimiseDfa twins 3).2 [98]).map DfaState.accept =
      (follow twins 3 [98]).map DfaState.accept :=
  ⟨by decide, (minimiseDfa_equivalent twins 3 (by decide) (by unfold Closed; decide)
    (by decide)).2.2.2.1 [98]⟩

end Otp.Parsetools.Leex
