import Mathlib

/-!
# Occurrences of patterns in a text

An occurrence is a span of the text.  The next occurrence from a position is the one that
starts first and, among those, the longest.  A greedy search takes the next occurrence again
and again, each time from the end of the last one.
-/

namespace Otp.Lib.Occurrences

open List

variable {α : Type*} {x text : List α} {i start : ℕ}

/-- The list stands in the text at a position. -/
def OccursAt (x text : List α) (j : ℕ) : Prop :=
  ∀ k < x.length, text[j + k]? = x[k]?

theorem occursAt_iff {j : ℕ} : OccursAt x text j ↔ x <+: text.drop j := by
  rw [prefix_iff_getElem?]
  constructor
  · intro h k hk
    rw [List.getElem?_drop, h k hk, List.getElem?_eq_getElem hk]
  · intro h k hk
    have hget := h k hk
    rw [List.getElem?_drop] at hget
    rw [hget, List.getElem?_eq_getElem hk]

/-- The text between two positions ends with a list if the list stands there. -/
theorem suffix_drop_take_iff (hi : i ≤ text.length) :
    x <:+ (text.take i).drop start ↔
      x.length ≤ i - start ∧ OccursAt x text (i - x.length) := by
  rw [occursAt_iff]
  constructor
  · intro h
    have hle := h.length_le
    rw [length_drop, length_take, Nat.min_eq_left hi] at hle
    obtain ⟨y, hy⟩ := h.trans (drop_suffix start _)
    have hlen := congrArg List.length hy
    rw [length_append, length_take] at hlen
    refine ⟨hle, text.drop i, ?_⟩
    have htext : text = y ++ (x ++ text.drop i) := by
      rw [← append_assoc, hy, take_append_drop]
    have hdrop := congrArg (List.drop (i - x.length)) htext
    rw [drop_left' (by omega)] at hdrop
    exact hdrop.symm
  · intro h
    obtain ⟨hle, rest, hrest⟩ := h
    by_cases hx : x = []
    · rw [hx]
      exact nil_suffix
    · have hpos := length_pos_iff.2 hx
      have htake : text.take i = text.take (i - x.length) ++ x := by
        rw [show i = (i - x.length) + x.length by omega, take_add, ← hrest,
          take_left' rfl, Nat.add_sub_cancel]
      rw [htake, drop_append_of_le_length (by rw [length_take]; omega)]
      exact suffix_append _ _

theorem drop_take_succ {c : α} (hle : start ≤ i) (hc : text[i]? = some c) :
    (text.take (i + 1)).drop start = (text.take i).drop start ++ [c] := by
  have hi := (List.getElem?_eq_some_iff.1 hc).1
  rw [take_add_one, hc, drop_append_of_le_length (by rw [length_take]; omega)]
  rfl

/-- A part of a text. -/
structure Span where
  pos : ℕ
  len : ℕ
deriving DecidableEq

/-- The end of a span. -/
def Span.stop (s : Span) : ℕ := s.pos + s.len

/-- The span is an occurrence of one of the patterns that ends at `stop` or before. -/
def Occurrence (patterns : List (List α)) (text : List α) (stop : ℕ) (s : Span) : Prop :=
  ∃ x ∈ patterns, s.len = x.length ∧ s.stop ≤ stop ∧ OccursAt x text s.pos

/-- `a` is preferred to `b`: it starts first, or at the same place and is as long. -/
def Span.Before (a b : Span) : Prop :=
  a.pos < b.pos ∨ a.pos = b.pos ∧ b.len ≤ a.len

section Greedy

variable (M : Span → Prop) {start' : ℕ} {l : List Span}

/-- No span starts at `start` or later. -/
def Exhausted (start : ℕ) : Prop :=
  ∀ s, M s → s.pos < start

/-- The span that starts first at `start` or later and, among those, the longest. -/
structure IsNext (start : ℕ) (s : Span) : Prop where
  mem : M s
  le : start ≤ s.pos
  before : ∀ s', M s' → start ≤ s'.pos → s.Before s'

/-- The next span, then the next one from its end, until there is none. -/
inductive Greedy : ℕ → List Span → Prop
  | done {start : ℕ} : Exhausted M start → Greedy start []
  | next {start : ℕ} {s : Span} {l : List Span} :
      IsNext M start s → Greedy s.stop l → Greedy start (s :: l)

variable {M}

section

variable (hskip : ∀ s', M s' → start ≤ s'.pos → start' ≤ s'.pos)

include hskip

/-- Positions at which nothing starts can be skipped. -/
theorem IsNext.of_skip {s : Span} (h : IsNext M start' s) (hle : start ≤ start') :
    IsNext M start s :=
  ⟨h.mem, Nat.le_trans hle h.le, fun s' hs' hpos => h.before s' hs' (hskip s' hs' hpos)⟩

theorem Exhausted.of_skip (h : Exhausted M start') : Exhausted M start := by
  intro s hs
  by_contra hle
  exact absurd (h s hs) (Nat.not_lt.2 (hskip s hs (Nat.not_lt.1 hle)))

theorem Greedy.of_skip (h : Greedy M start' l) (hle : start ≤ start') : Greedy M start l := by
  cases h with
  | done hex => exact .done (hex.of_skip hskip)
  | next hnext hrest => exact .next (hnext.of_skip hskip hle) hrest

end

/-- Only the spans that start late enough count. -/
theorem Greedy.congr {M' : Span → Prop} (h : Greedy M start l)
    (hlen : ∀ s, M s → start ≤ s.pos → 0 < s.len) (heq : ∀ s, start ≤ s.pos → (M s ↔ M' s)) :
    Greedy M' start l := by
  induction h with
  | @done start hex =>
    refine .done fun s hs => ?_
    by_contra hle
    exact absurd (hex s ((heq s (by omega)).2 hs)) hle
  | @next start s l hnext _ ih =>
    have hmem := (heq s hnext.le).1 hnext.mem
    have hstop : start ≤ s.stop := Nat.le_trans hnext.le (Nat.le_add_right _ _)
    refine .next ⟨hmem, hnext.le, fun s' hs' hle => hnext.before s' ((heq s' hle).2 hs') hle⟩
      (ih (fun s' hs' hle => hlen s' hs' (by omega)) fun s' hle => heq s' (by omega))

end Greedy

/-! ## One more span -/

instance (a b : Span) : Decidable (a.Before b) := inferInstanceAs (Decidable (_ ∨ _))

/-- The spans that are preferred to a new one are kept.  If the last of them leaves room for the
new one it comes next, otherwise it is not taken. -/
def insertSpan (l : List Span) (y : Span) : List Span :=
  let kept := l.rdropWhile fun s => ¬ s.Before y
  if ∀ s ∈ kept.getLast?, s.stop ≤ y.pos then kept ++ [y] else l

theorem insertSpan_nil (y : Span) : insertSpan [] y = [y] := by
  simp [insertSpan]

variable {l : List Span} {M : Span → Prop}

/-- Every span from a start on. -/
theorem Greedy.le_pos (h : Greedy M start l) :
    ∀ s ∈ l, start ≤ s.pos := by
  induction h with
  | done _ => intro s hs; cases hs
  | @next start s l hnext _ ih =>
    intro s' hs'
    rcases mem_cons.1 hs' with rfl | hs'
    · exact hnext.le
    · exact Nat.le_trans (Nat.le_trans hnext.le (Nat.le_add_right _ _)) (ih s' hs')

theorem rdropWhile_eq_nil_of_forall {y : Span} (h : ∀ s ∈ l, ¬ s.Before y) :
    l.rdropWhile (fun s => ¬ s.Before y) = [] :=
  rdropWhile_eq_nil_iff.2 fun s hs => decide_eq_true (h s hs)

theorem rdropWhile_cons {p : Span → Bool} {s : Span} (hs : p s = false) :
    (s :: l).rdropWhile p = s :: l.rdropWhile p := by
  induction l using List.reverseRecOn with
  | nil => simp [rdropWhile_singleton, hs]
  | append_singleton l a ih =>
    rw [← cons_append, rdropWhile_concat, rdropWhile_concat, ih]
    split_ifs <;> rfl

/-- A span that does not end before any other: the greedy list with it. -/
theorem Greedy.insertSpan {l : List Span} (h : Greedy M start l)
    {y : Span} (hlen : ∀ s, M s → 0 < s.len) (hy : 0 < y.len)
    (hstop : ∀ s, M s → s.stop ≤ y.stop) (hle : start ≤ y.pos) :
    Greedy (fun s => M s ∨ s = y) start (insertSpan l y) := by
  -- behind the new span nothing starts
  have hend : Exhausted (fun s => M s ∨ s = y) y.stop := by
    intro s hs
    rcases hs with hs | rfl
    · have h1 := hlen s hs
      have h2 := hstop s hs
      simp only [Span.stop] at h2 ⊢
      omega
    · simp only [Span.stop]
      omega
  induction h with
  | @done start hex =>
    rw [insertSpan_nil]
    refine .next ⟨.inr rfl, hle, fun s hs hpos => ?_⟩ (.done hend)
    rcases hs with hs | rfl
    · exact absurd (hex s hs) (Nat.not_lt.2 hpos)
    · exact .inr ⟨rfl, Nat.le_refl _⟩
  | @next start s l hnext hrest ih =>
    have hspos := hlen s hnext.mem
    have hlater := hrest.le_pos
    simp only [Span.stop] at hlater
    by_cases hbefore : s.Before y
    · have hnext' : IsNext (fun s => M s ∨ s = y) start s := by
        refine ⟨.inl hnext.mem, hnext.le, fun s' hs' hpos => ?_⟩
        rcases hs' with hs' | rfl
        · exact hnext.before s' hs' hpos
        · exact hbefore
      have hkeep : (s :: l).rdropWhile (fun s => ¬ s.Before y) =
          s :: l.rdropWhile (fun s => ¬ s.Before y) := rdropWhile_cons (by simp [hbefore])
      by_cases hroom : s.stop ≤ y.pos
      · -- the new span is put in behind `s`
        have hins : Occurrences.insertSpan (s :: l) y = s :: Occurrences.insertSpan l y := by
          simp only [Occurrences.insertSpan, hkeep]
          cases hk : l.rdropWhile (fun s => ¬ s.Before y) with
          | nil => simp [hroom]
          | cons a k =>
            rw [List.getLast?_cons_cons]
            split_ifs <;> rfl
        rw [hins]
        exact .next hnext' (ih hroom)
      · -- `s` takes its place, and everything behind `s` starts later
        have hnil : l.rdropWhile (fun s => ¬ s.Before y) = [] := by
          refine rdropWhile_eq_nil_of_forall fun s' hs' => ?_
          have := hlater s' hs'
          simp only [Span.stop] at hroom
          simp only [Span.Before]
          omega
        have hins : Occurrences.insertSpan (s :: l) y = s :: l := by
          simp only [Occurrences.insertSpan, hkeep, hnil]
          simp [hroom]
        rw [hins]
        refine .next hnext' (hrest.congr (fun s' hs' _ => hlen s' hs') fun s' hpos => ?_)
        refine (or_iff_left_of_imp ?_).symm
        rintro rfl
        omega
    · -- the new span comes first, and everything else starts later
      have hnil : (s :: l).rdropWhile (fun s => ¬ s.Before y) = [] := by
        refine rdropWhile_eq_nil_of_forall fun s' hs' => ?_
        rcases mem_cons.1 hs' with rfl | hs'
        · exact hbefore
        · have := hlater s' hs'
          simp only [Span.Before] at hbefore ⊢
          omega
      have hins : Occurrences.insertSpan (s :: l) y = [y] := by
        simp only [Occurrences.insertSpan, hnil]
        simp
      rw [hins]
      refine .next ⟨.inr rfl, hle, fun s' hs' hpos => ?_⟩ (.done hend)
      rcases hs' with hs' | rfl
      · have := hnext.before s' hs' hpos
        simp only [Span.Before] at this hbefore ⊢
        omega
      · exact .inr ⟨rfl, Nat.le_refl _⟩

end Otp.Lib.Occurrences
