import Otp.Erts.BinarySearch.Shifts

/-!
# The search for one pattern is exact

No shift jumps over an occurrence (`shift_spec`), nor does the search for the last byte of the
pattern (`skipTo_spec`).  So the loops answer with the first occurrence, or with the greedy
list of occurrences, or stop early at a place before which nothing is left to find.
-/

namespace Otp.Erts.BinarySearch

open Lib.Occurrences List

variable {x haystack : List Byte} {len j : ℕ} {s : Span} {n i p start' : ℕ} {bmd : BMData}
  {c : Byte} {M : Span → Prop} {reds reds' : Option ℕ} {r : AllResult} {start : ℕ} {out : List Span}

/-- The occurrences in the first `len` bytes of the haystack. -/
abbrev Matches (x haystack : List Byte) (len : ℕ) : Span → Prop :=
  Occurrence [x] haystack len

theorem matches_iff :
    Matches x haystack len s ↔
      s.len = x.length ∧ s.pos + x.length ≤ len ∧ OccursAt x haystack s.pos := by
  constructor
  · intro h
    obtain ⟨y, hy, hlen, hstop, hocc⟩ := h
    rw [mem_singleton] at hy
    subst hy
    rw [Span.stop, hlen] at hstop
    exact ⟨hlen, hstop, hocc⟩
  · intro h
    refine ⟨x, mem_singleton_self x, h.1, ?_, h.2.2⟩
    rw [Span.stop, h.1]
    exact h.2.1

/-! ## One turn -/

theorem compareBack_none (h : compareBack x haystack j n = none) :
    ∀ k < n, x[k]? = haystack[k + j]? := by
  induction n with
  | zero => intro k hk; omega
  | succ n ih =>
    rw [compareBack] at h
    split_ifs at h with heq
    intro k hk
    by_cases hkn : k = n
    · rw [hkn, heq]
    · exact ih h k (by omega)

theorem compareBack_some (h : compareBack x haystack j n = some i) :
    i < n ∧ x[i]? ≠ haystack[i + j]? ∧ ∀ k, i < k → k < n → x[k]? = haystack[k + j]? := by
  induction n with
  | zero => cases h
  | succ n ih =>
    rw [compareBack] at h
    split_ifs at h with heq
    · obtain ⟨hi, hne, hall⟩ := ih h
      refine ⟨by omega, hne, fun k h1 h2 => ?_⟩
      by_cases hkn : k = n
      · rw [hkn, heq]
      · exact hall k h1 (by omega)
    · cases h
      exact ⟨by omega, heq, fun k h1 h2 => by omega⟩

/-- A later occurrence agrees with what has been compared. -/
theorem compatible_of_occursAt {q : ℕ} (hne : x[i]? ≠ haystack[i + j]?)
    (hall : ∀ k, i < k → k < x.length → x[k]? = haystack[k + j]?) (hi : i < x.length) (hq : j < q)
    (hocc : OccursAt x haystack q) : Compatible x i (q - j : ℕ) := by
  constructor
  · intro k h1 h2 h3
    have hk := hocc (k.toNat - (q - j)) (by omega)
    rw [show q + (k.toNat - (q - j)) = k.toNat + j by omega,
      ← hall k.toNat (by omega) (by omega)] at hk
    rw [show k - (q - j : ℕ) = (k.toNat - (q - j) : ℕ) by omega, readAt_natCast, ← hk,
      ← readAt_natCast]
    congr 1
    omega
  · intro h3 heq
    have hk := hocc (i - (q - j)) (by omega)
    rw [show q + (i - (q - j)) = i + j by omega] at hk
    rw [show (i : ℤ) - (q - j : ℕ) = (i - (q - j) : ℕ) by omega, readAt_natCast, ← hk] at heq
    exact hne heq.symm

/-- The tables are those of the pattern. -/
structure BMData.Valid (bmd : BMData) : Prop where
  good : ∀ i < bmd.x.length, ∃ v, bmd.goodshift[i]? = some v ∧ 1 ≤ v ∧
    ∀ s, 0 < s → Compatible bmd.x i s → v ≤ s
  bad : ∀ c : Byte, ∃ v, bmd.badshift[c.toNat]? = some v ∧ v ≤ bmd.x.length ∧
    ∀ p, p + 1 < bmd.x.length → bmd.x[p]? = some c → v ≤ bmd.x.length - p - 1

/-- After a mismatch the pattern moves to the right, and over no occurrence. -/
theorem shift_spec (hvalid : bmd.Valid) (hi : i < bmd.x.length) (hne : bmd.x[i]? ≠ haystack[i + j]?)
    (hall : ∀ k, i < k → k < bmd.x.length → bmd.x[k]? = haystack[k + j]?)
    (hroom : i + j < haystack.length) :
    ∃ s, shift bmd haystack i j = some s ∧ 1 ≤ s ∧
      ∀ q, j < q → OccursAt bmd.x haystack q → j + s ≤ q := by
  obtain ⟨gs, hgs, hpos, hgood⟩ := hvalid.good i hi
  have hc := List.getElem?_eq_getElem hroom
  obtain ⟨bs, hbs, hle, hbad⟩ := hvalid.bad haystack[i + j]
  refine ⟨max gs (bs - bmd.x.length + 1 + i), ?_, by omega, fun q hq hocc => ?_⟩
  · rw [shift, hgs, hc]
    dsimp only
    rw [hbs]
    rfl
  · have h1 := hgood (q - j : ℕ) (by omega) (compatible_of_occursAt hne hall hi hq hocc)
    -- the byte of the mismatch is in the pattern, or the pattern moves behind it
    have h2 : bs - bmd.x.length + 1 + i ≤ (q - j : ℕ) := by
      by_cases hqi : q - j ≤ i
      · have hk := hocc (i - (q - j)) (by omega)
        rw [show q + (i - (q - j)) = i + j by omega, hc] at hk
        have := hbad (i - (q - j)) (by omega) hk.symm
        omega
      · omega
    omega

theorem getElem?_window {k : ℕ} (hk : k < n) :
    ((haystack.drop p).take n)[k]? = haystack[p + k]? := by
  rw [List.getElem?_take_of_lt hk, List.getElem?_drop]

theorem memchr_some {r : ℕ} (h : memchr haystack p c n = some r) :
    p ≤ r ∧ haystack[r]? = some c ∧ ∀ q, p ≤ q → q < r → haystack[q]? ≠ some c := by
  rw [memchr, Option.map_eq_some_iff] at h
  obtain ⟨k, hk, rfl⟩ := h
  obtain ⟨hlt, heq, hbefore⟩ := List.findIdx?_eq_some_iff_getElem.1 hk
  have hkn : k < n := Nat.lt_of_lt_of_le hlt (length_take_le n _)
  refine ⟨Nat.le_add_right p k, ?_, fun q h1 h2 hq => ?_⟩
  · rw [← getElem?_window hkn, List.getElem?_eq_getElem hlt, of_decide_eq_true heq]
  · have hqk : q - p < k := by omega
    rw [show q = p + (q - p) by omega, ← getElem?_window (n := n) (by omega),
      List.getElem?_eq_getElem (by omega)] at hq
    exact hbefore (q - p) hqk (decide_eq_true (Option.some.inj hq))

theorem memchr_none (h : memchr haystack p c n = none) :
    ∀ q, p ≤ q → q < p + n → haystack[q]? ≠ some c := by
  rw [memchr, Option.map_eq_none_iff, List.findIdx?_eq_none_iff] at h
  intro q h1 h2 hq
  rw [show q = p + (q - p) by omega, ← getElem?_window (n := n) (by omega)] at hq
  have hfalse := h c (mem_of_getElem? hq)
  rw [decide_eq_true rfl] at hfalse
  cases hfalse

/-! ## The search for the last byte -/

/-- Nothing is found between two positions. -/
def Skips (M : Span → Prop) (j j' : ℕ) : Prop :=
  j ≤ j' ∧ ∀ s, M s → j ≤ s.pos → j' ≤ s.pos

/-- `memchr` jumps over no occurrence.  With an unlimited budget the pattern then has no room,
or its last byte is in place. -/
theorem skipTo_spec {bmd : BMData} (hx : bmd.x ≠ []) (reds : Option ℕ) (j : ℕ) :
    match skipTo bmd haystack len reds j with
    | none => Exhausted (Matches bmd.x haystack len) j
    | some (reds', j') =>
      Skips (Matches bmd.x haystack len) j j' ∧ (reds = none → reds' = none ∧
        (j' + bmd.x.length > len ∨
          haystack[j' + (bmd.x.length - 1)]? = bmd.x[bmd.x.length - 1]?)) := by
  have hpos : 0 < bmd.x.length := length_pos_iff.2 hx
  obtain ⟨c, hc⟩ : ∃ c, bmd.x[bmd.x.length - 1]? = some c :=
    ⟨_, List.getElem?_eq_getElem (by omega)⟩
  -- every occurrence has the last byte in its place
  have hlast : ∀ s, Matches bmd.x haystack len s →
      s.pos + bmd.x.length ≤ len ∧ haystack[s.pos + (bmd.x.length - 1)]? = some c := by
    intro s hs
    obtain ⟨-, hroom, hocc⟩ := matches_iff.1 hs
    exact ⟨hroom, by rw [hocc _ (by omega), hc]⟩
  rw [skipTo]
  dsimp only
  by_cases hroom : len ≤ bmd.x.length - 1 + j
  · rw [if_pos hroom]
    intro s hs
    have := (hlast s hs).1
    omega
  · rw [if_neg hroom, hc, Option.bind_some]
    generalize hread : affordable reds (len - (bmd.x.length - 1) - j) = memRead
    cases hmem : memchr haystack (j + (bmd.x.length - 1)) c memRead with
    | none =>
      refine ⟨⟨Nat.le_add_right _ _, fun s hs hle => ?_⟩, fun hreds => ?_⟩
      · by_contra hlt
        exact memchr_none hmem (s.pos + (bmd.x.length - 1)) (by omega) (by omega) (hlast s hs).2
      · subst hreds
        have hall : len - (bmd.x.length - 1) - j = memRead := hread
        exact ⟨rfl, .inl (by omega)⟩
    | some pos =>
      obtain ⟨hge, hbyte, hbefore⟩ := memchr_some hmem
      refine ⟨⟨by omega, fun s hs hle => ?_⟩, fun hreds => ?_⟩
      · by_contra hlt
        exact hbefore (s.pos + (bmd.x.length - 1)) (by omega) (by omega) (hlast s hs).2
      · subst hreds
        refine ⟨rfl, .inr ?_⟩
        rw [show pos - (bmd.x.length - 1) + (bmd.x.length - 1) = pos by omega, hbyte]

/-! ## The loops -/

/-- What a search from `start` may answer.  It gives up early only with a limited budget. -/
def FirstResult.Right (M : Span → Prop) (start : ℕ) (reds : Option ℕ) : FirstResult → Prop
  | .notFound => Exhausted M start
  | .ok s => IsNext M start s
  | .restart pos => reds ≠ none ∧ Skips M start pos

theorem FirstResult.Right.of_skips {r : FirstResult} (h : r.Right M start' reds')
    (hskip : Skips M start start') (hreds : reds = none → reds' = none) : r.Right M start reds := by
  cases r with
  | notFound => exact Exhausted.of_skip hskip.2 h
  | ok s => exact IsNext.of_skip hskip.2 h hskip.1
  | restart pos =>
    refine ⟨fun hn => h.1 (hreds hn), Nat.le_trans hskip.1 h.2.1, fun s hs hle => ?_⟩
    exact h.2.2 s hs (hskip.2 s hs hle)

/-- The loop can take its turn at `j`: it has tables, or it will not need them. -/
def CanCompare (bmd : BMData) (haystack : List Byte) (len j : ℕ) : Prop :=
  bmd.Valid ∨ j + bmd.x.length > len ∨ OccursAt bmd.x haystack j

/-- The turn of both loops at a place with room for the pattern. -/
theorem turn_spec (hlen : len ≤ haystack.length) (hcan : CanCompare bmd haystack len j)
    (hroom : j + bmd.x.length ≤ len) :
    (compareBack bmd.x haystack j bmd.x.length = none ∧
      IsNext (Matches bmd.x haystack len) j ⟨j, bmd.x.length⟩) ∨
    ∃ i s, compareBack bmd.x haystack j bmd.x.length = some i ∧
      shift bmd haystack i j = some s ∧ bmd.Valid ∧ j < (j + s).toNat ∧
      Skips (Matches bmd.x haystack len) j (j + s).toNat := by
  cases hcmp : compareBack bmd.x haystack j bmd.x.length with
  | none =>
    refine .inl ⟨rfl, matches_iff.2 ⟨rfl, hroom, fun k hk => ?_⟩, Nat.le_refl _, ?_⟩
    · rw [Nat.add_comm j k, compareBack_none hcmp k hk]
    · intro s hs hle
      have hslen := (matches_iff.1 hs).1
      simp only [Span.Before]
      omega
  | some i =>
    obtain ⟨hi, hne, hall⟩ := compareBack_some hcmp
    have hvalid : bmd.Valid := by
      rcases hcan with hvalid | hout | hocc
      · exact hvalid
      · omega
      · exact absurd (hocc i hi).symm (by rw [Nat.add_comm j i]; exact hne)
    obtain ⟨s, hs, h1, hno⟩ := shift_spec hvalid hi hne hall (by omega)
    refine .inr ⟨i, s, rfl, hs, hvalid, by omega, by omega, fun s' hs' hle => ?_⟩
    obtain ⟨-, -, hocc⟩ := matches_iff.1 hs'
    by_cases heq : s'.pos = j
    · exact absurd (hocc i hi).symm (by rw [heq, Nat.add_comm j i]; exact hne)
    · have := hno s'.pos (by omega) hocc
      omega

theorem exhausted_of_no_room (h : j + x.length > len) : Exhausted (Matches x haystack len) j := by
  intro s hs
  have := (matches_iff.1 hs).2.1
  omega

theorem charge_eq_none (h : reds = none) : charge reds n = none := by
  rw [h]
  rfl

theorem findFirstLoop_spec {bmd : BMData} (hx : bmd.x ≠ []) (hlen : len ≤ haystack.length)
    {fuel : ℕ} {reds : Option ℕ} {j : ℕ} (hcan : CanCompare bmd haystack len j)
    (hfuel : 0 < fuel) (henough : len + 1 ≤ j + fuel) :
    ∃ r, findFirstLoop bmd haystack len fuel reds j = some r ∧
      r.Right (Matches bmd.x haystack len) j reds := by
  induction fuel generalizing reds j with
  | zero => omega
  | succ fuel ih =>
    have hpos : 0 < bmd.x.length := length_pos_iff.2 hx
    rw [findFirstLoop]
    split_ifs with hroom hreds
    · exact ⟨_, rfl, exhausted_of_no_room hroom⟩
    · refine ⟨_, rfl, fun hn => ?_, Nat.le_refl _, fun s _ h => h⟩
      rw [charge_eq_none hn] at hreds
      cases hreds
    rcases turn_spec hlen hcan (by omega) with
      ⟨hcmp, hnext⟩ | ⟨i, s, hcmp, hshift, hvalid, hlt, hskip⟩
    · rw [hcmp]
      exact ⟨_, rfl, hnext⟩
    · rw [hcmp]
      dsimp only
      rw [hshift]
      obtain ⟨r, heq, hright⟩ := @ih (charge reds 1) (j + s).toNat
        (.inl hvalid) (by omega) (by omega)
      exact ⟨r, heq, hright.of_skips hskip charge_eq_none⟩

/-- There are tables, or the pattern is one byte and `memchr` finds it. -/
def Usable (bmd : BMData) (reds : Option ℕ) : Prop :=
  bmd.Valid ∨ reds = none ∧ bmd.x.length = 1

/-- `skipTo` leaves the loop at a place where it can take its turn. -/
theorem skipTo_canCompare (hx : bmd.x ≠ []) {j j' : ℕ} (husable : Usable bmd reds)
    (h : skipTo bmd haystack len reds j = some (reds', j')) :
    Skips (Matches bmd.x haystack len) j j' ∧ (reds = none → reds' = none) ∧
      CanCompare bmd haystack len j' := by
  have hspec := @skipTo_spec haystack len bmd hx reds j
  rw [h] at hspec
  obtain ⟨hskip, hnone⟩ := hspec
  refine ⟨hskip, fun hreds => (hnone hreds).1, ?_⟩
  rcases husable with hvalid | ⟨hreds, hone⟩
  · exact .inl hvalid
  · rcases (hnone hreds).2 with hroom | hbyte
    · exact .inr (.inl hroom)
    · refine .inr (.inr fun k hk => ?_)
      rw [hone] at hbyte hk
      rw [show k = 0 by omega]
      exact hbyte

theorem bmFindFirstMatch_spec (hx : bmd.x ≠ []) (hlen : len ≤ haystack.length)
    (husable : Usable bmd reds) (pos : ℕ) :
    ∃ r, bmFindFirstMatch bmd haystack pos len reds = some r ∧
      r.Right (Matches bmd.x haystack len) pos reds := by
  have hspec := @skipTo_spec haystack len bmd hx reds pos
  rw [bmFindFirstMatch]
  cases hskip : skipTo bmd haystack len reds pos with
  | none =>
    rw [hskip] at hspec
    exact ⟨_, rfl, hspec⟩
  | some out =>
    obtain ⟨hskips, hnone, hcan⟩ := skipTo_canCompare hx husable hskip
    obtain ⟨r, heq, hright⟩ := @findFirstLoop_spec haystack len bmd hx hlen (len + 1) out.1
      out.2 hcan (Nat.succ_pos len) (Nat.le_add_left _ _)
    exact ⟨r, heq, hright.of_skips hskips hnone⟩

/-- What a search for all occurrences may answer: those found before, and the greedy list of
the others, or a part of it with the place to go on from. -/
def AllResult.Right (M : Span → Prop) (start : ℕ) (reds : Option ℕ) (out : List Span)
    (r : AllResult) : Prop :=
  (∃ l, Greedy M start l ∧ r = allDone (out ++ l)) ∨
  (reds ≠ none ∧ ∃ pos l, r = .restart pos (out ++ l) ∧
    ∀ l', Greedy M pos l' → Greedy M start (l ++ l'))

theorem AllResult.Right.of_skips (h : r.Right M start' reds' out)
    (hskip : Skips M start start') (hreds : reds = none → reds' = none) :
    r.Right M start reds out := by
  rcases h with ⟨l, hgreedy, heq⟩ | ⟨hne, pos, l, heq, hrest⟩
  · exact .inl ⟨l, hgreedy.of_skip hskip.2 hskip.1, heq⟩
  · exact .inr ⟨fun hn => hne (hreds hn), pos, l, heq,
      fun l' hl' => (hrest l' hl').of_skip hskip.2 hskip.1⟩

/-- An occurrence has been found, and the search goes on behind it. -/
theorem AllResult.Right.of_next (h : r.Right M s.stop reds' (out ++ [s])) (hnext : IsNext M start s)
    (hreds : reds = none → reds' = none) : r.Right M start reds out := by
  rcases h with ⟨l, hgreedy, heq⟩ | ⟨hne, pos, l, heq, hrest⟩
  · refine .inl ⟨s :: l, .next hnext hgreedy, ?_⟩
    rw [heq, append_assoc, singleton_append]
  · refine .inr ⟨fun hn => hne (hreds hn), pos, s :: l, ?_, fun l' hl' => ?_⟩
    · rw [heq, append_assoc, singleton_append]
    · exact .next hnext (hrest l' hl')

theorem AllResult.right_allDone (h : Exhausted M start) (reds : Option ℕ)
    (out : List Span) : (allDone out).Right M start reds out :=
  .inl ⟨[], .done h, by rw [append_nil]⟩

theorem findAllLoop_spec (hx : bmd.x ≠ []) (hlen : len ≤ haystack.length) {fuel : ℕ} {i : Option ℕ}
    {j : ℕ} (out : List Span) (husable : Usable bmd reds) (hi : i ≠ none → bmd.Valid)
    (hfuel : 0 < fuel) (henough : len + 1 ≤ j + fuel) :
    ∃ r, findAllLoop bmd haystack len fuel i reds j out = some r ∧
      r.Right (Matches bmd.x haystack len) j reds out := by
  induction fuel generalizing i reds j out with
  | zero => omega
  | succ fuel ih =>
    have hpos : 0 < bmd.x.length := length_pos_iff.2 hx
    rw [findAllLoop]
    -- the place of the turn
    have hplace : match (if i = none then skipTo bmd haystack len reds j
        else some (reds, j)) with
        | none => Exhausted (Matches bmd.x haystack len) j
        | some (reds', j') => Skips (Matches bmd.x haystack len) j j' ∧
            (reds = none → reds' = none) ∧ CanCompare bmd haystack len j' := by
      split_ifs with hnone
      · have hspec := @skipTo_spec haystack len bmd hx reds j
        cases hskip : skipTo bmd haystack len reds j with
        | none => rw [hskip] at hspec; exact hspec
        | some o => exact skipTo_canCompare hx husable hskip
      · exact ⟨⟨Nat.le_refl _, fun s _ h => h⟩, id, .inl (hi hnone)⟩
    generalize (if i = none then skipTo bmd haystack len reds j else some (reds, j)) = place
      at hplace
    match place with
    | none => exact ⟨_, rfl, AllResult.right_allDone hplace reds out⟩
    | some (reds', j') =>
      obtain ⟨hskip, hnone, hcan⟩ := hplace
      have hle := hskip.1
      have husable' : Usable bmd (charge reds' 1) :=
        husable.imp id fun h => ⟨charge_eq_none (hnone h.1), h.2⟩
      refine Exists.imp (fun r (h : _ ∧ r.Right (Matches bmd.x haystack len) j' reds' out) =>
        ⟨h.1, h.2.of_skips hskip hnone⟩) ?_
      dsimp only
      split_ifs with hroom hreds
      · exact ⟨_, rfl, AllResult.right_allDone (exhausted_of_no_room hroom) reds' out⟩
      · refine ⟨_, rfl, .inr ⟨fun hn => ?_, j', [], by rw [append_nil], fun _ h => h⟩⟩
        rw [charge_eq_none hn] at hreds
        cases hreds
      rcases turn_spec hlen hcan (by omega) with
        ⟨hcmp, hnext⟩ | ⟨i', s, hcmp, hshift, hvalid, hlt, hskip'⟩
      · rw [hcmp]
        obtain ⟨r, heq, hright⟩ := ih (i := none) (j := j' + bmd.x.length)
          (out ++ [⟨j', bmd.x.length⟩]) husable' (fun h => absurd rfl h) (by omega) (by omega)
        exact ⟨r, heq, AllResult.Right.of_next (s := ⟨j', bmd.x.length⟩) hright hnext
          charge_eq_none⟩
      · rw [hcmp]
        dsimp only
        rw [hshift]
        obtain ⟨r, heq, hright⟩ := ih (i := some i') (j := (j' + s).toNat) out husable'
          (fun _ => hvalid) (by omega) (by omega)
        exact ⟨r, heq, hright.of_skips hskip' charge_eq_none⟩

theorem bmFindAllNonOverlapping_spec (hx : bmd.x ≠ []) (hlen : len ≤ haystack.length)
    (husable : Usable bmd reds) (pos : ℕ) (out : List Span) :
    ∃ r, bmFindAllNonOverlapping bmd haystack pos len out reds = some r ∧
      r.Right (Matches bmd.x haystack len) pos reds out :=
  findAllLoop_spec hx hlen out husable (fun h => absurd rfl h) (Nat.succ_pos _) (by omega)

/-! ## Exactness -/

/-- The shifts after a mismatch at `i` are positive and jump over no occurrence. -/
def SafeShifts (x : List Byte) (goodshift : List ℤ) : Prop :=
  ∀ i < x.length, ∃ s, goodshift[i]? = some s ∧ 0 < s ∧
    ∀ haystack j, x[i]? ≠ haystack[i + j]? →
      (∀ k, i < k → k < x.length → x[k]? = haystack[k + j]?) →
      ∀ q : ℕ, j < q → q < j + s → ¬ OccursAt x haystack q

/-- The answers of the searches in a range of the haystack. -/
structure BMData.Exact (bmd : BMData) : Prop where
  first : ∀ haystack hsstart hsend, hsend ≤ haystack.length →
    (bmFindFirstMatch bmd haystack hsstart hsend none = some .notFound ∧
      Exhausted (Matches bmd.x haystack hsend) hsstart) ∨
    ∃ s, bmFindFirstMatch bmd haystack hsstart hsend none = some (.ok s) ∧
      IsNext (Matches bmd.x haystack hsend) hsstart s
  all : ∀ haystack hsstart hsend, hsend ≤ haystack.length →
    ∃ l, Greedy (Matches bmd.x haystack hsend) hsstart l ∧
      bmFindAllNonOverlapping bmd haystack hsstart hsend [] none = some (allDone l)

theorem BMData.exact_of_usable (hx : bmd.x ≠ []) (husable : Usable bmd none) :
    bmd.Exact where
  first := by
    intro haystack hsstart hsend hlen
    obtain ⟨r, heq, hright⟩ := bmFindFirstMatch_spec hx hlen husable hsstart
    cases r with
    | notFound => exact .inl ⟨heq, hright⟩
    | ok s => exact .inr ⟨s, heq, hright⟩
    | restart pos => exact absurd rfl hright.1
  all := by
    intro haystack hsstart hsend hlen
    obtain ⟨r, heq, hright⟩ := bmFindAllNonOverlapping_spec hx hlen husable hsstart []
    rcases hright with ⟨l, hgreedy, hr⟩ | ⟨hne, -⟩
    · exact ⟨l, hgreedy, by rw [heq, hr, nil_append]⟩
    · exact absurd rfl hne

theorem computeGoodshifts_safe (hx : x ≠ []) (hlen : x.length ≤ 2 ^ 31) :
    ∃ goodshift, computeGoodshifts x = some goodshift ∧ SafeShifts x goodshift := by
  obtain ⟨goodshift, heq, hgood⟩ := computeGoodshifts_spec hx hlen
  refine ⟨goodshift, heq, fun i hi => ?_⟩
  obtain ⟨v, hv, hpos, hle⟩ := hgood i hi
  refine ⟨v, hv, by omega, fun haystack j hne hall q hq hlt hocc => ?_⟩
  have := hle (q - j : ℕ) (by omega) (compatible_of_occursAt hne hall hi hq hocc)
  omega

theorem createBmdata_spec (hx : x ≠ []) (hlen : x.length ≤ 2 ^ 31) :
    ∃ bmd, createBmdata x = some bmd ∧ bmd.x = x ∧ Usable bmd none := by
  have hpos : 0 < x.length := length_pos_iff.2 hx
  rw [createBmdata]
  split_ifs with hone
  · obtain ⟨goodshift, heq, hgood⟩ := computeGoodshifts_spec hx hlen
    rw [heq]
    exact ⟨_, rfl, rfl, .inl ⟨hgood, computeBadshifts_spec x⟩⟩
  · exact ⟨_, rfl, rfl, .inr ⟨rfl, by show x.length = 1; omega⟩⟩

theorem createBmdata_long (hlen : 2 ^ 31 < x.length) : createBmdata x = none := by
  rw [createBmdata, if_pos (by omega), computeGoodshifts_long hlen]
  rfl

/-- The search for a pattern is exact, and its shifts are safe, just for the patterns of up to
`2 ^ 31` bytes. -/
theorem createBmdata_exact_iff (hx : x ≠ []) :
    (∃ bmd, createBmdata x = some bmd ∧ bmd.x = x ∧ bmd.Exact ∧
      ∃ goodshift, computeGoodshifts x = some goodshift ∧ SafeShifts x goodshift) ↔
    x.length ≤ 2 ^ 31 := by
  constructor
  · intro h
    obtain ⟨bmd, heq, -⟩ := h
    by_contra hlen
    rw [createBmdata_long (by omega)] at heq
    cases heq
  · intro hlen
    obtain ⟨bmd, heq, rfl, husable⟩ := createBmdata_spec hx hlen
    exact ⟨bmd, heq, rfl, BMData.exact_of_usable hx husable, computeGoodshifts_safe hx hlen⟩

/-- A periodic pattern. -/
theorem createBmdata_exact_periodic :
    ∃ bmd, createBmdata [0, 1, 0] = some bmd ∧ bmd.Exact ∧
      bmFindAllNonOverlapping bmd [0, 1, 0, 1, 0, 0, 1, 0] 0 8 [] none =
        some (.ok [⟨0, 3⟩, ⟨5, 3⟩]) := by
  obtain ⟨bmd, heq, -, hexact, -⟩ := (createBmdata_exact_iff (x := [0, 1, 0]) (by decide)).2
    (by decide)
  refine ⟨bmd, heq, hexact, ?_⟩
  have hrun : ((createBmdata [0, 1, 0]).bind fun bmd =>
      bmFindAllNonOverlapping bmd [0, 1, 0, 1, 0, 0, 1, 0] 0 8 [] none) =
      some (.ok [⟨0, 3⟩, ⟨5, 3⟩]) := by decide +kernel
  rw [heq] at hrun
  exact hrun

/-- The loop variables of `compute_suffixes` are too small for this pattern, and it reads
outside its table. -/
theorem createBmdata_zeros_long : createBmdata (List.replicate (2 ^ 31 + 1) 0) = none :=
  createBmdata_long (by rw [length_replicate]; exact Nat.lt_succ_self _)

end Otp.Erts.BinarySearch
