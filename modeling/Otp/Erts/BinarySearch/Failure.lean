import Otp.Lib.LongestSuffix
import Otp.Erts.BinarySearch.Trie

/-!
# The failure functions of the trie

The nodes are visited in order of their depth: when the children of a node are visited, all
nodes that are not deeper than the node have got their failure functions (`Bfs.mem_of_length_le`).
So the walk along the failures of the parent finds the failure of the child.
-/

namespace Otp.Erts.BinarySearch

open Lib.LongestSuffix List
open ACTrie (root)

variable {act : ACTrie} {W : Addr → Prop} {F : Addr → ℤ} {qbuff : List Addr} {w p : Addr}
  {final : ℤ} {taken : Addr → Byte → Prop} {b : Byte} {fuel qh size : ℕ} {node : ACNode}

/-! ## What is known of a visited node -/

/-- The mark of a word after its visit: its own one, or `-1` where one of its suffixes has a
mark. -/
structure MarkRight (W : Addr → Prop) (F : Addr → ℤ) (w : Addr) (final : ℤ) : Prop where
  own : F w ≠ 0 → final = F w
  below : F w = 0 → final = -1 ∧ (∃ u, W u ∧ u <:+ w ∧ F u ≠ 0) ∨
    final = 0 ∧ ¬ ∃ u, W u ∧ u <:+ w ∧ F u ≠ 0

theorem MarkRight.ne_zero_iff (h : MarkRight W F w final) (hw : W w) :
    final ≠ 0 ↔ ∃ u, W u ∧ u <:+ w ∧ F u ≠ 0 := by
  by_cases hF : F w = 0
  · rcases h.below hF with ⟨hm, hex⟩ | ⟨hm, hno⟩
    · simp only [hm, hex, iff_true]
      decide
    · simp only [hm, hno, ne_eq, not_true]
  · rw [h.own hF]
    exact ⟨fun hne => ⟨w, hw, suffix_refl w, hne⟩, fun _ => hF⟩

/-- A visited node has its failure and its mark. -/
structure Visited (W : Addr → Prop) (F : Addr → ℤ) (w : Addr) (node : ACNode) : Prop where
  fail : ∃ f, node.h = some f ∧ IsFail W w f
  mark : MarkRight W F w node.final

/-- The search so far: the nodes in the queue are those below the turns that have been taken,
they are sorted by depth, and they have been visited. -/
structure Bfs (W : Addr → Prop) (F : Addr → ℤ) (size : ℕ) (act : ACTrie) (qbuff : List Addr)
    (taken : Addr → Byte → Prop) : Prop where
  built : Built act W
  word : ∀ w ∈ qbuff, W w ∧ w ≠ root
  visited : ∀ w ∈ qbuff, ∀ node, act.nodes w = some node → Visited W F w node
  fresh : ∀ w, w ∉ qbuff → finalAt act w = F w
  below : ∀ w b, W (w ++ [b]) → (w ++ [b] ∈ qbuff ↔ taken w b)
  nodup : qbuff.Nodup
  sorted : qbuff.Pairwise fun v w => v.length ≤ w.length
  room : qbuff.length ≤ size
  small : qbuff.length < 2 ^ 31

theorem Bfs.congr {taken' : Addr → Byte → Prop} (h : Bfs W F size act qbuff taken)
    (heq : ∀ w b, W (w ++ [b]) → (taken w b ↔ taken' w b)) : Bfs W F size act qbuff taken' :=
  { h with below := fun w b hw => (h.below w b hw).trans (heq w b hw) }

/-- The nodes of a trie but the root fit in the queue. -/
def Fits (W : Addr → Prop) (size : ℕ) : Prop :=
  ∀ l : List Addr, l.Nodup → (∀ w ∈ l, W w ∧ w ≠ root) → l.length ≤ size ∧ l.length < 2 ^ 31

theorem finalAt_eq (hn : act.nodes w = some node) : finalAt act w = node.final := by
  rw [finalAt, hn]
  rfl

section Child

variable {size : ℕ} (h : Bfs W F size act qbuff taken) {c : ACNode}

include h

/-- There is no child to put in the queue. -/
theorem Bfs.no_child (hn : act.nodes p = some node) (hg : node.g b = none) :
    Bfs W F size act qbuff (fun w c => taken w c ∨ w = p ∧ c = b) := by
  refine h.congr fun w c hw => (or_iff_left fun heq => ?_).symm
  rw [heq.1, heq.2] at hw
  exact (h.built.g_eq_none hn).1 hg hw

variable (hc : act.nodes (p ++ [b]) = some c) (hnot : ¬ taken p b)

include hc hnot

theorem Bfs.notMem : p ++ [b] ∉ qbuff :=
  fun hmem => hnot ((h.below p b (h.built.mem hc)).1 hmem)

/-- The child still has its first mark. -/
theorem Bfs.final_eq : c.final = F (p ++ [b]) := by
  rw [← finalAt_eq hc]
  exact h.fresh _ (h.notMem hc hnot)

/-- There is room for the child, or the nodes do not fit. -/
theorem Bfs.push_eq : push size qbuff (p ++ [b]) = none ∧ ¬ Fits W size ∨
    push size qbuff (p ++ [b]) = some (qbuff ++ [p ++ [b]]) ∧
      qbuff.length + 1 ≤ size ∧ qbuff.length + 1 < 2 ^ 31 := by
  have hne : p ++ [b] ≠ root := by simp [root]
  rw [push]
  split_ifs with hroom
  · exact .inr ⟨rfl, hroom⟩
  · refine .inl ⟨rfl, fun hfits => hroom ?_⟩
    exact hfits _ (nodup_cons.2 ⟨h.notMem hc hnot, h.nodup⟩)
      (forall_mem_cons.2 ⟨⟨h.built.mem hc, hne⟩, h.word⟩)

/-- A node is put in the queue and gets its failure and its mark. -/
theorem Bfs.enqueue {f : Addr} (hdeep : ∀ w ∈ qbuff, w.length ≤ p.length + 1)
    (hf : IsFail W (p ++ [b]) f) (hm : MarkRight W F (p ++ [b]) final)
    (hroom : qbuff.length + 1 ≤ size ∧ qbuff.length + 1 < 2 ^ 31) :
    Bfs W F size (act.set (p ++ [b]) { c with h := some f, final := final }) (qbuff ++ [p ++ [b]])
      (fun w c => taken w c ∨ w = p ∧ c = b) := by
  have hchild : W (p ++ [b]) := h.built.mem hc
  have hnew := h.notMem hc hnot
  have hne : p ++ [b] ≠ root := by simp [root]
  -- the other nodes stay as they are
  have hother : ∀ w, w ≠ p ++ [b] →
      (act.set (p ++ [b]) { c with h := some f, final := final }).nodes w = act.nodes w :=
    fun w hw => by rw [ACTrie.nodes_set, if_neg hw]
  refine ⟨⟨h.built.toShape.set hc rfl rfl, h.built.few, ?_⟩, ?_, ?_, ?_, ?_, ?_, ?_, ?_, ?_⟩
  · intro node hn
    exact h.built.null node (by rw [← hn, hother root hne.symm])
  · intro w hw
    rcases mem_append.1 hw with hw | hw
    · exact h.word w hw
    · rw [mem_singleton.1 hw]
      exact ⟨hchild, hne⟩
  · intro w hw node hn
    rcases mem_append.1 hw with hw | hw
    · rw [hother w fun heq => hnew (heq ▸ hw)] at hn
      exact h.visited w hw node hn
    · rw [mem_singleton.1 hw] at hn ⊢
      rw [ACTrie.nodes_set, if_pos rfl] at hn
      cases hn
      exact ⟨⟨f, rfl, hf⟩, hm⟩
  · intro w hw
    rw [mem_append, mem_singleton, not_or] at hw
    rw [finalAt, hother w hw.2]
    exact h.fresh w hw.1
  · intro w c hw
    rw [mem_append, mem_singleton, h.below w c hw]
    refine or_congr_right ?_
    constructor
    · intro heq
      obtain ⟨h1, h2⟩ := append_inj' heq rfl
      exact ⟨h1, singleton_inj.1 h2⟩
    · intro heq
      rw [heq.1, heq.2]
  · exact nodup_append.2 ⟨h.nodup, pairwise_singleton _ _,
      fun a ha b' hb' => by rw [mem_singleton.1 hb']; exact fun heq => hnew (heq ▸ ha)⟩
  · refine pairwise_append.2 ⟨h.sorted, pairwise_singleton _ _, fun v hv w hw => ?_⟩
    rw [mem_singleton.1 hw, length_append]
    exact hdeep v hv
  · rw [length_append]
    exact hroom.1
  · rw [length_append]
    exact hroom.2

end Child

/-! ## The failure of a child -/

/-- All words up to a length have been visited. -/
def VisitedUpTo (W : Addr → Prop) (qbuff : List Addr) (n : ℕ) : Prop :=
  ∀ w, W w → w ≠ root → w.length ≤ n → w ∈ qbuff

/-- The walk along the failures ends where the step is possible, or at the root without it. -/
theorem followFailure_spec (h : Bfs W F size act qbuff taken) (b : Byte) {a : Addr}
    (ha : W a) (hup : VisitedUpTo W qbuff a.length) (hfuel : a.length < fuel) :
    (∃ r, followFailure act b fuel (some a) = some (some r) ∧ W (r ++ [b]) ∧
      IsLongest W (a ++ [b]) (r ++ [b])) ∨
    followFailure act b fuel (some a) = some none ∧ ¬ W [b] ∧ IsLongest W (a ++ [b]) root := by
  induction fuel generalizing a with
  | zero => omega
  | succ fuel ih =>
    obtain ⟨node, hn⟩ := h.built.node ha
    rw [followFailure, hn]
    dsimp only
    split_ifs with hg
    · have hno := (h.built.g_eq_none hn).1 hg
      by_cases hroot : a = root
      · subst hroot
        rw [h.built.null node hn]
        refine .inr ⟨?_, hno, isLongest_of_no_step h.built.nil hno⟩
        cases fuel <;> rfl
      · obtain ⟨f, hh, hf⟩ := (h.visited a (hup a ha hroot (Nat.le_refl _)) node hn).fail
        have hlt := hf.length_lt
        rw [hh]
        rcases ih hf.mem (fun w hw hne hle => hup w hw hne (by omega)) (by omega) with
          ⟨r, heq, hr, hlong⟩ | ⟨heq, hb, hlong⟩
        · exact .inl ⟨r, heq, hr, hlong.of_fail h.built.closed hno hf⟩
        · exact .inr ⟨heq, hb, hlong.of_fail h.built.closed hno hf⟩
    · have hstep : W (a ++ [b]) := by
        by_contra hno
        exact hg ((h.built.g_eq_none hn).2 hno)
      exact .inl ⟨a, rfl, hstep, isLongest_self hstep⟩

/-- The mark of a word from the mark of its failure. -/
theorem MarkRight.of_fail {w f : Addr} {final : ℤ} (hf : IsFail W w f)
    (hm : final ≠ 0 ↔ ∃ u, W u ∧ u <:+ f ∧ F u ≠ 0) :
    MarkRight W F w (if F w = 0 ∧ final ≠ 0 then -1 else F w) := by
  have hiff : F w = 0 → ((∃ u, W u ∧ u <:+ w ∧ F u ≠ 0) ↔ final ≠ 0) := by
    intro hF
    rw [hm]
    constructor
    · intro hu
      obtain ⟨u, hu, hsuf, hne⟩ := hu
      exact ⟨u, hu, hf.longest u hu hsuf fun heq => hne (heq ▸ hF), hne⟩
    · intro hu
      obtain ⟨u, hu, hsuf, hne⟩ := hu
      exact ⟨u, hu, hsuf.trans hf.suffix, hne⟩
  constructor
  · intro hne
    rw [if_neg fun hc => hne hc.1]
  · intro hF
    rw [hiff hF]
    by_cases hfin : final = 0
    · exact .inr ⟨by rw [if_neg fun hc => hc.2 hfin, hF], fun hc => hc hfin⟩
    · exact .inl ⟨by rw [if_pos ⟨hF, hfin⟩], hfin⟩

/-- Nothing is marked below the root. -/
theorem MarkRight.of_fail_root (hF : F root = 0) (hf : IsFail W w root) :
    MarkRight W F w (F w) := by
  have hmark := @MarkRight.of_fail W F w root 0 hf ?_
  · rw [if_neg fun hcond => hcond.2 rfl] at hmark
    exact hmark
  · simp only [ne_eq, not_true, false_iff, not_exists, not_and]
    intro u _ hsuf
    rw [suffix_nil.1 hsuf]
    exact fun hne => hne hF

section Visit

variable (h : Bfs W F size act qbuff taken) (hF : F root = 0) (hp : p ∈ qbuff)
  (hup : VisitedUpTo W qbuff p.length) (hnot : ¬ taken p b)

include h hF hp hup hnot

/-- The node of a child gets its failure and its mark. -/
theorem setFailure_spec (hchild : W (p ++ [b])) :
    ∃ c f final, act.nodes (p ++ [b]) = some c ∧
      setFailure act p b (p ++ [b]) =
        some (act.set (p ++ [b]) { c with h := some f, final := final }) ∧
      IsFail W (p ++ [b]) f ∧ MarkRight W F (p ++ [b]) final := by
  obtain ⟨hpW, hpne⟩ := h.word p hp
  obtain ⟨pn, hpn⟩ := h.built.node hpW
  obtain ⟨c, hc⟩ := h.built.node hchild
  obtain ⟨f0, hh, hf0⟩ := (h.visited p hp pn hpn).fail
  have hlt := hf0.length_lt
  have hcF := h.final_eq hc hnot
  rw [setFailure, hpn, hc]
  dsimp only
  rw [hh]
  have hfuel : f0.length < p.length + 1 := by omega
  rcases followFailure_spec h b hf0.mem (fun w hw hne hle => hup w hw hne (by omega))
    hfuel with ⟨r, heq, hr, hlong⟩ | ⟨heq, hb, hlong⟩
  · have hf := hf0.concat h.built.closed hlong
    have hrW := h.built.closed r b hr
    obtain ⟨rn, hrn⟩ := h.built.node hrW
    obtain ⟨hn, hhn⟩ := h.built.node hr
    have hrne : r ++ [b] ≠ root := by simp [root]
    have hle : (r ++ [b]).length ≤ f0.length + 1 :=
      Nat.le_trans hlong.suffix.length_le (Nat.le_of_eq length_append)
    have hvis := h.visited _ (hup _ hr hrne (by omega)) hn hhn
    refine ⟨c, r ++ [b], if c.final = 0 ∧ hn.final ≠ 0 then -1 else c.final, rfl, ?_, hf, ?_⟩
    · rw [heq]
      dsimp only
      rw [hrn, Option.bind_some, (h.built.g r rn hrn b (r ++ [b])).2 ⟨rfl, hr⟩]
      dsimp only
      rw [hhn]
    · rw [hcF]
      exact MarkRight.of_fail hf (hvis.mark.ne_zero_iff hr)
  · have hf := hf0.concat h.built.closed hlong
    obtain ⟨rn, hrn⟩ := h.built.node h.built.nil
    refine ⟨c, root, c.final, rfl, ?_, hf, ?_⟩
    · rw [heq]
      rw [hrn]
      dsimp only
      rw [if_pos ((h.built.g_eq_none hrn).2 hb)]
    · rw [hcF]
      exact .of_fail_root hF hf

/-! ## The search -/

theorem visit_spec (hdeep : ∀ w ∈ qbuff, w.length ≤ p.length + 1) :
    (visit size p act qbuff b = none ∧ ¬ Fits W size) ∨
    ∃ act' new, visit size p act qbuff b = some (act', qbuff ++ new) ∧
      (∀ w ∈ new, w.length = p.length + 1) ∧
      Bfs W F size act' (qbuff ++ new) (fun w c => taken w c ∨ w = p ∧ c = b) := by
  obtain ⟨pn, hpn⟩ := h.built.node (h.word p hp).1
  rw [visit, hpn]
  dsimp only
  cases hg : pn.g b with
  | none =>
    refine .inr ⟨act, [], by rw [append_nil], by simp, ?_⟩
    rw [append_nil]
    exact h.no_child hpn hg
  | some child =>
    obtain ⟨rfl, hchild⟩ := (h.built.g p pn hpn b child).1 hg
    obtain ⟨c, f, final, hc, hset, hf, hm⟩ := setFailure_spec h hF hp hup hnot hchild
    dsimp only
    rw [hset]
    rcases h.push_eq hc hnot with ⟨hpush, hfits⟩ | ⟨hpush, hroom⟩
    · exact .inl ⟨by rw [hpush], hfits⟩
    · refine .inr ⟨_, [p ++ [b]], by rw [hpush], ?_, h.enqueue hc hnot hdeep hf hm hroom⟩
      intro w hw
      rw [mem_singleton.1 hw, length_append]
      rfl

end Visit

/-- The turns that are left after the one for `b`. -/
theorem not_taken_tail {bs : List Byte} (hb : b ∉ bs) (hnot : ∀ c ∈ b :: bs, ¬ taken p c) :
    ∀ c ∈ bs, ¬ (taken p c ∨ p = p ∧ c = b) := by
  intro c hc hor
  rcases hor with ht | ⟨-, rfl⟩
  · exact hnot c (mem_cons_of_mem _ hc) ht
  · exact hb hc

theorem visitAll_spec (h : Bfs W F size act qbuff taken) (hF : F root = 0)
    (hp : p ∈ qbuff) (hup : VisitedUpTo W qbuff p.length)
    (hdeep : ∀ w ∈ qbuff, w.length ≤ p.length + 1) (bs : List Byte) (hnodup : bs.Nodup)
    (hnot : ∀ b ∈ bs, ¬ taken p b) :
    (visitAll size p act qbuff bs = none ∧ ¬ Fits W size) ∨
    ∃ act' new, visitAll size p act qbuff bs = some (act', qbuff ++ new) ∧
      (∀ w ∈ new, w.length = p.length + 1) ∧
      Bfs W F size act' (qbuff ++ new) (fun w c => taken w c ∨ w = p ∧ c ∈ bs) := by
  induction bs generalizing act qbuff taken with
  | nil =>
    refine .inr ⟨act, [], by rw [append_nil]; rfl, by simp, ?_⟩
    rw [append_nil]
    exact h.congr fun w c _ => by simp
  | cons b bs ih =>
    obtain ⟨hb, hnodup'⟩ := nodup_cons.1 hnodup
    rw [visitAll]
    rcases visit_spec h hF hp hup (hnot b mem_cons_self) hdeep with
      ⟨hnone, hfits⟩ | ⟨act1, new1, hvisit, hlen1, h1⟩
    · exact .inl ⟨by rw [hnone], hfits⟩
    rw [hvisit]
    dsimp only
    have hdeep1 : ∀ w ∈ qbuff ++ new1, w.length ≤ p.length + 1 := by
      intro w hw
      rcases mem_append.1 hw with hw | hw
      · exact hdeep w hw
      · exact Nat.le_of_eq (hlen1 w hw)
    rcases ih h1 (mem_append_left _ hp)
      (fun w hw hne hle => mem_append_left _ (hup w hw hne hle)) hdeep1 hnodup'
      (not_taken_tail hb hnot) with
      ⟨hnone, hfits⟩ | ⟨act2, new2, heq, hlen2, h2⟩
    · exact .inl ⟨hnone, hfits⟩
    refine .inr ⟨act2, new1 ++ new2, by rw [heq, append_assoc], ?_, ?_⟩
    · intro w hw
      rcases mem_append.1 hw with hw | hw
      · exact hlen1 w hw
      · exact hlen2 w hw
    · rw [← append_assoc]
      refine h2.congr fun w c _ => ?_
      simp only [mem_cons]
      tauto

theorem visitRoot_spec (h : Bfs W F size act qbuff taken) (hF : F root = 0)
    (hdeep : ∀ w ∈ qbuff, w.length = 1) (bs : List Byte) (hnodup : bs.Nodup)
    (hnot : ∀ b ∈ bs, ¬ taken root b) :
    (visitRoot size act qbuff bs = none ∧ ¬ Fits W size) ∨
    ∃ act' qbuff', visitRoot size act qbuff bs = some (act', qbuff') ∧
      (∀ w ∈ qbuff', w.length = 1) ∧
      Bfs W F size act' qbuff' (fun w c => taken w c ∨ w = root ∧ c ∈ bs) := by
  induction bs generalizing act qbuff taken with
  | nil => exact .inr ⟨act, qbuff, rfl, hdeep, h.congr fun w c _ => by simp⟩
  | cons b bs ih =>
    obtain ⟨hb, hnodup'⟩ := nodup_cons.1 hnodup
    obtain ⟨rn, hrn⟩ := h.built.node h.built.nil
    -- the turn for `b`, after which the others follow
    have hturn : (visitRoot size act qbuff (b :: bs) = none ∧ ¬ Fits W size) ∨
        ∃ act1 qbuff1, visitRoot size act qbuff (b :: bs) = visitRoot size act1 qbuff1 bs ∧
          (∀ w ∈ qbuff1, w.length = 1) ∧
          Bfs W F size act1 qbuff1 (fun w c => taken w c ∨ w = root ∧ c = b) := by
      rw [visitRoot, hrn]
      dsimp only
      cases hg : rn.g b with
      | none => exact .inr ⟨act, qbuff, rfl, hdeep, h.no_child hrn hg⟩
      | some child =>
        obtain ⟨rfl, hchild⟩ := (h.built.g root rn hrn b child).1 hg
        obtain ⟨c, hc⟩ := h.built.node hchild
        have hnotb := hnot b mem_cons_self
        have hfail : IsFail W (root ++ [b]) root := isFail_singleton h.built.nil
        have hmark : MarkRight W F (root ++ [b]) c.final := by
          rw [h.final_eq hc hnotb]
          exact .of_fail_root hF hfail
        dsimp only
        rw [hc]
        rcases h.push_eq hc hnotb with ⟨hpush, hfits⟩ | ⟨hpush, hroom⟩
        · exact .inl ⟨by rw [hpush], hfits⟩
        · refine .inr ⟨_, _, by rw [hpush], ?_, h.enqueue hc hnotb
            (fun w hw => Nat.le_of_eq (hdeep w hw)) hfail hmark hroom⟩
          exact forall_mem_append.2 ⟨hdeep, forall_mem_singleton.2 rfl⟩
    rcases hturn with hno | ⟨act1, qbuff1, hturn, hdeep1, h1⟩
    · exact .inl hno
    rw [hturn]
    rcases ih h1 hdeep1 hnodup' (not_taken_tail hb hnot) with
      hno | ⟨act', qbuff', heq, hlen, h'⟩
    · exact .inl hno
    · refine .inr ⟨act', qbuff', heq, hlen, h'.congr fun w c _ => ?_⟩
      simp only [mem_cons]
      tauto

theorem nodup_allBytes : allBytes.Nodup := by
  refine List.Nodup.map_on (fun m hm n hn heq => ?_) nodup_range
  have hnat := congrArg UInt8.toNat heq
  rw [UInt8.toNat_ofNat', UInt8.toNat_ofNat'] at hnat
  rw [mem_range, alphabetSize] at hm hn
  omega

theorem mem_allBytes (b : Byte) : b ∈ allBytes := by
  refine mem_map.2 ⟨b.toNat, mem_range.2 b.toNat_lt, ?_⟩
  exact UInt8.ofNat_toNat

/-- The turns that have been taken when `qh` nodes have been taken from the queue. -/
def takenUpTo (qbuff : List Addr) (qh : ℕ) (w : Addr) (_ : Byte) : Prop :=
  w = root ∨ w ∈ qbuff.take qh

/-- No deeper node has been taken from the queue than `p`, so all nodes up to its depth are in
the queue. -/
theorem Bfs.mem_of_length_le (h : Bfs W F size act qbuff (takenUpTo qbuff qh))
    (hp : qbuff[qh]? = some p) : VisitedUpTo W qbuff p.length := by
  intro w
  induction w using List.reverseRecOn with
  | nil => intro _ hne; exact absurd rfl hne
  | append_singleton v b ih =>
    intro hw _ hle
    rw [length_append, length_singleton] at hle
    refine (h.below v b hw).2 ?_
    by_cases hv : v = root
    · exact .inl hv
    · refine .inr ?_
      have hmem := ih (h.built.closed v b hw) hv (by omega)
      obtain ⟨i, hi, rfl⟩ := getElem_of_mem hmem
      obtain ⟨hqh, rfl⟩ := List.getElem?_eq_some_iff.1 hp
      rcases Nat.lt_or_ge i qh with hlt | hge
      · exact mem_take_iff_getElem.2 ⟨i, by omega, rfl⟩
      · -- a node that is still in the queue is not less deep
        have hsorted : qbuff[qh].length ≤ qbuff[i].length := by
          rcases Nat.eq_or_lt_of_le hge with rfl | hlt
          · exact Nat.le_refl _
          · exact pairwise_iff_getElem.1 h.sorted qh i hqh hi hlt
        omega

theorem failureLoop_spec (hF : F root = 0) (h : Bfs W F size act qbuff (takenUpTo qbuff qh))
    (hdeep : ∀ p, qbuff[qh]? = some p → ∀ v ∈ qbuff, v.length ≤ p.length + 1)
    (hqh : qh ≤ qbuff.length) (hfuel : size < qh + fuel) :
    (failureLoop size fuel act qbuff qh = none ∧ ¬ Fits W size) ∨
    ∃ act' qbuff', failureLoop size fuel act qbuff qh = some act' ∧
      Bfs W F size act' qbuff' (fun w _ => w = root ∨ w ∈ qbuff') := by
  induction fuel generalizing act qbuff qh with
  | zero =>
    have := h.room
    omega
  | succ fuel ih =>
    rw [failureLoop]
    cases hp : qbuff[qh]? with
    | none =>
      have hlen := List.getElem?_eq_none_iff.1 hp
      refine .inr ⟨act, qbuff, rfl, h.congr fun w c _ => ?_⟩
      rw [takenUpTo, take_of_length_le hlen]
    | some p =>
      obtain ⟨hlt, hget⟩ := List.getElem?_eq_some_iff.1 hp
      have hpmem : p ∈ qbuff := mem_of_getElem? hp
      have htake : qbuff.take (qh + 1) = qbuff.take qh ++ [p] := by
        rw [take_add_one, hp]
        rfl
      have hnot : ∀ b ∈ allBytes, ¬ takenUpTo qbuff qh p b := by
        intro b _ htaken
        rcases htaken with hroot | hmem
        · exact (h.word p hpmem).2 hroot
        · have hnd := h.nodup.sublist (take_sublist (qh + 1) qbuff)
          rw [htake] at hnd
          exact (nodup_append.1 hnd).2.2 p hmem p (mem_singleton_self p) rfl
      rcases visitAll_spec h hF hpmem (h.mem_of_length_le hp) (hdeep p hp) allBytes
        nodup_allBytes hnot with ⟨hnone, hfits⟩ | ⟨act1, new, hvisit, hlen, h1⟩
      · exact .inl ⟨by dsimp only; rw [hnone], hfits⟩
      dsimp only
      rw [hvisit]
      have htake' : (qbuff ++ new).take (qh + 1) = qbuff.take qh ++ [p] := by
        rw [take_append_of_le_length (by omega), htake]
      refine ih (h1.congr fun w c _ => ?_) ?_ (by rw [length_append]; omega) (by omega)
      · simp only [takenUpTo, htake', mem_append, mem_singleton, mem_allBytes, and_true, or_assoc]
      · intro p' hp' v hv
        -- the next node of the queue is not less deep
        have hle : p.length ≤ p'.length := by
          obtain ⟨hlt', hget'⟩ := List.getElem?_eq_some_iff.1 hp'
          have := pairwise_iff_getElem.1 h1.sorted qh (qh + 1)
            (by rw [length_append]; omega) hlt' (by omega)
          rw [hget', getElem_append_left hlt, hget] at this
          exact this
        rcases mem_append.1 hv with hv | hv
        · have := hdeep p hp v hv
          omega
        · have := hlen v hv
          omega

/-! ## The automaton -/

/-- All failures and marks are right, and the root fails to itself. -/
structure Linked (act : ACTrie) (W : Addr → Prop) (F : Addr → ℤ) : Prop extends Shape act W where
  few : act.rootByteCount ≤ acRootSimdMax → ∀ b, W [b] ↔ b ∈ act.rootBytes
  rootFail : ∀ node, act.nodes root = some node → node.h = some root ∧ node.final = F root
  visited : ∀ w node, w ≠ root → act.nodes w = some node → Visited W F w node

/-- The words of a trie are all in the queue at the end. -/
theorem Bfs.mem_of_word (h : Bfs W F size act qbuff fun w _ => w = root ∨ w ∈ qbuff)
    (hw : W w) (hne : w ≠ root) : w ∈ qbuff := by
  induction w using List.reverseRecOn with
  | nil => exact absurd rfl hne
  | append_singleton v b ih =>
    refine (h.below v b hw).2 ?_
    by_cases hv : v = root
    · exact .inl hv
    · exact .inr (ih (h.built.closed v b hw) hv)

/-- Either the nodes do not fit in the queue, or the automaton is right; then the queue has had
all of them. -/
theorem acComputeFailureFunctions_spec (h : Built act W) (hF : finalAt act root = 0) :
    (acComputeFailureFunctions size act = none ∧ ¬ Fits W size) ∨
    ∃ act', ∃ qbuff : List Addr, acComputeFailureFunctions size act = some act' ∧
      Linked act' W (finalAt act) ∧
      qbuff.length < 2 ^ 31 ∧ ∀ w, W w → w ≠ root → w ∈ qbuff := by
  have hstart : Bfs W (finalAt act) size act [] fun _ _ => False :=
    ⟨h, nofun, nofun, fun _ _ => rfl, fun _ _ _ => by simp, nodup_nil, List.Pairwise.nil,
      Nat.zero_le _, by decide⟩
  rw [acComputeFailureFunctions]
  rcases visitRoot_spec hstart hF nofun allBytes nodup_allBytes (fun _ _ h => h) with
    ⟨hnone, hfits⟩ | ⟨act1, qbuff1, hroot, hlen1, h1⟩
  · exact .inl ⟨by rw [hnone], hfits⟩
  rw [hroot]
  dsimp only
  have h1' : Bfs W (finalAt act) size act1 qbuff1 (takenUpTo qbuff1 0) := by
    refine h1.congr fun w c _ => ?_
    simp only [takenUpTo, false_or, mem_allBytes, and_true, take_zero, not_mem_nil, or_false]
  have hdeep : ∀ p, qbuff1[0]? = some p → ∀ v ∈ qbuff1, v.length ≤ p.length + 1 := by
    intro p _ v hv
    rw [hlen1 v hv]
    omega
  have hfuel : size < 0 + (size + 1) := by omega
  rcases failureLoop_spec hF h1' hdeep (Nat.zero_le _) hfuel with
    ⟨hnone, hfits⟩ | ⟨act2, qbuff2, hloop, h2⟩
  · exact .inl ⟨by rw [hnone], hfits⟩
  rw [hloop]
  dsimp only
  obtain ⟨rn, hrn⟩ := h2.built.node h2.built.nil
  have hother : ∀ w, w ≠ root → (act2.set root { rn with h := some root }).nodes w = act2.nodes w :=
    fun w hw => by rw [ACTrie.nodes_set, if_neg hw]
  refine .inr ⟨act2.set root { rn with h := some root }, qbuff2, by rw [hrn]; rfl,
    ⟨h2.built.toShape.set hrn rfl rfl, h2.built.few, ?_, ?_⟩, h2.small,
    fun w hw hne => h2.mem_of_word hw hne⟩
  · intro node hn
    cases hn
    refine ⟨rfl, ?_⟩
    rw [← h2.fresh root fun hmem => (h2.word root hmem).2 rfl, finalAt_eq hrn]
  · intro w node hne hn
    rw [hother w hne] at hn
    exact h2.visited w (h2.mem_of_word (h2.built.mem hn) hne) node hn

end Otp.Erts.BinarySearch
