import Otp.Erts.BinarySearch.Failure

/-!
# The automaton of a set of patterns

The trie is compiled unless it has more nodes than the `int`s of the queue can count
(`acCompile_spec`).  The compiled automaton steps to the longest suffix of the text that is a
prefix of a pattern, and along the failures from there it finds the patterns that end in the
text, the longest first.
-/

namespace Otp.Erts.BinarySearch

open Lib.LongestSuffix List
open ACTrie (root)

variable {act : ACTrie} {patterns : List (List Byte)} {w : Addr} {p : List Byte} {fuel : ℕ}

/-- A set of patterns: each once, and none of them empty. -/
structure PatternSet (patterns : List (List Byte)) : Prop where
  nodup : patterns.Nodup
  nonempty : ∀ p ∈ patterns, p ≠ []

/-- The nodes of the trie: the prefixes of the patterns. -/
def trieNodes (patterns : List (List Byte)) : List Addr :=
  (patterns.flatMap List.inits).dedup

/-- What a search uses of the compiled trie. -/
structure Automaton (act : ACTrie) (patterns : List (List Byte)) : Prop
    extends Shape act (PrefixOf patterns) where
  few : act.rootByteCount ≤ acRootSimdMax → ∀ b, PrefixOf patterns [b] ↔ b ∈ act.rootBytes
  rootFail : ∀ node, act.nodes root = some node → node.h = some root
  fail : ∀ w node, w ≠ root → act.nodes w = some node →
    ∃ f, node.h = some f ∧ IsFail (PrefixOf patterns) w f
  final_pos : ∀ w node, act.nodes w = some node → (0 < node.final ↔ w ∈ patterns)
  final_ne : ∀ w node, act.nodes w = some node →
    (node.final ≠ 0 ↔ ∃ p ∈ patterns, p <:+ w)
  depth : ∀ w node, act.nodes w = some node → node.d = w.length

/-! ## Compilation -/

theorem mem_trieNodes : w ∈ trieNodes patterns ↔ ∃ p ∈ patterns, w <+: p := by
  simp only [trieNodes, mem_dedup, mem_flatMap, mem_inits]

theorem prefixOf_of_mem (hp : p ∈ patterns) : PrefixOf patterns p :=
  .inr ⟨p, hp, prefix_refl p⟩

theorem fits_of_trieNodes (hne : patterns ≠ []) (hsmall : (trieNodes patterns).length ≤ 2 ^ 31) :
    Fits (PrefixOf patterns) (patterns.map List.length).sum := by
  intro l hnodup hl
  have hbelow : ∀ w ∈ l, ∃ p ∈ patterns, w <+: p := fun w hw =>
    (hl w hw).1.resolve_left (hl w hw).2
  constructor
  · -- no more words than characters
    have hsub : l ⊆ patterns.flatMap fun p => p.inits.tail := by
      intro w hw
      obtain ⟨p, hp, hpre⟩ := hbelow w hw
      refine mem_flatMap.2 ⟨p, hp, ?_⟩
      have hmem := (mem_inits w p).2 hpre
      cases p with
      | nil => exact absurd (prefix_nil.1 hpre) (hl w hw).2
      | cons a p =>
        exact (mem_cons.1 hmem).resolve_left (hl w hw).2
    have hlen : (patterns.flatMap fun p => p.inits.tail).length =
        (patterns.map List.length).sum := by
      rw [length_flatMap]
      congr 2
      funext p
      rw [length_tail, length_inits, Nat.add_sub_cancel]
    exact hlen ▸ (subperm_of_subset hnodup hsub).length_le
  · have hroot : root ∉ l := fun hmem => (hl root hmem).2 rfl
    have hsub : root :: l ⊆ trieNodes patterns := by
      intro w hw
      rcases mem_cons.1 hw with rfl | hw
      · obtain ⟨p, hp⟩ := exists_mem_of_ne_nil patterns hne
        exact mem_trieNodes.2 ⟨p, hp, nil_prefix⟩
      · exact mem_trieNodes.2 (hbelow w hw)
    have := (subperm_of_subset (nodup_cons.2 ⟨hroot, hnodup⟩) hsub).length_le
    rw [length_cons] at this
    omega

theorem trieNodes_le_of_mem {qbuff : List Addr} (hsmall : qbuff.length < 2 ^ 31)
    (hall : ∀ w, PrefixOf patterns w → w ≠ root → w ∈ qbuff) :
    (trieNodes patterns).length ≤ 2 ^ 31 := by
  have hsub : trieNodes patterns ⊆ root :: qbuff := by
    intro w hw
    by_cases hroot : w = root
    · exact mem_cons.2 (.inl hroot)
    · exact mem_cons_of_mem _ (hall w (.inr (mem_trieNodes.1 hw)) hroot)
  have := (subperm_of_subset (nodup_dedup _) hsub).length_le
  exact Nat.le_trans this hsmall

theorem length_lt_of_trieNodes (hset : PatternSet patterns)
    (hsmall : (trieNodes patterns).length ≤ 2 ^ 31) : patterns.length < 2 ^ 31 := by
  cases patterns with
  | nil => decide
  | cons x ps =>
    have hroot : root ∉ x :: ps := fun hmem => hset.nonempty root hmem rfl
    have hsub : root :: x :: ps ⊆ trieNodes (x :: ps) := by
      intro w hw
      rcases mem_cons.1 hw with rfl | hw
      · exact mem_trieNodes.2 ⟨x, mem_cons_self, nil_prefix⟩
      · exact mem_trieNodes.2 ⟨w, hw, prefix_refl w⟩
    have := (subperm_of_subset (nodup_cons.2 ⟨hroot, hset.nodup⟩) hsub).length_le
    rw [length_cons] at this
    omega

/-- A word is not longer than the trie is large. -/
theorem length_lt_trieNodes (hp : p ∈ patterns) (hpre : w <+: p) :
    w.length < (trieNodes patterns).length := by
  have hsub : w.inits ⊆ trieNodes patterns := by
    intro u hu
    exact mem_trieNodes.2 ⟨p, hp, ((mem_inits u w).1 hu).trans hpre⟩
  have hnodup : w.inits.Nodup := by
    refine nodup_iff_injective_getElem.2 fun i j heq => ?_
    have hlen := congrArg List.length heq
    dsimp only at hlen
    rw [getElem_inits, getElem_inits, length_take, length_take] at hlen
    have hi := Nat.lt_of_lt_of_eq i.isLt (length_inits w)
    have hj := Nat.lt_of_lt_of_eq j.isLt (length_inits w)
    exact Fin.ext (by omega)
  have := (subperm_of_subset hnodup hsub).length_le
  rw [length_inits] at this
  exact this

theorem length_lt_of_prefixOf (hw : PrefixOf patterns w)
    (hsmall : (trieNodes patterns).length ≤ 2 ^ 31) : w.length < 2 ^ 32 := by
  rcases hw with rfl | ⟨p, hp, hpre⟩
  · decide
  · have := length_lt_trieNodes hp hpre
    omega

theorem automaton_of_linked {F : Addr → ℤ} (h : Linked act (PrefixOf patterns) F)
    (hset : PatternSet patterns) (hsmall : (trieNodes patterns).length ≤ 2 ^ 31)
    (hnonneg : ∀ w, 0 ≤ F w) (hpos : ∀ w, 0 < F w ↔ w ∈ patterns) : Automaton act patterns := by
  have hne : ∀ w, F w ≠ 0 ↔ w ∈ patterns := fun w => by
    rw [← hpos w]
    have := hnonneg w
    omega
  have hrootF : F root = 0 := by
    by_contra hF
    exact hset.nonempty root ((hne root).1 hF) rfl
  have hmarked : ∀ w, (∃ u, PrefixOf patterns u ∧ u <:+ w ∧ F u ≠ 0) ↔ ∃ p ∈ patterns, p <:+ w := by
    intro w
    constructor
    · intro hu
      obtain ⟨u, -, hsuf, hF⟩ := hu
      exact ⟨u, (hne u).1 hF, hsuf⟩
    · intro hp
      obtain ⟨p, hp, hsuf⟩ := hp
      exact ⟨p, prefixOf_of_mem hp, hsuf, (hne p).2 hp⟩
  refine ⟨h.toShape, h.few, fun node hn => (h.rootFail node hn).1,
    fun w node hw hn => (h.visited w node hw hn).fail, ?_, ?_, ?_⟩
  · intro w node hn
    by_cases hw : w = root
    · subst hw
      rw [(h.rootFail node hn).2, hpos]
    · have hmark := (h.visited w node hw hn).mark
      rw [← hpos w]
      by_cases hF : F w = 0
      · rcases hmark.below hF with ⟨hm, -⟩ | ⟨hm, -⟩ <;> omega
      · rw [hmark.own hF]
  · intro w node hn
    by_cases hw : w = root
    · subst hw
      rw [(h.rootFail node hn).2, hrootF, ← hmarked]
      simp only [ne_eq, not_true, false_iff, not_exists, not_and, not_not]
      intro u _ hsuf
      rw [suffix_nil.1 hsuf]
      exact hrootF
    · rw [(h.visited w node hw hn).mark.ne_zero_iff (h.mem hn), hmarked]
  · intro w node hn
    rw [h.d w node hn, Nat.mod_eq_of_lt (length_lt_of_prefixOf (h.mem hn) hsmall)]

/-- The patterns are compiled just if the nodes of the trie can be counted. -/
theorem acCompile_spec (hne : patterns ≠ []) (hset : PatternSet patterns) :
    (acCompile patterns = none ∧ ¬ (trieNodes patterns).length ≤ 2 ^ 31) ∨
    ∃ act, acCompile patterns = some act ∧ (trieNodes patterns).length ≤ 2 ^ 31 ∧
      Automaton act patterns := by
  obtain ⟨act, hadd, hbuilt, hmarks⟩ :=
    addPatterns_spec built_createAcdata marks_createAcdata patterns
  rw [acCompile, hadd]
  rcases @acComputeFailureFunctions_spec act _ (patterns.map List.length).sum hbuilt
    (hmarks.root hset.nonempty) with ⟨hnone, hfits⟩ | ⟨act', qbuff, heq, hlinked, hlt, hall⟩
  · exact .inl ⟨hnone, fun hsmall => hfits (fits_of_trieNodes hne hsmall)⟩
  · have hsmall := trieNodes_le_of_mem hlt hall
    have hlen := length_lt_of_trieNodes hset hsmall
    exact .inr ⟨act', heq, hsmall,
      automaton_of_linked hlinked hset hsmall (hmarks.nonneg hlen) (hmarks.pos hlen)⟩

/-! ## Steps -/

theorem acAdvance_spec (h : Automaton act patterns) (c : Byte) {q : Addr} (hq : PrefixOf patterns q)
    (hfuel : q.length < fuel) :
    ∃ q', acAdvance act c fuel q = some q' ∧ IsLongest (PrefixOf patterns) (q ++ [c]) q' := by
  induction fuel generalizing q with
  | zero => omega
  | succ fuel ih =>
    obtain ⟨node, hn⟩ := h.node hq
    rw [acAdvance, hn]
    dsimp only
    cases hg : node.g c with
    | some next =>
      obtain ⟨rfl, hnext⟩ := (h.g q node hn c next).1 hg
      exact ⟨_, rfl, isLongest_self hnext⟩
    | none =>
      have hno := (h.g_eq_none hn).1 hg
      by_cases hroot : q = root
      · subst hroot
        rw [h.rootFail node hn]
        exact ⟨root, if_pos rfl, isLongest_of_no_step h.nil hno⟩
      · obtain ⟨f, hh, hf⟩ := h.fail q node hroot hn
        have hlt := hf.length_lt
        obtain ⟨q', heq, hlong⟩ := ih hf.mem (by omega)
        rw [hh]
        exact ⟨q', by dsimp only; rw [if_neg hf.proper, heq], hlong.of_fail h.closed hno hf⟩

/-- A pattern at the end of a word is the word or stands at the end of its failure. -/
theorem Automaton.suffix_fail {f p : Addr} (hf : IsFail (PrefixOf patterns) w f) (hp : p ∈ patterns)
    (hsuf : p <:+ w) (hne : p ≠ w) : p <:+ f :=
  hf.longest p (prefixOf_of_mem hp) hsuf hne

/-- The first marked node is the longest pattern at the end of the word. -/
theorem firstFinal_spec (h : Automaton act patterns) {r : Addr} (hr : PrefixOf patterns r)
    (hex : ∃ p ∈ patterns, p <:+ r) (hfuel : r.length < fuel) :
    ∃ v node, firstFinal act fuel r = some (v, node) ∧ act.nodes v = some node ∧ v ∈ patterns ∧
      v <:+ r ∧ ∀ p ∈ patterns, p <:+ r → p <:+ v := by
  induction fuel generalizing r with
  | zero => omega
  | succ fuel ih =>
    obtain ⟨node, hn⟩ := h.node hr
    rw [firstFinal, hn]
    dsimp only
    have hne := (h.final_ne r node hn).2 hex
    have hpos := h.final_pos r node hn
    split_ifs with hneg
    · have hnot : r ∉ patterns := fun hmem => by
        have := hpos.2 hmem
        omega
      obtain ⟨p, hp, hsuf⟩ := hex
      have hroot : r ≠ root := by
        intro heq
        subst heq
        have hnil : p = root := suffix_nil.1 hsuf
        exact hnot (hnil ▸ hp)
      obtain ⟨f, hh, hf⟩ := h.fail r node hroot hn
      have hlt := hf.length_lt
      have hdown : ∀ p ∈ patterns, p <:+ r → p <:+ f := fun p hp hsuf =>
        Automaton.suffix_fail hf hp hsuf fun heq => hnot (heq ▸ hp)
      obtain ⟨v, vn, heq, hvn, hv, hvsuf, hlong⟩ := ih hf.mem ⟨p, hp, hdown p hp hsuf⟩ (by omega)
      rw [hh]
      exact ⟨v, vn, heq, hvn, hv, hvsuf.trans hf.suffix,
        fun p hp hsuf => hlong p hp (hdown p hp hsuf)⟩
    · exact ⟨r, node, rfl, hn, hpos.1 (by omega), suffix_refl r, fun p _ hsuf => hsuf⟩

/-! ## Skipping at the root -/

section Skip

variable {haystack : List Byte} {len pos : ℕ}

/-- No pattern starts with one of the bytes that are skipped, and a budget that is used up has
been used for something. -/
structure SkipRight (patterns : List (List Byte)) (haystack : List Byte) (len pos : ℕ)
    (s : Skip) : Prop where
  le : pos + s.skip ≤ len
  none : ∀ k < s.skip, ∀ c, haystack[pos + k]? = some c → ¬ PrefixOf patterns [c]
  found : s.found → pos + s.skip < len

section

variable (h : Automaton act patterns)

include h

theorem rootTransition_iff (c : Byte) : rootTransition act (some c) ↔ PrefixOf patterns [c] := by
  obtain ⟨node, hn⟩ := h.node h.nil
  rw [rootTransition, Option.bind_some, hn, Option.bind_some]
  constructor
  · intro hsome
    obtain ⟨a, ha⟩ := Option.isSome_iff_exists.1 hsome
    obtain ⟨rfl, hmem⟩ := (h.g root node hn c a).1 ha
    exact hmem
  · intro hmem
    rw [(h.g root node hn c [c]).2 ⟨rfl, hmem⟩]
    rfl

theorem skipBytes_spec (left skip : ℕ) (hle : pos + skip ≤ len)
    (hnone : ∀ k < skip, ∀ c, haystack[pos + k]? = some c → ¬ PrefixOf patterns [c]) :
    SkipRight patterns haystack len pos (skipBytes act haystack len pos left skip) ∧
      skip ≤ (skipBytes act haystack len pos left skip).skip ∧
      (0 < left → pos + skip < len → (skipBytes act haystack len pos left skip).found = false →
        (skipBytes act haystack len pos left skip).left = 0 →
        skip < (skipBytes act haystack len pos left skip).skip) := by
  induction left generalizing skip with
  | zero => exact ⟨⟨hle, hnone, nofun⟩, Nat.le_refl _, fun hpos => by omega⟩
  | succ left ih =>
    rw [skipBytes]
    split_ifs with hlt htr
    · exact ⟨⟨hle, hnone, fun _ => hlt⟩, Nat.le_refl _, fun _ _ hf => by cases hf⟩
    · have hnext : ∀ k < skip + 1, ∀ c, haystack[pos + k]? = some c → ¬ PrefixOf patterns [c] := by
        intro k hk c hc
        by_cases hks : k = skip
        · subst hks
          rw [hc, rootTransition_iff h] at htr
          exact htr
        · exact hnone k (by omega) c hc
      obtain ⟨hright, hmono, -⟩ := ih (skip + 1) (by omega) hnext
      exact ⟨hright, by omega, fun _ _ _ _ => by omega⟩
    · exact ⟨⟨hle, hnone, nofun⟩, Nat.le_refl _, fun _ hlt' => absurd hlt' hlt⟩

theorem acRootSimdSkipBlock_spec
    (hfew : act.rootByteCount ≤ acRootSimdMax) {i : ℕ} (hroom : i + 16 ≤ haystack.length) :
    acRootSimdSkipBlock act haystack i ≤ 16 ∧ ∀ k < acRootSimdSkipBlock act haystack i, ∀ c,
      haystack[i + k]? = some c → ¬ PrefixOf patterns [c] := by
  have hlen : ((haystack.drop i).take 16).length = 16 := by
    rw [length_take, length_drop]
    omega
  refine ⟨Nat.le_trans findIdx_le_length (Nat.le_of_eq hlen), ?_⟩
  intro k hk c hc hpre
  have hnot := not_of_lt_findIdx hk
  obtain ⟨hlt, rfl⟩ := List.getElem?_eq_some_iff.1 hc
  exact absurd ((h.few hfew _).1 hpre) (by simpa using hnot)

theorem skipBlocks_spec (hfew : act.rootByteCount ≤ acRootSimdMax)
    (hlen : len ≤ haystack.length) (left skip : ℕ) (hle : pos + skip ≤ len)
    (hnone : ∀ k < skip, ∀ c, haystack[pos + k]? = some c → ¬ PrefixOf patterns [c]) :
    SkipRight patterns haystack len pos (skipBlocks act haystack len pos left skip) ∧
      (0 < left → (skipBlocks act haystack len pos left skip).left = 0 →
        (skipBlocks act haystack len pos left skip).found = false →
        skip < (skipBlocks act haystack len pos left skip).skip) ∧
      skip ≤ (skipBlocks act haystack len pos left skip).skip := by
  induction left generalizing skip with
  | zero => exact ⟨⟨hle, hnone, nofun⟩, fun hpos => by omega, Nat.le_refl _⟩
  | succ left ih =>
    rw [skipBlocks]
    split_ifs with hroom
    · have hblocks : pos + skip + 16 ≤ haystack.length := by omega
      obtain ⟨hblock, hno⟩ := acRootSimdSkipBlock_spec h hfew hblocks
      generalize acRootSimdSkipBlock act haystack (pos + skip) = block at hblock hno
      have hnext : ∀ k < skip + block, ∀ c, haystack[pos + k]? = some c →
          ¬ PrefixOf patterns [c] := by
        intro k hk c hc
        by_cases hks : k < skip
        · exact hnone k hks c hc
        · refine hno (k - skip) (by omega) c ?_
          rw [show pos + skip + (k - skip) = pos + k by omega, hc]
      dsimp only
      split_ifs with hlt
      · exact ⟨⟨by dsimp only; omega, hnext, fun _ => by dsimp only; omega⟩,
          fun _ _ hf => absurd hf (by simp), Nat.le_add_right _ _⟩
      · obtain ⟨hright, -, hmono⟩ := ih (skip + block) (by omega) hnext
        exact ⟨hright, fun _ _ _ => by omega, by omega⟩
    · exact ⟨⟨hle, hnone, nofun⟩, fun _ hz => absurd hz (by simp), Nat.le_refl _⟩

theorem acRootSkip_spec (simd : Bool) (hlen : len ≤ haystack.length)
    (hpos : pos < len) (maxReductions : ℕ) :
    SkipRight patterns haystack len pos (acRootSkip simd act haystack len maxReductions pos) ∧
      (0 < maxReductions → (acRootSkip simd act haystack len maxReductions pos).found = false →
        (acRootSkip simd act haystack len maxReductions pos).left = 0 →
        0 < (acRootSkip simd act haystack len maxReductions pos).skip) := by
  have hstart : ∀ k < 0, ∀ c, haystack[pos + k]? = some c → ¬ PrefixOf patterns [c] :=
    fun k hk => by omega
  rw [acRootSkip]
  split_ifs with hsimd
  · obtain ⟨hright, hused, hmono⟩ := skipBlocks_spec h hsimd.2.2 hlen maxReductions 0
      (Nat.le_of_lt hpos) hstart
    generalize hb : skipBlocks act haystack len pos maxReductions 0 = blocks at hright hused hmono
    dsimp only
    split_ifs with hfound
    · exact ⟨hright, fun _ hf => by rw [hfound] at hf; cases hf⟩
    · obtain ⟨hright', hmono', hused'⟩ := skipBytes_spec h blocks.left _ hright.le hright.none
      refine ⟨hright', fun hmax hf hz => ?_⟩
      -- one of the two loops has used the budget
      by_cases hskip : blocks.skip = 0
      · have hleft : 0 < blocks.left := by
          by_contra hzero
          have := hused hmax (by omega) (by simpa using hfound)
          omega
        have := hused' hleft (by omega) hf hz
        omega
      · omega
  · obtain ⟨hright, -, hused⟩ := skipBytes_spec h maxReductions 0 (Nat.le_of_lt hpos) hstart
    exact ⟨hright, fun hmax hf hz => hused hmax hpos hf hz⟩

end

end Skip

end Otp.Erts.BinarySearch
