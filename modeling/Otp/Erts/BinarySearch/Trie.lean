import Otp.Erts.BinarySearch.AhoCorasick
import Otp.Erts.BinarySearch.Shifts

/-!
# The trie of the patterns

The addresses in use are the prefixes of the patterns (`Shape`), a transition leads to the
address with one more byte, and the marks of the nodes are the patterns (`Marks`).
-/

namespace Otp.Erts.BinarySearch

open List Function

open ACTrie (root)

variable {act : ACTrie} {W : Addr → Prop} {w acn : Addr} {b : Byte}

theorem ACTrie.nodes_set (act : ACTrie) (a : Addr) (node : ACNode) (w : Addr) :
    (act.set a node).nodes w = if w = a then some node else act.nodes w :=
  update_apply ..

/-! ## Shape -/

/-- The nodes of a trie with the words in `W`. -/
structure Shape (act : ACTrie) (W : Addr → Prop) : Prop where
  word : ∀ w, (act.nodes w).isSome ↔ W w
  nil : W root
  closed : ∀ w b, W (w ++ [b]) → W w
  g : ∀ w node, act.nodes w = some node → ∀ b a, node.g b = some a ↔ a = w ++ [b] ∧ W a
  d : ∀ w node, act.nodes w = some node → node.d = w.length % 2 ^ 32

theorem Shape.node {w : Addr} (h : Shape act W) (hw : W w) : ∃ node, act.nodes w = some node :=
  Option.isSome_iff_exists.1 ((h.word w).2 hw)

variable {node : ACNode}

section

variable (h : Shape act W) (hn : act.nodes w = some node)

include h hn

theorem Shape.mem : W w :=
  (h.word w).1 (by rw [hn]; rfl)

theorem Shape.g_eq_none :
    node.g b = none ↔ ¬ W (w ++ [b]) := by
  constructor
  · intro hg hw
    rw [(h.g w node hn b (w ++ [b])).2 ⟨rfl, hw⟩] at hg
    cases hg
  · intro hw
    rw [Option.eq_none_iff_forall_ne_some]
    intro a ha
    obtain ⟨rfl, hmem⟩ := (h.g w node hn b a).1 ha
    exact hw hmem

end

/-- A node changes in fields that have nothing to do with the shape. -/
theorem Shape.set {node node' : ACNode} (h : Shape act W) (hn : act.nodes w = some node)
    (hg : node'.g = node.g) (hd : node'.d = node.d) :
    Shape (act.set w node') W where
  word := by
    intro w'
    by_cases hw : w' = w
    · subst hw
      simp only [ACTrie.set, update_self, Option.isSome_some, h.mem hn]
    · simp only [ACTrie.set, update_of_ne hw, h.word]
  nil := h.nil
  closed := h.closed
  g := by
    intro w' n hn'
    by_cases hw : w' = w
    · subst hw
      simp only [ACTrie.set, update_self, Option.some.injEq] at hn'
      rw [← hn', hg]
      exact h.g w' node hn
    · simp only [ACTrie.set, update_of_ne hw] at hn'
      exact h.g w' n hn'
  d := by
    intro w' n hn'
    by_cases hw : w' = w
    · subst hw
      simp only [ACTrie.set, update_self, Option.some.injEq] at hn'
      rw [← hn', hd]
      exact h.d w' node hn
    · simp only [ACTrie.set, update_of_ne hw] at hn'
      exact h.d w' n hn'

/-- The mark of a node. -/
def finalAt (act : ACTrie) (w : Addr) : ℤ := ((act.nodes w).map ACNode.final).getD 0

/-- A new node below a node without a transition. -/
def ACTrie.grow (act : ACTrie) (acn : Addr) (node : ACNode) (b : Byte) : ACTrie :=
  (act.set (acn ++ [b]) ⟨(acn.length + 1) % 2 ^ 32, 0, some root, fun _ => none⟩).set acn
    { node with g := update node.g b (some (acn ++ [b])) }

theorem concat_ne_self (w : Addr) (b : Byte) : w ++ [b] ≠ w := by
  intro h
  have := congrArg List.length h
  simp at this

theorem ACTrie.nodes_grow (act : ACTrie) (acn : Addr) (node : ACNode) (b : Byte) (w : Addr) :
    (act.grow acn node b).nodes w =
      if w = acn then some { node with g := update node.g b (some (acn ++ [b])) }
      else if w = acn ++ [b] then
        some ⟨(acn.length + 1) % 2 ^ 32, 0, some root, fun _ => none⟩
      else act.nodes w := by
  simp only [ACTrie.grow, ACTrie.set, update_apply]

theorem Shape.grow (h : Shape act W) (hn : act.nodes acn = some node) (hg : node.g b = none) :
    Shape (act.grow acn node b) fun w => W w ∨ w = acn ++ [b] where
  word := by
    intro w
    rw [ACTrie.nodes_grow]
    split_ifs with h1 h2
    · subst h1
      simp only [Option.isSome_some, h.mem hn, true_or]
    · simp only [h2, Option.isSome_some, or_true]
    · simp only [h.word, h2, or_false]
  nil := .inl h.nil
  closed := by
    intro w c hw
    rcases hw with hw | hw
    · exact .inl (h.closed w c hw)
    · rw [(append_inj' hw rfl).1]
      exact .inl (h.mem hn)
  g := by
    intro w n hw
    rw [ACTrie.nodes_grow] at hw
    have hold := h.g_eq_none (b := b) hn
    split_ifs at hw with h1 h2
    · subst h1
      cases hw
      intro c a
      simp only [update_apply]
      split_ifs with hc
      · subst hc
        simp only [Option.some.injEq]
        constructor
        · intro ha
          exact ⟨ha.symm, .inr ha.symm⟩
        · intro ha
          exact ha.1.symm
      · rw [h.g w node hn c a]
        refine and_congr_right fun ha => (or_iff_left fun heq => hc ?_).symm
        have := (append_inj' (ha.symm.trans heq) rfl).2
        exact singleton_inj.1 this
    · subst h2
      cases hw
      intro c a
      simp only [reduceCtorEq, false_iff, not_and]
      intro ha hmem
      rcases hmem with hmem | hmem
      · exact hold.1 hg (h.closed _ c (ha ▸ hmem))
      · exact concat_ne_self _ c (ha.symm.trans hmem)
    · intro c a
      rw [h.g w n hw c a]
      refine and_congr_right fun ha => (or_iff_left fun heq => h1 ?_).symm
      exact (append_inj' (ha.symm.trans heq) rfl).1
  d := by
    intro w n hw
    rw [ACTrie.nodes_grow] at hw
    split_ifs at hw with h1 h2
    · subst h1
      cases hw
      exact h.d w node hn
    · subst h2
      cases hw
      rw [length_append]
      rfl
    · exact h.d w n hw

theorem finalAt_grow (h : Shape act W) (hn : act.nodes acn = some node)
    (hg : node.g b = none) (w : Addr) : finalAt (act.grow acn node b) w = finalAt act w := by
  rw [finalAt, finalAt, ACTrie.nodes_grow]
  split_ifs with h1 h2
  · rw [h1, hn]
    rfl
  · have hnone : act.nodes (acn ++ [b]) = none := by
      rw [← Option.not_isSome_iff_eq_none, h.word]
      exact (h.g_eq_none hn).1 hg
    rw [h2, hnone]
    rfl
  · rfl

/-! ## Adding patterns -/

/-- A trie before its failure functions are computed.  The bytes that patterns start with are
known while they are few. -/
structure Built (act : ACTrie) (W : Addr → Prop) : Prop extends Shape act W where
  few : act.rootByteCount ≤ acRootSimdMax → ∀ b, W [b] ↔ b ∈ act.rootBytes
  null : ∀ node, act.nodes root = some node → node.h = none

theorem Built.congr {W' : Addr → Prop} (h : Built act W) (heq : ∀ w, W w ↔ W' w) :
    Built act W' := by
  have : W = W' := funext fun w => propext (heq w)
  exact this ▸ h

theorem nodes_countRootByte (act : ACTrie) (b : Byte) :
    (countRootByte act b).nodes = act.nodes := by
  rw [countRootByte]
  split_ifs <;> rfl

theorem counter_countRootByte (act : ACTrie) (b : Byte) :
    (countRootByte act b).counter = act.counter := by
  rw [countRootByte]
  split_ifs <;> rfl

/-- The trie with a new first byte. -/
theorem few_countRootByte
    (hfew : act.rootByteCount ≤ acRootSimdMax → ∀ c, W [c] ↔ c ∈ act.rootBytes) :
    (countRootByte act b).rootByteCount ≤ acRootSimdMax →
      ∀ c, (W [c] ∨ [c] = [b]) ↔ c ∈ (countRootByte act b).rootBytes := by
  intro hle c
  have hlt : act.rootByteCount < acRootSimdMax := by
    by_cases h1 : act.rootByteCount ≤ acRootSimdMax
    · rw [countRootByte, if_pos h1] at hle
      exact hle
    · rw [countRootByte, if_neg h1] at hle
      exact absurd hle h1
  rw [countRootByte, if_pos (Nat.le_of_lt hlt), if_pos hlt]
  simp only [mem_append, mem_singleton, hfew (Nat.le_of_lt hlt), singleton_inj]

/-- The node that is added for a missing transition. -/
theorem Built.grow (h : Built act W) (hn : act.nodes acn = some node) (hg : node.g b = none) :
    Built ((if acn = root then countRootByte act b else act).grow acn node b)
      fun w => W w ∨ w = acn ++ [b] := by
  generalize hc : (if acn = root then countRootByte act b else act) = counted
  have hnodes : counted.nodes = act.nodes := by
    rw [← hc]
    split_ifs
    · exact nodes_countRootByte act b
    · rfl
  have hshape : Shape counted W := by
    refine ⟨?_, h.nil, h.closed, ?_, ?_⟩
    · rw [hnodes]
      exact h.word
    · rw [hnodes]
      exact h.g
    · rw [hnodes]
      exact h.d
  refine ⟨hshape.grow (hnodes ▸ hn) hg, ?_, ?_⟩
  · intro hle c
    show _ ↔ c ∈ counted.rootBytes
    have hle' : counted.rootByteCount ≤ acRootSimdMax := hle
    rw [← hc] at hle' ⊢
    split_ifs at hle' ⊢ with hroot
    · rw [hroot]
      exact few_countRootByte h.few hle' c
    · rw [← h.few hle' c]
      refine or_iff_left fun heq => hroot ?_
      have := congrArg List.length heq
      rw [length_append] at this
      exact length_eq_zero_iff.1 (Nat.succ.inj this).symm
  · intro n hroot
    rw [ACTrie.nodes_grow] at hroot
    split_ifs at hroot with h1 h2
    · cases hroot
      exact h.null node (h1 ▸ hn)
    · exact absurd h2.symm (by simp [root])
    · exact h.null n (hnodes ▸ hroot)

theorem addBytes_spec (h : Built act W) (hacn : W acn) (x : List Byte) :
    ∃ act', addBytes act acn acn.length x = some (act', acn ++ x) ∧
      Built act' (fun w => W w ∨ ∃ y, y <+: x ∧ w = acn ++ y) ∧ act'.counter = act.counter ∧
      ∀ w, finalAt act' w = finalAt act w := by
  induction x generalizing act acn W with
  | nil =>
    refine ⟨act, by rw [append_nil]; rfl, h.congr fun w => ?_, rfl, fun _ => rfl⟩
    refine (or_iff_left_of_imp ?_).symm
    rintro ⟨y, hy, rfl⟩
    rwa [prefix_nil.1 hy, append_nil]
  | cons b x ih =>
    obtain ⟨node, hn⟩ := h.node hacn
    -- the words after the whole pattern, from the words after its first byte
    have hwords : ∀ W' : Addr → Prop, (∀ w, W' w ↔ W w ∨ w = acn ++ [b]) → ∀ w,
        (W' w ∨ ∃ y, y <+: x ∧ w = acn ++ [b] ++ y) ↔ (W w ∨ ∃ y, y <+: b :: x ∧ w = acn ++ y) := by
      intro W' hW' w
      rw [hW']
      constructor
      · intro hw
        rcases hw with (hw | rfl) | ⟨y, hy, rfl⟩
        · exact .inl hw
        · exact .inr ⟨[b], ⟨x, rfl⟩, rfl⟩
        · refine .inr ⟨b :: y, prefix_cons_iff.2 (.inr ⟨y, rfl, hy⟩), ?_⟩
          rw [append_assoc, singleton_append]
      · intro hw
        rcases hw with hw | ⟨y, hy, rfl⟩
        · exact .inl (.inl hw)
        · rcases prefix_cons_iff.1 hy with rfl | ⟨y', rfl, hy'⟩
          · rw [append_nil]
            exact .inl (.inl hacn)
          · exact .inr ⟨y', hy', by rw [append_assoc, singleton_append]⟩
    have happ : acn ++ b :: x = acn ++ [b] ++ x := by
      rw [append_assoc, singleton_append]
    have hlen : acn.length + 1 = (acn ++ [b]).length := by rw [length_append]; rfl
    rw [addBytes, hn]
    dsimp only
    cases hg : node.g b with
    | some next =>
      obtain ⟨rfl, hnext⟩ := (h.g acn node hn b next).1 hg
      obtain ⟨act', heq, hbuilt, hcounter, hfinal⟩ := ih h hnext
      refine ⟨act', ?_, hbuilt.congr (hwords W fun w => ?_), hcounter, hfinal⟩
      · rw [happ, ← heq, ← hlen]
      · refine (or_iff_left_of_imp ?_).symm
        rintro rfl
        exact hnext
    | none =>
      have hgrow := h.grow hn hg
      obtain ⟨act', heq, hbuilt, hcounter, hfinal⟩ := ih hgrow (.inr rfl)
      refine ⟨act', ?_, hbuilt.congr (hwords _ fun w => Iff.rfl), ?_, fun w => ?_⟩
      · rw [happ, ← heq, ← hlen]
        rfl
      · rw [hcounter]
        split_ifs
        · exact counter_countRootByte act b
        · rfl
      · rw [hfinal w]
        have hsame := finalAt_grow h.toShape hn hg w
        rw [finalAt, ACTrie.nodes_grow] at hsame ⊢
        rw [← hsame]
        split_ifs <;> first | rfl | rw [nodes_countRootByte]

/-- The prefixes of the patterns. -/
def PrefixOf (patterns : List (List Byte)) (w : Addr) : Prop :=
  w = root ∨ ∃ p ∈ patterns, w <+: p

/-- The marked nodes are the patterns.  The counter of patterns has 32 bits, and a mark is a
signed number of 32 bits. -/
structure Marks (act : ACTrie) (patterns : List (List Byte)) : Prop where
  counter : act.counter = patterns.length % 2 ^ 32
  nonneg : patterns.length < 2 ^ 31 → ∀ w, 0 ≤ finalAt act w
  pos : patterns.length < 2 ^ 31 → ∀ w, 0 < finalAt act w ↔ w ∈ patterns
  root : (∀ p ∈ patterns, p ≠ []) → finalAt act root = 0

theorem finalAt_set (act : ACTrie) (w : Addr) (node : ACNode) (w' : Addr) :
    finalAt (act.set w node) w' = if w' = w then node.final else finalAt act w' := by
  simp only [finalAt, ACTrie.set, update_apply]
  split_ifs <;> rfl

theorem Built.setFinal (h : Built act W) (hn : act.nodes w = some node) (final : ℤ) :
    Built (act.set w { node with final := final }) W where
  toShape := h.toShape.set hn rfl rfl
  few := h.few
  null := by
    intro n hroot
    simp only [ACTrie.set, update_apply] at hroot
    split_ifs at hroot with hw
    · cases hroot
      exact h.null node (hw ▸ hn)
    · exact h.null n hroot

theorem acAddOnePattern_spec {patterns : List (List Byte)} (h : Built act (PrefixOf patterns))
    (hmarks : Marks act patterns) (x : List Byte) :
    ∃ act', acAddOnePattern act x = some act' ∧ Built act' (PrefixOf (patterns ++ [x])) ∧
      Marks act' (patterns ++ [x]) := by
  generalize hn : (act.counter + 1) % 2 ^ 32 = n
  have hcount : Built { act with counter := n } (PrefixOf patterns) :=
    ⟨⟨h.word, h.nil, h.closed, h.g, h.d⟩, h.few, h.null⟩
  obtain ⟨act1, hadd, hbuilt, hcounter, hfinal⟩ := addBytes_spec hcount (.inl rfl) x
  have hwords : ∀ w, (PrefixOf patterns w ∨ ∃ y, y <+: x ∧ w = root ++ y) ↔
      PrefixOf (patterns ++ [x]) w := by
    intro w
    simp only [PrefixOf, root, nil_append, mem_append, mem_singleton]
    constructor
    · intro hw
      rcases hw with (hw | ⟨p, hp, hw⟩) | ⟨y, hy, rfl⟩
      · exact .inl hw
      · exact .inr ⟨p, .inl hp, hw⟩
      · exact .inr ⟨x, .inr rfl, hy⟩
    · intro hw
      rcases hw with hw | ⟨p, hp | rfl, hw⟩
      · exact .inl (.inl hw)
      · exact .inl (.inr ⟨p, hp, hw⟩)
      · exact .inr ⟨w, hw, rfl⟩
  have hbuilt' := hbuilt.congr hwords
  have hmem : PrefixOf (patterns ++ [x]) x :=
    .inr ⟨x, mem_append_right _ (mem_singleton_self x), prefix_refl x⟩
  obtain ⟨node, hx⟩ := hbuilt'.node hmem
  have hfx : node.final = finalAt act x := by
    rw [← show finalAt { act with counter := n } x = finalAt act x from rfl,
      ← hfinal x, finalAt, hx]
    rfl
  have hlen : (patterns ++ [x]).length = patterns.length + 1 := by
    rw [length_append, length_singleton]
  have hcounter' : n = (patterns ++ [x]).length % 2 ^ 32 := by
    rw [← hn, hmarks.counter]
    omega
  have hold : (∀ p ∈ patterns ++ [x], p ≠ []) → finalAt act1 root = 0 := by
    intro hne
    rw [hfinal]
    exact hmarks.root fun p hp => hne p (mem_append_left _ hp)
  rw [acAddOnePattern]
  simp only [hn]
  rw [show addBytes { act with counter := n } root 0 x = some (act1, x) from hadd]
  dsimp only
  rw [hx]
  dsimp only
  split_ifs with hzero
  · refine ⟨_, rfl, hbuilt'.setFinal hx _, hcounter.trans hcounter', ?_, ?_, fun hne => ?_⟩
    · intro hlt w
      rw [finalAt_set, hfinal]
      split_ifs
      · dsimp only
        rw [toInt_of_lt (by omega) (by omega)]
        omega
      · exact hmarks.nonneg (by omega) w
    · intro hlt w
      rw [finalAt_set, hfinal, mem_append, mem_singleton]
      split_ifs with hw
      · rw [toInt_of_lt (by omega) (by omega)]
        simp only [hw, or_true, iff_true]
        omega
      · rw [← hmarks.pos (by omega) w, or_iff_left hw]
        rfl
    · have hroot : root ≠ x := (hne x (mem_append_right _ (mem_singleton_self x))).symm
      rw [finalAt_set, if_neg hroot]
      exact hold hne
  · refine ⟨_, rfl, hbuilt', hcounter.trans hcounter', ?_, ?_, hold⟩
    · intro hlt w
      rw [hfinal]
      exact hmarks.nonneg (by omega) w
    · intro hlt w
      have hpos := hmarks.pos (by omega)
      rw [hfinal, mem_append, mem_singleton]
      show 0 < finalAt act w ↔ _
      rw [hpos w, or_iff_left_of_imp]
      rintro rfl
      -- the pattern is there for the second time
      refine (hpos w).1 ?_
      have := hmarks.nonneg (by omega) w
      omega

theorem addPatterns_spec {before : List (List Byte)} (h : Built act (PrefixOf before))
    (hmarks : Marks act before) (patterns : List (List Byte)) :
    ∃ act', addPatterns act patterns = some act' ∧ Built act' (PrefixOf (before ++ patterns)) ∧
      Marks act' (before ++ patterns) := by
  induction patterns generalizing act before with
  | nil => exact ⟨act, rfl, by rw [append_nil]; exact h, by rw [append_nil]; exact hmarks⟩
  | cons x patterns ih =>
    obtain ⟨act1, hadd, h1, hmarks1⟩ := acAddOnePattern_spec h hmarks x
    obtain ⟨act', heq, h', hmarks'⟩ := ih h1 hmarks1
    refine ⟨act', ?_, ?_, ?_⟩
    · rw [addPatterns, hadd]
      exact heq
    · rw [append_assoc] at h'
      exact h'
    · rw [append_assoc] at hmarks'
      exact hmarks'

theorem built_createAcdata : Built createAcdata (PrefixOf []) where
  word := by
    intro w
    by_cases hw : w = root <;> simp [createAcdata, PrefixOf, hw]
  nil := .inl rfl
  closed := by
    intro w b hw
    simp [PrefixOf, root] at hw
  g := by
    intro w node hn b a
    simp only [createAcdata] at hn
    split_ifs at hn
    cases hn
    simp only [reduceCtorEq, PrefixOf, false_iff, not_and]
    intro ha
    simp [ha, root]
  d := by
    intro w node hn
    simp only [createAcdata] at hn
    split_ifs at hn with hw
    cases hn
    rw [hw]
    rfl
  few := by
    intro _ b
    simp [createAcdata, PrefixOf, root]
  null := by
    intro node hn
    cases hn
    rfl

theorem marks_createAcdata : Marks createAcdata [] := by
  have hzero : ∀ w, finalAt createAcdata w = 0 := by
    intro w
    simp only [finalAt, createAcdata]
    split_ifs <;> rfl
  refine ⟨rfl, fun _ w => Int.le_of_eq (hzero w).symm, fun _ w => ?_, fun _ => hzero root⟩
  rw [hzero]
  simp

end Otp.Erts.BinarySearch
