import Otp.Lib.ParallelMove

/-!
# Ordering of moves (`beam_ssa_codegen.erl`)

Moves that are meant to happen at once are put into an order.  `collect_chain/3` follows a
move to the one that writes its source, and so on; the moves of such a chain are emitted in
this order, before the chains found earlier.  A chain that comes back to a register that it
writes ends in a cycle, which is broken up into swaps.  Executing the result has the effect
of all moves at once (`orderMoves_simultaneous`).
-/

namespace Otp.Compiler.BeamSsaCodegen

open Otp.Lib.ParallelMove List

variable {ρ V : Type*} [DecidableEq ρ] {ms path others before cycle : List (Move ρ V)}
  {chain : List (Instr ρ V)} {e p m c : Move ρ V} {after rest : List (Move ρ V)}

/-! ## The order -/

/-- Is the source this register? -/
def isReg : Arg ρ V → ρ → Bool
  | .reg r, r' => r = r'
  | .literal _, _ => false

theorem isReg_iff {a : Arg ρ V} {r : ρ} : isReg a r = true ↔ a = .reg r := by
  cases a <;> simp [isReg]

/-- There is no clause for a path that does not write the register. -/
def breakUpCycle_1 (dst : Arg ρ V) : List (Move ρ V) → List (Instr ρ V) → Option (List (Instr ρ V))
  | m :: path, acc =>
    if isReg dst m.dst then some (acc.reverseAux (path.map Move.toInstr))
    else breakUpCycle_1 dst path (m.toSwap :: acc)
  | [], _ => none

def breakUpCycle (m : Move ρ V) (path : List (Move ρ V)) : Option (List (Instr ρ V)) :=
  breakUpCycle_1 m.src (m :: path) []

/-- The chain, and the moves that are left. -/
def collectChain : List (Move ρ V) → List (Move ρ V) → List (Move ρ V) →
    Option (List (Instr ρ V) × List (Move ρ V))
  | m :: ms₀, p :: path, others =>
    if isReg p.src m.dst then
      if (p :: path).any fun m' => isReg m.src m'.dst then
        (breakUpCycle m (p :: path)).map fun chain => (chain, others.reverseAux ms₀)
      else collectChain (others.reverseAux ms₀) (m :: p :: path) []
    else collectChain ms₀ (p :: path) (m :: others)
  | m :: ms, [], others => collectChain ms [] (m :: others)
  | [], path, others => some (path.map Move.toInstr, others)
termination_by ms _ others => (ms.length + others.length) ^ 2 + ms.length
decreasing_by
  · rw [reverseAux_eq, length_append, length_reverse, length_cons, length_nil]
    nlinarith
  · simp only [length_cons]
    rw [show ms₀.length + (others.length + 1) = ms₀.length + 1 + others.length by omega]
    omega
  · simp only [length_cons]
    rw [show ms.length + (others.length + 1) = ms.length + 1 + others.length by omega]
    omega

theorem length_collectChain (h : collectChain ms path others = some (chain, rest)) :
    rest.length ≤ ms.length + others.length := by
  induction ms, path, others using collectChain.induct with
  | case1 m ms₀ p path others hsrc hcycle =>
    rw [collectChain, if_pos hsrc, if_pos hcycle] at h
    obtain ⟨chain', -, heq⟩ := Option.map_eq_some_iff.1 h
    rw [← (Prod.mk.inj heq).2, reverseAux_eq, length_append, length_reverse, length_cons]
    omega
  | case2 m ms₀ p path others hsrc hcycle ih =>
    rw [collectChain, if_pos hsrc, if_neg hcycle] at h
    have hle := ih h
    rw [reverseAux_eq, length_append, length_reverse, length_nil] at hle
    rw [length_cons]
    omega
  | case3 m ms₀ p path others hsrc ih =>
    rw [collectChain, if_neg hsrc] at h
    have hle := ih h
    rw [length_cons] at hle ⊢
    omega
  | case4 m ms others ih =>
    rw [collectChain] at h
    have hle := ih h
    rw [length_cons] at hle ⊢
    omega
  | case5 path others =>
    rw [collectChain] at h
    cases h
    omega

def orderMovesAcc : List (Move ρ V) → List (Instr ρ V) → Option (List (Instr ρ V))
  | m :: ms₀, acc₀ =>
    match _h : collectChain ms₀ [m] [] with
    | some (chain, ms) => orderMovesAcc ms (chain.reverseAux acc₀)
    | none => none
  | [], acc => some acc
termination_by ms => ms.length
decreasing_by exact Nat.lt_succ_of_le (length_collectChain _h)

def orderMoves (ms : List (Move ρ V)) : Option (List (Instr ρ V)) := orderMovesAcc ms []

/-! ## Chains -/

omit [DecidableEq ρ] in
/-- In a chain of distinct destinations no move reads what an earlier one writes. -/
theorem pairwise_of_isChain (hchain : (ms ++ [e]).IsChain Links)
    (hdst : ((ms ++ [e]).map Move.dst).Nodup) : ms.Pairwise fun m m' => m'.src ≠ .reg m.dst := by
  induction ms with
  | nil => exact .nil
  | cons m ms ih =>
    have hparts := nodup_cons.1 hdst
    refine pairwise_cons.2 ⟨?_, ih hchain.tail hparts.2⟩
    intro m' hm' hsrc
    cases ms with
    | nil => cases hm'
    | cons m₂ ms =>
      obtain ⟨r, hr, heq⟩ := exists_src_of_isChain hchain.tail m' hm'
      have hr' : m.dst = r := by
        rw [hsrc] at heq
        cases heq
        rfl
      exact hparts.1 (mem_cons_of_mem _ (hr' ▸ hr))

/-- What `collect_chain/3` finds: moves that do not read what the others write, and
instructions with their effect. -/
structure Collects (chain : List (Instr ρ V)) (used rest all : List (Move ρ V)) : Prop where
  perm : (used ++ rest).Perm all
  src_ne : ∀ m ∈ used, ∀ m' ∈ rest, m.src ≠ .reg m'.dst
  execAll_eq : ∀ σ, execAll σ chain.reverse = some (simultaneous used σ)

/-- A chain that ends with a source that is not written. -/
theorem collects_path (hchain : (p :: path).reverse.IsChain Links)
    (hdst : ((p :: path ++ others).map Move.dst).Nodup) (hend : ∀ m ∈ p :: path, p.src ≠ .reg m.dst)
    (hothers : ∀ m ∈ others, p.src ≠ .reg m.dst) :
    Collects ((p :: path).map Move.toInstr) (p :: path).reverse others (p :: path ++ others) := by
  have hdst' := hdst
  rw [map_append, nodup_append] at hdst'
  have hpath : ((p :: path).reverse.map Move.dst).Nodup := by
    rw [map_reverse, nodup_reverse]
    exact hdst'.1
  refine ⟨(reverse_perm _).append_right _, ?_, ?_⟩
  · intro m hm m' hm' hsrc
    rw [reverse_cons, mem_append, mem_singleton] at hm
    rcases hm with hm | rfl
    · -- the source is written by the next move of the chain
      rw [reverse_cons] at hchain
      cases hrev : path.reverse with
      | nil =>
        rw [hrev] at hm
        cases hm
      | cons m₁ ms =>
        rw [hrev] at hchain hm
        obtain ⟨r, hr, heq⟩ := exists_src_of_isChain hchain m hm
        have hr' : m'.dst = r := by
          rw [hsrc] at heq
          cases heq
          rfl
        refine hdst'.2.2 r ?_ m'.dst (mem_map_of_mem hm') hr'.symm
        have hmem : r ∈ (path.reverse ++ [p]).map Move.dst := by
          rw [hrev]
          exact mem_cons_of_mem _ hr
        rwa [← reverse_cons, map_reverse, mem_reverse] at hmem
    · exact hothers m' hm' hsrc
  · intro σ
    rw [← map_reverse]
    refine execAll_moves hpath ?_ σ
    rw [reverse_cons] at hchain hpath ⊢
    rw [pairwise_append]
    refine ⟨pairwise_of_isChain hchain hpath, pairwise_singleton _ p, ?_⟩
    intro m hm m' hm'
    rw [mem_singleton.1 hm']
    exact hend m (mem_cons_of_mem _ (mem_reverse.1 hm))

/-! ## Cycles -/

theorem breakUpCycle_1_eq {dst : Arg ρ V} (he : dst = .reg e.dst)
    (hbefore : ∀ m ∈ before, dst ≠ .reg m.dst) (acc : List (Instr ρ V)) :
    breakUpCycle_1 dst (before ++ e :: after) acc =
      some (acc.reverse ++ (before.map Move.toSwap ++ after.map Move.toInstr)) := by
  induction before generalizing acc with
  | nil =>
    rw [nil_append, breakUpCycle_1, if_pos (isReg_iff.2 he), reverseAux_eq]
    rfl
  | cons m before ih =>
    have hne := forall_mem_cons.1 hbefore
    rw [cons_append, breakUpCycle_1, if_neg (mt isReg_iff.1 hne.1), ih hne.2,
      reverse_cons, append_assoc]
    rfl

omit [DecidableEq ρ] in
/-- The cycle of a chain, in the order of the chain, and the moves before it. -/
theorem isChain_cycle
    (hchain : (m :: before ++ e :: after).reverse.IsChain Links) (he : m.src = .reg e.dst)
    (hcycle : (m :: before).reverse = c :: cycle) :
    (after.reverse ++ [e]).IsChain Links ∧ Links e c ∧ (c :: cycle ++ [e]).IsChain Links := by
  rw [reverse_append, reverse_cons (a := e), hcycle, isChain_append] at hchain
  refine ⟨hchain.1, hchain.2.2 e (by simp) c rfl, ?_⟩
  rw [isChain_append]
  refine ⟨hchain.2.1, isChain_singleton e, ?_⟩
  intro m' hm' e' he'
  cases he'
  -- the last move of the cycle is the one found last
  rw [← hcycle, List.getLast?_reverse] at hm'
  cases hm'
  exact he

omit [DecidableEq ρ] in
/-- Every source in a chain with a cycle is written in it. -/
theorem exists_src_of_cycle (hpath : (path ++ [e]).IsChain Links) (hlink : Links e c)
    (hcycle : (c :: cycle ++ [e]).IsChain Links) :
    (∀ m ∈ path, ∃ r ∈ (path ++ [e]).map Move.dst, m.src = .reg r) ∧
      ∀ m ∈ e :: c :: cycle, ∃ r ∈ (e :: c :: cycle).map Move.dst, m.src = .reg r := by
  constructor
  · cases path with
    | nil =>
      intro m hm
      cases hm
    | cons m₁ path =>
      intro m hm
      obtain ⟨r, hr, hsrc⟩ := exists_src_of_isChain hpath m hm
      exact ⟨r, mem_cons_of_mem _ hr, hsrc⟩
  · intro m hm
    rcases mem_cons.1 hm with rfl | hm
    · exact ⟨c.dst, by simp, hlink⟩
    · obtain ⟨r, hr, hsrc⟩ := exists_src_of_isChain hcycle m hm
      refine ⟨r, ?_, hsrc⟩
      rw [map_append, mem_append] at hr
      simp only [map_cons, mem_cons]
      rcases hr with hr | hr
      · exact .inr (.inr hr)
      · exact .inl (mem_singleton.1 hr)

/-- A chain with a cycle at its end. -/
theorem collects_cycle
    (hchain : (m :: before ++ e :: after).reverse.IsChain Links) (he : m.src = .reg e.dst)
    (hdst : ((m :: before ++ e :: after ++ rest).map Move.dst).Nodup) :
    Collects ((m :: before).map Move.toSwap ++ after.map Move.toInstr)
      (after.reverse ++ e :: (m :: before).reverse) rest (m :: before ++ e :: after ++ rest) := by
  have hused : (after.reverse ++ e :: (m :: before).reverse).Perm (m :: before ++ e :: after) := by
    have hrev : (m :: before ++ e :: after).reverse =
      after.reverse ++ e :: (m :: before).reverse := by
      rw [reverse_append, reverse_cons, append_assoc]
      rfl
    rw [← hrev]
    exact reverse_perm _
  obtain ⟨c, cycle, hcycle⟩ : ∃ c cycle, (m :: before).reverse = c :: cycle :=
    exists_cons_of_ne_nil (by simp)
  obtain ⟨hpath, hlink, hclosed⟩ := isChain_cycle hchain he hcycle
  obtain ⟨hsrc_path, hsrc_cycle⟩ := exists_src_of_cycle hpath hlink hclosed
  rw [hcycle] at hused ⊢
  have hdst' : ((after.reverse ++ e :: c :: cycle ++ rest).map Move.dst).Nodup :=
    ((hused.append_right rest).map Move.dst).nodup_iff.2 hdst
  rw [map_append, nodup_append] at hdst'
  have hparts := hdst'.1
  rw [map_append, nodup_append] at hparts
  refine ⟨hused.append_right rest, ?_, ?_⟩
  · intro x hx x' hx' hsrc
    obtain ⟨r, hr, hr'⟩ : ∃ r ∈ (after.reverse ++ e :: c :: cycle).map Move.dst,
      x.src = .reg r := by
      rcases mem_append.1 hx with hx | hx
      · obtain ⟨r, hr, hr'⟩ := hsrc_path x hx
        refine ⟨r, ?_, hr'⟩
        rw [map_append, mem_append] at hr ⊢
        exact hr.imp id fun hr => mem_cons.2 (.inl (mem_singleton.1 hr))
      · obtain ⟨r, hr, hr'⟩ := hsrc_cycle x hx
        refine ⟨r, ?_, hr'⟩
        rw [map_append]
        exact mem_append_right _ hr
    rw [hsrc] at hr'
    cases hr'
    exact hdst'.2.2 _ hr _ (mem_map_of_mem hx') rfl
  · intro σ
    have hpathdst : ((after.reverse ++ [e]).map Move.dst).Nodup := by
      have hsub : (after.reverse ++ [e]).Sublist (after.reverse ++ e :: c :: cycle) :=
        List.Sublist.append_left (by simp) _
      exact hdst'.1.sublist (hsub.map _)
    rw [reverse_append, ← map_reverse, ← map_reverse, hcycle, execAll_append,
      execAll_moves hparts.1 (pairwise_of_isChain hpath hpathdst), Option.bind_some,
      execAll_swaps hclosed hlink hparts.2.1, simultaneous_append hdst'.1]
    intro x hx x' hx' hsrc
    obtain ⟨r, hr, hr'⟩ := hsrc_cycle x hx
    rw [hsrc] at hr'
    cases hr'
    exact hparts.2.2 _ (mem_map_of_mem hx') _ hr rfl

/-! ## All moves -/

theorem Collects.of_perm {used all all' : List (Move ρ V)} (h : Collects chain used rest all)
    (hperm : all.Perm all') : Collects chain used rest all' :=
  ⟨h.perm.trans hperm, h.src_ne, h.execAll_eq⟩

omit [DecidableEq ρ] in
/-- The move that writes the source of the last one continues the chain. -/
theorem isChain_extend (hchain : (p :: path).reverse.IsChain Links) (hsrc : p.src = .reg m.dst) :
    (m :: p :: path).reverse.IsChain Links := by
  rw [reverse_cons, isChain_append]
  refine ⟨hchain, isChain_singleton m, ?_⟩
  intro p' hp' m' hm'
  rw [List.getLast?_reverse] at hp'
  cases hp'
  cases hm'
  exact hsrc

omit [DecidableEq ρ] in
theorem perm_take (m : Move ρ V) (path ms others : List (Move ρ V)) :
    (m :: path ++ (others.reverseAux ms ++ [])).Perm (path ++ (m :: ms ++ others)) := by
  rw [reverseAux_eq, append_nil]
  refine perm_middle.symm.trans ((List.Perm.cons m ?_).append_left path)
  exact perm_append_comm.trans ((reverse_perm others).append_left ms)

omit [DecidableEq ρ] in
theorem perm_skip (m : Move ρ V) (path ms others : List (Move ρ V)) :
    (path ++ (ms ++ m :: others)).Perm (path ++ (m :: ms ++ others)) :=
  perm_middle.append_left path

theorem collectChain_spec (ms : List (Move ρ V)) (p : Move ρ V) (path others : List (Move ρ V))
    (hchain : (p :: path).reverse.IsChain Links)
    (hdst : ((p :: path ++ (ms ++ others)).map Move.dst).Nodup)
    (hself : ∀ m ∈ ms ++ others, m.src ≠ .reg m.dst)
    (hend : ∀ m ∈ p :: path, p.src ≠ .reg m.dst) (hothers : ∀ m ∈ others, p.src ≠ .reg m.dst) :
    ∃ chain rest used, collectChain ms (p :: path) others = some (chain, rest) ∧
      Collects chain used rest (p :: path ++ (ms ++ others)) := by
  generalize hq : p :: path = q at hchain hdst hend ⊢
  induction ms, q, others using collectChain.induct generalizing p path with
  | case1 m ms₀ p' path' others hsrc hcycle =>
    obtain ⟨rfl, rfl⟩ := List.cons.inj hq
    rw [any_eq_true] at hcycle
    obtain ⟨e, he, hsrc'⟩ := hcycle
    obtain ⟨before, after, hsplit⟩ := append_of_mem he
    have hchain' := isChain_extend hchain (isReg_iff.1 hsrc)
    have hperm := perm_take m (p :: path) ms₀ others
    have hdst' := (hperm.map Move.dst).nodup_iff.2 hdst
    rw [append_nil, hsplit] at hperm hdst'
    rw [hsplit] at hchain'
    have hm : m.src = .reg e.dst := isReg_iff.1 hsrc'
    -- only one move writes the register, so it is the first one found
    have hbefore : ∀ x ∈ m :: before, m.src ≠ .reg x.dst := by
      intro x hx heq
      rw [hm] at heq
      have hxe : x.dst = e.dst := (Arg.reg.inj heq).symm
      rw [map_append, map_cons, map_append, ← cons_append, append_assoc, nodup_append] at hdst'
      exact hdst'.2.2 x.dst (mem_map_of_mem hx) e.dst (by simp) hxe
    refine ⟨(m :: before).map Move.toSwap ++ after.map Move.toInstr, others.reverseAux ms₀, _, ?_,
      (collects_cycle hchain' hm hdst').of_perm ?_⟩
    · rw [collectChain, if_pos hsrc, if_pos (any_eq_true.2 ⟨e, he, hsrc'⟩), hsplit, breakUpCycle,
        ← cons_append, breakUpCycle_1_eq hm hbefore []]
      rfl
    · rw [hsplit]
      exact hperm
  | case2 m ms₀ p' path' others hsrc hcycle ih =>
    obtain ⟨rfl, rfl⟩ := List.cons.inj hq
    have hperm := perm_take m (p :: path) ms₀ others
    have hrest : (others.reverseAux ms₀ ++ []).Perm (ms₀ ++ others) := by
      rw [reverseAux_eq, append_nil]
      exact perm_append_comm.trans ((reverse_perm others).append_left ms₀)
    have hend' : ∀ m' ∈ m :: p :: path, m.src ≠ .reg m'.dst := by
      intro m' hm' heq
      rcases mem_cons.1 hm' with rfl | hm'
      · exact hself m' mem_cons_self heq
      · exact hcycle (any_eq_true.2 ⟨m', hm', isReg_iff.2 heq⟩)
    obtain ⟨chain, rest, used, heq, hcollects⟩ := ih m (p :: path)
      (fun m' hm' => hself m' (mem_cons_of_mem _ (hrest.mem_iff.1 hm'))) (by simp) rfl
      (isChain_extend hchain (isReg_iff.1 hsrc)) ((hperm.map Move.dst).nodup_iff.2 hdst) hend'
    refine ⟨chain, rest, used, ?_, hcollects.of_perm hperm⟩
    rw [collectChain, if_pos hsrc, if_neg hcycle, heq]
  | case3 m ms₀ p' path' others hsrc ih =>
    obtain ⟨rfl, rfl⟩ := List.cons.inj hq
    have hperm := perm_skip m (p :: path) ms₀ others
    have hrest : (ms₀ ++ m :: others).Perm (m :: ms₀ ++ others) := perm_middle
    obtain ⟨chain, rest, used, heq, hcollects⟩ := ih p path
      (fun m' hm' => hself m' (hrest.mem_iff.1 hm'))
      (forall_mem_cons.2 ⟨mt isReg_iff.2 hsrc, hothers⟩) rfl hchain
      ((hperm.map Move.dst).nodup_iff.2 hdst) hend
    refine ⟨chain, rest, used, ?_, hcollects.of_perm hperm⟩
    rw [collectChain, if_neg hsrc, heq]
  | case4 m ms others ih => cases hq
  | case5 q others =>
    subst hq
    exact ⟨_, others, _, by rw [collectChain], collects_path hchain hdst hend hothers⟩

theorem orderMovesAcc_spec (ms : List (Move ρ V)) (acc : List (Instr ρ V))
    (hdst : (ms.map Move.dst).Nodup) (hself : ∀ m ∈ ms, m.src ≠ .reg m.dst) :
    ∃ instrs, orderMovesAcc ms acc = some (instrs ++ acc) ∧
      ∀ σ, execAll σ instrs = some (simultaneous ms σ) := by
  induction ms, acc using orderMovesAcc.induct with
  | case1 m ms₀ acc₀ chain ms heq ih =>
    obtain ⟨chain', rest, used, heq', hcollects⟩ := collectChain_spec ms₀ m [] []
      (isChain_singleton m) (by simpa using hdst)
      (by simpa using (forall_mem_cons.1 hself).2)
      (by simpa using (forall_mem_cons.1 hself).1) (by simp)
    rw [heq'] at heq
    obtain ⟨rfl, rfl⟩ := Prod.mk.inj (Option.some.inj heq)
    have hperm := hcollects.perm
    rw [append_nil] at hperm
    have hperm' := perm_append_comm.trans hperm
    have hdst' := (hperm'.map Move.dst).nodup_iff.2 hdst
    have hparts := hdst'
    rw [map_append, nodup_append] at hparts
    obtain ⟨instrs, hinstrs, hexec⟩ := ih hparts.1
      fun m' hm' => hself m' (hperm'.mem_iff.1 (mem_append_left _ hm'))
    refine ⟨instrs ++ chain'.reverse, ?_, ?_⟩
    · rw [orderMovesAcc]
      split
      · next heq₂ =>
        rw [heq'] at heq₂
        obtain ⟨rfl, rfl⟩ := Prod.mk.inj (Option.some.inj heq₂)
        rw [hinstrs, reverseAux_eq, append_assoc]
      · next heq₂ =>
        rw [heq'] at heq₂
        cases heq₂
    · intro σ
      rw [execAll_append, hexec, Option.bind_some, hcollects.execAll_eq,
        ← simultaneous_append hdst' hcollects.src_ne, simultaneous_perm hperm' hdst']
      rfl
  | case2 m ms₀ acc₀ heq =>
    obtain ⟨chain', rest, used, heq', -⟩ := collectChain_spec ms₀ m [] []
      (isChain_singleton m) (by simpa using hdst)
      (by simpa using (forall_mem_cons.1 hself).2)
      (by simpa using (forall_mem_cons.1 hself).1) (by simp)
    rw [heq'] at heq
    cases heq
  | case3 acc => exact ⟨[], by rw [orderMovesAcc]; rfl, fun σ => rfl⟩

theorem orderMoves_spec (hdst : (ms.map Move.dst).Nodup) (hself : ∀ m ∈ ms, m.src ≠ .reg m.dst) :
    ∃ instrs, orderMoves ms = some instrs ∧ ∀ σ, execAll σ instrs = some (simultaneous ms σ) := by
  obtain ⟨instrs, heq, hexec⟩ := orderMovesAcc_spec ms [] hdst hself
  rw [append_nil] at heq
  exact ⟨instrs, heq, hexec⟩

/-- The ordered moves and swaps, one after the other, have the effect of all moves at once. -/
theorem orderMoves_simultaneous (ms : List (Move ρ V)) (hdst : (ms.map Move.dst).Nodup)
    (hself : ∀ m ∈ ms, m.src ≠ .reg m.dst) (σ : ρ → V) :
    (orderMoves ms).bind (execAll σ) = some (simultaneous ms σ) := by
  obtain ⟨instrs, heq, hexec⟩ := orderMoves_spec hdst hself
  rw [heq, Option.bind_some, hexec]

/-- The cycle of the registers 1, 2 and 3, a literal, and a chain into the cycle: 5 reads 0,
and 0 reads 1. -/
def rhoMoves : List (Move ℕ ℕ) :=
  [⟨.reg 1, 0⟩, ⟨.reg 2, 1⟩, ⟨.reg 0, 5⟩, ⟨.reg 3, 2⟩, ⟨.reg 1, 3⟩, ⟨.literal 7, 4⟩]

theorem orderMoves_rhoMoves :
    orderMoves rhoMoves = some [.move (.literal 7) 4, .move (.reg 0) 5, .move (.reg 1) 0,
      .swap (.reg 3) 2, .swap (.reg 1) 3] ∧
    (orderMoves rhoMoves).bind (execAll id) = some (simultaneous rhoMoves id) :=
  ⟨by decide +kernel, orderMoves_simultaneous rhoMoves (by decide) (by decide) id⟩

end Otp.Compiler.BeamSsaCodegen
