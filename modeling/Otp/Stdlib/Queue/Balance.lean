import Otp.Stdlib.Queue.Contents

/-!
# Both sides of a queue

The representation keeps an element on each side of a queue of two or more, so
that neither end has to be found by walking a list.  `join` alone does not keep
this, when its second queue has one element and has it in front.  A run is a
tree of operations, and the condition on its joins is exact: `queues_balanced_iff`.
-/

namespace Otp.Stdlib.Queue

open List

variable {α : Type} {q q' p : Queue α}

/-! ## Dropping and splitting -/

/-- `drop/1` leaves what `out/1` of a queue that is not empty leaves. -/
theorem drop_eq (q : Queue α) :
    drop q = if q.len = 0 then .error .empty else (out q).map Prod.snd := by
  match q with
  | ⟨[], []⟩ => rfl
  | ⟨[_], []⟩ => rfl
  | ⟨y :: z :: r, []⟩ =>
    simp only [out, drop]
    split <;> simp_all [Except.map, len]
  | ⟨r, [_]⟩ | ⟨r, _ :: y :: f⟩ => simp [len, Except.map]

theorem balanced_drop (h : Balanced q) (hdrop : drop q = .ok q') : Balanced q' := by
  obtain ⟨p, hout, hp⟩ := out_spec q
  rw [drop_eq, hout] at hdrop
  split_ifs at hdrop
  cases hdrop
  exact hp.balanced h

theorem balanced_split {p' : Queue α} {n : ℤ} (h : Balanced q) (hsplit : split n q = .ok (p, p')) :
    Balanced p ∧ Balanced p' := by
  by_cases hn : 0 ≤ n ∧ n ≤ q.len
  · lift n to ℕ using hn.1
    obtain ⟨p₁, p₂, heq, hp₁, hp₂⟩ := split_spec (Int.ofNat_le.1 hn.2)
    cases hsplit.symm.trans heq
    exact ⟨hp₁.balanced h, hp₂.balanced h⟩
  · have herror : split n q = .error .badarg := by
      unfold split
      dsimp only [len] at hn ⊢
      split_ifs <;> first | rfl | omega
    cases hsplit.symm.trans herror

/-! ## Joining -/

/-- The joins that leave the rear empty: something is joined to a queue whose one
element is in front. -/
def JoinsLoneFront (p q : Queue α) : Prop := 0 < p.len ∧ q.rear = [] ∧ q.front.length = 1

theorem balanced_join_iff (hp : Balanced p) (hq : Balanced q) :
    Balanced (join p q) ↔ ¬ JoinsLoneFront p q := by
  fun_cases join p q with
  | case1 => simpa [JoinsLoneFront] using hp
  | case2 q hne => simpa [JoinsLoneFront, len] using hq
  | case3 r1 f1 r2 f2 hne2 hne1 =>
    have h2 : 0 < r2.length + f2.length := by
      by_contra h
      exact hne2 (length_eq_zero_iff.1 (by omega)) (length_eq_zero_iff.1 (by omega))
    rw [balanced_iff_length] at *
    simp only [JoinsLoneFront, len, length_append, length_reverse, ← length_eq_zero_iff] at *
    omega

/-! ## Looking at the ends -/

/-- None of the functions that look at an end reaches its clause for a malformed
queue: what that clause does is of no consequence. -/
def NeverMalformed (q : Queue α) : Prop :=
  ∀ last last' : List α → Except QueueError α,
    getBy last q = getBy last' q ∧ getRBy last q = getRBy last' q ∧
    peekBy last q = peekBy last' q ∧ peekRBy last q = peekRBy last' q

theorem neverMalformed_iff (q : Queue α) : NeverMalformed q ↔ Balanced q := by
  constructor
  · -- the clause raises in one reading and not in the other
    intro h hlen
    obtain ⟨hget, hgetR, -, -⟩ := h (fun _ => .error .badarg) (fun _ => .error .badmatch)
    rcases q with ⟨_ | ⟨_, _ | _⟩, _ | ⟨_, _ | _⟩⟩
    case mp.cons.cons.nil => simp [getBy] at hget
    case mp.nil.cons.cons => simp [getRBy] at hgetR
    all_goals simp [len] at hlen ⊢
  · intro h last last'
    rcases q with ⟨_ | ⟨_, _ | _⟩, _ | ⟨_, _ | _⟩⟩
    case mpr.nil.cons.cons => exact absurd rfl (h.rear_ne_nil (by simp))
    case mpr.cons.cons.nil => exact absurd rfl (h.front_ne_nil (by simp))
    all_goals exact ⟨rfl, rfl, rfl, rfl⟩

/-! ## Runs -/

/-- An operation that makes a queue from one queue.  A split makes two: each of
them is one of the operations. -/
inductive Op (α : Type) where
  | inQ (x : α)
  | inR (x : α)
  | out
  | outR
  | drop
  | dropR
  | reverse
  | splitLeft (n : ℤ)
  | splitRight (n : ℤ)
  | filter (fn : α → FilterReply α)
  | filtermap (fn : α → FiltermapReply α)
  | delete (item : α)
  | deleteR (item : α)
  | deleteWith (pred : α → Bool)
  | deleteWithR (pred : α → Bool)

/-- How a queue was made: a tree, since `join/2` takes two. -/
inductive Build (α : Type) where
  | new
  | fromList (l : List α)
  | op (o : Op α) (b : Build α)
  | join (b c : Build α)

variable [DecidableEq α] {b : Build α} {P : Queue α → Prop}

/-- The call behind an operation. -/
def Op.apply (q : Queue α) : Op α → Except QueueError (Queue α)
  | .inQ x => .ok (Queue.inQ x q)
  | .inR x => .ok (Queue.inR x q)
  | .out => (Queue.out q).map Prod.snd
  | .outR => (Queue.outR q).map Prod.snd
  | .drop => Queue.drop q
  | .dropR => Queue.dropR q
  | .reverse => .ok (Queue.reverse q)
  | .splitLeft n => (Queue.split n q).map Prod.fst
  | .splitRight n => (Queue.split n q).map Prod.snd
  | .filter fn => .ok (Queue.filter fn q)
  | .filtermap fn => .ok (Queue.filtermap fn q)
  | .delete item => .ok (Queue.delete item q)
  | .deleteR item => .ok (Queue.deleteR item q)
  | .deleteWith pred => .ok (Queue.deleteWith pred q)
  | .deleteWithR pred => .ok (Queue.deleteWithR pred q)

/-- The queue a run ends with, unless a call raised on the way. -/
def Build.eval : Build α → Except QueueError (Queue α)
  | .new => .ok Queue.new
  | .fromList l => .ok (Queue.fromList l)
  | .op o b => do
    let q ← b.eval
    o.apply q
  | .join b c => do
    let p ← b.eval
    let q ← c.eval
    return Queue.join p q

/-- Every queue made in a run satisfies `P`. -/
def Build.Queues (P : Queue α → Prop) : Build α → Prop
  | .new => P Queue.new
  | .fromList l => P (Queue.fromList l)
  | .op o b => b.Queues P ∧ ∀ q, (Build.op o b).eval = .ok q → P q
  | .join b c => b.Queues P ∧ c.Queues P ∧ ∀ q, (Build.join b c).eval = .ok q → P q

/-- Every two queues joined in a run satisfy `P`. -/
def Build.Joins (P : Queue α → Queue α → Prop) : Build α → Prop
  | .new => True
  | .fromList _ => True
  | .op _ b => b.Joins P
  | .join b c => b.Joins P ∧ c.Joins P ∧ ∀ p q, b.eval = .ok p → c.eval = .ok q → P p q

/-- One operation keeps an element on each side. -/
theorem balanced_apply (o : Op α) (h : Balanced q) (ho : o.apply q = .ok q') : Balanced q' := by
  have map_ok {β γ : Type} {e : Except QueueError β} {f : β → γ} {y : γ}
      (hmap : e.map f = .ok y) : ∃ x, e = .ok x ∧ f x = y := by
    cases e with
    | error _ => cases hmap
    | ok x => exact ⟨x, rfl, by cases hmap; rfl⟩
  cases o with
  | inQ x => cases ho; exact (becomes_inQ x q).balanced h
  | inR x => cases ho; exact (becomes_inR x q).balanced h
  | out =>
    obtain ⟨p, hout, hp⟩ := out_spec q
    rw [Op.apply, hout] at ho
    cases ho
    exact hp.balanced h
  | outR =>
    obtain ⟨p, hout, hp⟩ := outR_spec q
    rw [Op.apply, hout] at ho
    cases ho
    exact hp.balanced h
  | drop => exact balanced_drop h ho
  | dropR =>
    rw [Op.apply, (rear_eq q).1] at ho
    obtain ⟨p, hp, rfl⟩ := map_ok ho
    exact balanced_reverse (balanced_drop (balanced_reverse h) hp)
  | reverse => cases ho; exact balanced_reverse h
  | splitLeft n =>
    obtain ⟨p, hp, rfl⟩ := map_ok ho
    exact (balanced_split h hp).1
  | splitRight n =>
    obtain ⟨p, hp, rfl⟩ := map_ok ho
    exact (balanced_split h hp).2
  | filter fn | filtermap fn => cases ho; exact (refill_spec _ _).2
  | delete item => cases ho; exact (becomes_deleteWith _ q).balanced h
  | deleteR item => cases ho; exact (becomes_deleteWithR _ q).balanced h
  | deleteWith pred => cases ho; exact (becomes_deleteWith pred q).balanced h
  | deleteWithR pred => cases ho; exact (becomes_deleteWithR pred q).balanced h

theorem Build.eval_op {o : Op α} :
    (Build.op o b).eval = .ok q' ↔ ∃ q, b.eval = .ok q ∧ o.apply q = .ok q' := by
  cases hb : b.eval <;> simp [Build.eval, hb, bind, Except.bind]

theorem Build.eval_join {c : Build α} :
    (Build.join b c).eval = .ok q' ↔
      ∃ p q, b.eval = .ok p ∧ c.eval = .ok q ∧ Queue.join p q = q' := by
  cases hb : b.eval <;> cases hc : c.eval <;>
    simp [Build.eval, hb, hc, bind, Except.bind, pure, Except.pure]

/-- The last queue of a run is one of its queues. -/
theorem Build.Queues.last (h : b.Queues P) (hb : b.eval = .ok q) : P q := by
  cases b with
  | new | fromList l => cases hb; exact h
  | op o b => exact h.2 q hb
  | join b c => exact h.2.2 q hb

/-- All queues of a run keep an element on each side exactly if no join of the
run has a lone element in front on its right.  By induction on the run: every
other operation keeps the condition, and that join breaks it. -/
theorem queues_balanced_iff (b : Build α) :
    b.Queues Balanced ↔ b.Joins fun p q => ¬ JoinsLoneFront p q := by
  induction b with
  | new => exact ⟨fun _ => trivial, fun _ => balanced_r2f []⟩
  | fromList l => exact ⟨fun _ => trivial, fun _ => balanced_f2r l⟩
  | op o b ih =>
    refine ⟨fun h => ih.1 h.1, fun h => ⟨ih.2 h, fun q' hq' => ?_⟩⟩
    obtain ⟨q, hq, ho⟩ := Build.eval_op.1 hq'
    exact balanced_apply o ((ih.2 h).last hq) ho
  | join b c ihb ihc =>
    constructor
    · rintro ⟨hb, hc, hjoin⟩
      refine ⟨ihb.1 hb, ihc.1 hc, fun p q hp hq => ?_⟩
      exact (balanced_join_iff (hb.last hp) (hc.last hq)).1
        (hjoin _ (Build.eval_join.2 ⟨p, q, hp, hq, rfl⟩))
    · rintro ⟨hb, hc, hjoin⟩
      refine ⟨ihb.2 hb, ihc.2 hc, fun r hr => ?_⟩
      obtain ⟨p, q, hp, hq, rfl⟩ := Build.eval_join.1 hr
      exact (balanced_join_iff ((ihb.2 hb).last hp) ((ihc.2 hc).last hq)).2 (hjoin p q hp hq)

/-- Two queues of one element each, the second one made with `in_r/2`, join to a
queue with both elements in front: `get_r/1` on it takes the slow clause. -/
theorem join_lone_front_unbalanced :
    (Build.join (.fromList [1]) (.op (.inR 2) .new) : Build ℕ).eval = .ok ⟨[], [1, 2]⟩ ∧
    ¬ Balanced (⟨[], [1, 2]⟩ : Queue ℕ) ∧
    getRBy (fun _ => .error .badmatch) (⟨[], [1, 2]⟩ : Queue ℕ) = .error .badmatch :=
  ⟨rfl, by decide, rfl⟩

theorem Build.Queues.congr {Q : Queue α → Prop} (h : ∀ q, P q ↔ Q q) (b : Build α) :
    b.Queues P ↔ b.Queues Q := by
  rw [show P = Q from funext fun q => propext (h q)]

/-- Every queue of a run has an element on each side if it has two, and is never
read through the clause for a malformed queue, exactly if no join of the run has
a lone element in front on its right. -/
theorem queues_wellFormed_iff (b : Build α) :
    (b.Queues fun q => Balanced q ∧ NeverMalformed q) ↔
      b.Joins fun p q => ¬ JoinsLoneFront p q := by
  rw [← queues_balanced_iff]
  exact Build.Queues.congr (fun q => by rw [neverMalformed_iff, and_self]) b

end Otp.Stdlib.Queue
