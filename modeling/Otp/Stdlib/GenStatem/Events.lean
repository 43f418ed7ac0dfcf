import Otp.Stdlib.GenStatem.Loop

/-!
# No event is lost, duplicated or reordered

What a transition is for: the inserted events come first, then, if the state
changes, the postponed events with the oldest first, then the rest of the queue. The
loop does exactly that, along every path. So over a whole run every event that was
received or inserted is consumed, or waits in the queue, or is postponed.
-/

namespace Otp.Stdlib.GenStatem

open List

variable {μ σ δ ε ρ ω : Type*}

/-! ## Pending work -/

/-- The work of a state machine: queued events, and postponed events with the oldest first. -/
structure Pending (ε : Type*) where
  queue : List ε
  postponed : List ε

/-- A transition for an event that was taken off the queue. -/
def Pending.transition (p : Pending ε) (event : ε) (nextEvents : List ε)
    (postpone changed : Bool) : Pending ε :=
  let postponed := if postpone then p.postponed ++ [event] else p.postponed
  if changed then ⟨nextEvents ++ postponed ++ p.queue, []⟩
  else ⟨nextEvents ++ p.queue, postponed⟩

/-- A transition keeps every event but a consumed one. -/
theorem Pending.transition_perm (p : Pending ε) (event : ε) (nextEvents : List ε)
    (postpone changed : Bool) :
    ((if postpone then [] else [event]) ++
        ((p.transition event nextEvents postpone changed).queue ++
          (p.transition event nextEvents postpone changed).postponed)).Perm
      (event :: p.queue ++ p.postponed ++ nextEvents) := by
  classical
  rw [perm_iff_count]
  intro e
  unfold Pending.transition
  cases postpone <;> cases changed <;>
    simp only [if_true, if_false, Bool.false_eq_true, count_append, count_cons, count_nil] <;> omega

/-- The pending work in a configuration. -/
def Config.pending (c : Config μ σ δ ε ρ ω) : Pending ε := ⟨c.queue, c.state.postponed.reverse⟩

/-! ## The actions -/

/-- The events that a list of actions inserts. -/
def nextEvents : List (Action μ ε ρ) → List ε
  | [] => []
  | .nextEvent e :: actions => e :: nextEvents actions
  | _ :: actions => nextEvents actions

theorem nextEvents_append (actions actions' : List (Action μ ε ρ)) :
    nextEvents (actions ++ actions') = nextEvents actions ++ nextEvents actions' := by
  induction actions with
  | nil => rfl
  | cons action actions ih => cases action <;> simp [nextEvents, ih]

/-- Whether the event is postponed after a list of actions: the last one that says it counts. -/
def postpones (b : Bool) : List (Action μ ε ρ) → Bool
  | [] => b
  | .postpone b' :: actions => postpones b' actions
  | _ :: actions => postpones b actions

theorem postpones_append (b : Bool) (actions actions' : List (Action μ ε ρ)) :
    postpones b (actions ++ actions') = postpones (postpones b actions) actions' := by
  induction actions generalizing b with
  | nil => rfl
  | cons action actions ih => cases action <;> exact ih _

/-- The actions of a result. -/
def Result.actions : Result μ σ δ ε ρ → List (Action μ ε ρ)
  | .nextState _ _ actions => actions.getD []
  | .keepState _ actions => actions.getD []
  | .keepStateAndData actions => actions.getD []
  | .repeatState _ actions => actions.getD []
  | .repeatStateAndData actions => actions.getD []
  | .stop => []

theorem loopDone_eq (events nextEventsR : List ε) :
    loopDone events nextEventsR = nextEventsR.reverse ++ events := by
  match nextEventsR with
  | [] => rfl
  | [_] => rfl
  | [_, _] => rfl
  | _ :: _ :: _ :: _ => simp [loopDone, reverseAux_eq]

theorem loopStateChange_eq (events postponed : List ε) :
    loopStateChange events postponed = postponed.reverse ++ events := by
  match postponed with
  | [] => rfl
  | [_] => rfl
  | [_, _] => rfl
  | _ :: _ :: _ :: _ => simp [loopStateChange, reverseAux_eq]

section Callbacks

variable {cb : Callbacks μ σ δ ε ρ ω} {c c' : Collected μ σ ε ρ ω} {stateCall : Bool}
  {action : Action μ ε ρ} {event : ε} {events mailbox : List ε} {fuel : ℕ} {world : ω}
  {t : Transition ε} {actions : List (Action μ ε ρ)} {next : σ}

theorem changeModules_eq {modules : List μ} (h : changeModules cb c next modules = some c') :
    c'.nextEventsR = c.nextEventsR ∧ c'.postpone = c.postpone := by
  unfold changeModules at h
  split at h
  · cases h
    exact ⟨rfl, rfl⟩
  · cases h

/-- What one action does to the inserted events and to the event at hand. -/
theorem loopAction_eq (h : loopAction cb next stateCall c action = some c') :
    c'.nextEventsR = (nextEvents [action]).reverse ++ c.nextEventsR ∧
      (∀ e, action = .nextEvent e → stateCall = true) ∧
      c'.postpone = postpones c.postpone [action] ∧
      (stateCall = false → (c'.postpone = true → c.postpone = true) ∧
        c'.params = c.params ∧ c'.world = c.world) := by
  unfold loopAction at h
  cases action with
  | reply r | hibernate b =>
    cases h
    exact ⟨rfl, by simp, rfl, fun _ => ⟨id, rfl, rfl⟩⟩
  | postpone b =>
    dsimp only at h
    split at h
    · rename_i hb
      cases h
      refine ⟨rfl, by simp, rfl, fun hcall => ⟨fun hpost => ?_, rfl, rfl⟩⟩
      obtain hb | hb := hb
      · exact absurd (hpost.symm.trans hb) (by simp)
      · exact absurd (hcall.symm.trans hb) (by simp)
    · cases h
  | nextEvent e =>
    dsimp only at h
    split at h
    · rename_i hcall
      cases h
      exact ⟨rfl, fun _ _ => hcall, rfl, fun _ => ⟨id, rfl, rfl⟩⟩
    · cases h
  | changeCallbackModule m | pushCallbackModule m | popCallbackModule =>
    dsimp only at h
    split at h
    · obtain ⟨hn, hp⟩ := changeModules_eq h
      exact ⟨hn, by simp, hp, by simp_all⟩
    · cases h
  | bad => cases h

theorem loopActionsList_cons
    (h : loopActionsList cb next stateCall (action :: actions) c = some c') :
    ∃ c₁, loopAction cb next stateCall c action = some c₁ ∧
      loopActionsList cb next stateCall actions c₁ = some c' := by
  rw [loopActionsList] at h
  split at h
  · rename_i c₁ hc₁
    exact ⟨c₁, hc₁, h⟩
  · cases h

/-- The inserted events are collected with the last first. -/
theorem loopActionsList_nextEventsR :
    ∀ {c c' : Collected μ σ ε ρ ω}, loopActionsList cb next stateCall actions c = some c' →
      c'.nextEventsR = (nextEvents actions).reverse ++ c.nextEventsR := by
  induction actions with
  | nil =>
    intro c c' h
    cases h
    rfl
  | cons action actions ih =>
    intro c c' h
    obtain ⟨c₁, hc₁, hrest⟩ := loopActionsList_cons h
    rw [ih hrest, (loopAction_eq hc₁).1, ← append_assoc, ← reverse_append,
      ← nextEvents_append, singleton_append]

theorem loopActionsList_postpone :
    ∀ {c c' : Collected μ σ ε ρ ω}, loopActionsList cb next stateCall actions c = some c' →
      c'.postpone = postpones c.postpone actions := by
  induction actions with
  | nil =>
    intro c c' h
    cases h
    rfl
  | cons action actions ih =>
    intro c c' h
    obtain ⟨c₁, hc₁, hrest⟩ := loopActionsList_cons h
    rw [ih hrest, (loopAction_eq hc₁).2.2.1, ← postpones_append, singleton_append]

/-- State enter calls insert nothing and postpone nothing, and the modules stay as they are. -/
theorem loopActionsList_enter :
    ∀ {c c' : Collected μ σ ε ρ ω}, loopActionsList cb next false actions c = some c' →
      c'.nextEventsR = c.nextEventsR ∧ (c'.postpone = true → c.postpone = true) ∧
        c'.params = c.params ∧ c'.world = c.world := by
  induction actions with
  | nil =>
    intro c c' h
    cases h
    exact ⟨rfl, id, rfl, rfl⟩
  | cons action actions ih =>
    intro c c' h
    obtain ⟨c₁, hc₁, hrest⟩ := loopActionsList_cons h
    obtain ⟨hn, hcall, -, henter⟩ := loopAction_eq hc₁
    obtain ⟨hp, hparams, hworld⟩ := henter rfl
    obtain ⟨hn', hp', hparams', hworld'⟩ := ih hrest
    refine ⟨?_, hp ∘ hp', hparams'.trans hparams, hworld'.trans hworld⟩
    rw [hn', hn]
    cases action with
    | nextEvent e => exact absurd (hcall e rfl) (by simp)
    | _ => rfl

/-! ## The transition -/

variable [DecidableEq σ] {s : State σ δ ε} {debug : Debug μ σ ε ρ} {c : Config μ σ δ ε ρ ω}

/-- The queue and the postponed events after `loop_state_transition`. -/
theorem pending_loopStateTransition (s : State σ δ ε) (event : ε) (events mailbox : List ε)
    (next : σ × δ) (c : Collected μ σ ε ρ ω) :
    (loopStateTransition (δ := δ) s event events mailbox next c).1.pending =
      Pending.transition ⟨events, s.postponed.reverse⟩ event c.nextEventsR.reverse c.postpone
        (next.1 ≠ s.stateData.1) := by
  have hpostponed : (if c.postpone = true then event :: s.postponed else s.postponed).reverse =
      if c.postpone = true then s.postponed.reverse ++ [event] else s.postponed.reverse := by
    split_ifs <;> simp
  unfold loopStateTransition Pending.transition Config.pending
  by_cases hnext : next.1 = s.stateData.1
  · simp only [hnext, if_true, ne_eq, not_true_eq_false, decide_false, Bool.false_eq_true, if_false,
      loopDone_eq, hpostponed]
  · simp only [hnext, if_false, ne_eq, not_false_eq_true, decide_true, if_true,
      loopDone_eq, loopStateChange_eq, hpostponed, reverse_nil, append_assoc]

/-- The actions of the state enter calls that are made, one after the other, if `callEnter` asks for
the first one; `prev` is the state before the event. -/
inductive EnterCalls (cb : Callbacks μ σ δ ε ρ ω) (prev : σ) (params : Params μ) :
    σ × δ → Bool → ω → List (Action μ ε ρ) → Prop
  | done {next : σ × δ} {callEnter : Bool} {world : ω} :
      (callEnter && params.stateEnter) = false → EnterCalls cb prev params next callEnter world []
  | call {next next' : σ × δ} {callEnter callEnter' : Bool} {world world' : ω}
      {result : Result μ σ δ ε ρ} {actions : Option (List (Action μ ε ρ))}
      {rest : List (Action μ ε ρ)} :
      (callEnter && params.stateEnter) = true →
      cb.handle world params.modules.head? (.enter prev) next.1 next.2 = (result, world') →
      loopStateCallbackResult next false result = some (next', callEnter', actions) →
      EnterCalls cb prev params next' callEnter' world' rest →
      EnterCalls cb prev params next callEnter world (actions.getD [] ++ rest)

/-- After the actions of an event, and the state enter calls, comes a transition to the next state
with the events inserted so far. -/
theorem loopActions_eq :
    ∀ {fuel : ℕ} {next : σ × δ} {callEnter : Bool} {c : Collected μ σ ε ρ ω}
      {r : Config μ σ δ ε ρ ω × Transition ε},
      loopActions cb s event events mailbox fuel next callEnter c = some r →
        ∃ (data : δ) (c' : Collected μ σ ε ρ ω) (enterActions : List (Action μ ε ρ)),
          c'.nextEventsR = c.nextEventsR ∧ (c'.postpone = true → c.postpone = true) ∧
          EnterCalls cb s.stateData.1 c.params next callEnter c.world enterActions ∧
          c'.postpone = postpones c.postpone enterActions ∧
          r = loopStateTransition s event events mailbox (next.1, data) c' := by
  intro fuel
  induction fuel with
  | zero =>
    intro next callEnter c r h
    rw [loopActions] at h
    split at h
    · cases h
    · rename_i hcall
      cases h
      exact ⟨next.2, c, [], rfl, id, .done (by simpa using hcall), rfl, rfl⟩
  | succ fuel ih =>
    intro next callEnter c r h
    rw [loopActions] at h
    split at h
    · rename_i hcall
      dsimp only at h
      split at h
      · cases h
      · rename_i next' callEnter' actions hresult
        split at h
        · cases h
        · rename_i c₁ hc₁
          obtain ⟨hn, hp, hparams, hworld⟩ := loopActionsList_enter hc₁
          obtain ⟨data, c', enterActions, hn', hp', henter, hpost, hr⟩ := ih h
          have hnext : next'.1 = next.1 := by
            unfold loopStateCallbackResult at hresult
            split at hresult
            · split at hresult
              · cases hresult
                rfl
              · cases hresult
            all_goals
              cases hresult
              try rfl
          rw [hnext] at hr
          rw [hparams, hworld] at henter
          refine ⟨data, c', _, hn'.trans hn, hp ∘ hp', .call hcall rfl hresult henter, ?_, hr⟩
          rw [hpost, loopActionsList_postpone hc₁, postpones_append]
    · rename_i hcall
      cases h
      exact ⟨next.2, c, [], rfl, id, .done (by simpa using hcall), rfl, rfl⟩

/-- The result of the callback for an event, and the world after it. -/
def Config.handle (cb : Callbacks μ σ δ ε ρ ω) (c : Config μ σ δ ε ρ ω) (event : ε) :
    Result μ σ δ ε ρ × ω :=
  cb.handle c.world c.params.modules.head? (.event event) c.state.stateData.1 c.state.stateData.2

/-- The callback has the event postponed or not, by its actions for the event and, after them, the
actions of the state enter calls. These are made with the modules that the former leave. -/
def Postpones (cb : Callbacks μ σ δ ε ρ ω) (c : Config μ σ δ ε ρ ω) (event : ε) (postpone : Bool) :
    Prop :=
  ∃ (next : σ × δ) (callEnter : Bool) (actions : Option (List (Action μ ε ρ)))
    (coll coll' : Collected μ σ ε ρ ω) (enterActions : List (Action μ ε ρ)),
    loopStateCallbackResult c.state.stateData true (c.handle cb event).1 =
      some (next, callEnter, actions) ∧
    coll.params = c.params ∧ coll.world = (c.handle cb event).2 ∧
    loopActionsList cb next.1 true (actions.getD []) coll = some coll' ∧
    EnterCalls cb c.state.stateData.1 coll'.params next callEnter coll'.world enterActions ∧
    postpone = postpones false (actions.getD [] ++ enterActions)

/-- What an event leads to, by the result of the callback for it. -/
theorem loopStateCallback_eq {hibernate : Bool} {r : Config μ σ δ ε ρ ω × Transition ε}
    (h : loopStateCallback cb fuel c.params debug c.state event events mailbox hibernate c.world =
      some r) :
    ∃ (next : σ × δ) (coll : Collected μ σ ε ρ ω),
      coll.nextEventsR.reverse = nextEvents (c.handle cb event).1.actions ∧
      Postpones cb c event coll.postpone ∧
      r = loopStateTransition c.state event events mailbox next coll := by
  unfold loopStateCallback at h
  dsimp only at h
  rw [← Config.handle] at h
  split at h
  · cases h
  · rename_i next callEnter actions hresult
    split at h
    · cases h
    · rename_i coll hcoll
      obtain ⟨data, coll', enterActions, hn, -, henter, hpost, hr⟩ := loopActions_eq h
      have hnext := loopActionsList_nextEventsR hcoll
      rw [append_nil] at hnext
      rw [loopActionsList_postpone hcoll, ← postpones_append] at hpost
      refine ⟨_, coll', ?_,
        ⟨next, callEnter, actions, _, coll, enterActions, hresult, rfl, rfl, hcoll, henter, hpost⟩,
        hr⟩
      rw [hn, hnext, reverse_reverse]
      revert hresult
      generalize (c.handle cb event).1 = result
      intro hresult
      unfold loopStateCallbackResult at hresult
      split at hresult
      · split at hresult
        · cases hresult
          rfl
        · cases hresult
          rfl
      all_goals
        cases hresult
        try rfl

/-- What is received before the next event is handled: nothing, unless the queue is empty. -/
def Config.received (c : Config μ σ δ ε ρ ω) : List ε :=
  if c.queue = [] then c.mailbox.take 1 else []

/-- A round of the loop from `c` to `c'`: the first event is handled, and the pending work changes
by a transition with the events that the callback inserts for it, and postpones it or not as the
callback says. -/
def IsTransition (cb : Callbacks μ σ δ ε ρ ω) (c c' : Config μ σ δ ε ρ ω) (t : Transition ε) :
    Prop :=
  ∃ rest, c.received ++ c.queue = t.event :: rest ∧ c.mailbox = c.received ++ c'.mailbox ∧
    t.nextEventsR.reverse = nextEvents (c.handle cb t.event).1.actions ∧
    Postpones cb c t.event t.postpone ∧
    c'.pending =
      Pending.transition ⟨rest, c.pending.postponed⟩ t.event t.nextEventsR.reverse t.postpone
        (c'.state.stateData.1 ≠ c.state.stateData.1)

theorem isTransition_loopStateTransition {rest : List ε} {next : σ × δ}
    {coll : Collected μ σ ε ρ ω} (hrest : c.received ++ c.queue = event :: rest)
    (hmailbox : c.mailbox = c.received ++ mailbox)
    (hnext : coll.nextEventsR.reverse = nextEvents (c.handle cb event).1.actions)
    (hpost : Postpones cb c event coll.postpone) :
    IsTransition cb c (loopStateTransition c.state event rest mailbox next coll).1
      (loopStateTransition (δ := δ) c.state event rest mailbox next coll).2 := by
  have hstate : (loopStateTransition c.state event rest mailbox next coll).1.state.stateData =
      next := by
    unfold loopStateTransition
    split_ifs <;> rfl
  have hbox : (loopStateTransition c.state event rest mailbox next coll).1.mailbox = mailbox := by
    unfold loopStateTransition
    split_ifs <;> rfl
  refine ⟨rest, hrest, ?_, hnext, hpost, ?_⟩
  · rw [hbox]
    exact hmailbox
  · rw [pending_loopStateTransition, hstate]
    rfl

/-- **One round of the loop is a transition.** -/
theorem isTransition_loop {c' : Config μ σ δ ε ρ ω} (h : loop cb fuel c = some (c', t)) :
    IsTransition cb c c' t := by
  unfold loop at h
  split at h
  · rename_i event events hqueue
    obtain ⟨next, coll, hn, hpost, hr⟩ := loopStateCallback_eq h
    have hreceived : c.received = [] := by
      unfold Config.received
      rw [hqueue, if_neg (cons_ne_nil _ _)]
    cases hr
    refine isTransition_loopStateTransition ?_ ?_ hn hpost
    · rw [hreceived, nil_append, hqueue]
    · rw [hreceived, nil_append]
  · rename_i hqueue
    split at h
    · rename_i event mailbox hmailbox
      obtain ⟨next, coll, hn, hpost, hr⟩ := loopStateCallback_eq h
      have hreceived : c.received = [event] := by
        unfold Config.received
        rw [hqueue, hmailbox]
        rfl
      cases hr
      refine isTransition_loopStateTransition ?_ ?_ hn hpost
      · rw [hreceived, hqueue, append_nil]
      · rw [hreceived, hmailbox]
        rfl
    · cases h

/-! ## Runs -/

/-- The events received, inserted and consumed so far. -/
structure History (ε : Type*) where
  received : List ε
  inserted : List ε
  consumed : List ε

/-- A history with one more round. -/
def History.record (h : History ε) (received : List ε) (t : Transition ε) : History ε :=
  ⟨h.received ++ received, h.inserted ++ t.nextEventsR.reverse,
    h.consumed ++ (if t.postpone then [] else [t.event])⟩

/-- The configurations a state machine reaches from its start, with their histories. The event
made up for the start is not part of the history. -/
inductive Run (cb : Callbacks μ σ δ ε ρ ω) (mailbox : List ε) :
    Config μ σ δ ε ρ ω → History ε → Prop
  | enter {fuel : ℕ} {m : μ} {debug : Debug μ σ ε ρ} {initState : ε} {stateData : σ × δ}
      {actions : List (Action μ ε ρ)} {world : ω} {c : Config μ σ δ ε ρ ω} {t : Transition ε} :
      enter cb fuel m debug initState stateData actions mailbox world = some (c, t) →
        Run cb mailbox c ⟨[], t.nextEventsR.reverse, []⟩
  | loop {fuel : ℕ} {c c' : Config μ σ δ ε ρ ω} {h : History ε} {t : Transition ε} :
      Run cb mailbox c h → loop cb fuel c = some (c', t) →
        Run cb mailbox c' (h.record c.received t)

/-- The start inserts the events of `init`. -/
theorem enter_eq {m : μ} {initState : ε} {stateData : σ × δ}
    (h : enter cb fuel m debug initState stateData actions mailbox world = some (c, t)) :
    c.queue = nextEvents actions ∧ t.nextEventsR.reverse = nextEvents actions ∧
      c.state.postponed = [] ∧ c.mailbox = mailbox := by
  unfold enter at h
  split at h
  · cases h
  · split at h
    · cases h
    · rename_i coll hcoll
      obtain ⟨data, coll', -, hn, hp, -, -, hr⟩ := loopActions_eq h
      have hnone : nextEvents [(Action.postpone false : Action μ ε ρ)] = [] := rfl
      have hnext : coll'.nextEventsR = (nextEvents actions).reverse := by
        rw [hn, loopActionsList_nextEventsR hcoll, nextEvents_append, hnone, append_nil, append_nil]
      have hpost : coll'.postpone = false := by
        by_contra hne
        have := hp (by simpa using hne)
        rw [loopActionsList_postpone hcoll, postpones_append] at this
        cases this
      cases hr
      simp only [hpost, Bool.false_eq_true, if_false, if_true, loopDone_eq, hnext,
        reverse_reverse, append_nil, and_self]

/-- **No event is lost, duplicated or reordered.** In every configuration that a state machine
reaches, the events received and inserted are the consumed, the queued and the postponed ones, the
received events are the first messages in order, and the next round of the loop is a transition of
the pending work: the inserted events in the order of the actions, then, if the state changes, the
postponed events with the oldest first, then the rest of the queue. The event is postponed if the
last postpone action of the callback says so, and else consumed. -/
theorem run_conserves_events {mailbox : List ε} {c : Config μ σ δ ε ρ ω} {h : History ε}
    (hrun : Run cb mailbox c h) :
    (h.consumed ++ (c.pending.queue ++ c.pending.postponed)).Perm (h.received ++ h.inserted) ∧
      h.received ++ c.mailbox = mailbox ∧
      ∀ fuel c' t, loop cb fuel c = some (c', t) → IsTransition cb c c' t := by
  have hmain : (h.consumed ++ (c.pending.queue ++ c.pending.postponed)).Perm
      (h.received ++ h.inserted) ∧ h.received ++ c.mailbox = mailbox := by
    induction hrun with
    | enter henter =>
      obtain ⟨hqueue, hnext, hpost, hmailbox⟩ := enter_eq henter
      refine ⟨?_, hmailbox⟩
      unfold Config.pending
      rw [hqueue, hnext, hpost]
      simp
    | @loop fuel c c' h t _ hloop ih =>
      obtain ⟨hperm, hbox⟩ := ih
      obtain ⟨rest, hrest, hmailbox, -, -, hpending⟩ := isTransition_loop hloop
      constructor
      · have hstep := Pending.transition_perm ⟨rest, c.pending.postponed⟩ t.event
          t.nextEventsR.reverse t.postpone (c'.state.stateData.1 ≠ c.state.stateData.1)
        rw [← hpending] at hstep
        rw [← hrest] at hstep
        unfold History.record
        classical
        rw [perm_iff_count] at hperm hstep ⊢
        intro e
        have h₁ := hperm e
        have h₂ := hstep e
        simp only [count_append] at h₁ h₂ ⊢
        have hq : c.pending.queue = c.queue := rfl
        rw [hq] at h₁
        omega
      · unfold History.record
        rw [append_assoc, ← hmailbox, hbox]
  exact ⟨hmain.1, hmain.2, fun fuel c' t => isTransition_loop⟩

/-- A door: while it is closed every event but `0` is postponed, and `0` opens it. -/
def door : Callbacks Unit Bool Unit ℕ Unit Unit where
  handle := fun world _ event opened _ =>
    (match event, opened with
      | .event 0, false => .nextState true () (some [.nextEvent 9])
      | .event _, false => .keepStateAndData (some [.postpone true])
      | _, _ => .keepStateAndData none, world)
  callbackMode := fun world _ => (some false, world)

def doorAt (opened : Bool) (postponed queue mailbox : List ℕ) :
    Config Unit Bool Unit ℕ Unit Unit :=
  ⟨⟨[()], false⟩, none, ⟨(opened, ()), postponed, false⟩, queue, mailbox, ()⟩

/-- The door has postponed `5` and `6`, and then is opened. -/
theorem run_conserves_events_door : ∃ h, Run door [5, 6, 0] (doorAt true [] [9, 5, 6] []) h ∧
    (h.consumed ++ [9, 5, 6]).Perm (h.received ++ h.inserted) := by
  have h₀ : enter door 0 () none 0 (false, ()) [] [5, 6, 0] () =
      some (doorAt false [] [] [5, 6, 0], ⟨0, false, []⟩) := rfl
  have h₁ : loop door 0 (doorAt false [] [] [5, 6, 0]) =
      some (doorAt false [5] [] [6, 0], ⟨5, true, []⟩) := rfl
  have h₂ : loop door 0 (doorAt false [5] [] [6, 0]) =
      some (doorAt false [6, 5] [] [0], ⟨6, true, []⟩) := rfl
  have h₃ : loop door 0 (doorAt false [6, 5] [] [0]) =
      some (doorAt true [] [9, 5, 6] [], ⟨0, false, [9]⟩) := rfl
  have hrun := (((Run.enter h₀).loop h₁).loop h₂).loop h₃
  exact ⟨_, hrun, (run_conserves_events hrun).1⟩

end Callbacks

end Otp.Stdlib.GenStatem
