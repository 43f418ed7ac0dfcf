import Mathlib

/-!
# The event loop of `gen_statem`

The `loop*` functions of `gen_statem.erl` for state machines without time-outs: an
event is taken from the queue, or received if the queue is empty, and given to the
callback; the actions in the result are collected; state enter calls are made; and
the state transition puts together the queue and the list of postponed events.

States, data, events, modules and replies are of any type. The callbacks are
functions of a world, which they may change, so that their results are arbitrary. Where
the state machine terminates there is no next configuration. The callback may ask for
state enter calls without end; their number is bounded here by `fuel`.
-/

namespace Otp.Stdlib.GenStatem

/-- What a state function is called with. -/
inductive CallbackEvent (σ ε : Type*) where
  | event (e : ε)
  | enter (prev : σ)
deriving DecidableEq, Repr

/-- The actions of a callback; `bad` is any that is refused. -/
inductive Action (μ ε ρ : Type*) where
  | reply (r : ρ)
  | hibernate (b : Bool)
  | postpone (b : Bool)
  | nextEvent (e : ε)
  | changeCallbackModule (m : μ)
  | pushCallbackModule (m : μ)
  | popCallbackModule
  | bad
deriving DecidableEq, Repr

/-- The result of a state function, without or with a list of actions; `stop` stands for all
results and exceptions that terminate. -/
inductive Result (μ σ δ ε ρ : Type*) where
  | nextState (next : σ) (data : δ) (actions : Option (List (Action μ ε ρ)))
  | keepState (data : δ) (actions : Option (List (Action μ ε ρ)))
  | keepStateAndData (actions : Option (List (Action μ ε ρ)))
  | repeatState (data : δ) (actions : Option (List (Action μ ε ρ)))
  | repeatStateAndData (actions : Option (List (Action μ ε ρ)))
  | stop

/-- The callbacks: a state function, and `callback_mode`, which tells whether there are state
enter calls or fails. -/
structure Callbacks (μ σ δ ε ρ ω : Type*) where
  handle : ω → Option μ → CallbackEvent σ ε → σ → δ → Result μ σ δ ε ρ × ω
  callbackMode : ω → Option μ → Option Bool × ω

/-- `#params{}`. -/
structure Params (μ : Type*) where
  modules : List μ
  stateEnter : Bool

/-- The system events for `sys_debug`. -/
inductive SysEvent (μ σ ε ρ : Type*) where
  | enter (m : μ) (s : σ)
  | received (e : ε) (s : σ)
  | out (r : ρ)
  | module (m : μ) (s : σ)
  | postpone (e : ε) (s next : σ)
  | consume (e : ε) (s next : σ)

/-- The `Debug` argument: `?not_sys_debug`, or the events so far. -/
abbrev Debug (μ σ ε ρ : Type*) := Option (List (SysEvent μ σ ε ρ))

/-- `?sys_debug(Debug, Name, SystemEvent)`. -/
def sysDebug {μ σ ε ρ : Type*} (debug : Debug μ σ ε ρ) (e : SysEvent μ σ ε ρ) : Debug μ σ ε ρ :=
  debug.map (e :: ·)

/-- `#state{}`. The postponed events are kept with the newest first. -/
structure State (σ δ ε : Type*) where
  stateData : σ × δ
  postponed : List ε
  hibernate : Bool

/-- What is collected while the actions are processed. -/
structure Collected (μ σ ε ρ ω : Type*) where
  params : Params μ
  debug : Debug μ σ ε ρ
  nextEventsR : List ε
  hibernate : Bool
  postpone : Bool
  world : ω

/-- The state machine between two events: its queue and the messages that will come. -/
structure Config (μ σ δ ε ρ ω : Type*) where
  params : Params μ
  debug : Debug μ σ ε ρ
  state : State σ δ ε
  queue : List ε
  mailbox : List ε
  world : ω

/-- What happened to the event of a transition, and the events inserted, with the last first. -/
structure Transition (ε : Type*) where
  event : ε
  postpone : Bool
  nextEventsR : List ε

section Loop

variable {μ σ δ ε ρ ω : Type*} [DecidableEq σ] (cb : Callbacks μ σ δ ε ρ ω)

/-- `get_callback_mode(P, Modules)`. -/
def getCallbackMode (world : ω) (modules : List μ) : Option (Params μ) × ω :=
  let r := cb.callbackMode world modules.head?
  (r.1.map fun stateEnter => ⟨modules, stateEnter⟩, r.2)

/-- The actions that change the callback module: the new modules, if they are of use. -/
def changeModules (c : Collected μ σ ε ρ ω) (next : σ) (modules : List μ) :
    Option (Collected μ σ ε ρ ω) :=
  match getCallbackMode cb c.world modules with
  | (some params, world) =>
    some { c with
      params := params
      world := world
      debug :=
        match modules with
        | m :: _ => sysDebug c.debug (.module m next)
        | [] => c.debug }
  | (none, _) => none

/-- One action of `loop_actions_list`. -/
def loopAction (next : σ) (stateCall : Bool) (c : Collected μ σ ε ρ ω) :
    Action μ ε ρ → Option (Collected μ σ ε ρ ω)
  | .reply r => some { c with debug := sysDebug c.debug (.out r) }
  | .hibernate b => some { c with hibernate := b }
  | .postpone b => if b = false ∨ stateCall = true then some { c with postpone := b } else none
  | .nextEvent e =>
    if stateCall then
      some { c with
        nextEventsR := e :: c.nextEventsR
        debug := sysDebug c.debug (.received e next) }
    else none
  | .changeCallbackModule m =>
    if stateCall then changeModules cb c next (m :: c.params.modules.tail) else none
  | .pushCallbackModule m =>
    if stateCall then changeModules cb c next (m :: c.params.modules) else none
  | .popCallbackModule =>
    if c.params.modules.tail ≠ [] ∧ stateCall = true then
      changeModules cb c next c.params.modules.tail
    else none
  | .bad => none

/-- `loop_actions_list`. -/
def loopActionsList (next : σ) (stateCall : Bool) :
    List (Action μ ε ρ) → Collected μ σ ε ρ ω → Option (Collected μ σ ε ρ ω)
  | [], c => some c
  | action :: actions, c =>
    match loopAction cb next stateCall c action with
    | some c => loopActionsList next stateCall actions c
    | none => none

/-- `loop_state_callback_result`: the next state and data, whether it asks for a state enter call,
and the actions. -/
def loopStateCallbackResult (stateData : σ × δ) (stateCall : Bool) :
    Result μ σ δ ε ρ → Option ((σ × δ) × Bool × Option (List (Action μ ε ρ)))
  | .nextState next data actions =>
    if next = stateData.1 then some ((stateData.1, data), false, actions)
    else if stateCall then some ((next, data), true, actions)
    else none
  | .keepState data actions => some ((stateData.1, data), false, actions)
  | .keepStateAndData actions => some (stateData, false, actions)
  | .repeatState data actions => some ((stateData.1, data), true, actions)
  | .repeatStateAndData actions => some (stateData, true, actions)
  | .stop => none

/-- `loop_done/5`: the queue with the inserted events first. -/
def loopDone (events : List ε) : List ε → List ε
  | [] => events
  | [e1] => e1 :: events
  | [e2, e1] => e1 :: e2 :: events
  | e :: e' :: nextEventsR => (e :: e' :: nextEventsR).reverseAux events

/-- `loop_state_change/9`: the events with the postponed ones first. -/
def loopStateChange (events : List ε) : List ε → List ε
  | [] => events
  | [e1] => e1 :: events
  | [e2, e1] => e1 :: e2 :: events
  | e :: e' :: postponed => (e :: e' :: postponed).reverseAux events

/-- `loop_state_transition` with `loop_keep_state`, `loop_state_change`, `loop_next_events` and
`loop_done`. -/
def loopStateTransition (s : State σ δ ε) (event : ε) (events mailbox : List ε)
    (next : σ × δ) (c : Collected μ σ ε ρ ω) : Config μ σ δ ε ρ ω × Transition ε :=
  let postponed := if c.postpone then event :: s.postponed else s.postponed
  let debug :=
    if c.postpone then sysDebug c.debug (.postpone event s.stateData.1 next.1)
    else sysDebug c.debug (.consume event s.stateData.1 next.1)
  let done := fun (events postponed : List ε) =>
    { params := c.params
      debug := debug
      state := ⟨next, postponed, c.hibernate⟩
      queue := loopDone events c.nextEventsR
      mailbox := mailbox
      world := c.world : Config μ σ δ ε ρ ω }
  (if next.1 = s.stateData.1 then done events postponed
    else done (loopStateChange events postponed) [],
    ⟨event, c.postpone, c.nextEventsR⟩)

/-- `loop_actions`, and the state enter calls it leads to. -/
def loopActions (s : State σ δ ε) (event : ε) (events mailbox : List ε) :
    ℕ → (σ × δ) → Bool → Collected μ σ ε ρ ω → Option (Config μ σ δ ε ρ ω × Transition ε)
  | fuel, next, callEnter, c =>
    if callEnter && c.params.stateEnter then
      match fuel with
      | 0 => none
      | fuel + 1 =>
        let r := cb.handle c.world c.params.modules.head? (.enter s.stateData.1) next.1 next.2
        match loopStateCallbackResult next false r.1 with
        | none => none
        | some (next, callEnter, actions) =>
          match loopActionsList cb next.1 false (actions.getD []) { c with world := r.2 } with
          | none => none
          | some c => loopActions s event events mailbox fuel next callEnter c
    else some (loopStateTransition s event events mailbox next c)

/-- `loop_state_callback` for an event, and everything it leads to up to the transition. -/
def loopStateCallback (fuel : ℕ) (params : Params μ) (debug : Debug μ σ ε ρ) (s : State σ δ ε)
    (event : ε) (events mailbox : List ε) (hibernate : Bool) (world : ω) :
    Option (Config μ σ δ ε ρ ω × Transition ε) :=
  let r := cb.handle world params.modules.head? (.event event) s.stateData.1 s.stateData.2
  match loopStateCallbackResult s.stateData true r.1 with
  | none => none
  | some (next, callEnter, actions) =>
    match loopActionsList cb next.1 true (actions.getD [])
        ⟨params, debug, [], hibernate, false, r.2⟩ with
    | none => none
    | some c => loopActions cb s event events mailbox fuel next callEnter c

/-- One round of the loop: the first event of the queue, or else the next message, is handled. -/
def loop (fuel : ℕ) (c : Config μ σ δ ε ρ ω) : Option (Config μ σ δ ε ρ ω × Transition ε) :=
  match c.queue with
  | event :: events =>
    -- `loop_event` from `loop_done`
    loopStateCallback cb fuel c.params c.debug c.state event events c.mailbox c.state.hibernate
      c.world
  | [] =>
    match c.mailbox with
    | event :: mailbox =>
      -- `loop_msg_event`
      loopStateCallback cb fuel c.params (sysDebug c.debug (.received event c.state.stateData.1))
        c.state event [] mailbox false c.world
    | [] => none

/-- `enter`: the start of the loop, with the actions of `init` and an event made up for it. -/
def enter (fuel : ℕ) (m : μ) (debug : Debug μ σ ε ρ) (initState : ε) (stateData : σ × δ)
    (actions : List (Action μ ε ρ)) (mailbox : List ε) (world : ω) :
    Option (Config μ σ δ ε ρ ω × Transition ε) :=
  match getCallbackMode cb world [m] with
  | (none, _) => none
  | (some params, world) =>
    match loopActionsList cb stateData.1 true (actions ++ [.postpone false])
        ⟨params, sysDebug debug (.enter m stateData.1), [], false, false, world⟩ with
    | none => none
    | some c => loopActions cb ⟨stateData, [], false⟩ initState [] mailbox fuel stateData true c

end Loop

end Otp.Stdlib.GenStatem
