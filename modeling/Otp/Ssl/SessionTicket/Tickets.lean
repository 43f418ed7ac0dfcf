import Otp.Ssl.SessionTicket.BloomFilter

/-!
# Stateless session tickets

The part of `tls_server_session_ticket` for stateless tickets. A ticket carries
its own data, encrypted; a client that uses it tells its own view of the ticket's
age, obfuscated, and a binder. With `anti_replay` the server accepts a ticket only
if the two views of its age differ by the window at most, and only if a Bloom
filter does not remember the binder. The filter is rotated once in a window.

What the cryptographic functions compute is a parameter. Times are counted in
the native unit of the runtime system.
-/

namespace Otp.Ssl.SessionTicket

/-- `#stateless_ticket{}`. -/
structure StatelessTicket (ψ φ χ : Type*) where
  hash : φ
  preSharedKey : ψ
  ticketAgeAdd : ℕ
  lifetime : ℕ
  timestamp : ℕ
  certificate : χ

/-- `#psk_identity{}`. -/
structure PskIdentity (ι : Type*) where
  identity : ι
  obfuscatedTicketAge : ℕ
deriving DecidableEq, Repr

/-- The functions of `ssl_cipher`, `tls_handshake_1_3` and `erlang` that tickets rest on. -/
structure Crypto (ι β η ψ φ χ : Type*) where
  decryptTicket : ι → Option (StatelessTicket ψ φ χ)
  isValidBinder : β → η → ψ → φ → Bool
  phash2 : Phash2 β

/-- What the server keeps for `anti_replay`. -/
structure AntiReplay where
  window : ℕ
  bloomFilter : BloomFilter
  warmUpWindowsRemaining : ℕ

/-- The state of the server; `none` without `anti_replay`. -/
structure State where
  antiReplay : Option AntiReplay

/-- `in_window(Age, Window)`. -/
def inWindow (age : ℚ) : Option ℕ → Bool
  | none => true
  | some window => age ≤ window

/-- `stateless_living_ticket`, at a system time in seconds. -/
def statelessLivingTicket (systemTime : ℤ) (obfAge ticketAgeAdd lifetime timestamp : ℕ)
    (window : Option ℕ) : Bool :=
  let realAge : ℤ := systemTime - timestamp
  let reportedAge : ℤ := obfAge - ticketAgeAdd
  let deltaAge : ℚ := |(realAge : ℚ) - (reportedAge : ℚ) / 1000|
  decide (reportedAge ≤ lifetime * 1000) && decide (realAge ≤ lifetime) && inWindow deltaAge window

/-- What a `use_ticket` request is answered. -/
inductive UseResult (ψ χ : Type*) where
  | accepted (index : ℕ) (psk : ψ) (peerCert : χ)
  | undefined
  | illegalParameter
deriving DecidableEq, Repr

/-- The answers of `stateless_usable_ticket`. -/
inductive Usable where
  | yes
  | no
  | illegalParameter
deriving DecidableEq, Repr

section Server

variable {ι β η ψ φ χ : Type*} [DecidableEq φ] (C : Crypto ι β η ψ φ χ)

/-- `stateless_usable_ticket`. -/
def statelessUsableTicket (systemTime : ℤ) (ticket : StatelessTicket ψ φ χ) (obfAge : ℕ)
    (binder : β) (handshakeHist : η) (window : Option ℕ) : Usable :=
  if statelessLivingTicket systemTime obfAge ticket.ticketAgeAdd ticket.lifetime ticket.timestamp
      window then
    if C.isValidBinder binder handshakeHist ticket.preSharedKey ticket.hash then .yes
    else .illegalParameter
  else .no

/-- `stateless_anti_replay`; `none` is a crash of the filter. -/
def statelessAntiReplay (index : ℕ) (psk : ψ) (binder : β) (peerCert : χ) (state : State) :
    Option (UseResult ψ χ × State) :=
  match state.antiReplay with
  | some r =>
    if 0 < r.warmUpWindowsRemaining then some (.undefined, state)
    else
      match r.bloomFilter.contains C.phash2 binder with
      | some true => some (.undefined, state)
      | some false =>
        match r.bloomFilter.addElem C.phash2 binder with
        | some filter =>
          some (.accepted index psk peerCert, ⟨some { r with bloomFilter := filter }⟩)
        | none => none
      | none => none
  | none => some (.accepted index psk peerCert, state)

/-- `stateless_use`; `none` where the numbers of identities and binders differ. -/
def statelessUse (systemTime : ℤ) (prf : φ) (handshakeHist : η) :
    List (PskIdentity ι) → List β → ℕ → State → Option (UseResult ψ χ × State)
  | [], [], _, state => some (.undefined, state)
  | id :: ids, binder :: binders, index, state =>
    match C.decryptTicket id.identity with
    | some ticket =>
      if ticket.hash = prf then
        match statelessUsableTicket C systemTime ticket id.obfuscatedTicketAge binder
            handshakeHist (state.antiReplay.map (·.window)) with
        | .yes =>
          statelessAntiReplay C index ticket.preSharedKey binder ticket.certificate state
        | .no => statelessUse systemTime prf handshakeHist ids binders (index + 1) state
        | .illegalParameter => some (.illegalParameter, state)
      else statelessUse systemTime prf handshakeHist ids binders (index + 1) state
    | none => statelessUse systemTime prf handshakeHist ids binders (index + 1) state
  | [], _ :: _, _, _ => none
  | _ :: _, [], _, _ => none

/-- `handle_info(rotate_bloom_filters, State)`. -/
def rotateBloomFilters (state : State) : State :=
  match state.antiReplay with
  | some r =>
    ⟨some { r with
      bloomFilter := r.bloomFilter.rotate
      warmUpWindowsRemaining := r.warmUpWindowsRemaining - 1 }⟩
  | none => state

/-- `warm_up_windows(Seed)`. -/
def warmUpWindows (seedGiven : Bool) : ℕ := if seedGiven then 2 else 0

/-! ## Schedules -/

/-- A server with `anti_replay`: the option `{Window, K, M}`, whether a seed was given, the native
time units in a second and the system time at the start. The range of `erlang:phash2/2` ends at
`2 ^ 32`. -/
structure Config where
  window : ℕ
  k : ℕ
  m : ℕ
  seedGiven : Bool
  unit : ℕ
  start : ℤ
  window_pos : 0 < window
  unit_pos : 0 < unit
  m_le : m ≤ 2 ^ 32

/-- `initial_state`. -/
def initialState (cfg : Config) : State :=
  ⟨some ⟨cfg.window, BloomFilter.new cfg.k cfg.m, warmUpWindows cfg.seedGiven⟩⟩

/-- `erlang:system_time(second)`, some time after the start. -/
def Config.systemTime (cfg : Config) (elapsed : ℕ) : ℤ := (cfg.start + elapsed) / cfg.unit

/-- The time between two rotations. -/
def Config.period (cfg : Config) : ℕ := cfg.window * cfg.unit

/-- What the server receives: requests, with the time since the start, and timeouts. -/
inductive Message (ι β η φ : Type*) where
  | useTicket (elapsed : ℕ) (identities : List (PskIdentity ι)) (binders : List β) (prf : φ)
      (handshakeHist : η)
  | rotateBloomFilters

/-- What was accepted: a ticket with an obfuscated age, and a binder. -/
structure Offer (ι β : Type*) where
  psk : PskIdentity ι
  binder : β
deriving DecidableEq, Repr

/-- The offer that an answer accepts. -/
def acceptedOffer (identities : List (PskIdentity ι)) (binders : List β) :
    UseResult ψ χ → Option (Offer ι β)
  | .accepted index _ _ => (identities[index]?).bind fun psk => (binders[index]?).map (Offer.mk psk)
  | _ => none

/-- The offers accepted in a run, in order; a crash ends it. -/
def acceptances (cfg : Config) : State → List (Message ι β η φ) → List (Offer ι β)
  | _, [] => []
  | state, .rotateBloomFilters :: messages => acceptances cfg (rotateBloomFilters state) messages
  | state, .useTicket elapsed identities binders prf hist :: messages =>
    match statelessUse C (cfg.systemTime elapsed) prf hist identities binders 0 state with
    | some (result, state) =>
      (acceptedOffer identities binders result).toList ++ acceptances cfg state messages
    | none => []

/-- The messages come in the order of their times, from `now` on, and one rotation in every
period, `rotations` of them before. At the very instant of a rotation requests may come before or
after it. -/
def Scheduled (cfg : Config) : (rotations now : ℕ) → List (Message ι β η φ) → Prop
  | _, _, [] => True
  | rotations, now, .rotateBloomFilters :: messages =>
    now ≤ (rotations + 1) * cfg.period ∧
      Scheduled cfg (rotations + 1) ((rotations + 1) * cfg.period) messages
  | rotations, now, .useTicket elapsed _ _ _ _ :: messages =>
    now ≤ elapsed ∧ elapsed ≤ (rotations + 1) * cfg.period ∧
      Scheduled cfg rotations elapsed messages

end Server

end Otp.Ssl.SessionTicket
