import Otp.Ssl.SessionTicket.Tickets

/-!
# Replays of a ticket

An accepted binder is remembered until the second rotation after its acceptance.
The ticket is living for an interval of time, as long as the two views of its age
differ by the window at most: up to twice the window. So an offer can be accepted
twice exactly if that interval holds two rotations in a row, since it may be
accepted at the first of them, before the rotation, and again at the second, after
it.
-/

namespace Otp.Ssl.SessionTicket

variable {ι β η ψ φ χ : Type*} {C : Crypto ι β η ψ φ χ} {index rotations elapsed since : ℕ}
  {psk : ψ} {binder : β} {cert : χ} {state state' : State} {r : AntiReplay} {result : UseResult ψ χ}
  {hist : η} {ids : List (PskIdentity ι)} {binders : List β} {cfg : Config} {P : Phash2 β}
  {offer : Offer ι β}

/-! ## What an acceptance needs -/

theorem statelessAntiReplay_accepted {j : ℕ} {psk' : ψ} {cert' : χ} (hr : state.antiReplay = some r)
    (h : statelessAntiReplay C index psk binder cert state =
      some (.accepted j psk' cert', state')) :
    j = index ∧ r.warmUpWindowsRemaining = 0 ∧
      r.bloomFilter.contains C.phash2 binder = some false ∧
      ∃ filter, r.bloomFilter.addElem C.phash2 binder = some filter ∧
        state' = ⟨some { r with bloomFilter := filter }⟩ := by
  unfold statelessAntiReplay at h
  rw [hr] at h
  dsimp only at h
  split at h
  · cases h
  · rename_i hwarm
    split at h
    · cases h
    · rename_i hcontains
      split at h
      · rename_i filter hadd
        cases h
        exact ⟨rfl, by omega, hcontains, filter, hadd, rfl⟩
      · cases h
    · cases h

theorem statelessAntiReplay_state
    (h : statelessAntiReplay C index psk binder cert state = some (result, state')) :
    state' = state ∧ result = .undefined ∨ ∃ j psk' cert', result = .accepted j psk' cert' := by
  unfold statelessAntiReplay at h
  split at h
  · split at h
    · cases h
      exact .inl ⟨rfl, rfl⟩
    · split at h
      · cases h
        exact .inl ⟨rfl, rfl⟩
      · split at h
        · cases h
          exact .inr ⟨_, _, _, rfl⟩
        · cases h
      · cases h
  · cases h
    exact .inr ⟨_, _, _, rfl⟩

/-- The answers that accept nothing. -/
def UseResult.Rejects : UseResult ψ χ → Prop
  | .accepted _ _ _ => False
  | _ => True

/-- One of the offers passes all checks before the filter, and the filter decides. -/
def FilterDecides (C : Crypto ι β η ψ φ χ) (systemTime : ℤ) (prf : φ) (hist : η)
    (ids : List (PskIdentity ι)) (binders : List β) (index : ℕ) (state : State)
    (result : UseResult ψ χ) (state' : State) : Prop :=
  ∃ i id binder ticket, ids[i]? = some id ∧ binders[i]? = some binder ∧
    C.decryptTicket id.identity = some ticket ∧ ticket.hash = prf ∧
    statelessLivingTicket systemTime id.obfuscatedTicketAge ticket.ticketAgeAdd
      ticket.lifetime ticket.timestamp (state.antiReplay.map (·.window)) = true ∧
    C.isValidBinder binder hist ticket.preSharedKey ticket.hash = true ∧
    statelessAntiReplay C (index + i) ticket.preSharedKey binder ticket.certificate state =
      some (result, state')

variable [DecidableEq φ] {prf : φ} {ticket : StatelessTicket ψ φ χ} {filter : BloomFilter}

/-- Where a request leads: the state is as before and nothing is accepted, or the filter
decides. -/
theorem statelessUse_cases {systemTime : ℤ} :
    ∀ {binders : List β} {index : ℕ} {result : UseResult ψ χ} {state' : State},
      statelessUse C systemTime prf hist ids binders index state = some (result, state') →
      (state' = state ∧ result.Rejects) ∨
        FilterDecides C systemTime prf hist ids binders index state result state' := by
  induction ids with
  | nil =>
    intro binders index result state' h
    cases binders with
    | nil =>
      cases h
      exact .inl ⟨rfl, trivial⟩
    | cons binder binders => cases h
  | cons id ids ih =>
    intro binders index result state' h
    cases binders with
    | nil => cases h
    | cons binder binders =>
      -- an offer that is passed over leaves the answer to the later ones
      have hnext : statelessUse C systemTime prf hist ids binders (index + 1) state =
          some (result, state') → (state' = state ∧ result.Rejects) ∨
            FilterDecides C systemTime prf hist (id :: ids) (binder :: binders) index state result
              state' := by
        intro hrest
        obtain hrej | ⟨i, id', binder', ticket, hi, hb, hrest⟩ := ih hrest
        · exact .inl hrej
        · refine .inr ⟨i + 1, id', binder', ticket, hi, hb, ?_⟩
          rw [show index + (i + 1) = index + 1 + i by omega]
          exact hrest
      rw [statelessUse] at h
      split at h
      · rename_i ticket hdec
        split at h
        · rename_i hhash
          split at h
          · rename_i husable
            unfold statelessUsableTicket at husable
            split at husable
            · rename_i hliving
              split at husable
              · rename_i hvalid
                exact .inr ⟨0, id, binder, ticket, rfl, rfl, hdec, hhash, hliving, hvalid, h⟩
              · cases husable
            · cases husable
          · exact hnext h
          · cases h
            exact .inl ⟨rfl, trivial⟩
        · exact hnext h
      · exact hnext h

omit [DecidableEq φ] in
theorem UseResult.Rejects.acceptedOffer_eq (h : result.Rejects) :
    acceptedOffer ids binders result = none := by
  cases result with
  | accepted index psk cert => exact h.elim
  | undefined => rfl
  | illegalParameter => rfl

/-- The ticket of an offer is living some time after the start. -/
def livingAt (cfg : Config) (ticket : StatelessTicket ψ φ χ) (psk : PskIdentity ι)
    (elapsed : ℕ) : Prop :=
  statelessLivingTicket (cfg.systemTime elapsed) psk.obfuscatedTicketAge ticket.ticketAgeAdd
    ticket.lifetime ticket.timestamp (some cfg.window) = true

/-- The state of the server after a number of rotations. -/
structure Tracks (cfg : Config) (rotations : ℕ) (state : State) (r : AntiReplay) : Prop where
  state : state.antiReplay = some r
  window : r.window = cfg.window
  warmUp : r.warmUpWindowsRemaining = warmUpWindows cfg.seedGiven - rotations
  k : r.bloomFilter.k = cfg.k
  m : r.bloomFilter.m = cfg.m
  fits : r.bloomFilter.Fits

theorem tracks_initialState (cfg : Config) : ∃ r, Tracks cfg 0 (initialState cfg) r :=
  ⟨_, rfl, rfl, rfl, rfl, rfl, BloomFilter.fits_new _ _⟩

theorem Tracks.rotate (h : Tracks cfg rotations state r) :
    Tracks cfg (rotations + 1) (rotateBloomFilters state) { r with
        bloomFilter := r.bloomFilter.rotate
        warmUpWindowsRemaining := r.warmUpWindowsRemaining - 1 } := by
  refine ⟨?_, h.window, ?_, h.k, h.m, h.fits.rotate⟩
  · unfold rotateBloomFilters
    rw [h.state]
  · show r.warmUpWindowsRemaining - 1 = _
    rw [h.warmUp]
    omega

/-- What it takes to accept an offer: its ticket is living, its binder is right for some
handshake, the warm-up is over and the filter lacks the binder. -/
structure Accepts (C : Crypto ι β η ψ φ χ) (cfg : Config) (elapsed : ℕ) (r : AntiReplay)
    (offer : Offer ι β) (ticket : StatelessTicket ψ φ χ) : Prop where
  decrypts : C.decryptTicket offer.psk.identity = some ticket
  living : livingAt cfg ticket offer.psk elapsed
  valid : ∃ hist, C.isValidBinder offer.binder hist ticket.preSharedKey ticket.hash = true
  warm : r.warmUpWindowsRemaining = 0
  lacks : r.bloomFilter.contains C.phash2 offer.binder = some false

/-- **One request.** It leaves the state as it is, or it accepts an offer and the filter has the
binder afterwards. -/
theorem Tracks.use (h : Tracks cfg rotations state r)
    (huse : statelessUse C (cfg.systemTime elapsed) prf hist ids binders 0 state =
      some (result, state')) :
    (state' = state ∧ acceptedOffer ids binders result = none) ∨
      ∃ offer ticket filter, acceptedOffer ids binders result = some offer ∧
        Accepts C cfg elapsed r offer ticket ∧
        r.bloomFilter.addElem C.phash2 offer.binder = some filter ∧
        state' = ⟨some { r with bloomFilter := filter }⟩ := by
  obtain ⟨hstate, hrej⟩ | ⟨i, id, binder, ticket, hid, hbinder, hdec, -, hliving,
    hvalid, hfilter⟩ :=
    statelessUse_cases huse
  · exact .inl ⟨hstate, hrej.acceptedOffer_eq⟩
  · obtain ⟨hstate, rfl⟩ | ⟨j, psk, cert, rfl⟩ := statelessAntiReplay_state hfilter
    · exact .inl ⟨hstate, rfl⟩
    · obtain ⟨rfl, hwarm, hlacks, filter, hadd, hstate⟩ :=
        statelessAntiReplay_accepted h.state hfilter
      refine .inr ⟨⟨id, binder⟩, ticket, filter, ?_, ⟨hdec, ?_, ⟨hist, hvalid⟩, hwarm, hlacks⟩,
        hadd, hstate⟩
      · simp only [acceptedOffer, Nat.zero_add, hid, hbinder, Option.bind_some, Option.map_some]
      · rw [h.state, Option.map_some, h.window] at hliving
        exact hliving

/-! ## The interval in which a ticket is living -/

omit [DecidableEq φ] in
/-- A ticket that is living at two times is so in between. -/
theorem livingAt_between {psk : PskIdentity ι} {a b c : ℕ} (ha : livingAt cfg ticket psk a)
    (hc : livingAt cfg ticket psk c) (hab : a ≤ b) (hbc : b ≤ c) : livingAt cfg ticket psk b := by
  have hmono : ∀ {x y : ℕ}, x ≤ y → cfg.systemTime x ≤ cfg.systemTime y := by
    intro x y hxy
    apply Int.ediv_le_ediv
    · exact_mod_cast cfg.unit_pos
    · omega
  have h₁ : ((cfg.systemTime a : ℤ) : ℚ) ≤ cfg.systemTime b := by exact_mod_cast hmono hab
  have h₂ : ((cfg.systemTime b : ℤ) : ℚ) ≤ cfg.systemTime c := by exact_mod_cast hmono hbc
  have h₃ := hmono hbc
  unfold livingAt statelessLivingTicket inWindow at ha hc ⊢
  simp only [Bool.and_eq_true, decide_eq_true_eq, abs_le, Int.cast_sub, Int.cast_natCast] at ha hc ⊢
  obtain ⟨⟨hrep, -⟩, hlow, -⟩ := ha
  refine ⟨⟨hrep, by omega⟩, by linarith, by linarith⟩

/-! ## How long a binder is remembered -/

/-- The filter remembers a binder that was accepted after `since` rotations. -/
structure Remembers (P : Phash2 β) (since rotations : ℕ) (filter : BloomFilter) (binder : β) :
    Prop where
  since_le : since ≤ rotations
  current : rotations = since → filter.Has P filter.current binder
  old : rotations = since + 1 → filter.Has P filter.old binder

theorem Remembers.rotate (h : Remembers P since rotations filter binder) :
    Remembers P since (rotations + 1) filter.rotate binder := by
  refine ⟨Nat.le_succ_of_le h.since_le, ?_, ?_⟩
  · intro heq
    have := h.since_le
    omega
  · intro heq
    exact h.current (Nat.succ.inj heq)

/-- The second rotation is over once the filter lacks the binder. -/
theorem Remembers.of_lacks (h : Remembers P since rotations filter binder)
    (hfits : filter.Fits) (hlacks : filter.contains P binder = some false) :
    since + 2 ≤ rotations := by
  have hpos := BloomFilter.pos_of_contains_eq_false hfits hlacks
  obtain ⟨b, heq, hb⟩ := BloomFilter.contains_eq (P := P) hfits hpos.2 binder
  rw [hlacks] at heq
  cases heq
  have hle := h.since_le
  by_contra hlt
  have hcases : rotations = since ∨ rotations = since + 1 := by omega
  have hfound : false = true := by
    apply hb.mpr
    obtain hr | hr := hcases
    · exact .inl (h.current hr)
    · exact .inr (h.old hr)
  cases hfound

omit [DecidableEq φ] in
/-- Requests add to the current half only. -/
theorem Tracks.added (h : Tracks cfg rotations state r)
    (hm : 0 < r.bloomFilter.m) (hadd : r.bloomFilter.addElem C.phash2 binder = some filter) :
    Tracks cfg rotations ⟨some { r with bloomFilter := filter }⟩ { r with bloomFilter := filter } ∧
      Remembers C.phash2 rotations rotations filter binder ∧
      ∀ since binder', Remembers C.phash2 since rotations r.bloomFilter binder' →
        Remembers C.phash2 since rotations filter binder' := by
  obtain ⟨field, heq, hfits, hhas, hkeep⟩ :=
    BloomFilter.addElem_eq (P := C.phash2) h.fits hm binder
  rw [hadd] at heq
  cases heq
  refine ⟨⟨rfl, h.window, h.warmUp, h.k, h.m, hfits⟩, ⟨Nat.le_refl _, fun _ => hhas, ?_⟩, ?_⟩
  · intro h
    omega
  · intro since binder' hrem
    exact ⟨hrem.since_le, fun hr => hkeep binder' (hrem.current hr), hrem.old⟩

/-- **No replay too soon.** A remembered offer is accepted after the second rotation only. -/
theorem living_of_mem_acceptances (hdec : C.decryptTicket offer.psk.identity = some ticket) :
    ∀ {messages : List (Message ι β η φ)} {rotations now : ℕ} {state : State} {r : AntiReplay},
      Tracks cfg rotations state r →
      Remembers C.phash2 since rotations r.bloomFilter offer.binder →
      Scheduled cfg rotations now messages → rotations * cfg.period ≤ now →
      offer ∈ acceptances C cfg state messages →
        ∃ elapsed, (since + 2) * cfg.period ≤ elapsed ∧ livingAt cfg ticket offer.psk elapsed := by
  intro messages
  induction messages with
  | nil =>
    intro rotations now state r _ _ _ _ hmem
    cases hmem
  | cons message messages ih =>
    intro rotations now state r ht hrem hsched hnow hmem
    cases message with
    | rotateBloomFilters => exact ih ht.rotate hrem.rotate hsched.2 (Nat.le_refl _) hmem
    | useTicket elapsed ids binders prf hist =>
      obtain ⟨hle, -, hrest⟩ := hsched
      rw [acceptances] at hmem
      split at hmem
      · rename_i result state' huse
        obtain ⟨rfl, hnone⟩ | ⟨offer', ticket', filter, hsome, hacc, hadd, rfl⟩ := ht.use huse
        · rw [hnone, Option.toList_none] at hmem
          exact ih ht hrem hrest (Nat.le_trans hnow hle) hmem
        · rw [hsome, Option.toList_some, List.singleton_append, List.mem_cons] at hmem
          have hpos := BloomFilter.pos_of_contains_eq_false ht.fits hacc.lacks
          obtain ⟨ht', -, hkeep⟩ := ht.added hpos.2 hadd
          obtain rfl | hmem := hmem
          · have hsince := hrem.of_lacks ht.fits hacc.lacks
            refine ⟨elapsed, ?_, ?_⟩
            · calc (since + 2) * cfg.period ≤ rotations * cfg.period :=
                    Nat.mul_le_mul_right _ hsince
                _ ≤ elapsed := Nat.le_trans hnow hle
            · have heq := hacc.decrypts
              rw [hdec] at heq
              cases heq
              exact hacc.living
          · exact ih ht' (hkeep _ _ hrem) hrest (Nat.le_trans hnow hle) hmem
      · cases hmem

/-- **A replay needs two rotations in a row.** If an offer is accepted twice, its ticket is living
at two rotations in a row after the warm-up. -/
theorem living_of_duplicate_acceptances :
    ∀ {messages : List (Message ι β η φ)} {rotations now : ℕ} {state : State} {r : AntiReplay},
      Tracks cfg rotations state r → Scheduled cfg rotations now messages →
      rotations * cfg.period ≤ now → List.Duplicate offer (acceptances C cfg state messages) →
        ∃ ticket n, C.decryptTicket offer.psk.identity = some ticket ∧
          (∃ hist, C.isValidBinder offer.binder hist ticket.preSharedKey ticket.hash = true) ∧
          0 < cfg.k ∧ 0 < cfg.m ∧ warmUpWindows cfg.seedGiven < n ∧
          livingAt cfg ticket offer.psk (n * cfg.period) ∧
          livingAt cfg ticket offer.psk ((n + 1) * cfg.period) := by
  intro messages
  induction messages with
  | nil =>
    intro rotations now state r _ _ _ hdup
    exact absurd hdup (List.not_duplicate_nil offer)
  | cons message messages ih =>
    intro rotations now state r ht hsched hnow hdup
    cases message with
    | rotateBloomFilters => exact ih ht.rotate hsched.2 (Nat.le_refl _) hdup
    | useTicket elapsed ids binders prf hist =>
      obtain ⟨hle, hlt, hrest⟩ := hsched
      rw [acceptances] at hdup
      split at hdup
      · rename_i result state' huse
        obtain ⟨rfl, hnone⟩ | ⟨offer', ticket, filter, hsome, hacc, hadd, rfl⟩ := ht.use huse
        · rw [hnone, Option.toList_none] at hdup
          exact ih ht hrest (Nat.le_trans hnow hle) hdup
        · rw [hsome, Option.toList_some, List.singleton_append, List.duplicate_cons_iff] at hdup
          have hpos := BloomFilter.pos_of_contains_eq_false ht.fits hacc.lacks
          obtain ⟨ht', hrem, -⟩ := ht.added hpos.2 hadd
          obtain ⟨rfl, hmem⟩ | hdup := hdup
          · -- accepted now and once more: both rotations lie in between
            obtain ⟨later, hlater, hliving⟩ :=
              living_of_mem_acceptances hacc.decrypts ht' hrem hrest
              (Nat.le_trans hnow hle) hmem
            have hstep : (rotations + 1) * cfg.period ≤ (rotations + 1 + 1) * cfg.period :=
              Nat.mul_le_mul_right _ (Nat.le_succ _)
            refine ⟨ticket, rotations + 1, hacc.decrypts, hacc.valid, ht.k ▸ hpos.1, ht.m ▸ hpos.2,
              ?_, ?_, ?_⟩
            · have hwarm := hacc.warm
              rw [ht.warmUp] at hwarm
              omega
            · exact livingAt_between hacc.living hliving hlt (Nat.le_trans hstep hlater)
            · exact livingAt_between hacc.living hliving (Nat.le_trans hlt hstep) hlater
          · exact ih ht' hrest (Nat.le_trans hnow hle) hdup
      · exact absurd hdup (List.not_duplicate_nil offer)

/-! ## The replay -/

/-- The state after a number of rotations without requests. -/
def idle (cfg : Config) (rotations : ℕ) : State :=
  ⟨some ⟨cfg.window, .new cfg.k cfg.m, warmUpWindows cfg.seedGiven - rotations⟩⟩

theorem rotateBloomFilters_idle (cfg : Config) (rotations : ℕ) :
    rotateBloomFilters (idle cfg rotations) = idle cfg (rotations + 1) := by
  unfold rotateBloomFilters idle
  rw [← Nat.sub_sub]
  rfl

theorem acceptances_rotations (cfg : Config) (messages : List (Message ι β η φ)) :
    ∀ n rotations, acceptances C cfg (idle cfg rotations)
      (List.replicate n .rotateBloomFilters ++ messages) =
        acceptances C cfg (idle cfg (rotations + n)) messages := by
  intro n
  induction n with
  | zero =>
    intro rotations
    rfl
  | succ n ih =>
    intro rotations
    rw [List.replicate_succ, List.cons_append, acceptances, rotateBloomFilters_idle, ih]
    rw [show rotations + 1 + n = rotations + (n + 1) by omega]

/-- A request with one offer. -/
def request (elapsed : ℕ) (offer : Offer ι β) (prf : φ) (hist : η) : Message ι β η φ :=
  .useTicket elapsed [offer.psk] [offer.binder] prf hist

/-- An idle server after the warm-up accepts a living ticket with the right binder. -/
theorem acceptances_request (hk : 0 < cfg.k) (hm : 0 < cfg.m)
    (hdec : C.decryptTicket offer.psk.identity = some ticket)
    (hvalid : C.isValidBinder offer.binder hist ticket.preSharedKey ticket.hash = true)
    (hwarm : warmUpWindows cfg.seedGiven ≤ rotations)
    (hliving : livingAt cfg ticket offer.psk elapsed) : ∃ field, ∀ messages,
      acceptances C cfg (idle cfg rotations) (request elapsed offer ticket.hash hist :: messages) =
        offer :: acceptances C cfg
          ⟨some ⟨cfg.window, { BloomFilter.new cfg.k cfg.m with current := field }, 0⟩⟩
          messages := by
  have hfits := BloomFilter.fits_new cfg.k cfg.m
  have hlacks : (BloomFilter.new cfg.k cfg.m).contains C.phash2 offer.binder = some false := by
    obtain ⟨b, heq, hb⟩ := BloomFilter.contains_eq (P := C.phash2) hfits hm offer.binder
    cases b with
    | false => exact heq
    | true =>
      obtain h | h := hb.mp rfl
      · exact absurd h (BloomFilter.not_has_emptyField hk _)
      · exact absurd h (BloomFilter.not_has_emptyField hk _)
  obtain ⟨field, hadd, -⟩ := BloomFilter.addElem_eq (P := C.phash2) hfits hm offer.binder
  refine ⟨field, ?_⟩
  intro messages
  have husable : statelessUsableTicket C (cfg.systemTime elapsed) ticket
      offer.psk.obfuscatedTicketAge offer.binder hist (some cfg.window) = .yes := by
    unfold livingAt at hliving
    unfold statelessUsableTicket
    rw [if_pos hliving, if_pos hvalid]
  have hzero : warmUpWindows cfg.seedGiven - rotations = 0 := by omega
  have huse : statelessUse C (cfg.systemTime elapsed) ticket.hash hist [offer.psk] [offer.binder] 0
      (idle cfg rotations) =
      some (.accepted 0 ticket.preSharedKey ticket.certificate,
        ⟨some ⟨cfg.window, { BloomFilter.new cfg.k cfg.m with current := field }, 0⟩⟩) := by
    unfold idle
    rw [hzero, statelessUse, hdec]
    dsimp only [Option.map_some]
    rw [if_pos rfl, husable]
    dsimp only [statelessAntiReplay]
    rw [if_neg (Nat.lt_irrefl 0), hlacks]
    rw [hadd]
  unfold request
  rw [acceptances, huse]
  rfl

/-- The schedule of a replay: the offer is accepted right before a rotation, and once more right
after the next one. -/
def replay (cfg : Config) (rotations : ℕ) (offer : Offer ι β) (prf : φ) (hist : η) :
    List (Message ι β η φ) :=
  List.replicate rotations .rotateBloomFilters ++
    [request ((rotations + 1) * cfg.period) offer prf hist, .rotateBloomFilters,
      .rotateBloomFilters, request ((rotations + 1 + 1) * cfg.period) offer prf hist]

omit [DecidableEq φ] in
theorem scheduled_rotations {messages : List (Message ι β η φ)} :
    ∀ n rotations, Scheduled cfg (rotations + n) ((rotations + n) * cfg.period) messages →
      Scheduled cfg rotations (rotations * cfg.period)
        (List.replicate n .rotateBloomFilters ++ messages) := by
  intro n
  induction n with
  | zero =>
    intro rotations h
    exact h
  | succ n ih =>
    intro rotations h
    refine ⟨Nat.mul_le_mul_right _ (Nat.le_succ _), ih (rotations + 1) ?_⟩
    rw [show rotations + 1 + n = rotations + (n + 1) by omega]
    exact h

omit [DecidableEq φ] in
theorem scheduled_replay (cfg : Config) (rotations : ℕ) (offer : Offer ι β) (prf : φ) (hist : η) :
    Scheduled cfg 0 0 (replay cfg rotations offer prf hist) := by
  have hmono : ∀ n, n * cfg.period ≤ (n + 1) * cfg.period :=
    fun n => Nat.mul_le_mul_right _ (Nat.le_succ _)
  have hstart : Scheduled cfg 0 (0 * cfg.period) (replay cfg rotations offer prf hist) := by
    apply scheduled_rotations
    rw [Nat.zero_add]
    exact ⟨hmono _, Nat.le_refl _, Nat.le_refl _, hmono _, Nat.le_refl _, hmono _, trivial⟩
  rwa [Nat.zero_mul] at hstart

theorem acceptances_replay (hk : 0 < cfg.k) (hm : 0 < cfg.m)
    (hdec : C.decryptTicket offer.psk.identity = some ticket)
    (hvalid : C.isValidBinder offer.binder hist ticket.preSharedKey ticket.hash = true)
    (hwarm : warmUpWindows cfg.seedGiven ≤ rotations)
    (h₁ : livingAt cfg ticket offer.psk ((rotations + 1) * cfg.period))
    (h₂ : livingAt cfg ticket offer.psk ((rotations + 1 + 1) * cfg.period)) :
    acceptances C cfg (initialState cfg) (replay cfg rotations offer ticket.hash hist) =
      [offer, offer] := by
  obtain ⟨field, heq⟩ := acceptances_request hk hm hdec hvalid hwarm h₁
  obtain ⟨field', heq'⟩ := acceptances_request hk hm hdec hvalid
    (Nat.le_trans hwarm (Nat.le_add_right rotations 2)) h₂
  have hidle : initialState cfg = idle cfg 0 := rfl
  -- two rotations make both halves empty again
  have hforget : rotateBloomFilters (rotateBloomFilters
      ⟨some ⟨cfg.window, { BloomFilter.new cfg.k cfg.m with current := field }, 0⟩⟩) =
      idle cfg (rotations + 2) := by
    have hzero : warmUpWindows cfg.seedGiven - (rotations + 2) = 0 := by omega
    unfold idle
    rw [hzero]
    rfl
  rw [hidle, replay, acceptances_rotations, Nat.zero_add, heq, acceptances, acceptances, hforget,
    heq', acceptances]

/-- **When tickets are single use.** No schedule accepts an offer twice if and only if its ticket,
where the offer can be accepted at all, is not living at two rotations in a row after the
warm-up. -/
theorem single_use_iff (C : Crypto ι β η ψ φ χ) (cfg : Config) (offer : Offer ι β) :
    (∀ messages : List (Message ι β η φ), Scheduled cfg 0 0 messages →
        ¬ List.Duplicate offer (acceptances C cfg (initialState cfg) messages)) ↔
      ¬ ∃ ticket n, C.decryptTicket offer.psk.identity = some ticket ∧
          (∃ hist, C.isValidBinder offer.binder hist ticket.preSharedKey ticket.hash = true) ∧
          0 < cfg.k ∧ 0 < cfg.m ∧ warmUpWindows cfg.seedGiven < n ∧
          livingAt cfg ticket offer.psk (n * cfg.period) ∧
          livingAt cfg ticket offer.psk ((n + 1) * cfg.period) := by
  constructor
  · rintro hsingle ⟨ticket, n, hdec, ⟨hist, hvalid⟩, hk, hm, hn, h₁, h₂⟩
    obtain ⟨rotations, rfl⟩ : ∃ rotations, n = rotations + 1 := ⟨n - 1, by omega⟩
    apply hsingle (replay cfg rotations offer ticket.hash hist) (scheduled_replay _ _ _ _ _)
    rw [acceptances_replay hk hm hdec hvalid (by omega) h₁ h₂]
    exact List.Mem.duplicate_cons_self (List.mem_singleton_self offer)
  · intro hnot messages hsched hdup
    obtain ⟨r, ht⟩ := tracks_initialState cfg
    exact hnot (living_of_duplicate_acceptances ht hsched (by simp) hdup)

/-! ## A replay in numbers

A window of ten seconds; the client takes its ticket to be fifteen seconds old. -/

/-- Every identity is the same ticket, issued at time zero, and every binder is right. -/
def plainCrypto : Crypto Unit Unit Unit Unit Unit Unit where
  decryptTicket := fun _ => some ⟨(), (), 0, 7200, 0, ()⟩
  isValidBinder := fun _ _ _ _ => true
  phash2 := ⟨fun _ _ _ => 0, fun _ _ _ h => h⟩

def tenSeconds : Config where
  window := 10
  k := 1
  m := 8
  seedGiven := false
  unit := 1
  start := 0
  window_pos := by decide
  unit_pos := by decide
  m_le := by decide

def fiveSecondsOld : Offer Unit Unit := ⟨⟨(), 5000⟩, ()⟩

/-- A client that takes its ticket to be five seconds old is accepted up to the fifteenth second,
before the second rotation. -/
theorem single_use_iff_fiveSecondsOld :
    acceptances plainCrypto tenSeconds (initialState tenSeconds)
        ([request 9 fiveSecondsOld () ()] : List (Message Unit Unit Unit Unit)) =
      [fiveSecondsOld] ∧
    ∀ messages : List (Message Unit Unit Unit Unit), Scheduled tenSeconds 0 0 messages →
      ¬ List.Duplicate fiveSecondsOld
        (acceptances plainCrypto tenSeconds (initialState tenSeconds) messages) := by
  refine ⟨by decide +kernel, (single_use_iff plainCrypto tenSeconds fiveSecondsOld).mpr ?_⟩
  rintro ⟨ticket, n, ⟨⟩, -, -, -, hn, -, hliving⟩
  simp only [livingAt, statelessLivingTicket, inWindow, Bool.and_eq_true] at hliving
  have hage := (le_abs_self _).trans (of_decide_eq_true hliving.2)
  have hn' : (1 : ℚ) ≤ n := by exact_mod_cast hn
  norm_num [fiveSecondsOld, tenSeconds, Config.systemTime, Config.period] at hage
  linarith

def fifteenSecondsOld : Offer Unit Unit := ⟨⟨(), 15000⟩, ()⟩

/-- The offer is accepted nine seconds after the start, and once more after twenty-one, with the
rotations at ten and at twenty seconds in between. -/
theorem acceptances_replay_tenSeconds :
    Scheduled tenSeconds 0 0
        ([request 9 fifteenSecondsOld () (), .rotateBloomFilters, .rotateBloomFilters,
          request 21 fifteenSecondsOld () ()] : List (Message Unit Unit Unit Unit)) ∧
      acceptances plainCrypto tenSeconds (initialState tenSeconds)
        [request 9 fifteenSecondsOld () (), .rotateBloomFilters, .rotateBloomFilters,
          request 21 fifteenSecondsOld () ()] = [fifteenSecondsOld, fifteenSecondsOld] := by
  constructor
  · simp [Scheduled, request, tenSeconds, Config.period]
  · decide +kernel

end Otp.Ssl.SessionTicket
