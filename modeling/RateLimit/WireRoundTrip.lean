import RateLimit.Adoption
import RateLimit.LeaseStore

/-! The version-1 document loses nothing. A state that strict admissions and strict
lease operations left, in any order, comes back from its document with the same
behaviour: only the window algorithms come back changed, in two fields that they never
look at. The released reader leaves those two fields where the strict one put them, so
they survive any number of its steps. -/
namespace RateLimit.Postgres

open Machine

/-! ## Histories of a state -/

/-- What can happen to the state of one row: a call of the strict store, a trip through
the document, or the end of the row's life. -/
inductive StateCall
  | admission (request : ValidRequest) (rate : request.policy.algorithm.IsRate)
  | acquisition (request : ValidLeaseRequest)
  | release (lease : Lease)
  | reload
  | lapse

/-- What the caller sees of it. -/
structure StateAnswer where
  lease : Lease := {}
  decision : Decision := {}
  error : Option Sentinel := none
  deriving DecidableEq

def stateStep (sha256 : GoString → Digest) (current : Option PersistedState) :
    StateCall → Machine (Option PersistedState × StateAnswer)
  | .admission request _ => do
    let result ← mutateStep current request
    pure (result.1, { decision := result.2.decision, error := result.2.error })
  | .acquisition request => do
    let result ← mutateLease current request.toLeaseRequest (hexString (sha256 request.leaseID))
    pure (result.next.or current, ⟨result.lease, result.decision, result.error⟩)
  | .release lease => do
    let result ← releaseState current lease (hexString (sha256 lease.id))
    pure (result.1, { error := result.2 })
  | .reload =>
    match current.mapM fun state => decodeState (encodeState state) with
    | .ok back => pure (back, {})
    | .error problem => pure (current, { error := some problem.sentinel })
  | .lapse => pure (none, {})

/-- A state as the strict store leaves it: one of a rate policy, or a table of leases. -/
inductive StateHeld (state : PersistedState) : Prop
  | rate (policy : Policy) (period : Nat) (kept : Kept state policy period) (sound : policy.Sound)
      (kind : policy.algorithm.IsRate) (compact : Compact state) (small : period ≤ 9007199254740991)
      (room : state.observedMicros + period ≤ 9007199254740991)
      (plain : policy.algorithm = .tokenBucket → state.periodMicros = 0 ∧ state.carried = false)
  | leases (policyID : GoString) (kept : LeasesKept policyID state)
      (valid : validPolicyIdentifier policyID 64 = true)

/-- Nothing, or a state the strict store leaves. -/
def HistoryKept (current : Option PersistedState) : Prop := ∀ state, current = some state → StateHeld state

theorem historyKept_none : HistoryKept none := nofun

theorem historyKept_some (kept : StateHeld state) : HistoryKept (some state) := by
  rintro _ ⟨⟩
  exact kept

/-! ## What a call leaves -/

/-- A balance keeps clear of the fields of the windows. -/
theorem outcome_plain (accepted : Accepted current request period)
    (token : request.policy.algorithm = .tokenBucket) :
    (outcome accepted).state.periodMicros = (loaded current request).periodMicros ∧
      (outcome accepted).state.carried = (loaded current request).carried := by
  have policy : (effective current request).policy = request.policy := clampRequest_policy _ _
  have same : outcome accepted = spendToken (rateOf accepted.bounds) (refilled (rateOf accepted.bounds)
      (prepared (loaded current request) (effective current request))
      (effective current request).now.unixMicro) (effective current request) := by
    simp only [outcome, spend, policy, token]
  have prepares : (prepared (loaded current request) (effective current request)).periodMicros =
        (loaded current request).periodMicros ∧
      (prepared (loaded current request) (effective current request)).carried =
        (loaded current request).carried := by
    unfold prepared recordWindowPeriod carryToken
    rw [policy, token]
    dsimp only
    split <;> exact ⟨rfl, rfl⟩
  rw [same]
  unfold spendToken
  split <;> exact prepares

/-- An accepted admission leaves a state of its policy. -/
theorem outcome_row {request : ValidRequest} (accepted : Accepted current request.toRequest period)
    (kept : HistoryKept current) : StateHeld (outcome accepted).state := by
  have policy : (effective current request.toRequest).policy = request.policy := clampRequest_policy _ _
  have bounds : request.toRequest.Bounds period :=
    bounds_of_period request accepted.kind (policy ▸ accepted.bounds.period_eq)
  have before : Compact (loaded current request.toRequest) ∧ (request.policy.algorithm = .tokenBucket →
      (loaded current request.toRequest).periodMicros = 0 ∧
        (loaded current request.toRequest).carried = false) := by
    cases current with
    | none =>
      refine ⟨freshState_compact bounds true, fun token => ?_⟩
      show (freshState request.toRequest true).periodMicros = 0 ∧ (freshState request.toRequest true).carried = false
      unfold freshState recordWindowPeriod
      rw [if_pos rfl, token]
      exact ⟨rfl, rfl⟩
    | some state =>
      have algorithm : state.algorithm = request.policy.algorithm := accepted.stored.algorithm
      cases kept state rfl with
      | rate stored period rows sound kind compact small room plain =>
        exact ⟨compact, fun token => plain (by rw [← rows.algorithm, algorithm, token])⟩
      | leases policyID rows valid =>
        have concurrent : state.algorithm = .concurrency := by rw [rows.shape]
        have rate := accepted.kind
        rw [← algorithm, concurrent] at rate
        simp [Algorithm.IsRate] at rate
  refine .rate request.policy period (outcome_kept accepted) request.built.sound accepted.kind
    (outcome_compact accepted before.1) bounds.period_le ?_ fun token => ?_
  · rw [outcome_observed]
    exact accepted.bounds.room
  · rw [(outcome_plain accepted token).1, (outcome_plain accepted token).2]
    exact before.2 token

theorem StateHeld.concurrent (kept : StateHeld state) (algorithm : state.algorithm = .concurrency) :
    LeasesKept state.policyID state ∧ validPolicyIdentifier state.policyID 64 = true := by
  cases kept with
  | rate policy period rows sound kind =>
    rw [← rows.algorithm, algorithm] at kind
    simp [Algorithm.IsRate] at kind
  | leases policyID rows valid =>
    obtain rfl : state.policyID = policyID := by rw [rows.shape]
    exact ⟨rows, valid⟩

theorem StateHeld.windowed (kept : StateHeld state) (windowed : usesWindowMetadata state.algorithm = true) :
    ∃ policy period, Kept state policy period ∧ policy.Sound ∧ policy.algorithm.IsRate ∧ Compact state ∧
      period ≤ 9007199254740991 ∧ state.observedMicros + period ≤ 9007199254740991 := by
  cases kept with
  | rate policy period kept sound kind compact small room plain =>
    exact ⟨policy, period, kept, sound, kind, compact, small, room⟩
  | leases policyID kept valid =>
    rw [kept.shape] at windowed
    cases windowed

/-- What a release does: it fails and changes nothing, or takes a lease out of a table of
its policy. -/
theorem releaseState_cases (kept : HistoryKept current) (lease : Lease) (digest : GoString) :
    (∃ problem, releaseState current lease digest = pure (current, some problem)) ∨
      ∃ state, current = some state ∧ LeasesKept lease.policyID state ∧ validPolicyIdentifier lease.policyID 64 = true ∧
        state.leases.lookup digest = some ⟨lease.cost, lease.expiresAt.unixMicro⟩ ∧
        releaseState current lease digest = pure (if (state.leases.erase digest).entries = [] then none
          else some { state with leases := state.leases.erase digest }, none) := by
  cases current with
  | none => exact Or.inl ⟨_, rfl⟩
  | some state =>
    by_cases own : LeasesKept lease.policyID state ∧ validPolicyIdentifier lease.policyID 64 = true
    · obtain ⟨leases, valid⟩ := own
      rw [releaseState_exact leases]
      cases found : state.leases.lookup digest with
      | none => exact Or.inl ⟨_, rfl⟩
      | some existing =>
        dsimp only
        split
        · exact Or.inl ⟨_, rfl⟩
        · rename_i same
          simp only [ne_eq, not_or, not_not] at same
          obtain ⟨cost, expires⟩ := same
          exact Or.inr ⟨state, rfl, leases, valid, by rw [← cost, ← expires, found], rfl⟩
    · -- Another algorithm, or the leases of another policy.
      have foreign : validateConcurrencyState state lease.policyID = pure (some .corrupt) := by
        unfold validateConcurrencyState
        split_ifs with schema named algorithm
        · rfl
        · rfl
        · rfl
        · rfl
        · simp only [ne_eq, not_not] at named algorithm
          exact absurd (named ▸ (kept state rfl).concurrent algorithm) own
      refine Or.inl ⟨.corrupt, ?_⟩
      unfold releaseState
      simp only [foreign, pure_bind]

/-- What a release leaves of a table of leases. -/
theorem release_row (kept : HistoryKept current) (lease : Lease) (digest : GoString) :
    ∃ next problem, releaseState current lease digest = pure (next, problem) ∧ HistoryKept next := by
  rcases releaseState_cases kept lease digest with ⟨problem, exact⟩ | ⟨state, -, leases, valid, -, exact⟩
  · exact ⟨_, _, exact, kept⟩
  · refine ⟨_, _, exact, ?_⟩
    split
    · exact historyKept_none
    · exact historyKept_some (.leases _ (leases.erased digest) valid)

/-- An acquisition does not touch a state that is not of its policy. -/
theorem acquisition_foreign (kept : HistoryKept current) (request : LeaseRequest) (digest : GoString)
    (foreign : ¬ ∀ state, current = some state → LeasesKept request.request.policy.id state) :
    mutateLease current request digest = pure (.failed .corrupt) := by
  simp only [not_forall] at foreign
  obtain ⟨state, rfl, foreign⟩ := foreign
  unfold mutateLease mutateLeaseMode
  dsimp only
  split_ifs with schema named algorithm strict
  · rfl
  · rfl
  · rfl
  · simp only [ne_eq, not_not] at named algorithm
    exact absurd (named ▸ ((kept state rfl).concurrent algorithm).1) foreign
  · exact absurd rfl strict

/-- What an acquisition leaves. -/
theorem acquisition_row (kept : HistoryKept current) (request : ValidLeaseRequest) (digest : GoString)
    (valid : validLeaseDigest digest = true) :
    ∃ mutation, mutateLease current request.toLeaseRequest digest = pure mutation ∧
      HistoryKept (mutation.next.or current) := by
  obtain ⟨term, bounds, -⟩ := request.bounds
  by_cases own : ∀ state, current = some state → LeasesKept request.request.policy.id state
  · obtain ⟨leases, exact⟩ := mutateLease_exact bounds digest own
    refine ⟨_, exact, ?_⟩
    split
    · rename_i room
      have verdict : Verdict (loadedLeases current request.toLeaseRequest) request.toLeaseRequest digest term _ :=
        leaseOutcome_verdict bounds
      cases next : (leaseOutcome (loadedLeases current request.toLeaseRequest) request.toLeaseRequest digest).next with
      | none => exact kept
      | some state =>
        exact historyKept_some (.leases _ (verdict.kept leases bounds room valid next) bounds.sound.id_valid)
    · exact kept
  · exact ⟨_, acquisition_foreign kept _ digest own, kept⟩

/-- The document of a window does not show its two unused fields. -/
theorem encodeState_window (windowed : usesWindowMetadata state.algorithm = true)
    (recorded : state.periodMicros ≠ 0) (remainder : Nat) (last : Int) :
    encodeState { state with remainder := remainder, lastMicros := last } = encodeState state := by
  simp [encodeState, PersistedState.wire, windowed, recorded]

/-- Written and read back, a state is kept and is written the same again. Of a window
the two unused fields come back with the metadata. -/
theorem StateHeld.decodes (kept : StateHeld state) :
    ∃ remainder last, decodeState (encodeState state) =
        .ok { state with remainder := remainder, lastMicros := last } ∧
      (usesWindowMetadata state.algorithm = false → remainder = state.remainder ∧ last = state.lastMicros) ∧
      StateHeld { state with remainder := remainder, lastMicros := last } ∧
      encodeState { state with remainder := remainder, lastMicros := last } = encodeState state := by
  cases kept with
  | leases policyID rows valid =>
    exact ⟨state.remainder, state.lastMicros, rows.decodes valid, fun _ => ⟨rfl, rfl⟩, .leases policyID rows valid, rfl⟩
  | rate policy period rows sound kind compact small room plain =>
    have named := identified rows.schema rows.policyID rows.algorithm sound kind
    obtain ⟨back, decodes, again, -, -, fits⟩ := rows.decodes sound kind small
    by_cases windowed : usesWindowMetadata state.algorithm = true
    · have recorded := rows.recorded (by rw [← rows.algorithm]; exact windowed)
      have positive := rows.period_pos
      have reads := decode_window named windowed (by omega) (by unfold maxExactMicros; omega)
      cases decodes.symm.trans reads
      refine ⟨_, _, reads, fun other => absurd windowed (by simp [other]), ?_, ?_⟩
      · refine .rate policy period again sound kind (fits compact) small room fun token => ?_
        rw [rows.algorithm, token] at windowed
        cases windowed
      · exact encodeState_window windowed (by omega) _ _
    · have token : policy.algorithm = .tokenBucket := by
        rw [rows.algorithm] at windowed
        rcases kind with kind | kind | kind
        · exact kind
        all_goals
          rw [kind] at windowed
          exact absurd rfl windowed
      have reads := decode_plain true named (Bool.not_eq_true _ ▸ windowed)
      rw [← (plain token).1, ← (plain token).2] at reads
      exact ⟨state.remainder, state.lastMicros, reads, fun _ => ⟨rfl, rfl⟩,
        .rate policy period rows sound kind compact small room plain, rfl⟩

/-- A document stays below the limit of the strict reader. -/
theorem StateHeld.fits (kept : StateHeld state) : (encodeState state).Fits := by
  cases kept with
  | rate policy period rows sound kind compact small room plain => exact rows.fits sound kind small compact
  | leases policyID rows valid => exact rows.fits valid

/-- The step lemma: every call is answered, and leaves a state as the store does. -/
theorem HistoryKept.step (kept : HistoryKept current) (sha256 : GoString → Digest) (call : StateCall) :
    ∃ result, stateStep sha256 current call = pure result ∧ HistoryKept result.1 := by
  cases call with
  | admission request rate =>
    obtain ⟨period, bounds⟩ := request.bounds rate
    rcases mutateState_cases rate bounds current with ⟨overflow, -⟩ | ⟨corrupt, -⟩ | ⟨accepted, result⟩
    · simp only [stateStep, mutateStep, overflow, pure_bind]
      exact ⟨_, rfl, kept⟩
    · simp only [stateStep, mutateStep, corrupt, pure_bind]
      exact ⟨_, rfl, kept⟩
    · simp only [stateStep, mutateStep, result, pure_bind]
      exact ⟨_, rfl, historyKept_some (outcome_row accepted kept)⟩
  | acquisition request =>
    obtain ⟨mutation, exact, next⟩ := acquisition_row kept request _ (hexString_valid (sha256 request.leaseID))
    simp only [stateStep, exact, pure_bind]
    exact ⟨_, rfl, next⟩
  | release lease =>
    obtain ⟨next, problem, exact, after⟩ := release_row kept lease (hexString (sha256 lease.id))
    simp only [stateStep, exact, pure_bind]
    exact ⟨_, rfl, after⟩
  | reload =>
    cases current with
    | none => exact ⟨_, rfl, historyKept_none⟩
    | some state =>
      obtain ⟨remainder, last, reads, -, again, -⟩ := (kept state rfl).decodes
      simp only [stateStep, Option.mapM_some, reads]
      exact ⟨_, rfl, historyKept_some again⟩
  | lapse => exact ⟨_, rfl, historyKept_none⟩

/-! ## Two fields no window looks at -/

/-- A state with other values in the two fields that only balances use. -/
def retagged (remainder : Nat) (last : Int) (state : PersistedState) : PersistedState :=
  { state with remainder := remainder, lastMicros := last }

def Applied.retagged (remainder : Nat) (last : Int) (applied : Applied) : Applied :=
  { applied with state := Postgres.retagged remainder last applied.state }

def Mutation.retagged (remainder : Nat) (last : Int) (mutation : Mutation) : Mutation :=
  { mutation with
    argument := mutation.argument.map (Postgres.retagged remainder last)
    next := mutation.next.map (Postgres.retagged remainder last) }

section
variable (remainder : Nat) (last : Int) (state : PersistedState) (request : Request)

theorem consume_retagged (reset : Time) :
    consume (retagged remainder last state) request reset =
      Applied.retagged remainder last <$> consume state request reset := by
  unfold consume
  rw [map_bind]
  refine bind_congr fun left => ?_
  split
  · rfl
  · rw [map_bind]
    refine bind_congr fun used => ?_
    rw [map_bind]
    rfl

theorem mutateFixed_retagged :
    mutateFixed (retagged remainder last state) request =
      Applied.retagged remainder last <$> mutateFixed state request := by
  unfold mutateFixed
  rw [map_bind]
  refine bind_congr fun window => ?_
  have moved : (if (retagged remainder last state).window ≠ window then
        { retagged remainder last state with window := window, used := 0 } else retagged remainder last state) =
      retagged remainder last (if state.window ≠ window then
        { state with window := window, used := 0 } else state) := by
    by_cases other : state.window ≠ window
    · rw [if_pos other, if_pos (show (retagged remainder last state).window ≠ window from other)]
      rfl
    · rw [if_neg other, if_neg (show ¬ (retagged remainder last state).window ≠ window from other)]
  rw [map_bind]
  refine bind_congr fun stop => ?_
  rw [moved, consume_retagged, map_bind, map_eq_pure_bind, bind_assoc]
  refine bind_congr fun applied => ?_
  rw [pure_bind]
  rfl

theorem consumeSegment_retagged (index width earliest : Int) :
    consumeSegment (retagged remainder last state) request index width earliest =
      Applied.retagged remainder last <$> consumeSegment state request index width earliest := by
  unfold consumeSegment
  rw [map_bind]
  refine bind_congr fun position => ?_
  rw [map_bind]
  refine bind_congr fun slot => ?_
  have claimed : (if ((retagged remainder last state).segments slot).index ≠ index then
        { retagged remainder last state with
          segments := Function.update (retagged remainder last state).segments slot { index := index } }
        else retagged remainder last state) =
      retagged remainder last (if (state.segments slot).index ≠ index then
        { state with segments := Function.update state.segments slot { index := index } } else state) := by
    by_cases other : (state.segments slot).index ≠ index
    · rw [if_pos other, if_pos (show ((retagged remainder last state).segments slot).index ≠ index from other)]
      rfl
    · rw [if_neg other, if_neg (show ¬ ((retagged remainder last state).segments slot).index ≠ index from other)]
  rw [map_bind]
  refine bind_congr fun reset => ?_
  rw [claimed, consume_retagged, map_bind, map_eq_pure_bind, bind_assoc]
  refine bind_congr fun applied => ?_
  rw [pure_bind]
  show (if applied.error = none then _ else _) = _
  split
  · rw [map_bind]
    rfl
  · rfl

theorem mutateSliding_retagged :
    mutateSliding (retagged remainder last state) request =
      Applied.retagged remainder last <$> mutateSliding state request := by
  unfold mutateSliding
  rw [map_bind]
  refine bind_congr fun width => ?_
  rw [map_bind]
  refine bind_congr fun index => ?_
  rw [map_bind]
  refine bind_congr fun oldest => ?_
  rw [map_bind]
  refine bind_congr fun usage => ?_
  exact consumeSegment_retagged remainder last { state with
    segments := dropExpired state.segments oldest
    used := usage.1
    carried := usageExceedsLimit usage.1 request.policy.limit } request index width usage.2

/-- A strict step of a window commutes with a change of those fields. -/
theorem dispatch_retagged (windowed : usesWindowMetadata request.policy.algorithm = true) :
    dispatch (recordWindowPeriod (carryToken (retagged remainder last state) request) request.policy) request true =
      Applied.retagged remainder last <$>
        dispatch (recordWindowPeriod (carryToken state request) request.policy) request true := by
  have carries (other : PersistedState) : carryToken other request = other := by
    unfold carryToken
    rw [if_neg]
    rintro ⟨token, -⟩
    rw [token] at windowed
    cases windowed
  rw [carries, carries]
  unfold dispatch recordWindowPeriod
  cases which : request.policy.algorithm with
  | fixedWindow =>
    exact mutateFixed_retagged remainder last { state with
      periodMicros := request.policy.period.microseconds
      observedMicros := request.now.unixMicro
      revision := request.policy.revision } request
  | slidingWindow =>
    dsimp only
    rw [if_pos rfl]
    exact mutateSliding_retagged remainder last { state with
      periodMicros := request.policy.period.microseconds
      observedMicros := request.now.unixMicro
      revision := request.policy.revision } request
  | _ =>
    rw [which] at windowed
    cases windowed

/-- So does a whole call, with all its tests. -/
theorem mutateState_retagged (windowed : usesWindowMetadata state.algorithm = true) :
    mutateState (some (retagged remainder last state)) request =
      Mutation.retagged remainder last <$> mutateState (some state) request := by
  have stored : checkStored (retagged remainder last state) request true = checkStored state request true := by
    obtain ⟨schema, policyID, revision, algorithm⟩ := state
    cases algorithm <;> first | rfl | cases windowed
  unfold mutateState mutateStateMode
  rw [map_bind]
  refine bind_congr fun overflows => ?_
  split
  · rfl
  · unfold mutateStored
    dsimp only
    rw [stored]
    by_cases same : state.algorithm = request.policy.algorithm
    · rw [map_bind]
      refine bind_congr fun problem => ?_
      cases problem with
      | some problem => rfl
      | none =>
        unfold mutateLoaded mutateEffective
        rw [if_pos rfl, if_pos rfl, map_bind]
        refine bind_congr fun problem => ?_
        cases problem with
        | some problem => rfl
        | none =>
          have step := dispatch_retagged remainder last state (clampRequest state request)
            (by rw [clampRequest_policy, ← same]; exact windowed)
          refine (congrArg (· >>= fun applied =>
            pure (Mutation.finished (some (retagged remainder last state)) applied)) step).trans ?_
          rw [map_bind, map_eq_pure_bind, bind_assoc]
          refine bind_congr fun applied => ?_
          rw [pure_bind]
          rfl
    · have foreign : checkStored state request true = pure (some .corrupt) := by
        unfold checkStored
        split_ifs with schema policyID <;> rfl
      rw [foreign, pure_bind, pure_bind]
      rfl

end

/-! ## Two states with one behaviour -/

/-- The same state, or two states of a window that differ in the unused fields. -/
inductive Twin : PersistedState → PersistedState → Prop
  | same (state : PersistedState) : Twin state state
  | window (remainder : Nat) (last : Int) (state : PersistedState)
      (windowed : usesWindowMetadata state.algorithm = true) : Twin state (retagged remainder last state)

/-- A call on a window finds the same with other values in the unused fields. -/
theorem window_step (sha256 : GoString → Digest) (call : StateCall)
    (remainder : Nat) (last : Int) (kept : StateHeld state)
    (windowed : usesWindowMetadata state.algorithm = true) :
    ∃ next other answer, stateStep sha256 (some state) call = pure (next, answer) ∧
      stateStep sha256 (some (retagged remainder last state)) call = pure (other, answer) ∧
      Option.Rel Twin next other := by
  have unchanged : Option.Rel Twin (some state) (some (retagged remainder last state)) :=
    .some (.window remainder last state windowed)
  have concurrent : state.algorithm ≠ .concurrency := by
    rintro algorithm
    rw [algorithm] at windowed
    cases windowed
  cases call with
  | admission request rate =>
    obtain ⟨period, bounds⟩ := request.bounds rate
    have commutes := mutateState_retagged remainder last state request.toRequest windowed
    rcases mutateState_cases rate bounds (some state) with ⟨result, -⟩ | ⟨result, -⟩ | ⟨accepted, result⟩ <;>
      rw [result, map_pure] at commutes <;> simp only [stateStep, mutateStep, result, commutes, pure_bind]
    · exact ⟨_, _, _, rfl, rfl, unchanged⟩
    · exact ⟨_, _, _, rfl, rfl, unchanged⟩
    · refine ⟨_, _, _, rfl, rfl, .some (.window remainder last _ ?_)⟩
      have algorithm : state.algorithm = request.policy.algorithm := accepted.stored.algorithm
      rw [(outcome_kept accepted).algorithm, ← algorithm]
      exact windowed
  | acquisition request =>
    have refuses (other : PersistedState) (algorithm : other.algorithm = state.algorithm) (digest : GoString) :
        mutateLease (some other) request.toLeaseRequest digest = pure (.failed .corrupt) := by
      unfold mutateLease mutateLeaseMode
      dsimp only
      split_ifs with schema named <;> first | rfl | skip
      all_goals exact absurd (algorithm ▸ concurrent) ‹_›
    simp only [stateStep, refuses state rfl, refuses (retagged remainder last state) rfl, pure_bind]
    exact ⟨_, _, _, rfl, rfl, unchanged⟩
  | release lease =>
    have refuses (other : PersistedState) (algorithm : other.algorithm = state.algorithm) (digest : GoString) :
        releaseState (some other) lease digest = pure (some other, some .corrupt) := by
      have foreign : validateConcurrencyState other lease.policyID = pure (some .corrupt) := by
        unfold validateConcurrencyState
        split_ifs with schema named <;> first | rfl | skip
        all_goals exact absurd (algorithm ▸ concurrent) ‹_›
      unfold releaseState
      simp only [foreign, pure_bind]
    simp only [stateStep, refuses state rfl, refuses (retagged remainder last state) rfl, pure_bind]
    exact ⟨_, _, _, rfl, rfl, unchanged⟩
  | reload =>
    obtain ⟨policy, period, rows, -⟩ := kept.windowed windowed
    have positive := rows.period_pos
    have recorded := rows.recorded (by rw [← rows.algorithm]; exact windowed)
    have document : encodeState (retagged remainder last state) = encodeState state :=
      encodeState_window windowed (by omega) _ _
    obtain ⟨_, _, reads, -⟩ := kept.decodes
    simp only [stateStep, Option.mapM_some, document, reads]
    exact ⟨_, _, _, rfl, rfl, .some (.same _)⟩
  | lapse => exact ⟨_, _, _, rfl, rfl, .none⟩

/-- The step lemma for two states with one behaviour. -/
theorem twin_step (sha256 : GoString → Digest) (call : StateCall) (kept : HistoryKept current)
    (twins : Option.Rel Twin current other) :
    ∃ first second, stateStep sha256 current call = pure first ∧ stateStep sha256 other call = pure second ∧
      first.2 = second.2 ∧ HistoryKept first.1 ∧ Option.Rel Twin first.1 second.1 := by
  obtain ⟨first, exact, after⟩ := kept.step sha256 call
  have alike (same : current = other) : ∃ first second, stateStep sha256 current call = pure first ∧
      stateStep sha256 other call = pure second ∧ first.2 = second.2 ∧ HistoryKept first.1 ∧
      Option.Rel Twin first.1 second.1 := by
    subst same
    refine ⟨first, first, exact, exact, rfl, after, ?_⟩
    cases first.1 with
    | none => exact .none
    | some state => exact .some (.same state)
  cases twins with
  | none => exact alike rfl
  | some twin =>
    cases twin with
    | same state => exact alike rfl
    | window remainder last state windowed =>
      obtain ⟨next, other, answer, here, there, twins⟩ := window_step sha256 call remainder last (kept _ rfl) windowed
      cases exact.symm.trans here
      exact ⟨_, _, here, there, rfl, after, twins⟩

/-! ## The metadata of a window in released hands -/

/-- A state of the released path that still holds the metadata of `state`. -/
structure Smuggled (state : PersistedState) (period : Nat) (old : PersistedState) : Prop where
  shared : ∃ policy : Policy, policy.Sound ∧ policy.algorithm = state.algorithm ∧ Shared policy period (unmarked old)
  remainder : old.remainder = period
  last : old.lastMicros = if state.carried then 1 else 0

/-- What the released path reads of a window still holds it. -/
theorem StateHeld.smuggled (kept : StateHeld state) (windowed : usesWindowMetadata state.algorithm = true) :
    ∃ period : Nat, state.periodMicros = period ∧ 0 < period ∧ period ≤ 9007199254740991 ∧
      ∃ old, decodeStateLegacy (encodeState state) = .ok old ∧ Smuggled state period old := by
  obtain ⟨policy, period, rows, sound, kind, -, small, room⟩ := kept.windowed windowed
  have positive := rows.period_pos
  have recorded := rows.recorded (by rw [← rows.algorithm]; exact windowed)
  have limit := sound.limit_le
  obtain ⟨old, wire, shared, -⟩ := rows.shared kind limit room
  have encoded : encodeState state = { state.wire with
      remainder := (state.periodMicros % 18446744073709551616).toNat
      lastMicros := if state.carried then 1 else 0 } := if_pos ⟨windowed, by omega⟩
  have remainder : old.remainder = (state.periodMicros % 18446744073709551616).toNat :=
    congrArg WireState.remainder (wire.symm.trans encoded)
  have last : old.lastMicros = if state.carried then 1 else 0 :=
    congrArg WireState.lastMicros (wire.symm.trans encoded)
  have reads := shared.decodes sound kind small false
  rw [← wire] at reads
  refine ⟨period, recorded, positive, small, old, reads, ⟨policy, sound, rows.algorithm.symm, ?_⟩, by omega, last⟩
  rw [shared.unmarked_eq]
  exact shared

/-- The released path leaves the metadata where it is. -/
theorem Smuggled.step {request : ValidRequest} (smuggled : Smuggled state period old)
    (windowed : usesWindowMetadata state.algorithm = true)
    (unchanged : request.policy.period.microseconds = period) :
    ∃ next answer, (mutateStepLegacy (some old) request.toRequest).Returns (some next, answer) ∧
      Smuggled state period next := by
  obtain ⟨policy, sound, algorithm, shared⟩ := smuggled.shared
  by_cases own : request.policy.id = policy.id ∧ request.policy.algorithm = policy.algorithm
  · obtain ⟨policyID, same⟩ := own
    have kind : request.policy.algorithm.IsRate := by
      refine request.built.sound.known.resolve_right fun concurrent => ?_
      rw [← algorithm, ← same, concurrent] at windowed
      cases windowed
    obtain ⟨other, bounds⟩ := request.bounds kind
    obtain rfl : other = period := by
      rw [bounds.period_eq, Duration.microseconds_ofMicros] at unchanged
      exact_mod_cast unchanged
    obtain ⟨applied, returns, after, -⟩ := mutateStateLegacy_returns bounds kind (some old) policyID same shared
    obtain ⟨remainder, last⟩ := shared.next_metadata same bounds (by rw [algorithm]; exact windowed)
    refine ⟨applied.state, _, returns.bind (returns_pure _), ⟨request.policy, request.built.sound,
      same.trans algorithm, ?_⟩, ?_, ?_⟩
    · rw [after]
      exact shared.next same bounds policyID
    · exact (congrArg PersistedState.remainder after).trans (remainder.trans smuggled.remainder)
    · exact (congrArg PersistedState.lastMicros after).trans (last.trans smuggled.last)
  · -- A request of another policy finds a row it takes for corrupt.
    have foreign : checkStored old request.toRequest false = pure (some .corrupt) := by
      have named : old.policyID = policy.id := shared.policyID
      have stored : old.algorithm = policy.algorithm := shared.algorithm
      unfold checkStored
      split_ifs with schema policyID other strict
      · rfl
      · rfl
      · rfl
      · cases strict
      · simp only [ne_eq, not_not] at policyID other
        exact absurd ⟨policyID.symm.trans named, other.symm.trans stored⟩ own
    refine ⟨old, ⟨{}, some .corrupt⟩, returns_of_eq ?_, smuggled⟩
    simp [mutateStepLegacy, mutateStateLegacy, mutateStateMode, windowOverflows, mutateStored, foreign,
      Mutation.failed]

/-- The strict path finds it there. -/
theorem Smuggled.reads (smuggled : Smuggled state period old)
    (windowed : usesWindowMetadata state.algorithm = true) (positive : 0 < period)
    (small : period ≤ 9007199254740991) :
    ∃ back, decodeState (encodeState old) = .ok back ∧ back.periodMicros = period ∧
      back.carried = state.carried := by
  obtain ⟨policy, sound, algorithm, shared⟩ := smuggled.shared
  have kind : policy.algorithm.IsRate := by
    refine sound.known.resolve_right fun concurrent => ?_
    rw [← algorithm, concurrent] at windowed
    cases windowed
  have unrecorded : old.periodMicros = 0 := shared.plain.1
  have document : encodeState old = (unmarked old).wire := if_neg fun both => both.2 unrecorded
  refine ⟨strictView (unmarked old), ?_, ?_⟩
  · rw [document]
    exact shared.decodes sound kind small true
  · have stored : old.algorithm = state.algorithm := shared.algorithm.trans algorithm
    have view : strictView (unmarked old) = { unmarked old with
        periodMicros := old.remainder, carried := decide (old.lastMicros = 1) } := by
      refine if_pos ⟨?_, ?_⟩
      · show usesWindowMetadata old.algorithm = true
        rw [stored]
        exact windowed
      · show old.remainder ≠ 0
        rw [smuggled.remainder]
        omega
    rw [view]
    refine ⟨congrArg Nat.cast smuggled.remainder, ?_⟩
    rw [smuggled.last]
    cases state.carried <;> rfl

/-! ## The format -/

/-- The version-1 format is lossless for both readers. Whatever strict admissions and
lease operations, trips through the document and expiries led to a state, its document
decodes to one with the same document and the same answers to every later history. The
period and the mark of a window come back through any number of released steps of that
period. And no document is longer than the strict reader takes. -/
theorem wire_format_lossless (sha256 : GoString → Digest) (calls : List StateCall) :
    ∃ entries, Runs.trace (stateStep sha256) none calls = pure entries ∧
      ∀ entry ∈ entries, ∀ state, entry.after = some state →
        (∃ back, decodeState (encodeState state) = .ok back ∧ encodeState back = encodeState state ∧
          ∀ later : List StateCall, ∃ firsts seconds,
            Runs.trace (stateStep sha256) (some state) later = pure firsts ∧
            Runs.trace (stateStep sha256) (some back) later = pure seconds ∧
            firsts.map Entry.output = seconds.map Entry.output) ∧
        (usesWindowMetadata state.algorithm = true →
          ∃ old, decodeStateLegacy (encodeState state) = .ok old ∧
            ∀ requests : List ValidRequest,
              (∀ request ∈ requests, request.policy.period.microseconds = state.periodMicros) →
              ∃ steps, (Runs.trace (fun current request => mutateStepLegacy current request.toRequest)
                  (some old) requests).Returns steps ∧
                ∀ reached ∈ some old :: steps.map Entry.after, ∃ last back, reached = some last ∧
                  decodeState (encodeState last) = .ok back ∧
                  back.periodMicros = state.periodMicros ∧ back.carried = state.carried) ∧
        (encodeState state).textLength ≤ 131072 := by
  obtain ⟨entries, run, -, held⟩ := Runs.trace_history (stateStep sha256) (fun _ => HistoryKept)
    (fun _ _ => True) calls (fun _ current call kept _ => by
      obtain ⟨result, exact, after⟩ := kept.step sha256 call
      exact ⟨result, exact, trivial, after⟩) historyKept_none
  refine ⟨entries, run, fun entry member state reached => ?_⟩
  obtain ⟨earlier, later, shape⟩ := List.append_of_mem member
  have kept := (held earlier entry later shape).2.2 state reached
  refine ⟨?_, fun windowed => ?_, kept.fits.textLength_le⟩
  · obtain ⟨remainder, last, reads, plain, -, document⟩ := kept.decodes
    refine ⟨_, reads, document, fun later => ?_⟩
    have twins : Twin state { state with remainder := remainder, lastMicros := last } := by
      cases which : usesWindowMetadata state.algorithm with
      | true => exact .window remainder last state which
      | false =>
        obtain ⟨rfl, rfl⟩ := plain which
        exact .same state
    exact Runs.trace_same_outputs _ _ (fun current other => HistoryKept current ∧ Option.Rel Twin current other)
      later (fun current other call held _ => twin_step sha256 call held.1 held.2)
      ⟨historyKept_some kept, .some twins⟩
  · obtain ⟨period, recorded, positive, small, old, reads, smuggled⟩ := kept.smuggled windowed
    refine ⟨old, reads, fun requests unchanged => ?_⟩
    obtain ⟨steps, run, -, holds⟩ := Runs.trace_returns
      (fun current request => mutateStepLegacy current request.toRequest)
      (fun _ current => ∃ old, current = some old ∧ Smuggled state period old) (fun _ _ => True) requests
      (by
        rintro _ _ request ⟨old, rfl, smuggled⟩ member
        obtain ⟨next, answer, returns, again⟩ := smuggled.step windowed ((unchanged request member).trans recorded)
        exact ⟨_, returns, trivial, next, rfl, again⟩) ⟨old, rfl, smuggled⟩
    refine ⟨steps, run, fun reached member => ?_⟩
    have held : ∃ last, reached = some last ∧ Smuggled state period last := by
      rcases List.mem_cons.mp member with rfl | member
      · exact ⟨old, rfl, smuggled⟩
      · obtain ⟨step, among, rfl⟩ := List.mem_map.mp member
        obtain ⟨earlier, later, shape⟩ := List.append_of_mem among
        exact (holds earlier step later shape).2.2
    obtain ⟨last, rfl, smuggled⟩ := held
    obtain ⟨back, reads, same, mark⟩ := smuggled.reads windowed positive small
    exact ⟨last, back, rfl, reads, same.trans recorded.symm, mark⟩

end RateLimit.Postgres
