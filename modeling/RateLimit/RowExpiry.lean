import RateLimit.StateAging
import RateLimit.StoreSpec

/-! Row expiry in the strict store. A row that `loadStateStrict` drops has outlived
its algorithm's memory, measured from the last time the row observed, and a state that
is written and read back shows what it showed before. So a run on rows that expire,
with request times in any order, and a run on one state that never does, fed with the
latest time so far, give the same decisions. -/
namespace RateLimit.Postgres

open Machine

/-! ## How long a row lives -/

/-- A rate row outlives what its algorithm remembers. -/
theorem postgresAdmissionTTL_exact {request : Request} (bounds : request.Bounds period) :
    ∃ ttl, postgresAdmissionTTL request.policy = pure ttl ∧ 0 ≤ ttl.nanos ∧
      Outlived request.policy.algorithm (rateOf bounds) (ttl.nanos / 1000).toNat := by
  have small := bounds.period_le
  obtain ⟨ttl, lives, long⟩ := postgresStateTTL_exact period
    (by simp only [Duration.ofMicros, maxInt64]; omega)
  unfold postgresAdmissionTTL
  rw [bounds.period_eq, lives, pure_bind]
  have window : period ≤ (ttl.nanos / 1000).toNat := by omega
  by_cases token : request.policy.algorithm = .tokenBucket
  · rw [if_pos token, tokenDuration_exact bounds le_rfl bounds.period_pos, pure_bind]
    refine ⟨_, rfl, ?_, fun _ => ?_, fun windowed => ?_⟩
    · dsimp only
      omega
    · have full := (rateOf bounds).le_wait_mul (rateOf bounds).limit 0
      rw [Nat.sub_zero] at full
      refine full.trans (Nat.mul_le_mul_right _ ?_)
      simp only [Duration.ofMicros]
      show (rateOf bounds).wait request.policy.limit 0 ≤ _
      omega
    · rw [token] at windowed
      cases windowed
  · rw [if_neg token]
    exact ⟨ttl, rfl, by omega, fun kind => absurd kind token, fun _ => window⟩

/-! ## What is written can be read -/

/-- The fields a rate state writes without using them are small. -/
structure Compact (state : PersistedState) : Prop where
  tokens : Word state.tokens
  window : Word state.window
  used : Word state.used
  segments : ∀ slot, Word (state.segments slot).index ∧ Word (state.segments slot).used
  leases : state.leases = ∅

theorem freshState_compact {request : Request} (bounds : request.Bounds period) (strict : Bool) :
    Compact (freshState request strict) := by
  have limit := bounds.limit_le
  have fields : (freshState request strict).tokens = request.policy.limit ∧
      (freshState request strict).window = 0 ∧ (freshState request strict).used = 0 ∧
      (freshState request strict).segments = (fun _ => {}) ∧ (freshState request strict).leases = ∅ := by
    unfold freshState recordWindowPeriod
    split
    · split <;> exact ⟨rfl, rfl, rfl, rfl, rfl⟩
    · exact ⟨rfl, rfl, rfl, rfl, rfl⟩
  obtain ⟨tokens, window, used, segments, leases⟩ := fields
  have zero : Word 0 := by
    unfold Word
    decide
  refine ⟨?_, ?_, ?_, fun slot => ?_, leases⟩
  · rw [tokens]
    unfold Word
    omega
  · rw [window]
    exact zero
  · rw [used]
    exact zero
  · rw [segments]
    exact ⟨zero, zero⟩

theorem spendToken_rest (rate : TokenRate) (state : PersistedState) (request : Request) :
    (spendToken rate state request).state.window = state.window ∧
      (spendToken rate state request).state.used = state.used ∧
      (spendToken rate state request).state.segments = state.segments ∧
      (spendToken rate state request).state.leases = state.leases := by
  unfold spendToken
  split <;> exact ⟨rfl, rfl, rfl, rfl⟩

theorem spendUsage_rest (state : PersistedState) (request : Request) (reset : Time) :
    (spendUsage state request reset).state.tokens = state.tokens ∧
      (spendUsage state request reset).state.leases = state.leases := by
  unfold spendUsage
  split <;> exact ⟨rfl, rfl⟩

theorem spendFixed_rest (period : Nat) (state : PersistedState) (request : Request) :
    (spendFixed period state request).state.tokens = state.tokens ∧
      (spendFixed period state request).state.segments = state.segments ∧
      (spendFixed period state request).state.leases = state.leases := by
  exact ⟨(spendUsage_rest _ _ _).1, spendUsage_segments _ _ _, (spendUsage_rest _ _ _).2⟩

theorem spendSliding_rest (period : Nat) (state : PersistedState) (request : Request) :
    (spendSliding period state request).state.tokens = state.tokens ∧
      (spendSliding period state request).state.window = state.window ∧
      (spendSliding period state request).state.leases = state.leases ∧
      (spendSliding period state request).state.used ≤
        max request.policy.limit ((ringOf state.segments).total (oldestAt request.now.unixMicro period)) := by
  unfold spendSliding
  by_cases short : request.policy.limit - (swept period state request).used < request.cost
  · rw [(spendSegment_short _ _ _ short).2]
    exact ⟨rfl, rfl, rfl, le_max_right _ _⟩
  · rw [(spendSegment_room _ _ _ short).2]
    have counted : (swept period state request).used =
        (ringOf state.segments).total (oldestAt request.now.unixMicro period) := rfl
    refine ⟨rfl, rfl, rfl, ?_⟩
    dsimp only
    omega

/-- Preparing a state for a step leaves the fields it does not use alone. -/
theorem prepared_rest (state : PersistedState) (request : Request) :
    (prepared state request).window = state.window ∧ (prepared state request).used = state.used ∧
      (prepared state request).segments = state.segments ∧ (prepared state request).leases = state.leases ∧
      (request.policy.algorithm ≠ .tokenBucket → (prepared state request).tokens = state.tokens) := by
  unfold prepared recordWindowPeriod carryToken
  split <;> split <;> simp_all

/-- An accepted request writes a compact state. -/
theorem outcome_compact (accepted : Accepted current request period)
    (compact : Compact (loaded current request)) : Compact (outcome accepted).state := by
  have policy : (effective current request).policy = request.policy := clampRequest_policy _ _
  have kept := outcome_kept accepted
  obtain ⟨window, used, segments, leases, tokens⟩ :=
    prepared_rest (loaded current request) (effective current request)
  have limit := accepted.bounds.limit_le
  have small {value : Nat} (least : value ≤ 9007199254740991) : Word value := by
    unfold Word
    omega
  have exact {value : Int} (exact : ExactMicros value) : Word value := by
    unfold ExactMicros at exact
    unfold Word
    omega
  rcases accepted.kind with kind | kind | kind
  · have ok := (kept.token kind).within kept.revision
    have same : outcome accepted = spendToken (rateOf accepted.bounds) (refilled (rateOf accepted.bounds)
        (prepared (loaded current request) (effective current request))
        (effective current request).now.unixMicro) (effective current request) := by
      simp only [outcome, spend, policy, kind]
    obtain ⟨window', used', segments', leases'⟩ := spendToken_rest (rateOf accepted.bounds)
      (refilled (rateOf accepted.bounds) (prepared (loaded current request) (effective current request))
        (effective current request).now.unixMicro) (effective current request)
    rw [← same] at window' used' segments' leases'
    refine ⟨small (by rw [policy] at limit; omega), ?_, ?_, ?_, ?_⟩
    · rw [window'.trans window]
      exact compact.window
    · rw [used'.trans used]
      exact compact.used
    · rw [segments'.trans segments]
      exact compact.segments
    · rw [leases'.trans leases]
      exact compact.leases
  · have ok := kept.fixed kind
    have same : outcome accepted = spendFixed period
        (prepared (loaded current request) (effective current request)) (effective current request) := by
      simp only [outcome, spend, policy, kind]
      rfl
    obtain ⟨tokens', segments', leases'⟩ := spendFixed_rest period
      (prepared (loaded current request) (effective current request)) (effective current request)
    rw [← same] at tokens' segments' leases'
    refine ⟨?_, exact ok.window, small ok.used, ?_, ?_⟩
    · rw [tokens'.trans (tokens (by simp [policy, kind]))]
      exact compact.tokens
    · rw [segments'.trans segments]
      exact compact.segments
    · rw [leases'.trans leases]
      exact compact.leases
  · have ok := kept.sliding kind
    have same : outcome accepted = spendSliding period
        (prepared (loaded current request) (effective current request)) (effective current request) := by
      simp only [outcome, spend, policy, kind]
      rfl
    obtain ⟨tokens', window', leases', used'⟩ := spendSliding_rest period
      (prepared (loaded current request) (effective current request)) (effective current request)
    rw [← same] at tokens' window' leases' used'
    have total := accepted.timely.total (by rw [policy, kind])
    rw [segments] at used'
    refine ⟨?_, ?_, small (used'.trans (max_le limit total)), fun slot => ?_, ?_⟩
    · rw [tokens'.trans (tokens (by simp [policy, kind]))]
      exact compact.tokens
    · rw [window'.trans window]
      exact compact.window
    · exact ⟨exact (ok.segments slot).1, small (ok.segments slot).2⟩
    · rw [leases'.trans leases]
      exact compact.leases

/-- The metadata a kept state is written with is small. -/
theorem Kept.metadata (kept : Kept state policy period) (small : period ≤ 9007199254740991)
    (rate : policy.algorithm.IsRate) :
    ∃ remainder last, encodeState state =
      { state.wire with remainder := remainder, lastMicros := last } ∧ Word remainder ∧ Word last := by
  unfold encodeState
  by_cases windowed : usesWindowMetadata state.algorithm = true ∧ state.periodMicros ≠ 0
  · rw [if_pos windowed]
    refine ⟨_, _, rfl, ?_, ?_⟩ <;> unfold Word
    · omega
    · split <;> decide
  · rw [if_neg windowed]
    have token : policy.algorithm = .tokenBucket := by
      have positive := kept.period_pos
      rcases rate with kind | kind | kind
      · exact kind
      all_goals
        have recorded := kept.recorded (by rw [kind]; rfl)
        refine absurd ⟨?_, by omega⟩ windowed
        rw [kept.algorithm, kind]
        rfl
    have ok := kept.token token
    have part := ok.remainder
    have last := ok.last
    unfold ExactMicros at last
    refine ⟨state.remainder, state.lastMicros, rfl, ?_, ?_⟩ <;> unfold Word <;> omega

/-- A kept state is written small enough for the strict reader. -/
theorem Kept.fits (kept : Kept state policy period) (sound : policy.Sound) (rate : policy.algorithm.IsRate)
    (small : period ≤ 9007199254740991) (compact : Compact state) : (encodeState state).Fits := by
  obtain ⟨remainder, last, encoded, wordRemainder, wordLast⟩ := kept.metadata small rate
  have segments : ∀ segment ∈ List.ofFn state.segments, Word segment.index ∧ Word segment.used := by
    intro segment member
    obtain ⟨slot, rfl⟩ := List.mem_ofFn.mp member
    exact compact.segments slot
  have observed := kept.observed
  rw [encoded]
  refine ⟨?_, ?_, ?_, ?_, compact.tokens, wordRemainder, wordLast, ?_, compact.window, compact.used, ?_,
    segments, ?_, ?_⟩ <;> dsimp only [PersistedState.wire]
  · rw [kept.schema]
    unfold Word stateSchema
    decide
  · rw [kept.policyID]
    exact sound.id_valid
  · rw [kept.revision]
    exact sound.revision_valid
  · rw [kept.algorithm]
    rcases rate with kind | kind | kind <;> rw [kind] <;> decide
  · unfold ExactMicros at observed
    unfold Word
    omega
  · exact List.length_ofFn
  · rw [compact.leases]
    exact Nat.zero_le _
  · rw [compact.leases]
    intro entry member
    exact absurd member List.not_mem_nil

theorem identified {policy : Policy} (schema : state.schema = stateSchema) (policyID : state.policyID = policy.id)
    (algorithm : state.algorithm = policy.algorithm) (sound : policy.Sound)
    (rate : policy.algorithm.IsRate) : Identified state := by
  refine ⟨schema, ?_, ?_⟩
  · have valid := sound.id_valid
    rw [policyID]
    rintro empty
    rw [empty] at valid
    cases valid
  · rw [algorithm]
    rcases rate with kind | kind | kind <;> rw [kind] <;> simp

/-- What is read back of a kept state is kept and holds the same. -/
theorem Kept.decodes (kept : Kept state policy period) (sound : policy.Sound) (rate : policy.algorithm.IsRate)
    (small : period ≤ 9007199254740991) :
    ∃ back, decodeState (encodeState state) = .ok back ∧ Kept back policy period ∧
      (∀ rate now, Alike policy.algorithm rate now back state) ∧
      back.observedMicros = state.observedMicros ∧ (Compact state → Compact back) := by
  have named := identified kept.schema kept.policyID kept.algorithm sound rate
  by_cases windowed : usesWindowMetadata policy.algorithm = true
  · have recorded := kept.recorded windowed
    have positive := kept.period_pos
    refine ⟨_, decode_window named (by rw [kept.algorithm]; exact windowed) (by omega)
      (by rw [recorded]; unfold maxExactMicros; omega), ?_, ?_, rfl, ?_⟩
    · refine ⟨kept.schema, kept.policyID, kept.algorithm, kept.revision, kept.observed, kept.period_eq,
        kept.period_pos, kept.recorded, fun token => ?_, fun fixed => ?_, fun sliding => ?_⟩
      · rw [token] at windowed
        cases windowed
      · obtain ⟨window, used, carried⟩ := kept.fixed fixed
        exact ⟨window, used, carried⟩
      · obtain ⟨segments, placed, total, carried⟩ := kept.sliding sliding
        exact ⟨segments, placed, total, carried⟩
    · refine fun rate now => ⟨fun token => ?_, fun _ => ⟨rfl, rfl⟩, fun _ => rfl⟩
      rw [token] at windowed
      cases windowed
    · rintro ⟨tokens, window, used, segments, leases⟩
      exact ⟨tokens, window, used, segments, leases⟩
  · have plain : usesWindowMetadata policy.algorithm = false := Bool.not_eq_true _ ▸ windowed
    refine ⟨_, decode_plain true named (by rw [kept.algorithm]; exact plain), ?_, ?_, rfl, ?_⟩
    · refine ⟨kept.schema, kept.policyID, kept.algorithm, kept.revision, kept.observed, kept.period_eq,
        kept.period_pos, fun other => absurd other windowed, fun token => ?_, fun fixed => ?_, fun sliding => ?_⟩
      · obtain ⟨last, remainder, fraction, within⟩ := kept.token token
        exact ⟨last, remainder, fraction, within⟩
      · rw [fixed] at plain
        cases plain
      · rw [sliding] at plain
        cases plain
    · exact fun rate now => ⟨fun _ => ⟨rfl, rfl⟩, fun _ => ⟨rfl, rfl⟩, fun _ => rfl⟩
    · rintro ⟨tokens, window, used, segments, leases⟩
      exact ⟨tokens, window, used, segments, leases⟩

/-! ## Two states at once -/

/-- Preparing a state of the same revision leaves everything an algorithm uses. -/
theorem prepared_same (request : Request) (same : state.revision = request.policy.revision) :
    levelOf (prepared state request) = levelOf state ∧
      (prepared state request).lastMicros = state.lastMicros ∧
      (prepared state request).window = state.window ∧ (prepared state request).used = state.used ∧
      (prepared state request).segments = state.segments := by
  have still : carryToken state request = state := by
    unfold carryToken
    rw [if_neg (fun moved => moved.2 same)]
  unfold prepared
  rw [still]
  unfold recordWindowPeriod
  split <;> exact ⟨rfl, rfl, rfl, rfl, rfl⟩

theorem prepared_alike (request : Request) (same : state.revision = request.policy.revision)
    (algorithm : Algorithm) (rate : TokenRate) (now : Int) :
    Alike algorithm rate now (prepared state request) state := by
  obtain ⟨level, last, window, used, segments⟩ := prepared_same request same
  exact ⟨fun _ => ⟨level, last⟩, fun _ => ⟨window, used⟩, fun _ => by rw [segments]⟩

theorem freshState_blank {request : Request} (bounds : request.Bounds period) :
    Blank (rateOf bounds) request.now.unixMicro (freshState request true) := by
  obtain ⟨_, fresh⟩ := freshState_eq request
  rw [fresh]
  exact ⟨rfl, rfl, rfl, rfl⟩

theorem freshState_revision (request : Request) :
    (freshState request true).revision = request.policy.revision := by
  obtain ⟨_, fresh⟩ := freshState_eq request
  rw [fresh]

theorem rateOf_eq {first second : Request} (left : first.Bounds period) (right : second.Bounds period)
    (same : first.policy = second.policy) : rateOf left = rateOf right := by
  simp only [rateOf, same]

/-- Two accepted requests that come to the same effective request, on states that show
the same then, get the same answer and leave the same behind. -/
theorem outcome_same {first second : Request} (left : Accepted current first period)
    (right : Accepted other second period) (together : effective current first = effective other second)
    (leftRevision : (loaded current first).revision = first.policy.revision)
    (rightRevision : (loaded other second).revision = second.policy.revision)
    (same : SameAt first.policy.algorithm (rateOf left.bounds) (effective current first).now.unixMicro
      (loaded current first) (loaded other second)) :
    (outcome left).decision = (outcome right).decision ∧ (outcome left).error = (outcome right).error ∧
      Alike first.policy.algorithm (rateOf left.bounds) (effective current first).now.unixMicro
        (outcome left).state (outcome right).state := by
  have policy : (effective current first).policy = first.policy := clampRequest_policy _ _
  have otherPolicy : (effective other second).policy = second.policy := clampRequest_policy _ _
  have rate := rateOf_eq right.bounds left.bounds (by rw [together])
  have before : SameAt first.policy.algorithm (rateOf left.bounds) (effective current first).now.unixMicro
      (prepared (loaded current first) (effective current first))
      (prepared (loaded other second) (effective current first)) := by
    have one := prepared_alike (effective current first) (leftRevision.trans (by rw [policy]))
      first.policy.algorithm (rateOf left.bounds) (effective current first).now.unixMicro
    have two := prepared_alike (effective current first) (rightRevision.trans (by rw [together, otherPolicy]))
      first.policy.algorithm (rateOf left.bounds) (effective current first).now.unixMicro
    exact (one.sameAt le_rfl).trans (same.trans (two.sameAt le_rfl).symm)
  rw [← policy] at before ⊢
  unfold outcome
  rw [rate, ← together]
  exact spend_same (by rw [policy]; exact left.kind) before

/-- An accepted request on a state with nothing ahead of it leaves a settled one. -/
theorem outcome_settled (accepted : Accepted current request period)
    (revision : (loaded current request).revision = request.policy.revision)
    (ready : Ready request.policy.algorithm (rateOf accepted.bounds) (effective current request).now.unixMicro
      (loaded current request)) :
    Settled request.policy.algorithm (rateOf accepted.bounds) (outcome accepted).state := by
  have policy : (effective current request).policy = request.policy := clampRequest_policy _ _
  obtain ⟨level, last, -, -, segments⟩ :=
    prepared_same (effective current request) (revision.trans (by rw [policy]))
  have prepared := ready.congr level last segments
  rw [← policy] at prepared ⊢
  exact spend_settled accepted.bounds prepared (prepared_header _ _).2.2.2.2

/-! ## Runs -/

/-- The request of a call at the time its store goes by. -/
def timedBy (call : ClockedRequest) (clock : ClockPolicy) : Request :=
  requestAt clock (wholeMicros call.request.toRequest) call.serverNow

/-- One `AdmitStrict` on a database nobody else uses. -/
def storeStep (sha256 : GoString → Digest) (clock : ClockPolicy) (content : database.Content)
    (call : ClockedRequest) : Machine (database.Content × Except StoreError Answer) :=
  (Store.admitStrict sha256 clock .live call.request.toRequest).serve call.serverNow content

/-- A state that never expires, with the latest time it was fed. -/
structure Fed where
  latest : Option Int := none
  state : Option PersistedState := none
  deriving DecidableEq

/-- The running maximum of the times up to `now`. -/
def Fed.until (fed : Fed) (now : Int) : Int := fed.latest.elim now (max now)

/-- A request at the running maximum. -/
def Fed.feeds (fed : Fed) (request : Request) : Request :=
  { request with now := .ofUnixMicro (fed.until request.now.unixMicro) }

/-- One `mutateState` on a state that never expires, at the running maximum of the
times. -/
def Fed.step (fed : Fed) (request : Request) : Machine (Fed × Answer) := do
  let result ← mutateState fed.state (fed.feeds request)
  pure (⟨some (fed.until request.now.unixMicro), result.next.or result.argument⟩,
    ⟨result.decision, result.error⟩)

def feedStep (clock : ClockPolicy) (fed : Fed) (call : ClockedRequest) : Machine (Fed × Answer) :=
  fed.step (timedBy call clock)

/-- The times of a call are whole microseconds. -/
theorem timedBy_whole (call : ClockedRequest) (clock : ClockPolicy) :
    (timedBy call clock).now = .ofUnixMicro (timedBy call clock).now.unixMicro := by
  cases clock <;> simp [timedBy, requestAt, wholeMicros]

theorem timedBy_policy (call : ClockedRequest) (clock : ClockPolicy) :
    (timedBy call clock).policy = call.request.policy := requestAt_policy _ _ _

/-- The call's time is in the exact range, or the store says that it is not. -/
theorem timedBy_range (call : ClockedRequest) (clock : ClockPolicy)
    (bounds : call.request.toRequest.Bounds period) :
    (clock = .serverClock ∧ validateServerClockRange (.ofUnixMicro call.serverNow)
        call.request.policy.period = pure (some .overflow)) ∨
      (ClockInRange clock call.request.policy.period call.serverNow ∧ (timedBy call clock).Bounds period) := by
  have small := bounds.period_le
  obtain ⟨positive, same, product, capacity, below, limit, cost, most, early, room⟩ := bounds
  cases clock with
  | clientClock =>
    right
    refine ⟨fun server => ?_, positive, same, product, capacity, below, limit, cost, most, ?_, ?_⟩
    · cases server
    · simpa [timedBy, requestAt, wholeMicros] using early
    · simpa [timedBy, requestAt, wholeMicros] using room
  | serverClock =>
    have range := validateServerClockRange_exact (.ofUnixMicro call.serverNow) positive
      (small.trans (by decide))
    rw [← same, Time.unixMicro_ofUnixMicro] at range
    by_cases inside : -9007199254740991 ≤ call.serverNow ∧ call.serverNow + period ≤ 9007199254740991
    · right
      rw [if_pos inside] at range
      refine ⟨fun _ => range, positive, same, product, capacity, below, limit, cost, most, ?_, ?_⟩
      · simpa [timedBy, requestAt] using inside.1
      · simpa [timedBy, requestAt] using inside.2
    · rw [if_neg inside] at range
      exact Or.inl ⟨rfl, range⟩

/-- A row, what it decodes to, and the state that never expires beside it. -/
structure Tracked (policy : Policy) (rate : TokenRate) (ttl : Duration) (row : Row)
    (stored state : PersistedState) : Prop where
  decodes : decodeState row.state = .ok stored
  length : row.state.textLength ≤ maxEncodedStateBytes
  expires : row.expiresAt = expiryFrom state.observedMicros ttl
  stored_kept : Kept stored policy rate.period
  stored_compact : Compact stored
  kept : Kept state policy rate.period
  settled : Settled policy.algorithm rate state
  alike : Alike policy.algorithm rate state.observedMicros stored state
  observed : stored.observedMicros = state.observedMicros
  room : state.observedMicros + rate.period ≤ 9007199254740991

/-- The row of a bucket tracks a state that never expires. -/
def Tracks (policy : Policy) (rate : TokenRate) (ttl : Duration) (row : Option Row) (fed : Fed) : Prop :=
  match row with
  | none => fed = {}
  | some row => ∃ stored state, fed = ⟨some state.observedMicros, some state⟩ ∧
    Tracked policy rate ttl row stored state

/-- What loading gets from a tracked row at `request`: a state, or none, that shows at
the running maximum what the state that never expires shows. -/
structure Shows (request : Request) (period : Nat) (rate : TokenRate) (current : Option PersistedState)
    (fed : Fed) : Prop where
  kept : ∀ state, current = some state → Kept state request.policy period
  compact : Compact (loaded current request)
  time : max request.now.unixMicro (loaded current request).observedMicros = fed.until request.now.unixMicro
  same : SameAt request.policy.algorithm rate (fed.until request.now.unixMicro) (loaded current request)
    (loaded fed.state (fed.feeds request))

theorem Tracks.load {request : Request} (bounds : request.Bounds period)
    (whole : request.now = .ofUnixMicro request.now.unixMicro)
    (outlived : Outlived request.policy.algorithm (rateOf bounds) (ttl.nanos / 1000).toNat)
    (lives : 0 ≤ ttl.nanos)
    (tracks : Tracks request.policy (rateOf bounds) ttl row fed) :
    ∃ current, loadRow row request.now = .ok current ∧
      Shows request period (rateOf bounds) current fed := by
  have fresh : max request.now.unixMicro (freshState request true).observedMicros =
      request.now.unixMicro := max_eq_left (freshState_observed request).le
  cases row with
  | none =>
    subst tracks
    refine ⟨none, rfl, by simp, freshState_compact bounds true, fresh, ?_⟩
    have still : Fed.feeds {} request = request := by
      show { request with now := Time.ofUnixMicro request.now.unixMicro } = request
      rw [← whole]
    rw [still]
    exact ⟨fun _ => ⟨rfl, rfl⟩, fun _ => rfl, fun _ => rfl⟩
  | some row =>
    obtain ⟨stored, state, rfl, tracked⟩ := tracks
    unfold loadRow
    dsimp only
    rw [if_neg (not_lt.mpr tracked.length), tracked.decodes]
    by_cases live : row.expiresAt.nanos > request.now.nanos
    · rw [if_pos live]
      refine ⟨some stored, rfl, ?_, tracked.stored_compact, ?_, ?_⟩
      · intro other same
        cases same
        exact tracked.stored_kept
      · rw [loaded, Option.getD_some, tracked.observed]
        rfl
      · exact tracked.alike.sameAt (le_max_right _ _)
    · rw [if_neg live]
      -- The row has expired, so its last observation is a whole life ago.
      have later : state.observedMicros + ((ttl.nanos / 1000).toNat : Nat) ≤ request.now.unixMicro := by
        rw [tracked.expires, expiryFrom_eq, whole] at live
        simp only [Time.ofUnixMicro] at live
        omega
      have latest : Fed.until ⟨some state.observedMicros, some state⟩ request.now.unixMicro =
          request.now.unixMicro := max_eq_left (by omega)
      refine ⟨none, rfl, by simp, freshState_compact bounds true, ?_, ?_⟩
      · rw [latest]
        exact fresh
      · rw [latest]
        exact tracked.settled.outlived outlived (freshState_blank bounds) later

theorem Follows.refl (policy : Policy) : Follows policy policy := ⟨rfl, rfl, fun _ => rfl, fun _ => rfl⟩

/-- The state that never expires takes a request at the running maximum as it is. -/
structure Feeds (fed : Fed) (request : Request) (rate : TokenRate) : Prop where
  bounds : (fed.feeds request).Bounds rate.period
  still : effective fed.state (fed.feeds request) = fed.feeds request
  revision : (loaded fed.state (fed.feeds request)).revision = request.policy.revision
  ready : Ready request.policy.algorithm rate (fed.until request.now.unixMicro)
    (loaded fed.state (fed.feeds request))
  runs : ∃ accepted : Accepted fed.state (fed.feeds request) rate.period,
    mutateState fed.state (fed.feeds request) = pure (.finished fed.state (outcome accepted))

theorem Tracks.feeds {request : Request} (bounds : request.Bounds period)
    (kind : request.policy.algorithm.IsRate)
    (whole : request.now = .ofUnixMicro request.now.unixMicro)
    (window : request.policy.algorithm = .fixedWindow → ExactMicros (windowStart request.now.unixMicro period))
    (tracks : Tracks request.policy (rateOf bounds) ttl row fed) : Feeds fed request (rateOf bounds) := by
  cases row with
  | none =>
    subst tracks
    have same : Fed.feeds {} request = request := by
      show { request with now := Time.ofUnixMicro request.now.unixMicro } = request
      rw [← whole]
    refine ⟨?_, ?_, freshState_revision _, ?_, ?_⟩ <;> rw [same]
    · exact bounds
    · exact clampRequest_of_le (freshState_observed request).le
    · exact (freshState_blank bounds).ready
    · rcases mutateState_cases kind bounds none with ⟨-, late⟩ | ⟨-, _, impossible, -⟩ | accepted
      · rcases late with ⟨fixed, outside⟩ | ⟨_, impossible, -⟩
        · exact absurd (window fixed) outside
        · cases impossible
      · cases impossible
      · exact accepted
  | some row =>
    obtain ⟨stored, state, rfl, tracked⟩ := tracks
    have early := bounds.not_before
    have late := bounds.room
    have room : state.observedMicros + period ≤ 9007199254740991 := tracked.room
    have time : (Fed.feeds ⟨some state.observedMicros, some state⟩ request).now.unixMicro =
        max request.now.unixMicro state.observedMicros := Time.unixMicro_ofUnixMicro _
    have moved : (Fed.feeds ⟨some state.observedMicros, some state⟩ request).Bounds period := by
      refine ⟨bounds.period_pos, bounds.period_eq, bounds.product, bounds.capacity_pos, bounds.capacity_le,
        bounds.limit_le, bounds.cost_pos, bounds.cost_le, ?_, ?_⟩ <;> rw [time]
      · omega
      · exact (max_add_add_right _ _ _).ge.trans (max_le late room)
    refine ⟨moved, ?_, tracked.kept.revision, ?_, ?_⟩
    · exact clampRequest_of_le (by rw [loaded, Option.getD_some, time]; exact le_max_right _ _)
    · exact tracked.settled.ready (le_max_right _ _)
    · have follows : Follows (Fed.feeds ⟨some state.observedMicros, some state⟩ request).policy
          request.policy := Follows.refl _
      rcases tracked.kept.step follows moved kind with ⟨-, overflows⟩ | accepted
      · rcases overflows with ⟨fixed, outside⟩ | ⟨_, same, beyond⟩
        · refine absurd ?_ outside
          rw [time]
          rcases max_choice request.now.unixMicro state.observedMicros with first | second
          · rw [first]
            exact window fixed
          · rw [second]
            have exact := (tracked.kept.fixed fixed).window
            rw [tracked.settled.fixed fixed] at exact
            exact exact
        · cases same
          rw [time, max_eq_left (le_max_right _ _), ← max_add_add_right] at beyond
          exact absurd (max_le late room) (not_le.mpr beyond)
      · exact accepted

/-- A loaded state is never refused as corrupt. -/
theorem Shows.step {request : Request} (bounds : request.Bounds period)
    (kind : request.policy.algorithm.IsRate) (shows : Shows request period rate current fed) :
    mutateState current request = pure (.failed current .overflow) ∨
      ∃ accepted : Accepted current request period,
        mutateState current request = pure (.finished current (outcome accepted)) := by
  cases current with
  | none =>
    rcases mutateState_cases kind bounds none with ⟨overflow, -⟩ | ⟨-, _, impossible, -⟩ | accepted
    · exact Or.inl overflow
    · cases impossible
    · exact Or.inr accepted
  | some state => exact ((shows.kept state rfl).step (Follows.refl _) bounds kind).imp_left And.left

theorem Shows.revision (shows : Shows request period rate current fed) :
    (loaded current request).revision = request.policy.revision := by
  cases current with
  | none => exact freshState_revision request
  | some state => exact (shows.kept state rfl).revision

/-- One admission against a tracked row: it overflows and changes nothing, or it
answers as the state that never expires does and leaves a tracked row. -/
theorem Tracks.admission (request : Request) {content : database.Content}
    (inRange : ClockInRange clock request.policy.period serverNow)
    (bounds : (requestAt clock request serverNow).Bounds period)
    (kind : request.policy.algorithm.IsRate) (sound : request.policy.Sound)
    (whole : (requestAt clock request serverNow).now =
      .ofUnixMicro (requestAt clock request serverNow).now.unixMicro)
    (lives : postgresAdmissionTTL request.policy = pure ttl) (nonneg : 0 ≤ ttl.nanos)
    (outlived : Outlived request.policy.algorithm (rateOf bounds) (ttl.nanos / 1000).toNat)
    (tracks : Tracks request.policy (rateOf bounds) ttl (content (.bucket key)) fed) :
    (admitStrict clock key request).serve serverNow content =
        pure (content, .error (.sentinel .overflow)) ∨
      ∃ row next answer, (admitStrict clock key request).serve serverNow content =
          pure (Function.update content (.bucket key) (some row), .ok answer) ∧
        fed.step (requestAt clock request serverNow) = pure (next, answer) ∧
        Tracks request.policy (rateOf bounds) ttl (some row) next := by
  rw [← requestAt_policy clock request serverNow] at kind sound outlived tracks ⊢
  obtain ⟨current, load, shows⟩ := tracks.load bounds whole outlived nonneg
  rcases shows.step bounds kind with overflow | ⟨accepted, runs⟩
  · exact Or.inl (admitStrict_refuses inRange load overflow (by simp))
  have feeds := tracks.feeds bounds kind whole accepted.window
  obtain ⟨fedAccepted, fedRuns⟩ := feeds.runs
  generalize stamped : requestAt clock request serverNow = timed at *
  have time : effective current timed = fed.feeds timed := by
    rw [effective, clampRequest_whole whole, shows.time]
    rfl
  have now : (effective current timed).now = .ofUnixMicro (fed.until timed.now.unixMicro) := by
    rw [time]
    rfl
  have rate : rateOf accepted.bounds = rateOf bounds := rateOf_eq _ _ (clampRequest_policy _ _)
  have fedRate : rateOf fedAccepted.bounds = rateOf bounds := rateOf_eq _ _ (clampRequest_policy _ _)
  -- Both sides spend from states that show the same at the same time.
  obtain ⟨decision, error, alike⟩ := outcome_same accepted fedAccepted (time.trans feeds.still.symm)
    shows.revision feeds.revision (by rw [rate, now, Time.unixMicro_ofUnixMicro]; exact shows.same)
  have observed : (outcome accepted).state.observedMicros = (outcome fedAccepted).state.observedMicros := by
    rw [outcome_observed, outcome_observed, time, feeds.still]
  rw [rate, ← outcome_observed accepted, observed] at alike
  have settled := outcome_settled fedAccepted feeds.revision (by
    rw [fedRate, feeds.still]
    show Ready timed.policy.algorithm (rateOf bounds)
      (Time.ofUnixMicro (fed.until timed.now.unixMicro)).unixMicro _
    rw [Time.unixMicro_ofUnixMicro]
    exact feeds.ready)
  rw [fedRate] at settled
  have kept := outcome_kept accepted
  have compact := outcome_compact accepted shows.compact
  obtain ⟨back, decodes, backKept, backAlike, backObserved, backCompact⟩ :=
    kept.decodes sound kind bounds.period_le
  have timely := (outcome_complete accepted).2
  rw [now, ← Time.unixMicro_ofUnixMicro (fed.until timed.now.unixMicro), ← now,
    ← outcome_observed accepted] at timely
  have tracked : Tracked timed.policy (rateOf bounds) ttl
      ⟨encodeState (outcome accepted).state, expiryFrom (outcome accepted).state.observedMicros ttl⟩ back
      (outcome fedAccepted).state := by
    refine ⟨decodes, (kept.fits sound kind bounds.period_le compact).textLength_le, by rw [observed],
      backKept, backCompact compact, outcome_kept fedAccepted, settled, (backAlike _ _).trans alike,
      backObserved.trans observed, ?_⟩
    rw [outcome_observed]
    exact fedAccepted.bounds.room
  have answers : fed.step timed = pure (⟨some (outcome fedAccepted).state.observedMicros,
      some (outcome fedAccepted).state⟩, (outcome accepted).answer) := by
    have latest : (outcome fedAccepted).state.observedMicros = fed.until timed.now.unixMicro := by
      rw [outcome_observed, feeds.still]
      exact Time.unixMicro_ofUnixMicro _
    unfold Fed.step
    rw [fedRuns, pure_bind, latest, Applied.answer, decision, error]
    rfl
  subst stamped
  exact Or.inr ⟨_, _, _, admitStrict_answers inRange load runs (outcome_error accepted) timely lives,
    answers, _, _, rfl, tracked⟩

/-- One call of the store against a tracked row. -/
theorem Tracks.call {content : database.Content} (sha256 : GoString → Digest) (clock : ClockPolicy)
    (call : ClockedRequest) (rate : call.request.policy.algorithm.IsRate)
    (bounds : call.request.toRequest.Bounds period)
    (lives : postgresAdmissionTTL call.request.policy = pure ttl) (nonneg : 0 ≤ ttl.nanos)
    (outlived : Outlived call.request.policy.algorithm (rateOf bounds) (ttl.nanos / 1000).toNat)
    (bucket : digest = sha256 (bucketName call.request.policy.id call.request.key))
    (tracks : Tracks call.request.policy (rateOf bounds) ttl (content (.bucket digest)) fed) :
    ∃ first, storeStep sha256 clock content call = pure first ∧
      ((first.2 = .error (.sentinel .overflow) ∧
          Tracks call.request.policy (rateOf bounds) ttl (first.1 (.bucket digest)) fed) ∨
        ∃ second, feedStep clock fed call = pure second ∧ first.2 = .ok second.2 ∧
          Tracks call.request.policy (rateOf bounds) ttl (first.1 (.bucket digest)) second.1) := by
  unfold storeStep feedStep
  rw [store_admitStrict_valid call.request rate, ← bucket]
  rcases timedBy_range call clock bounds with ⟨server, outside⟩ | ⟨inRange, timed⟩
  · exact ⟨_, admitStrict_outside server outside, Or.inl ⟨rfl, tracks⟩⟩
  · have same : rateOf timed = rateOf bounds := rateOf_eq _ _ (timedBy_policy call clock)
    rw [← same] at outlived tracks ⊢
    have step := Tracks.admission (wholeMicros call.request.toRequest) inRange timed rate
      call.request.built.sound (timedBy_whole call clock) lives nonneg outlived tracks
    rcases step with overflow | ⟨row, next, answer, stored, fed, tracks⟩
    · exact ⟨_, overflow, Or.inl ⟨rfl, tracks⟩⟩
    · refine ⟨_, stored, Or.inr ⟨_, fed, rfl, ?_⟩⟩
      dsimp only
      rw [Function.update_self]
      exact tracks

/-- Row expiry and backward clocks are unobservable in the strict store. Whatever the
times of the calls, as long as none of them overflows: the store, which drops a row
that has expired at the time of a call, answers as `mutateState` does on one state
that never expires, fed with the running maximum of those times. -/
theorem expiry_unobservable (sha256 : GoString → Digest) (clock : ClockPolicy) (policy : Policy) (key : Key)
    (rate : policy.algorithm.IsRate) (calls : List ClockedRequest)
    (same : ∀ call ∈ calls, call.request.policy = policy ∧ call.request.key = key)
    (content : database.Content) (absent : content (.bucket (sha256 (bucketName policy.id key))) = none) :
    ∃ entries, Runs.trace (storeStep sha256 clock) content calls = pure entries ∧
      ((∀ entry ∈ entries, entry.output ≠ .error (.sentinel .overflow)) →
        ∃ fed, Runs.trace (feedStep clock) {} calls = pure fed ∧
          List.Forall₂ (fun stored never => stored.output = .ok never.output) entries fed) := by
  cases calls with
  | nil => exact ⟨[], rfl, fun _ => ⟨[], rfl, .nil⟩⟩
  | cons first rest =>
    obtain ⟨rfl, rfl⟩ := same first (by simp)
    obtain ⟨period, bounds⟩ := first.request.bounds rate
    obtain ⟨ttl, lives, nonneg, outlived⟩ := postgresAdmissionTTL_exact bounds
    have start : Tracks first.request.policy (rateOf bounds) ttl
        (content (.bucket (sha256 (bucketName first.request.policy.id first.request.key)))) {} := by
      rw [absent]
      rfl
    obtain ⟨entries, run, follows⟩ := Runs.trace_follows (storeStep sha256 clock) (feedStep clock)
      (fun content fed => Tracks first.request.policy (rateOf bounds) ttl
        (content (.bucket (sha256 (bucketName first.request.policy.id first.request.key)))) fed)
      (· = .error (.sentinel .overflow)) (fun _ stored never => stored = .ok never) (first :: rest)
      (fun content fed call tracks member => by
        obtain ⟨policy, key⟩ := same call member
        have bounds' := bounds_of_period call.request (by rw [policy]; exact rate)
          (by rw [policy, bounds.period_eq])
        rw [← policy, ← key, ← rateOf_eq bounds' bounds policy] at tracks ⊢
        rw [← policy] at lives rate outlived
        rw [← rateOf_eq bounds' bounds policy] at outlived
        exact tracks.call sha256 clock call rate bounds' lives nonneg outlived rfl) start
    refine ⟨entries, run, fun clear => ?_⟩
    obtain ⟨fed, feeds, alike⟩ := follows clear
    exact ⟨fed, feeds, alike.imp fun _ _ both => both.1⟩

/-- Ten tokens a second and a burst of five, drained at once. -/
def drainCall : ClockedRequest :=
  ⟨(ratePolicy .tokenBucket 97 10 5 1000000 second_fits).request firstRequest_built 15 1000000 rfl, 0⟩

/-- The same policy with the clock set back. -/
def earlierCall : ClockedRequest :=
  ⟨(ratePolicy .tokenBucket 97 10 5 1000000 second_fits).request firstRequest_built 1 200000 rfl, 0⟩

/-- The same policy after the row has expired. -/
def expiredCall : ClockedRequest :=
  ⟨(ratePolicy .tokenBucket 97 10 5 1000000 second_fits).request firstRequest_built 15 3000000 rfl, 0⟩

theorem expiry_unobservable_backwards :
    drainCall.request.policy.algorithm.IsRate ∧
      (∀ call ∈ [drainCall, earlierCall, expiredCall],
        call.request.policy = drainCall.request.policy ∧ call.request.key = drainCall.request.key) ∧
      ∃ entries fed, Runs.trace (storeStep (fun _ => bucketDigest) .clientClock)
          (fun | .bucket _ => none | .command _ => none) [drainCall, earlierCall, expiredCall] = pure entries ∧
        Runs.trace (feedStep .clientClock) {} [drainCall, earlierCall, expiredCall] = pure fed ∧
        List.Forall₂ (fun stored never => stored.output = .ok never.output) entries fed := by
  refine ⟨by decide, by decide, ?_⟩
  obtain ⟨entries, run, follows⟩ := expiry_unobservable (fun _ => bucketDigest) .clientClock
    drainCall.request.policy drainCall.request.key (by decide) [drainCall, earlierCall, expiredCall]
    (by decide) (fun | .bucket _ => none | .command _ => none) rfl
  obtain ⟨fed, feeds, same⟩ := follows (by
    cases run
    intro entry member
    rcases List.mem_cons.mp member with rfl | member
    · decide
    rcases List.mem_cons.mp member with rfl | member
    · decide
    rcases List.mem_cons.mp member with rfl | member
    · decide
    · simp at member)
  exact ⟨entries, fed, run, feeds, same⟩

end RateLimit.Postgres
