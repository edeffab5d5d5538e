import RateLimit.LegacyState
import RateLimit.RowExpiry

/-! Rows that both paths write. The strict machine reads what the released one left
and the other way round, each through the version-1 document. The released machine
neither caps a balance nor marks usage that another revision left above its limit, and
the strict one takes such a row for corrupt. It adopts every row of a run exactly where
no released call leaves more behind than the limit of its own policy allows. -/
namespace RateLimit.Postgres

open Machine

/-! ## Mutations of a row -/

/-- A mutation of a shared row by the strict or by the released path. -/
structure RowCall where
  strict : Bool
  request : ValidRequest

/-- What a path reads of a row. -/
def readRow (row : Option WireState) (strict : Bool) : Except WrappedError (Option PersistedState) :=
  match row with
  | none => .ok none
  | some wire => (decodeStateMode wire strict).map some

/-- One mutation: decode, mutate, encode. An error leaves the row alone. -/
def rowStep (row : Option WireState) (call : RowCall) : Machine (Option WireState × Answer) :=
  match readRow row call.strict with
  | .error problem => pure (row, ⟨{}, some problem.sentinel⟩)
  | .ok current => do
    let result ← mutateStateMode current call.request.toRequest call.strict
    pure ((result.next.map encodeState).or row, ⟨result.decision, result.error⟩)

theorem rowStep_reads {request : ValidRequest} (reads : readRow row strict = .ok current) :
    rowStep row ⟨strict, request⟩ = mutateStateMode current request.toRequest strict >>= fun result =>
      pure ((result.next.map encodeState).or row, ⟨result.decision, result.error⟩) := by
  unfold rowStep
  rw [reads]

/-- The mark a strict writer leaves in the document of a window for carried usage. -/
def Marked (state : PersistedState) : Prop := state.remainder ≠ 0 ∧ state.lastMicros = 1

instance (state : PersistedState) : Decidable (Marked state) :=
  inferInstanceAs (Decidable (state.remainder ≠ 0 ∧ state.lastMicros = 1))

/-- A released call leaves no more behind than its policy allows: not more tokens than
the limit, a window in the exact range, and no usage above the limit without a mark. -/
def Fits (period : Nat) (state : PersistedState) (request : Request) : Prop :=
  let now := (clampRequest state request).now.unixMicro
  match request.policy.algorithm with
  | .tokenBucket => state.tokens ≤ request.policy.limit + request.cost
  | .fixedWindow => -9007199254740991 ≤ windowStart now period ∧
      (windowUsed period state now ≤ request.policy.limit ∨ Marked state)
  | .slidingWindow => (ringOf state.segments).total (oldestAt now period) ≤ request.policy.limit ∨ Marked state
  | _ => True

/-! ## What a row holds -/

/-- A document that some path wrote under `policy`, as the released path reads it. -/
structure Shared (policy : Policy) (period : Nat) (state : PersistedState) : Prop where
  schema : state.schema = stateSchema
  policyID : state.policyID = policy.id
  algorithm : state.algorithm = policy.algorithm
  revision : state.revision = policy.revision
  plain : state.periodMicros = 0 ∧ state.carried = false
  early : -9007199254740991 ≤ state.observedMicros
  room : state.observedMicros + period ≤ 9007199254740991
  token : policy.algorithm = .tokenBucket →
    state.remainder < period ∧ ExactMicros state.lastMicros ∧ state.tokens ≤ 9007199254740991
  used : policy.algorithm = .fixedWindow → state.used ≤ 9007199254740991
  metadata : usesWindowMetadata policy.algorithm = true →
    state.remainder = 0 ∨ (state.remainder = period ∧ (state.lastMicros = 0 ∨ state.lastMicros = 1))
  segments : policy.algorithm = .slidingWindow → SegmentsOk state.segments
  placed : policy.algorithm = .slidingWindow → (ringOf state.segments).Placed
    (oldestAt state.observedMicros period) (segmentAt state.observedMicros period)
  total : policy.algorithm = .slidingWindow →
    (ringOf state.segments).total (oldestAt state.observedMicros period) ≤ 9007199254740991

/-- The strict path takes the document for one its writer could have left. -/
structure Adoptable (policy : Policy) (period : Nat) (state : PersistedState) : Prop where
  token : policy.algorithm = .tokenBucket → state.tokens ≤ policy.limit
  window : policy.algorithm = .fixedWindow → ExactMicros state.window
  fixed : policy.algorithm = .fixedWindow → policy.limit < state.used → Marked state
  sliding : policy.algorithm = .slidingWindow →
    policy.limit < (ringOf state.segments).total (oldestAt state.observedMicros period) → Marked state

/-- A document as the strict path reads it. -/
def strictView (state : PersistedState) : PersistedState :=
  if usesWindowMetadata state.algorithm = true ∧ state.remainder ≠ 0 then
    { state with periodMicros := state.remainder, carried := decide (state.lastMicros = 1) }
  else state

theorem strictView_fields (state : PersistedState) :
    (strictView state).schema = state.schema ∧ (strictView state).policyID = state.policyID ∧
      (strictView state).algorithm = state.algorithm ∧ (strictView state).revision = state.revision ∧
      (strictView state).observedMicros = state.observedMicros ∧ (strictView state).tokens = state.tokens ∧
      (strictView state).remainder = state.remainder ∧ (strictView state).lastMicros = state.lastMicros ∧
      (strictView state).window = state.window ∧ (strictView state).used = state.used ∧
      (strictView state).segments = state.segments := by
  unfold strictView
  split <;> exact ⟨rfl, rfl, rfl, rfl, rfl, rfl, rfl, rfl, rfl, rfl, rfl⟩

section
variable {policy : Policy} {state : PersistedState}

theorem Shared.wire_eq (shared : Shared policy period state) : state.wire.state = state := by
  obtain ⟨unrecorded, unmarked⟩ := shared.plain
  rw [wire_state, ← unrecorded, ← unmarked]

theorem Shared.decodes (shared : Shared policy period state) (sound : policy.Sound)
    (rate : policy.algorithm.IsRate) (small : period ≤ 9007199254740991) (strict : Bool) :
    decodeStateMode state.wire strict = .ok (if strict then strictView state else state) := by
  have named := identified shared.schema shared.policyID shared.algorithm sound rate
  rw [decodeStateMode_wire strict named _ rfl rfl rfl (by simp [PersistedState.wire]), shared.wire_eq]
  unfold decodeMetadata strictView
  cases strict with
  | false => simp
  | true =>
    by_cases windowed : usesWindowMetadata state.algorithm = true ∧ state.remainder ≠ 0
    · rcases shared.metadata (by rw [← shared.algorithm]; exact windowed.1) with none | ⟨recorded, mark⟩
      · exact absurd none windowed.2
      · rw [if_pos ⟨rfl, windowed⟩, if_pos windowed, if_neg]
        · rfl
        · unfold maxExactMicros
          omega
    · rw [if_neg (fun both => windowed both.2), if_neg windowed]
      rfl

theorem Shared.reads (shared : Shared policy period state) (sound : policy.Sound)
    (rate : policy.algorithm.IsRate) (small : period ≤ 9007199254740991) (strict : Bool) :
    readRow (some state.wire) strict = .ok (some (if strict then strictView state else state)) := by
  unfold readRow
  dsimp only
  rw [shared.decodes sound rate small]
  rfl

/-! ## The strict path -/

theorem strictView_marked (windowed : usesWindowMetadata state.algorithm = true) :
    Marked state ↔ (strictView state).carried = true ∧ state.remainder ≠ 0 := by
  unfold strictView Marked
  by_cases recorded : state.remainder ≠ 0
  · rw [if_pos ⟨windowed, recorded⟩]
    simp [recorded]
  · rw [if_neg (fun both => recorded both.2)]
    simp [recorded]

variable {request : Request} (shared : Shared policy period state) (follows : Follows request.policy policy)
  (bounds : request.Bounds period)
include shared

theorem Shared.carried (windowed : usesWindowMetadata policy.algorithm = true) :
    (strictView state).carried = true ↔ Marked state := by
  rw [strictView_marked (by rw [shared.algorithm]; exact windowed)]
  refine ⟨fun carried => ⟨carried, fun unrecorded => ?_⟩, fun both => both.1⟩
  unfold strictView at carried
  rw [if_neg (fun both => both.2 unrecorded), shared.plain.2] at carried
  cases carried

theorem Shared.observed : ExactMicros state.observedMicros := by
  have early := shared.early
  have room := shared.room
  exact ⟨early, by omega⟩

include follows bounds

/-- Of the tests that do not depend on the time, an adoptable row fails none. -/
theorem Shared.stored_iff : StoredOk (strictView state) request.policy period ↔
    (policy.algorithm = .tokenBucket → request.policy = policy → state.tokens ≤ policy.limit) ∧
      (policy.algorithm = .fixedWindow → ExactMicros state.window ∧
        (request.policy = policy → policy.limit < state.used → Marked state)) := by
  obtain ⟨schema, policyID, algorithm, revision, observed, tokens, remainder, last, window, used, segments⟩ :=
    strictView_fields state
  have small := bounds.period_le
  have same : (strictView state).revision = request.policy.revision ↔ request.policy = policy := by
    rw [revision, shared.revision]
    exact ⟨fun equal => follows.revision equal.symm, fun equal => by rw [equal]⟩
  constructor
  · intro stored
    refine ⟨fun token equal => ?_, fun fixed => ?_⟩
    · have ok := (stored.token (by rw [follows.algorithm, token])).within (same.mpr equal)
      rwa [tokens, equal] at ok
    · have ok := stored.fixed (by rw [follows.algorithm, fixed])
      refine ⟨by rw [← window]; exact ok.window, fun equal excess => ?_⟩
      rw [← shared.carried (by rw [fixed]; rfl)]
      exact ok.carried (same.mpr equal) (by rw [equal, used]; exact excess)
  · rintro ⟨token, fixed⟩
    refine ⟨schema.trans shared.schema, policyID.trans (shared.policyID.trans follows.id.symm),
      algorithm.trans (shared.algorithm.trans follows.algorithm.symm), by rw [observed]; exact shared.observed,
      fun kind => ?_, fun kind => ?_, fun kind => ?_⟩
    all_goals rw [follows.algorithm] at kind
    · obtain ⟨fraction, exact, -⟩ := shared.token kind
      refine ⟨by rw [last]; exact exact, by rw [remainder]; omega, fun _ => by rw [remainder]; exact fraction,
        fun equal => ?_⟩
      rw [tokens, same.mp equal]
      exact token kind (same.mp equal)
    · obtain ⟨exact, carried⟩ := fixed kind
      refine ⟨by rw [window]; exact exact, by rw [used]; exact shared.used kind, fun equal excess => ?_⟩
      rw [shared.carried (by rw [kind]; rfl)]
      refine carried (same.mp equal) ?_
      rwa [used, same.mp equal] at excess
    · rw [segments]
      exact shared.segments kind

/-- Of the tests that need the effective time, a row fails at most the one for usage
above the limit. -/
theorem Shared.effective_iff :
    EffectiveOk (strictView state) (clampRequest (strictView state) request) period ↔
      (policy.algorithm = .slidingWindow → request.policy = policy → policy.limit <
        (ringOf state.segments).total (oldestAt (max request.now.unixMicro state.observedMicros) period) →
          Marked state) := by
  obtain ⟨-, -, algorithm, revision, observed, -, -, -, -, -, segments⟩ := strictView_fields state
  have later : state.observedMicros ≤ max request.now.unixMicro state.observedMicros := le_max_right _ _
  have move := segment_mono bounds.period_pos later
  have now : (clampRequest (strictView state) request).now.unixMicro =
      max request.now.unixMicro state.observedMicros := by rw [clampRequest_unixMicro, observed]
  have same : (strictView state).revision = request.policy.revision ↔ request.policy = policy := by
    rw [revision, shared.revision]
    exact ⟨fun equal => follows.revision equal.symm, fun equal => by rw [equal]⟩
  constructor
  · intro timely sliding equal excess
    rw [← shared.carried (by rw [sliding]; rfl)]
    refine timely.carried (by rw [clampRequest_policy, follows.algorithm, sliding])
      (by rw [clampRequest_policy]; exact same.mpr equal) ?_
    rw [clampRequest_policy, equal, segments, now]
    exact excess
  · intro carried
    refine ⟨fun windowed => ?_, fun kind => ?_, fun kind => ?_, fun kind equal excess => ?_⟩
    all_goals rw [clampRequest_policy, follows.algorithm] at *
    · unfold strictView
      by_cases recorded : state.remainder ≠ 0
      · rw [if_pos ⟨by rw [shared.algorithm]; exact windowed, recorded⟩]
        rcases shared.metadata windowed with none | ⟨period, -⟩
        · exact absurd none recorded
        · exact Or.inr (by rw [period])
      · rw [if_neg (fun both => recorded both.2)]
        exact Or.inl shared.plain.1
    · rw [segments, now]
      exact (shared.placed kind).slide move.1 move.2
    · rw [segments, now]
      exact (Ring.total_anti _ move.1).trans (shared.total kind)
    · rw [shared.carried (by rw [kind]; rfl)]
      refine carried kind (same.mp equal) ?_
      rwa [segments, now, same.mp equal] at excess

/-- An adoptable row passes all tests. -/
theorem Adoptable.passes (adoptable : Adoptable policy period state) :
    StoredOk (strictView state) request.policy period ∧
      EffectiveOk (strictView state) (clampRequest (strictView state) request) period := by
  constructor
  · rw [shared.stored_iff follows bounds]
    exact ⟨fun token _ => adoptable.token token,
      fun fixed => ⟨adoptable.window fixed, fun _ => adoptable.fixed fixed⟩⟩
  · rw [shared.effective_iff follows bounds]
    intro sliding _ excess
    exact adoptable.sliding sliding (excess.trans_le
      (Ring.total_anti _ (segment_mono bounds.period_pos (le_max_right _ _)).1))

end

/-- What the strict path writes can be adopted. -/
theorem Kept.shared (kept : Kept state policy period) (rate : policy.algorithm.IsRate)
    (limit : policy.limit ≤ 9007199254740991) (room : state.observedMicros + period ≤ 9007199254740991) :
    ∃ next, encodeState state = next.wire ∧ Shared policy period next ∧ Adoptable policy period next := by
  obtain ⟨early, -⟩ := kept.observed
  have positive := kept.period_pos
  by_cases windowed : usesWindowMetadata policy.algorithm = true
  · have recorded := kept.recorded windowed
    have word : (state.periodMicros % 18446744073709551616).toNat = period := by omega
    refine ⟨{ state with remainder := period, lastMicros := if state.carried then 1 else 0,
                         periodMicros := 0, carried := false }, ?_, ?_, ?_⟩
    · unfold encodeState
      rw [if_pos ⟨by rw [kept.algorithm]; exact windowed, by omega⟩, word]
      rfl
    · refine ⟨kept.schema, kept.policyID, kept.algorithm, kept.revision, ⟨rfl, rfl⟩, early, room, fun token => ?_,
        fun fixed => (kept.fixed fixed).used, fun _ => Or.inr ⟨rfl, ?_⟩, fun sliding => (kept.sliding sliding).segments,
        fun sliding => (kept.sliding sliding).placed, fun sliding => (kept.sliding sliding).total⟩
      · rw [token] at windowed
        cases windowed
      · split <;> simp
    · have marks (carried : state.carried = true) : Marked { state with
          remainder := period, lastMicros := if state.carried then 1 else 0, periodMicros := 0, carried := false } := by
        refine ⟨by dsimp only; omega, ?_⟩
        rw [if_pos carried]
      refine ⟨fun token => ?_, fun fixed => (kept.fixed fixed).window, fun fixed excess => marks ?_,
        fun sliding excess => marks ?_⟩
      · rw [token] at windowed
        cases windowed
      · exact (kept.fixed fixed).carried kept.revision excess
      · exact (kept.sliding sliding).carried excess
  · have token : policy.algorithm = .tokenBucket := by
      rcases rate with kind | kind | kind
      · exact kind
      all_goals exact absurd (by rw [kind]; rfl) windowed
    have ok := kept.token token
    have within := ok.within kept.revision
    refine ⟨{ state with periodMicros := 0, carried := false }, ?_, ?_, ?_⟩
    · unfold encodeState
      rw [if_neg (fun both => windowed (by rw [← kept.algorithm]; exact both.1))]
      rfl
    · refine ⟨kept.schema, kept.policyID, kept.algorithm, kept.revision, ⟨rfl, rfl⟩, early, room,
        fun _ => ⟨ok.fraction kept.revision, ok.last, within.trans limit⟩, ?_, ?_, ?_, ?_, ?_⟩
      all_goals
        intro other
        rw [token] at other
        cases other
    · refine ⟨fun _ => within, ?_, ?_, ?_⟩
      all_goals
        intro other
        rw [token] at other
        cases other

theorem outcome_shared (accepted : Accepted current request period) :
    ∃ next, encodeState (outcome accepted).state = next.wire ∧ Shared request.policy period next ∧
      Adoptable request.policy period next := by
  have policy : (effective current request).policy = request.policy := clampRequest_policy _ _
  have limit := accepted.bounds.limit_le
  rw [policy] at limit
  refine (outcome_kept accepted).shared accepted.kind limit ?_
  rw [outcome_observed]
  exact accepted.bounds.room

/-- A strict call on a row: it overflows, it finds a row corrupt that is not
adoptable, or it writes one that is. -/
theorem Shared.strict_step {request : ValidRequest} (shared : Shared policy period state)
    (follows : Follows request.policy policy) (bounds : request.toRequest.Bounds period) (sound : policy.Sound)
    (kind : request.policy.algorithm.IsRate) :
    rowStep (some state.wire) ⟨true, request⟩ = pure (some state.wire, ⟨{}, some .overflow⟩) ∨
      (rowStep (some state.wire) ⟨true, request⟩ = pure (some state.wire, ⟨{}, some .corrupt⟩) ∧
        ¬ Adoptable policy period state) ∨
      ∃ next answer, rowStep (some state.wire) ⟨true, request⟩ = pure (some next.wire, answer) ∧
        answer.error ≠ some .corrupt ∧ Shared request.policy period next ∧ Adoptable request.policy period next := by
  have reads := shared.reads sound (by rw [← follows.algorithm]; exact kind) bounds.period_le true
  rw [rowStep_reads reads]
  rcases mutateState_cases kind bounds (some (strictView state)) with
    ⟨overflow, -⟩ | ⟨corrupt, _, ⟨⟩, refused⟩ | ⟨accepted, result⟩
  · left
    exact congrArg (· >>= _) overflow
  · right; left
    refine ⟨congrArg (· >>= _) corrupt, fun adoptable => ?_⟩
    obtain ⟨stored, timely⟩ := adoptable.passes shared follows bounds
    obtain ⟨-, untimely⟩ := refused stored
    exact untimely timely
  · right; right
    obtain ⟨next, written, held, adopted⟩ := outcome_shared accepted
    refine ⟨next, (outcome accepted).answer, ?_, ?_, held, adopted⟩
    · refine (congrArg (· >>= _) result).trans ?_
      show (pure (some (encodeState (outcome accepted).state), _) : Machine _) = _
      rw [written]
      rfl
    · rcases outcome_error accepted with error | error <;> simp [error]

/-- A strict call on a row that is not there. -/
theorem strict_step_new {request : ValidRequest} (bounds : request.toRequest.Bounds period)
    (kind : request.policy.algorithm.IsRate) :
    rowStep none ⟨true, request⟩ = pure (none, ⟨{}, some .overflow⟩) ∨
      ∃ next answer, rowStep none ⟨true, request⟩ = pure (some next.wire, answer) ∧
        answer.error ≠ some .corrupt ∧ Shared request.policy period next ∧ Adoptable request.policy period next := by
  rw [rowStep_reads rfl]
  rcases mutateState_cases kind bounds none with ⟨overflow, -⟩ | ⟨-, _, ⟨⟩, -⟩ | ⟨accepted, result⟩
  · left
    exact congrArg (· >>= _) overflow
  · right
    obtain ⟨next, written, held, adopted⟩ := outcome_shared accepted
    refine ⟨next, (outcome accepted).answer, ?_, ?_, held, adopted⟩
    · refine (congrArg (· >>= _) result).trans ?_
      show (pure (some (encodeState (outcome accepted).state), _) : Machine _) = _
      rw [written]
      rfl
    · rcases outcome_error accepted with error | error <;> simp [error]

/-- A strict call in range that fails a test finds the row corrupt. -/
theorem Shared.refuses {request : ValidRequest} (shared : Shared policy period state)
    (sound : policy.Sound) (kind : request.policy.algorithm.IsRate) (same : request.policy = policy)
    (bounds : request.toRequest.Bounds period)
    (window : policy.algorithm = .fixedWindow → ExactMicros (windowStart request.now.unixMicro period))
    (fails : ¬ (StoredOk (strictView state) request.policy period ∧
      EffectiveOk (strictView state) (clampRequest (strictView state) request.toRequest) period)) :
    rowStep (some state.wire) ⟨true, request⟩ = pure (some state.wire, ⟨{}, some .corrupt⟩) := by
  have reads := shared.reads sound (by rw [← same]; exact kind) bounds.period_le true
  rw [rowStep_reads reads]
  rcases mutateState_cases kind bounds (some (strictView state)) with
    ⟨-, ⟨fixed, outside⟩ | ⟨_, ⟨⟩, late⟩⟩ | ⟨corrupt, -⟩ | ⟨accepted, -⟩
  · exact absurd (window (by rw [← same]; exact fixed)) outside
  · have room := shared.room
    have own := bounds.room
    rw [(strictView_fields state).2.2.2.2.1] at late
    omega
  · exact congrArg (· >>= _) corrupt
  · exact absurd ⟨accepted.stored, accepted.timely⟩ fails

/-! ## The released path -/

/-- What `mutateToken` leaves behind, also on a balance above the limit, where the
reset it computes wraps around. -/
theorem mutateToken_returns {request : Request} (bounds : request.Bounds period)
    (fraction : state.remainder < period) (small : state.tokens ≤ 9007199254740991) :
    ∃ applied, (mutateToken state request).Returns applied ∧
      applied.state =
        (spendToken (rateOf bounds) (refilled (rateOf bounds) state request.now.unixMicro) request).state := by
  by_cases within : state.tokens ≤ request.policy.limit
  · exact ⟨_, returns_of_eq (mutateToken_exact bounds within fraction), rfl⟩
  · have cost := bounds.cost_le
    have tokens : (refilled (rateOf bounds) state request.now.unixMicro).tokens = state.tokens := by
      show ((rateOf bounds).refill _ _).tokens = _
      rw [(rateOf bounds).refill_over (by simp only [rateOf]; omega)]
    have enough : ¬ (refilled (rateOf bounds) state request.now.unixMicro).tokens < request.cost := by omega
    obtain ⟨-, after⟩ := spendToken_room (rateOf bounds) enough
    unfold mutateToken
    rw [refillToken_exact bounds fraction, pure_bind, after]
    rw [if_neg enough, u64_sub_exact (by omega) (by omega), pure_bind]
    obtain ⟨reset, returns⟩ := tokenDuration_returns
      (((request.policy.limit : Int) -
        ((refilled (rateOf bounds) state request.now.unixMicro).tokens - request.cost : Nat)) %
        18446744073709551616).toNat (refilled (rateOf bounds) state request.now.unixMicro).remainder request.policy
    exact ⟨_, (u64_returns _).bind (returns.bind (returns_pure _)), rfl⟩

theorem spendUsage_metadata (state : PersistedState) (request : Request) (reset : Time) :
    (spendUsage state request reset).state.remainder = state.remainder ∧
      (spendUsage state request reset).state.lastMicros = state.lastMicros := by
  unfold spendUsage
  split <;> exact ⟨rfl, rfl⟩

theorem spendSegment_metadata (state : PersistedState) (request : Request) (index width earliest : Int) :
    (spendSegment state request index width earliest).state.remainder = state.remainder ∧
      (spendSegment state request index width earliest).state.lastMicros = state.lastMicros := by
  unfold spendSegment
  dsimp only
  split <;> exact spendUsage_metadata _ _ _

/-- A step on a sliding window counts what it found, or stays within the limit. -/
theorem spendSliding_total {request : Request} (bounds : request.Bounds period) (state : PersistedState)
    (placed : (ringOf state.segments).Placed (oldestAt request.now.unixMicro period)
      (segmentAt request.now.unixMicro period)) :
    (ringOf (spendSliding period state request).state.segments).total (oldestAt request.now.unixMicro period) =
        (ringOf state.segments).total (oldestAt request.now.unixMicro period) ∨
      ((ringOf (spendSliding period state request).state.segments).total
          (oldestAt request.now.unixMicro period) ≤ request.policy.limit ∧
        (ringOf state.segments).total (oldestAt request.now.unixMicro period) ≤ request.policy.limit) := by
  have cost := bounds.cost_pos
  have same := slots_total bounds placed
  rcases spendSliding_cases period state request with ⟨-, segments⟩ | ⟨-, enough, segments⟩
  · left
    rw [segments, same]
  · right
    rw [segments, ringOf_creditSlot, Ring.total_credit, same]
    · omega
    · rw [claimSlot_index]
      exact (segment_span bounds _).1

/-- A state without the mark for carried usage, as a document of the released path
holds it. -/
def unmarked (state : PersistedState) : PersistedState := { state with carried := false }

theorem Shared.unmarked_eq (shared : Shared policy period state) : unmarked state = state := by
  unfold unmarked
  rw [← shared.plain.2]

/-- The released machine does not read the mark for carried usage. -/
theorem spendLegacy_carried (rate : TokenRate) (marked : Bool) (state : PersistedState) (request : Request) :
    unmarked (spendLegacy rate { state with carried := marked } request).state =
      unmarked (spendLegacy rate state request).state := by
  unfold spendLegacy unmarked
  split
  · unfold spendToken
    split
    · rename_i short
      rw [if_pos (show (refilled rate state request.now.unixMicro).tokens < request.cost from short)]
      rfl
    · rename_i enough
      rw [if_neg (show ¬ (refilled rate state request.now.unixMicro).tokens < request.cost from enough)]
      rfl
  · unfold spendFixed spendUsage
    dsimp only
    by_cases short : request.policy.limit - (if state.window = windowStart request.now.unixMicro rate.period
        then state.used else 0) < request.cost
    · rw [if_pos short, if_pos short]
    · rw [if_neg short, if_neg short]
  · exact congrArg (fun applied : Applied => { applied.state with carried := false })
      (spendSegment_carried (sweptLegacy rate.period state request) marked request _ _ _)

/-- What a released call leaves behind in the document. -/
def releasedNext (rate : TokenRate) (state : PersistedState) (request : Request) : PersistedState :=
  unmarked (spendLegacy rate (stamped state (clampRequest state request)) (clampRequest state request)).state

section
variable {policy : Policy} {state : PersistedState} {request : Request} (shared : Shared policy period state)
  (algorithm : request.policy.algorithm = policy.algorithm) (bounds : request.Bounds period)
include shared bounds

theorem Shared.clamped : (clampRequest state request).Bounds period :=
  clampRequest_bounds bounds (by
    have room := shared.room
    have late := bounds.room
    omega)

omit bounds in
/-- The window of a row has not moved on past what a released call counts. -/
theorem Shared.slid (bounds : request.Bounds period) (sliding : policy.algorithm = .slidingWindow) :
    (ringOf state.segments).Placed (oldestAt (clampRequest state request).now.unixMicro period)
        (segmentAt (clampRequest state request).now.unixMicro period) ∧
      (ringOf state.segments).total (oldestAt (clampRequest state request).now.unixMicro period) ≤
        9007199254740991 := by
  have later : state.observedMicros ≤ (clampRequest state request).now.unixMicro := by
    rw [clampRequest_unixMicro]
    exact le_max_right _ _
  have move := segment_mono bounds.period_pos later
  exact ⟨(shared.placed sliding).slide move.1 move.2, (Ring.total_anti _ move.1).trans (shared.total sliding)⟩

include algorithm

/-- What a released call computes on a row, and on a state that an earlier one left in
memory: there a fixed window may be marked, and no released call looks at the mark. -/
theorem Shared.dispatch_returns (kind : request.policy.algorithm.IsRate) (marked : Bool) :
    ∃ applied, (dispatch { state with carried := marked } (clampRequest state request) false).Returns applied ∧
      unmarked applied.state = releasedNext (rateOf bounds) state request := by
  have moved := shared.clamped bounds
  have rate : rateOf moved = rateOf bounds := rateOf_eq _ _ (clampRequest_policy _ _)
  unfold releasedNext
  rw [← spendLegacy_carried (rateOf bounds) marked, ← rate]
  unfold dispatch spendLegacy
  rcases kind with kind | kind | kind
  · have token : (clampRequest state request).policy.algorithm = .tokenBucket := by rw [clampRequest_policy, kind]
    obtain ⟨fraction, -, small⟩ := shared.token (by rw [← algorithm, kind])
    rw [token]
    obtain ⟨applied, returns, after⟩ : ∃ applied, (mutateToken { stamped state (clampRequest state request) with
        carried := marked } (clampRequest state request)).Returns applied ∧ applied.state = _ :=
      mutateToken_returns moved fraction small
    exact ⟨applied, returns, by rw [after]⟩
  · have fixed : (clampRequest state request).policy.algorithm = .fixedWindow := by rw [clampRequest_policy, kind]
    rw [fixed]
    exact ⟨_, returns_of_eq (mutateFixed_exact moved _), rfl⟩
  · have sliding : (clampRequest state request).policy.algorithm = .slidingWindow := by rw [clampRequest_policy, kind]
    obtain ⟨placed, total⟩ := shared.slid bounds (by rw [← algorithm, kind])
    rw [sliding]
    exact ⟨_, returns_of_eq (mutateSlidingLegacy_exact moved
      (fun slot => (shared.segments (by rw [← algorithm, kind]) slot).2) placed total), rfl⟩

omit algorithm in
/-- The header of what a released call leaves. -/
theorem Shared.next_header :
    (releasedNext (rateOf bounds) state request).schema = state.schema ∧
      (releasedNext (rateOf bounds) state request).policyID = state.policyID ∧
      (releasedNext (rateOf bounds) state request).algorithm = state.algorithm ∧
      (releasedNext (rateOf bounds) state request).revision = request.policy.revision ∧
      (releasedNext (rateOf bounds) state request).observedMicros = (clampRequest state request).now.unixMicro ∧
      (releasedNext (rateOf bounds) state request).periodMicros = 0 := by
  obtain ⟨carried, same⟩ := spend_legacy (rateOf bounds) (stamped state (clampRequest state request))
    (clampRequest state request)
  have frame := spend_frame (rateOf bounds) (stamped state (clampRequest state request)) (clampRequest state request)
  rw [same] at frame
  exact ⟨frame.schema, frame.policyID, frame.algorithm, frame.revision.trans (by
    show (clampRequest state request).policy.revision = _
    rw [clampRequest_policy]), frame.observed, frame.period.trans shared.plain.1⟩

omit shared algorithm in
/-- A released call on a balance. -/
theorem next_token (state : PersistedState) (token : request.policy.algorithm = .tokenBucket) :
    ∃ level, level = (rateOf bounds).refill (levelOf state)
        ((clampRequest state request).now.unixMicro - state.lastMicros).toNat ∧
      (releasedNext (rateOf bounds) state request).remainder = level.remainder ∧
      (releasedNext (rateOf bounds) state request).lastMicros =
        max state.lastMicros (clampRequest state request).now.unixMicro ∧
      (releasedNext (rateOf bounds) state request).tokens =
        if level.tokens < request.cost then level.tokens else level.tokens - request.cost := by
  refine ⟨_, rfl, ?_⟩
  unfold releasedNext spendLegacy
  rw [clampRequest_policy, token]
  dsimp only
  unfold spendToken
  rw [clampRequest_cost]
  split
  · rename_i short
    exact ⟨rfl, rfl, (if_pos short).symm⟩
  · rename_i enough
    exact ⟨rfl, rfl, (if_neg enough).symm⟩

omit shared algorithm in
/-- A released call on a fixed window. -/
theorem next_fixed (state : PersistedState) (fixed : request.policy.algorithm = .fixedWindow) :
    (releasedNext (rateOf bounds) state request).window =
        windowStart (clampRequest state request).now.unixMicro period ∧
      (releasedNext (rateOf bounds) state request).remainder = state.remainder ∧
      (releasedNext (rateOf bounds) state request).lastMicros = state.lastMicros ∧
      ((releasedNext (rateOf bounds) state request).used =
          windowUsed period state (clampRequest state request).now.unixMicro ∨
        ((releasedNext (rateOf bounds) state request).used ≤ request.policy.limit ∧
          windowUsed period state (clampRequest state request).now.unixMicro ≤ request.policy.limit)) := by
  have shape : releasedNext (rateOf bounds) state request =
      { (spendFixed period (stamped state (clampRequest state request)) (clampRequest state request)).state with
        carried := false } := by
    unfold releasedNext spendLegacy
    rw [clampRequest_policy, fixed]
    rfl
  have cost := bounds.cost_pos
  obtain ⟨window, spent⟩ := spendFixed_cases period (stamped state (clampRequest state request))
    (clampRequest state request)
  rw [shape]
  refine ⟨window, ?_, ?_, ?_⟩
  · exact (spendUsage_metadata _ _ _).1
  · exact (spendUsage_metadata _ _ _).2
  · rcases spent with ⟨-, used⟩ | ⟨-, enough, used⟩
    · exact Or.inl used
    · right
      rw [clampRequest_cost, clampRequest_policy] at enough
      rw [clampRequest_cost] at used
      change request.cost ≤ request.policy.limit -
        windowUsed period state (clampRequest state request).now.unixMicro at enough
      refine ⟨?_, by omega⟩
      rw [used]
      change windowUsed period state (clampRequest state request).now.unixMicro + request.cost ≤ _
      omega

omit algorithm in
/-- A released call on a sliding window. -/
theorem Shared.next_sliding (sliding : request.policy.algorithm = .slidingWindow)
    (algorithm : request.policy.algorithm = policy.algorithm) :
    (releasedNext (rateOf bounds) state request).remainder = state.remainder ∧
      (releasedNext (rateOf bounds) state request).lastMicros = state.lastMicros ∧
      SegmentsOk (releasedNext (rateOf bounds) state request).segments ∧
      (ringOf (releasedNext (rateOf bounds) state request).segments).Placed
        (oldestAt (clampRequest state request).now.unixMicro period)
        (segmentAt (clampRequest state request).now.unixMicro period) ∧
      (ringOf (releasedNext (rateOf bounds) state request).segments).total
        (oldestAt (clampRequest state request).now.unixMicro period) ≤ 9007199254740991 ∧
      ((ringOf (releasedNext (rateOf bounds) state request).segments).total
          (oldestAt (clampRequest state request).now.unixMicro period) =
          (ringOf state.segments).total (oldestAt (clampRequest state request).now.unixMicro period) ∨
        ((ringOf (releasedNext (rateOf bounds) state request).segments).total
            (oldestAt (clampRequest state request).now.unixMicro period) ≤ request.policy.limit ∧
          (ringOf state.segments).total (oldestAt (clampRequest state request).now.unixMicro period) ≤
            request.policy.limit)) := by
  have moved := shared.clamped bounds
  obtain ⟨placed, total⟩ := shared.slid bounds (by rw [← algorithm, sliding])
  have segments : (releasedNext (rateOf bounds) state request).segments =
      (spendSliding period (stamped state (clampRequest state request))
        (clampRequest state request)).state.segments := by
    obtain ⟨carried, same⟩ := spend_legacy (rateOf bounds) (stamped state (clampRequest state request))
      (clampRequest state request)
    have shape : spend (rateOf bounds) (stamped state (clampRequest state request)) (clampRequest state request) =
        spendSliding period (stamped state (clampRequest state request)) (clampRequest state request) := by
      simp only [spend, clampRequest_policy, sliding]
      rfl
    rw [← shape, same]
    rfl
  have kept := spendSliding_kept moved (stamped state (clampRequest state request))
    (shared.segments (by rw [← algorithm, sliding])) placed total
  have shape : releasedNext (rateOf bounds) state request = { (spendSlidingLegacy period
      (stamped state (clampRequest state request)) (clampRequest state request)).state with carried := false } := by
    unfold releasedNext spendLegacy
    rw [clampRequest_policy, sliding]
    rfl
  have usage := spendSliding_total moved (stamped state (clampRequest state request)) placed
  rw [clampRequest_policy] at usage
  refine ⟨?_, ?_, ?_⟩
  · rw [shape]
    exact (spendSegment_metadata _ _ _ _ _).1
  · rw [shape]
    exact (spendSegment_metadata _ _ _ _ _).2
  · rw [segments]
    exact ⟨kept.segments, kept.placed, kept.total, usage⟩

/-- A released call leaves the metadata of a window where the strict path put it. -/
theorem Shared.next_metadata (windowed : usesWindowMetadata policy.algorithm = true) :
    (releasedNext (rateOf bounds) state request).remainder = state.remainder ∧
      (releasedNext (rateOf bounds) state request).lastMicros = state.lastMicros := by
  cases which : request.policy.algorithm with
  | fixedWindow =>
    obtain ⟨-, remainder, last, -⟩ := next_fixed bounds state which
    exact ⟨remainder, last⟩
  | slidingWindow =>
    obtain ⟨remainder, last, -⟩ := shared.next_sliding bounds which algorithm
    exact ⟨remainder, last⟩
  | _ =>
    rw [← algorithm, which] at windowed
    cases windowed

/-- What a released call leaves is a row again. -/
theorem Shared.next (policyID : request.policy.id = policy.id) :
    Shared request.policy period (releasedNext (rateOf bounds) state request) := by
  have moved := shared.clamped bounds
  have early := moved.not_before
  have late := moved.room
  have limit := bounds.limit_le
  obtain ⟨schema, named, kind, revision, observed, unrecorded⟩ := shared.next_header bounds
  refine ⟨schema.trans shared.schema, named.trans (shared.policyID.trans policyID.symm),
    kind.trans (shared.algorithm.trans algorithm.symm), revision, ⟨unrecorded, rfl⟩, by rw [observed]; exact early,
    by rw [observed]; exact late, fun token => ?_, fun fixed => ?_, fun windowed => ?_, fun sliding => ?_,
    fun sliding => ?_, fun sliding => ?_⟩
  · obtain ⟨fraction, last, small⟩ := shared.token (by rw [← algorithm, token])
    obtain ⟨level, filled, remainder, clock, tokens⟩ := next_token bounds state token
    have part : level.remainder < period := by
      rw [filled]
      exact (rateOf bounds).refill_remainder_lt fraction
    have held : level.tokens ≤ 9007199254740991 := by
      rw [filled]
      by_cases within : state.tokens ≤ request.policy.limit
      · exact ((rateOf bounds).refill_tokens_le (show (levelOf state).tokens ≤ _ from within)).trans limit
      · rw [(rateOf bounds).refill_over
          (show request.policy.limit ≤ (levelOf state).tokens by show _ ≤ state.tokens; omega)]
        exact small
    refine ⟨by rw [remainder]; exact part, ?_, ?_⟩
    · rw [clock]
      unfold ExactMicros at last ⊢
      omega
    · rw [tokens]
      split <;> omega
  · obtain ⟨-, -, -, used⟩ := next_fixed bounds state fixed
    have stored := shared.used (by rw [← algorithm, fixed])
    have counted : windowUsed period state (clampRequest state request).now.unixMicro ≤ state.used := by
      unfold windowUsed
      split <;> omega
    omega
  · rw [algorithm] at windowed
    obtain ⟨remainder, last⟩ := shared.next_metadata algorithm bounds windowed
    have metadata := shared.metadata windowed
    rw [remainder, last]
    exact metadata
  · exact (shared.next_sliding bounds sliding algorithm).2.2.1
  · rw [observed]
    exact (shared.next_sliding bounds sliding algorithm).2.2.2.1
  · rw [observed]
    exact (shared.next_sliding bounds sliding algorithm).2.2.2.2.1

/-- And it can be adopted exactly where the call fits. -/
theorem Shared.next_adoptable (kind : request.policy.algorithm.IsRate) :
    Adoptable request.policy period (releasedNext (rateOf bounds) state request) ↔ Fits period state request := by
  have moved := shared.clamped bounds
  obtain ⟨-, -, -, -, observed, -⟩ := shared.next_header bounds
  unfold Fits
  rcases kind with kind | kind | kind <;> rw [kind]
  · obtain ⟨level, filled, -, -, tokens⟩ := next_token bounds state kind
    have balance : (releasedNext (rateOf bounds) state request).tokens ≤ request.policy.limit ↔
        state.tokens ≤ request.policy.limit + request.cost := by
      rw [tokens, filled]
      by_cases within : state.tokens ≤ request.policy.limit
      · have held : ((rateOf bounds).refill (levelOf state) ((clampRequest state request).now.unixMicro -
            state.lastMicros).toNat).tokens ≤ request.policy.limit := (rateOf bounds).refill_tokens_le within
        refine iff_of_true ?_ (by omega)
        split <;> omega
      · have cost := bounds.cost_le
        rw [(rateOf bounds).refill_over
          (show request.policy.limit ≤ (levelOf state).tokens by show _ ≤ state.tokens; omega)]
        change (if state.tokens < request.cost then state.tokens else state.tokens - request.cost) ≤ _ ↔ _
        split <;> omega
    rw [← balance]
    refine ⟨fun adoptable => adoptable.token kind, fun within => ⟨fun _ => within, ?_, ?_, ?_⟩⟩
    all_goals
      intro other
      rw [kind] at other
      cases other
  · obtain ⟨window, remainder, last, used⟩ := next_fixed bounds state kind
    have late := moved.room
    have start := (multiple_bounds (clampRequest state request).now.unixMicro
      (show (0 : Int) < period by exact_mod_cast bounds.period_pos)).1
    change windowStart (clampRequest state request).now.unixMicro period ≤ _ at start
    have mark : Marked (releasedNext (rateOf bounds) state request) ↔ Marked state := by
      unfold Marked
      rw [remainder, last]
    have exact : ExactMicros (releasedNext (rateOf bounds) state request).window ↔
        -9007199254740991 ≤ windowStart (clampRequest state request).now.unixMicro period := by
      rw [window]
      exact ⟨fun both => both.1, fun low => ⟨low, by omega⟩⟩
    constructor
    · intro adoptable
      refine ⟨exact.mp (adoptable.window kind), ?_⟩
      by_cases within : windowUsed period state (clampRequest state request).now.unixMicro ≤ request.policy.limit
      · exact Or.inl within
      · exact Or.inr (mark.mp (adoptable.fixed kind (by omega)))
    · rintro ⟨low, within⟩
      refine ⟨fun other => ?_, fun _ => exact.mpr low, fun _ excess => mark.mpr ?_, fun other => ?_⟩
      · rw [kind] at other
        cases other
      · rcases within with within | marked
        · omega
        · exact marked
      · rw [kind] at other
        cases other
  · obtain ⟨remainder, last, -, -, -, usage⟩ := shared.next_sliding bounds kind algorithm
    have mark : Marked (releasedNext (rateOf bounds) state request) ↔ Marked state := by
      unfold Marked
      rw [remainder, last]
    constructor
    · intro adoptable
      by_cases within : (ringOf state.segments).total
          (oldestAt (clampRequest state request).now.unixMicro period) ≤ request.policy.limit
      · exact Or.inl within
      · refine Or.inr (mark.mp (adoptable.sliding kind ?_))
        rw [observed]
        omega
    · intro within
      refine ⟨fun other => ?_, fun other => ?_, fun other => ?_, fun _ excess => mark.mpr ?_⟩
      · rw [kind] at other
        cases other
      · rw [kind] at other
        cases other
      · rw [kind] at other
        cases other
      · rw [observed] at excess
        rcases within with within | marked
        · omega
        · exact marked

end

theorem freshState_shared {request : Request} (bounds : request.Bounds period) :
    Shared request.policy period (freshState request false) := by
  obtain ⟨ready, -⟩ := freshState_legacy bounds
  have early := bounds.not_before
  have late := bounds.room
  have limit := bounds.limit_le
  refine ⟨rfl, rfl, rfl, rfl, ⟨rfl, rfl⟩, early, late, fun _ => ⟨bounds.period_pos, ⟨early, ?_⟩, limit⟩,
    fun _ => Nat.zero_le _, fun _ => Or.inl rfl, ready.segments, ready.placed, ready.total⟩
  show request.now.unixMicro ≤ 9007199254740991
  omega

/-- The released path on what a row holds, or on a state it left in memory itself. -/
theorem mutateStateLegacy_returns {request : Request} (bounds : request.Bounds period)
    (kind : request.policy.algorithm.IsRate) (current : Option PersistedState)
    (policyID : request.policy.id = policy.id) (algorithm : request.policy.algorithm = policy.algorithm)
    (shared : Shared policy period (unmarked (legacyLoaded current request))) :
    ∃ applied, (mutateStateLegacy current request).Returns (.finished current applied) ∧
      unmarked applied.state = releasedNext (rateOf bounds) (unmarked (legacyLoaded current request)) request ∧
      encodeState applied.state = (unmarked applied.state).wire := by
  obtain ⟨applied, returns, after⟩ := shared.dispatch_returns algorithm bounds kind
    (legacyLoaded current request).carried
  have loads : (mutateLoaded current (legacyLoaded current request) request false).Returns
      (.finished current applied) := by
    unfold mutateLoaded mutateEffective
    rw [if_neg (by decide)]
    exact returns.bind (returns_pure _)
  refine ⟨applied, ?_, after, ?_⟩
  · have enter : mutateStateLegacy current request = mutateStored current request false := by
      unfold mutateStateLegacy mutateStateMode windowOverflows
      rw [if_neg (by simp), pure_bind, if_neg (by decide)]
    rw [enter]
    unfold mutateStored
    cases current with
    | none => exact loads
    | some state =>
      have schema : state.schema = stateSchema := shared.schema
      have named : state.policyID = request.policy.id := shared.policyID.trans policyID.symm
      have same : state.algorithm = request.policy.algorithm := shared.algorithm.trans algorithm.symm
      dsimp only
      rw [checkStored, if_neg (not_not.mpr schema), if_neg (not_not.mpr named), if_neg (not_not.mpr same),
        if_neg (by decide), pure_bind]
      exact loads
  · have unrecorded : applied.state.periodMicros = 0 := by
      have header := (shared.next_header bounds).2.2.2.2.2
      rw [← after] at header
      exact header
    unfold encodeState
    rw [if_neg (fun both => both.2 unrecorded)]
    rfl

/-! ## Rows of a run -/

/-- A row in a run of `calls`: nothing, or a document that one of them left, and one
that can be adopted where `fine`. -/
def RowHeld (calls : List RowCall) (period : Nat) (fine : Prop) (row : Option WireState) : Prop :=
  ∀ wire, row = some wire → ∃ writer ∈ calls, ∃ state, wire = state.wire ∧
    Shared writer.request.policy period state ∧ (fine → Adoptable writer.request.policy period state)

theorem RowHeld.mono {fine less : Prop} (held : RowHeld calls period fine row) (implies : less → fine) :
    RowHeld calls period less row := by
  intro wire same
  obtain ⟨writer, among, state, written, shared, adoptable⟩ := held wire same
  exact ⟨writer, among, state, written, shared, fun less => adoptable (implies less)⟩

/-- A state in a run of released `calls` that is not encoded between them. -/
def Standing (calls : List RowCall) (period : Nat) (current : Option PersistedState) : Prop :=
  ∀ state, current = some state → ∃ writer ∈ calls, Shared writer.request.policy period (unmarked state)

/-- A row stands for what the released path reads of it. -/
theorem RowHeld.standing {fine : Prop} (held : RowHeld calls period fine row) :
    ∃ current : Option PersistedState, row = current.map (fun state => (unmarked state).wire) ∧
      (∀ request, unmarked (legacyLoaded current request) = legacyLoaded (row.map WireState.state) request) ∧
      Standing calls period current := by
  cases row with
  | none => exact ⟨none, rfl, fun _ => rfl, by rintro _ ⟨⟩⟩
  | some wire =>
    obtain ⟨writer, among, state, rfl, shared, -⟩ := held wire rfl
    refine ⟨some state, ?_, fun request => ?_, ?_⟩
    · rw [Option.map_some, shared.unmarked_eq]
    · rw [Option.map_some, shared.wire_eq]
      exact shared.unmarked_eq
    · rintro _ ⟨⟩
      exact ⟨writer, among, by rw [shared.unmarked_eq]; exact shared⟩

/-- The strict path never takes the row for corrupt, under whatever revision with the
same period. -/
def Adopted (calls : List RowCall) (period : Nat) (row : Option WireState) : Prop :=
  ∀ request : ValidRequest, request.policy.period = .ofMicros period →
    (∀ call ∈ calls, Follows request.policy call.request.policy) →
    ∃ result, rowStep row ⟨true, request⟩ = pure result ∧ result.2.error ≠ some .corrupt

/-- A call that leaves no more behind than its policy allows; a strict one never
does. -/
def Fitting (period : Nat) (entry : Entry (Option WireState) RowCall Answer) : Prop :=
  entry.input.strict = false →
    Fits period (legacyLoaded (entry.before.map WireState.state) entry.input.request.toRequest)
      entry.input.request.toRequest

section
variable {period : Nat} {calls : List RowCall} (rate : ∀ call ∈ calls, call.request.policy.algorithm.IsRate)
  (revisions : Revisions (calls.map RowCall.request))
  (unchanged : ∀ call ∈ calls, call.request.policy.period = .ofMicros period)
include rate revisions unchanged

omit revisions in
theorem call_bounds (member : call ∈ calls) : call.request.toRequest.Bounds period :=
  bounds_of_period call.request (rate call member) (unchanged call member)

omit rate unchanged in
theorem call_follows (first : call ∈ calls) (second : other ∈ calls) :
    Follows call.request.policy other.request.policy :=
  revisions _ (List.mem_map_of_mem first) _ (List.mem_map_of_mem second)

omit revisions in
/-- A call under the policy of another, at any time that leaves room. -/
theorem call_moved {micros : Int} (member : call ∈ calls) (early : -9007199254740991 ≤ micros)
    (room : micros + period ≤ 9007199254740991) :
    ∃ request : ValidRequest, request.policy = call.request.policy ∧ request.now.unixMicro = micros ∧
      request.toRequest.Bounds period := by
  have kind := rate call member
  have duration : call.request.policy.duration.microseconds = period := by
    have notConcurrent : call.request.policy.algorithm ≠ .concurrency := by
      intro concurrent
      rw [concurrent] at kind
      simp [Algorithm.IsRate] at kind
    rw [Policy.duration, if_neg notConcurrent, unchanged call member, Duration.microseconds_ofMicros]
  let request := call.request.moved micros early (by rw [duration]; omega)
  exact ⟨request, rfl, Time.unixMicro_ofUnixMicro micros, bounds_of_period request kind (unchanged call member)⟩

omit revisions in
/-- A row that cannot be adopted is refused to its own writer, at the time of the
observation, or at time zero where the window of that time is out of range. -/
theorem Shared.refused (writer : call ∈ calls) (shared : Shared call.request.policy period state)
    (inadequate : ¬ Adoptable call.request.policy period state) :
    ∃ request : ValidRequest, request.policy = call.request.policy ∧
      rowStep (some state.wire) ⟨true, request⟩ = pure (some state.wire, ⟨{}, some .corrupt⟩) := by
  have kind := rate call writer
  have bounds := call_bounds rate unchanged writer
  have sound := call.request.built.sound
  cases algorithm : call.request.policy.algorithm with
  | tokenBucket =>
    obtain ⟨request, same, now, timed⟩ := call_moved rate unchanged writer shared.early shared.room
    have follows : Follows request.policy call.request.policy := by rw [same]; exact Follows.refl _
    refine ⟨request, same, shared.refuses sound (by rw [same]; exact kind) same timed (by simp [algorithm])
      fun passes => inadequate ?_⟩
    obtain ⟨stored, -⟩ := passes
    rw [shared.stored_iff follows timed] at stored
    refine ⟨fun _ => stored.1 algorithm same, ?_, ?_, ?_⟩
    all_goals
      intro other
      rw [algorithm] at other
      cases other
  | fixedWindow =>
    -- At the time of the observation the request itself may be out of range.
    have small := bounds.period_le
    obtain ⟨request, same, now, timed⟩ := call_moved rate unchanged writer
      (show (-9007199254740991 : Int) ≤ 0 by decide) (by omega)
    have follows : Follows request.policy call.request.policy := by rw [same]; exact Follows.refl _
    have window : ExactMicros (windowStart request.now.unixMicro period) := by
      rw [now]
      simp [windowStart, ExactMicros]
    refine ⟨request, same, shared.refuses sound (by rw [same]; exact kind) same timed (fun _ => window)
      fun passes => inadequate ?_⟩
    obtain ⟨stored, -⟩ := passes
    rw [shared.stored_iff follows timed] at stored
    obtain ⟨exact, carried⟩ := stored.2 algorithm
    refine ⟨fun other => ?_, fun _ => exact, fun _ => carried same, fun other => ?_⟩
    all_goals
      rw [algorithm] at other
      cases other
  | slidingWindow =>
    obtain ⟨request, same, now, timed⟩ := call_moved rate unchanged writer shared.early shared.room
    have follows : Follows request.policy call.request.policy := by rw [same]; exact Follows.refl _
    refine ⟨request, same, shared.refuses sound (by rw [same]; exact kind) same timed (by simp [algorithm])
      fun passes => inadequate ?_⟩
    obtain ⟨-, timely⟩ := passes
    rw [shared.effective_iff follows timed, now, max_self] at timely
    refine ⟨?_, ?_, ?_, fun _ => timely algorithm same⟩
    all_goals
      intro other
      rw [algorithm] at other
      cases other
  | _ =>
    rw [algorithm] at kind
    simp [Algorithm.IsRate] at kind

/-- The strict path adopts exactly the adoptable rows. -/
theorem Shared.adopted_iff (writer : call ∈ calls) (shared : Shared call.request.policy period state) :
    Adopted calls period (some state.wire) ↔ Adoptable call.request.policy period state := by
  have kind := rate call writer
  constructor
  · intro adopted
    by_contra inadequate
    obtain ⟨request, policy, refused⟩ := shared.refused rate unchanged writer inadequate
    obtain ⟨result, exact, fine⟩ := adopted request (by rw [policy]; exact unchanged call writer)
      (fun other member => by rw [policy]; exact call_follows revisions writer member)
    obtain rfl := pure_injective (refused.symm.trans exact)
    exact fine rfl
  · intro adoptable request period follows
    have rateKind : request.policy.algorithm.IsRate := by rw [(follows call writer).algorithm]; exact kind
    rcases shared.strict_step (follows call writer) (bounds_of_period request rateKind period)
      call.request.built.sound rateKind with overflow | ⟨-, refused⟩ | ⟨next, answer, exact, fine, -⟩
    · exact ⟨_, overflow, by simp⟩
    · exact absurd adoptable refused
    · exact ⟨_, exact, fine⟩

omit revisions unchanged in
theorem adopted_none (member : call ∈ calls) : Adopted calls period none := by
  intro request period follows
  have kind : request.policy.algorithm.IsRate := by rw [(follows call member).algorithm]; exact rate call member
  rcases strict_step_new (bounds_of_period request kind period) kind with overflow | ⟨next, answer, exact, fine, -⟩
  · exact ⟨_, overflow, by simp⟩
  · exact ⟨_, exact, fine⟩

omit revisions in
/-- What a released call works on. -/
theorem loaded_shared {current : Option PersistedState}
    (standing : Standing calls period current) (member : call ∈ calls) :
    ∃ writer ∈ calls, Shared writer.request.policy period
      (unmarked (legacyLoaded current call.request.toRequest)) := by
  cases current with
  | none => exact ⟨call, member, freshState_shared (call_bounds rate unchanged member)⟩
  | some state => exact standing state rfl

/-- A released call on a row, and on a state in memory that the row stands for. -/
theorem released_step {current : Option PersistedState} (standing : Standing calls period current)
    (member : call ∈ calls) (released : call.strict = false) :
    ∃ next answer memory,
      (rowStep (current.map fun state => (unmarked state).wire) call).Returns (some (unmarked next).wire, answer) ∧
      (mutateStepLegacy current call.request.toRequest).Returns (some next, memory) ∧
      encodeState next = (unmarked next).wire ∧
      Shared call.request.policy period (unmarked next) ∧
      (Adoptable call.request.policy period (unmarked next) ↔
        Fits period (unmarked (legacyLoaded current call.request.toRequest)) call.request.toRequest) := by
  obtain ⟨writer, among, shared⟩ := loaded_shared rate unchanged standing member
  have bounds := call_bounds rate unchanged member
  have kind := rate call member
  have follows := call_follows revisions member among
  have plain : legacyLoaded (current.map unmarked) call.request.toRequest =
      unmarked (legacyLoaded current call.request.toRequest) := by
    cases current <;> rfl
  obtain ⟨applied, returns, after, encoded⟩ := mutateStateLegacy_returns bounds kind current follows.id
    follows.algorithm shared
  obtain ⟨written, writes, same, wire⟩ := mutateStateLegacy_returns bounds kind (current.map unmarked) follows.id
    follows.algorithm (by rw [plain]; exact shared)
  rw [plain] at same
  have one : unmarked written.state = unmarked applied.state := same.trans after.symm
  have reads : readRow (current.map fun state => (unmarked state).wire) false = .ok (current.map unmarked) := by
    cases current with
    | none => rfl
    | some state => exact shared.reads writer.request.built.sound (rate writer among) bounds.period_le false
  refine ⟨applied.state, ⟨written.decision, written.error⟩, _, ?_, returns.bind (returns_pure _), encoded, ?_, ?_⟩
  · obtain ⟨strict, request⟩ := call
    obtain rfl : strict = false := released
    rw [rowStep_reads reads]
    refine writes.bind ?_
    rw [← one, ← wire]
    exact returns_pure _
  · rw [after]
    exact shared.next follows.algorithm bounds follows.id
  · rw [after]
    exact shared.next_adoptable follows.algorithm bounds kind

/-- The step lemma. A row stays one; where it could be adopted before a call, it can
after it exactly where the call fits. -/
theorem RowHeld.step {fine : Prop} (held : RowHeld calls period fine row) (member : call ∈ calls) :
    ∃ result, (rowStep row call).Returns result ∧
      (fine → (Fitting period ⟨row, call, result.2, result.1⟩ ↔ Adopted calls period result.1)) ∧
      RowHeld calls period (fine ∧ Fitting period ⟨row, call, result.2, result.1⟩) result.1 := by
  cases strict : call.strict with
  | false =>
    obtain ⟨current, same, loaded, standing⟩ := held.standing
    obtain ⟨next, answer, -, returns, -, -, shared, adoptable⟩ := released_step rate revisions unchanged standing
      member strict
    rw [← same] at returns
    have fitting : Fitting period ⟨row, call, answer, some (unmarked next).wire⟩ ↔
        Adoptable call.request.policy period (unmarked next) := by
      rw [adoptable, loaded]
      exact ⟨fun fits => fits strict, fun fits _ => fits⟩
    refine ⟨_, returns, fun _ => ?_, ?_⟩
    · rw [fitting, shared.adopted_iff rate revisions unchanged member]
    · rintro _ ⟨⟩
      exact ⟨call, member, _, rfl, shared, fun fits => fitting.mp fits.2⟩
  | true =>
    obtain ⟨_, request⟩ := call
    obtain rfl := strict
    have kind := rate _ member
    have bounds := call_bounds rate unchanged member
    have fits (answer : Answer) (after : Option WireState) : Fitting period ⟨row, ⟨true, request⟩, answer, after⟩ :=
      fun released => by cases released
    -- A strict call leaves the row alone or writes one that can be adopted.
    have writes {next : PersistedState} {answer : Answer}
        (exact : rowStep row ⟨true, request⟩ = pure (some next.wire, answer))
        (shared : Shared request.policy period next) (adoptable : Adoptable request.policy period next) :
        ∃ result, (rowStep row ⟨true, request⟩).Returns result ∧
          (fine → (Fitting period ⟨row, ⟨true, request⟩, result.2, result.1⟩ ↔ Adopted calls period result.1)) ∧
          RowHeld calls period (fine ∧ Fitting period ⟨row, ⟨true, request⟩, result.2, result.1⟩) result.1 := by
      refine ⟨_, returns_of_eq exact, fun _ => iff_of_true (fits _ _) ?_, ?_⟩
      · exact (Shared.adopted_iff rate revisions unchanged member shared).mpr adoptable
      · rintro _ ⟨⟩
        exact ⟨_, member, next, rfl, shared, fun _ => adoptable⟩
    have stays {answer : Answer} (exact : rowStep row ⟨true, request⟩ = pure (row, answer))
        (adopted : fine → Adopted calls period row) :
        ∃ result, (rowStep row ⟨true, request⟩).Returns result ∧
          (fine → (Fitting period ⟨row, ⟨true, request⟩, result.2, result.1⟩ ↔ Adopted calls period result.1)) ∧
          RowHeld calls period (fine ∧ Fitting period ⟨row, ⟨true, request⟩, result.2, result.1⟩) result.1 :=
      ⟨_, returns_of_eq exact, fun sound => iff_of_true (fits _ _) (adopted sound), held.mono And.left⟩
    cases row with
    | none =>
      rcases strict_step_new bounds kind with overflow | ⟨next, answer, exact, -, shared, adoptable⟩
      · exact stays overflow fun _ => adopted_none rate member
      · exact writes exact shared adoptable
    | some wire =>
      obtain ⟨writer, among, state, rfl, shared, adoptable⟩ := held wire rfl
      have adopted (sound : fine) : Adopted calls period (some state.wire) :=
        (shared.adopted_iff rate revisions unchanged among).mpr (adoptable sound)
      rcases shared.strict_step (call_follows revisions member among) bounds writer.request.built.sound kind with
        overflow | ⟨corrupt, -⟩ | ⟨next, answer, exact, -, after, sound⟩
      · exact stays overflow adopted
      · exact stays corrupt adopted
      · exact writes exact after sound

end

/-- A row that both paths mutate, under revisions of one policy with one period. The
strict path adopts every row of the run exactly where each released call fits: it
finds at most `limit + cost` tokens, or a window in the exact range with usage within
the limit or marked as carried. A run of released calls alone writes the same rows
when its state stays in memory between the calls. -/
theorem strict_adopts_fitting_rows (calls : List RowCall) (period : Nat)
    (rate : ∀ call ∈ calls, call.request.policy.algorithm.IsRate)
    (revisions : Revisions (calls.map RowCall.request))
    (unchanged : ∀ call ∈ calls, call.request.policy.period = .ofMicros period) :
    ∃ entries, (Runs.trace rowStep none calls).Returns entries ∧ entries.map Entry.input = calls ∧
      ((∀ entry ∈ entries, Fitting period entry) ↔ ∀ entry ∈ entries, Adopted calls period entry.after) ∧
      ((∀ call ∈ calls, call.strict = false) →
        ∃ states,
          (Runs.trace (fun current call => mutateStepLegacy current call.request.toRequest) none calls).Returns states ∧
          states.map (fun entry => entry.after.map encodeState) = entries.map Entry.after) := by
  obtain ⟨entries, run, inputs, held⟩ := Runs.trace_returns rowStep
    (fun history row => RowHeld calls period (∀ entry ∈ history, Fitting period entry) row)
    (fun history entry => (∀ entry ∈ history, Fitting period entry) →
      (Fitting period entry ↔ Adopted calls period entry.after)) calls
    (fun history row call held member => by
      obtain ⟨result, returns, decides, next⟩ := held.step rate revisions unchanged member
      refine ⟨result, returns, decides, next.mono fun fits => ?_⟩
      exact ⟨fun entry earlier => fits entry (List.mem_append_left _ earlier), fits _ (by simp)⟩)
    (show RowHeld calls period _ none by rintro _ ⟨⟩)
  refine ⟨entries, run, inputs, ?_, fun released => ?_⟩
  · rw [Runs.all_iff_prefix fun earlier entry later shape => (held earlier entry later shape).2.1]
    refine ⟨fun adopted entry member => ?_, fun adopted earlier entry later shape => adopted entry (by simp [shape])⟩
    obtain ⟨earlier, later, shape⟩ := List.append_of_mem member
    exact adopted earlier entry later shape
  · obtain ⟨states, rows, memory, encoded, same⟩ := Runs.trace_returns_simulation
      (fun current call => mutateStepLegacy current call.request.toRequest) rowStep
      (fun current row => Standing calls period current ∧ row = current.map encodeState ∧
        row = current.map fun state => (unmarked state).wire) (fun _ _ _ => True) calls
      (fun current row call related member => by
        obtain ⟨standing, -, rfl⟩ := related
        obtain ⟨next, answer, memory, writes, returns, encoded, shared, -⟩ := released_step rate revisions unchanged
          standing member (released call member)
        refine ⟨_, _, returns, writes, trivial, ?_, by rw [← encoded]; rfl, rfl⟩
        rintro _ ⟨⟩
        exact ⟨call, member, shared⟩)
      ⟨show Standing calls period none by rintro _ ⟨⟩, rfl, rfl⟩
    obtain rfl := encoded.unique run
    refine ⟨states, memory, ?_⟩
    rw [← List.forall₂_eq_eq_eq, List.forall₂_map_left_iff, List.forall₂_map_right_iff]
    exact same.imp fun first second related => related.2.2.1.symm

/-- A request under ten tokens a second. -/
def wideRequest (cost : Nat) (micros : Int)
    (accepted : Request.validate ⟨ratePolicy .tokenBucket 97 10 0 1000000 second_fits, ⟨[107], [117]⟩, cost,
      .ofUnixMicro micros⟩ = .ok ()) : ValidRequest :=
  (ratePolicy .tokenBucket 97 10 0 1000000 second_fits).request rfl cost micros accepted

/-- A request under the revision of that policy to five tokens a second. -/
def tightRequest (cost : Nat) (micros : Int)
    (accepted : Request.validate ⟨ratePolicy .tokenBucket 98 5 0 1000000 second_fits, ⟨[107], [117]⟩, cost,
      .ofUnixMicro micros⟩ = .ok ()) : ValidRequest :=
  (ratePolicy .tokenBucket 98 5 0 1000000 second_fits).request rfl cost micros accepted

/-- A released call, a strict one under the smaller revision, and a released one there. -/
def mixedCalls : List RowCall :=
  [⟨false, wideRequest 5 1 rfl⟩, ⟨true, tightRequest 1 2 rfl⟩, ⟨false, tightRequest 1 3 rfl⟩]

theorem strict_adopts_fitting_rows_mixed :
    (∀ call ∈ mixedCalls, call.request.policy.algorithm.IsRate) ∧ Revisions (mixedCalls.map RowCall.request) ∧
      (∀ call ∈ mixedCalls, call.request.policy.period = .ofMicros 1000000) ∧
      ∃ entries, (Runs.trace rowStep none mixedCalls).Returns entries ∧ entries.length = 3 ∧
        ∀ entry ∈ entries, Fitting 1000000 entry ∧ Adopted mixedCalls 1000000 entry.after := by
  have rate : ∀ call ∈ mixedCalls, call.request.policy.algorithm.IsRate := by decide
  have revisions : Revisions (mixedCalls.map RowCall.request) := by decide
  have unchanged : ∀ call ∈ mixedCalls, call.request.policy.period = .ofMicros (1000000 : Nat) := by decide
  obtain ⟨entries, run, -, iff, -⟩ := strict_adopts_fitting_rows mixedCalls 1000000 rate revisions unchanged
  obtain rfl := run.unique ⟨_, rfl⟩
  have both := fun fits => (⟨fits, iff.mp fits⟩ : _ ∧ _)
  obtain ⟨fits, adopted⟩ := both <| List.forall_mem_cons.mpr ⟨fun _ => (by decide : 10 ≤ 15),
    List.forall_mem_cons.mpr ⟨nofun, List.forall_mem_cons.mpr ⟨fun _ => (by decide : 4 ≤ 6), List.forall_mem_nil _⟩⟩⟩
  exact ⟨rate, revisions, unchanged, _, run, rfl, fun entry member => ⟨fits entry member, adopted entry member⟩⟩

theorem released_row_refused :
    Revisions [wideRequest 1 1 rfl, tightRequest 1 2 rfl] ∧
      ∃ first second, (Runs.trace rowStep none
          [⟨false, wideRequest 1 1 rfl⟩, ⟨false, tightRequest 1 2 rfl⟩]).Returns [first, second] ∧
        first.output.error = none ∧ second.output.error = none ∧
        rowStep second.after ⟨true, tightRequest 1 3 rfl⟩ = pure (second.after, ⟨{}, some .corrupt⟩) :=
  ⟨by decide, _, _, ⟨_, rfl⟩, rfl, rfl, rfl⟩

end RateLimit.Postgres
