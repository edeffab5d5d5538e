import RateLimit.StateSpec

/-! The tests of `mutateStateMode` read as propositions, and the one case
distinction every later module starts from: `mutateState_cases`. A valid request
under a rate policy overflows, meets a corrupt state, or is accepted, and then the
result is `outcome`, computed in exact arithmetic. -/
namespace RateLimit.Postgres

open Machine

/-! ## What the tests accept -/

/-- A count of microseconds that Lua's numbers hold exactly. -/
def ExactMicros (value : Int) : Prop := -9007199254740991 ≤ value ∧ value ≤ 9007199254740991

theorem validPersistedMicros_iff (value : Int) : validPersistedMicros value = true ↔ ExactMicros value := by
  exact decide_eq_true_iff

theorem validPersistedMicros_eq_false (value : Int) :
    validPersistedMicros value = false ↔ ¬ ExactMicros value := by
  rw [← validPersistedMicros_iff, Bool.not_eq_true]

/-- A token balance in range; under an unchanged revision also one that this policy
can produce. -/
structure TokenOk (state : PersistedState) (policy : Policy) (period : Nat) : Prop where
  last : ExactMicros state.lastMicros
  remainder : state.remainder ≤ 9007199254740991
  fraction : state.revision = policy.revision → state.remainder < period
  within : state.revision = policy.revision → state.tokens ≤ policy.limit

/-- A window usage in range; above the limit of an unchanged revision it must say
that it was carried over. -/
structure FixedOk (state : PersistedState) (policy : Policy) : Prop where
  window : ExactMicros state.window
  used : state.used ≤ 9007199254740991
  carried : state.revision = policy.revision → policy.limit < state.used → state.carried = true

/-- Every segment in range. -/
def SegmentsOk (segments : Segments) : Prop :=
  ∀ slot, ExactMicros (segments slot).index ∧ (segments slot).used ≤ 9007199254740991

/-- The tests that do not depend on the time: identity, and the range of every field
that the algorithm reads. -/
structure StoredOk (state : PersistedState) (policy : Policy) (period : Nat) : Prop where
  schema : state.schema = stateSchema
  policyID : state.policyID = policy.id
  algorithm : state.algorithm = policy.algorithm
  observed : ExactMicros state.observedMicros
  token : policy.algorithm = .tokenBucket → TokenOk state policy period
  fixed : policy.algorithm = .fixedWindow → FixedOk state policy
  sliding : policy.algorithm = .slidingWindow → SegmentsOk state.segments

/-- The tests that need the effective time, at which `request` already stands. -/
structure EffectiveOk (state : PersistedState) (request : Request) (period : Nat) : Prop where
  recorded : usesWindowMetadata request.policy.algorithm = true →
    state.periodMicros = 0 ∨ state.periodMicros = period
  placed : request.policy.algorithm = .slidingWindow →
    (ringOf state.segments).Placed (oldestAt request.now.unixMicro period)
      (segmentAt request.now.unixMicro period)
  total : request.policy.algorithm = .slidingWindow →
    (ringOf state.segments).total (oldestAt request.now.unixMicro period) ≤ 9007199254740991
  carried : request.policy.algorithm = .slidingWindow → state.revision = request.policy.revision →
    request.policy.limit < (ringOf state.segments).total (oldestAt request.now.unixMicro period) →
      state.carried = true

theorem slidingUsage_exact (within : used ≤ 9007199254740991) :
    slidingUsage oldest segments used =
      pure (if used + liveUsage oldest segments ≤ 9007199254740991 then
        (used + liveUsage oldest segments, false) else (0, true)) := by
  induction segments generalizing used with
  | nil => simp [slidingUsage, liveUsage, within]
  | cons segment rest ih =>
    rw [liveUsage_cons]
    unfold slidingUsage
    by_cases stale : segment.index ≤ oldest
    · simp only [if_pos stale, if_neg (not_lt.mpr stale), Nat.zero_add]
      exact ih within
    · simp only [if_neg stale, if_pos (not_le.mp stale)]
      have room : u64 (maxExactMicros - used) = pure (9007199254740991 - used) := by
        rw [maxExactMicros, u64_exact (by omega) (by omega)]
        congr 1
        omega
      rw [room, pure_bind]
      by_cases excess : segment.used > 9007199254740991 - used
      · rw [if_pos excess, if_neg (by omega)]
      · rw [if_neg excess, u64_add_exact (by omega), pure_bind, ih (by omega)]
        simp only [Nat.add_assoc]

theorem slidingPositions_exact (segments : Segments) (newest oldest : Int) (slots : List (Fin 16)) :
    slidingPositions segments newest oldest slots =
      pure (if ∀ slot ∈ slots, oldest < (segments slot).index → (segments slot).used ≠ 0 →
        (segments slot).index ≤ newest ∧ Ring.slot 16 (segments slot).index = slot
      then none else some .corrupt) := by
  induction slots with
  | nil => simp [slidingPositions]
  | cons slot rest ih =>
    have here : ((segments slot).index % 16 = (slot.val : Int)) ↔
        Ring.slot 16 (segments slot).index = slot := by
      rw [Fin.ext_iff, Ring.slot]
      simp only
      omega
    unfold slidingPositions
    simp only [List.forall_mem_cons]
    by_cases skipped : (segments slot).used = 0 ∨ (segments slot).index ≤ oldest
    · rw [if_pos skipped, ih]
      have free : oldest < (segments slot).index → (segments slot).used ≠ 0 →
          (segments slot).index ≤ newest ∧ Ring.slot 16 (segments slot).index = slot := by
        intro live used
        omega
      exact congrArg pure (if_congr (and_iff_right free).symm rfl rfl)
    · rw [if_neg skipped]
      rw [not_or, not_le] at skipped
      by_cases future : (segments slot).index > newest
      · rw [if_pos future, if_neg]
        rintro ⟨first, -⟩
        omega
      · rw [if_neg future, positiveRemainder_exact, pure_bind]
        by_cases placed : Ring.slot 16 (segments slot).index = slot
        · rw [if_neg (not_not.mpr (here.mpr placed)), ih]
          have good : oldest < (segments slot).index → (segments slot).used ≠ 0 →
              (segments slot).index ≤ newest ∧ Ring.slot 16 (segments slot).index = slot :=
            fun _ _ => ⟨not_lt.mp future, placed⟩
          exact congrArg pure (if_congr (and_iff_right good).symm rfl rfl)
        · rw [if_pos (fun same => placed (here.mp same)), if_neg]
          rintro ⟨first, -⟩
          exact placed (first skipped.2 skipped.1).2

private theorem refuse_eq {bad good : Prop} [Decidable bad] [Decidable good] (same : ¬ bad ↔ good) :
    (if bad then pure (some .corrupt) else pure none : Machine (Option Sentinel)) =
      pure (if good then none else some .corrupt) := by
  by_cases holds : good
  · rw [if_neg (same.mpr holds), if_pos holds]
  · rw [if_pos (not_not.mp fun clear => holds (same.mp clear)), if_neg holds]

private theorem token_tests (state : PersistedState) (request : Request) (period : Nat) :
    ¬ ((validPersistedMicros state.lastMicros = false ∨ (state.remainder : Int) > maxExactMicros ∨
        (state.revision = request.policy.revision ∧ state.remainder ≥ period)) ∨
      (state.revision = request.policy.revision ∧ state.tokens > request.policy.limit)) ↔
    TokenOk state request.policy period := by
  rw [validPersistedMicros_eq_false, maxExactMicros]
  constructor
  · intro clear
    simp only [not_or, not_not, not_and, not_lt, not_le, ge_iff_le, gt_iff_lt] at clear
    obtain ⟨⟨last, remainder, fraction⟩, within⟩ := clear
    exact ⟨last, by omega, fraction, within⟩
  · rintro ⟨last, remainder, fraction, within⟩
    simp only [not_or, not_not, not_and, not_lt, not_le, ge_iff_le, gt_iff_lt]
    exact ⟨⟨last, by omega, fraction⟩, within⟩

private theorem fixed_tests (state : PersistedState) (request : Request) :
    ¬ (validPersistedMicros state.window = false ∨ (state.used : Int) > maxExactMicros ∨
      (state.revision = request.policy.revision ∧ state.used > request.policy.limit ∧
        state.carried = false)) ↔ FixedOk state request.policy := by
  rw [validPersistedMicros_eq_false, maxExactMicros]
  constructor
  · intro clear
    simp only [not_or, not_not, not_and, not_lt, gt_iff_lt, Bool.not_eq_false] at clear
    obtain ⟨window, used, carried⟩ := clear
    exact ⟨window, by omega, carried⟩
  · rintro ⟨window, used, carried⟩
    simp only [not_or, not_not, not_and, not_lt, gt_iff_lt, Bool.not_eq_false]
    exact ⟨window, by omega, carried⟩

private theorem segment_tests (segments : Segments) :
    ¬ ((List.ofFn segments).any fun segment => !validPersistedMicros segment.index ||
      decide ((segment.used : Int) > maxExactMicros)) = true ↔ SegmentsOk segments := by
  simp only [List.any_eq_true, List.mem_ofFn, not_exists, not_and, Bool.or_eq_true,
    Bool.not_eq_true', decide_eq_true_eq, not_or, validPersistedMicros_eq_false, not_not, gt_iff_lt, not_lt]
  have most : maxExactMicros = 9007199254740991 := rfl
  constructor
  · intro clear slot
    obtain ⟨index, used⟩ := clear (segments slot) ⟨slot, rfl⟩
    exact ⟨index, by omega⟩
  · rintro valid segment ⟨slot, rfl⟩
    obtain ⟨index, used⟩ := valid slot
    exact ⟨index, by omega⟩

theorem checkIntegrity_exact [Decidable (StoredOk state request.policy period)]
    (rate : request.policy.algorithm.IsRate)
    (exact : u64 request.policy.period.microseconds = pure period)
    (schema : state.schema = stateSchema) (policyID : state.policyID = request.policy.id)
    (algorithm : state.algorithm = request.policy.algorithm) :
    checkIntegrity state request =
      pure (if StoredOk state request.policy period then none else some .corrupt) := by
  unfold checkIntegrity
  by_cases observed : ExactMicros state.observedMicros
  swap
  · rw [if_pos ((validPersistedMicros_eq_false _).mpr observed),
      if_neg (fun ok : StoredOk state request.policy period => observed ok.observed)]
  rw [if_neg (by rw [validPersistedMicros_eq_false]; exact not_not.mpr observed), algorithm]
  rcases rate with kind | kind | kind
  · rw [kind]
    rw [exact, pure_bind, ← ite_or]
    refine refuse_eq ((token_tests state request period).trans ⟨fun ok => ?_, fun ok => ok.token kind⟩)
    exact ⟨schema, policyID, algorithm, observed, fun _ => ok, by simp [kind], by simp [kind]⟩
  · rw [kind]
    refine refuse_eq ((fixed_tests state request).trans ⟨fun ok => ?_, fun ok => ok.fixed kind⟩)
    exact ⟨schema, policyID, algorithm, observed, by simp [kind], fun _ => ok, by simp [kind]⟩
  · rw [kind]
    refine refuse_eq ((segment_tests state.segments).trans ⟨fun ok => ?_, fun ok => ok.sliding kind⟩)
    exact ⟨schema, policyID, algorithm, observed, by simp [kind], by simp [kind], fun _ => ok⟩

theorem checkStored_exact [Decidable (StoredOk state request.policy period)]
    (rate : request.policy.algorithm.IsRate)
    (exact : u64 request.policy.period.microseconds = pure period) :
    checkStored state request true =
      pure (if StoredOk state request.policy period then none else some .corrupt) := by
  unfold checkStored
  by_cases schema : state.schema = stateSchema
  swap
  · rw [if_pos schema, if_neg (fun ok : StoredOk state request.policy period => schema ok.schema)]
  by_cases policyID : state.policyID = request.policy.id
  swap
  · rw [if_neg (not_not.mpr schema), if_pos policyID,
      if_neg (fun ok : StoredOk state request.policy period => policyID ok.policyID)]
  by_cases algorithm : state.algorithm = request.policy.algorithm
  swap
  · rw [if_neg (not_not.mpr schema), if_neg (not_not.mpr policyID), if_pos algorithm,
      if_neg (fun ok : StoredOk state request.policy period => algorithm ok.algorithm)]
  rw [if_neg (not_not.mpr schema), if_neg (not_not.mpr policyID), if_neg (not_not.mpr algorithm),
    if_pos rfl, checkIntegrity_exact rate exact schema policyID algorithm]

theorem validateServerClockRange_exact (now : Time) (positive : 0 < period)
    (small : period ≤ 9223372036854775) :
    validateServerClockRange now (.ofMicros (period : Nat)) =
      pure (if -9007199254740991 ≤ now.unixMicro ∧ now.unixMicro + period ≤ 9007199254740991 then none
        else some .overflow) := by
  have most : maxExactMicros = 9007199254740991 := rfl
  unfold validateServerClockRange
  rw [Duration.microseconds_ofMicros, most, i64_exact (by omega) (by omega), pure_bind]
  by_cases room : -9007199254740991 ≤ now.unixMicro ∧ now.unixMicro + period ≤ 9007199254740991
  · rw [if_neg (by omega), if_pos room]
  · rw [if_pos (by omega), if_neg room]

section
variable {request : Request} (bounds : request.Bounds period)
include bounds

theorem validateSlidingPositions_exact (state : PersistedState)
    [Decidable ((ringOf state.segments).Placed (oldestAt request.now.unixMicro period)
      (segmentAt request.now.unixMicro period))] :
    validateSlidingPositions state request =
      pure (if (ringOf state.segments).Placed (oldestAt request.now.unixMicro period)
        (segmentAt request.now.unixMicro period) then none else some .corrupt) := by
  unfold validateSlidingPositions
  rw [segmentWidth_period bounds, pure_bind, segmentIndex_now bounds, pure_bind,
    segmentIndex_periodAgo bounds, pure_bind, slidingPositions_exact]
  refine congrArg pure (if_congr ?_ rfl rfl)
  simp only [List.mem_finRange, true_implies]
  rfl

theorem strictSlidingUsage_exact (state : PersistedState) :
    strictSlidingUsage state request =
      pure (if (ringOf state.segments).total (oldestAt request.now.unixMicro period) ≤ 9007199254740991 then
        ((ringOf state.segments).total (oldestAt request.now.unixMicro period), false) else (0, true)) := by
  unfold strictSlidingUsage
  rw [segmentWidth_period bounds, pure_bind, segmentIndex_periodAgo bounds, pure_bind,
    slidingUsage_exact (by decide), ← liveUsage_ofFn]
  simp only [Nat.zero_add]

theorem checkEffective_exact (state : PersistedState) [Decidable (EffectiveOk state request period)] :
    checkEffective state request =
      pure (if EffectiveOk state request period then none else some .corrupt) := by
  classical
  unfold checkEffective
  rw [bounds.period_eq, validateServerClockRange_exact _ bounds.period_pos (bounds.period_le.trans (by decide)),
    pure_bind,
    if_pos ⟨bounds.not_before, bounds.room⟩]
  rw [Duration.microseconds_ofMicros]
  by_cases recorded : usesWindowMetadata request.policy.algorithm = true →
      state.periodMicros = 0 ∨ state.periodMicros = period
  swap
  · rw [if_pos (by tauto), if_neg (fun ok : EffectiveOk state request period => recorded ok.recorded)]
  rw [if_neg (by tauto)]
  by_cases kind : request.policy.algorithm = .slidingWindow
  swap
  · rw [if_neg kind, if_pos ⟨recorded, by simp [kind], by simp [kind], by simp [kind]⟩]
  rw [if_pos kind, validateSlidingPositions_exact bounds, pure_bind]
  by_cases placed : (ringOf state.segments).Placed (oldestAt request.now.unixMicro period)
      (segmentAt request.now.unixMicro period)
  swap
  · rw [if_neg placed, if_neg (fun ok : EffectiveOk state request period => placed (ok.placed kind))]
  rw [if_pos placed]
  rw [strictSlidingUsage_exact bounds, pure_bind]
  refine refuse_eq ?_
  by_cases total : (ringOf state.segments).total (oldestAt request.now.unixMicro period) ≤ 9007199254740991
  · rw [if_pos total]
    simp only [Bool.false_eq_true, false_or, usageExceedsLimit, decide_eq_true_eq, not_and,
      Bool.not_eq_false]
    exact ⟨fun carried => ⟨recorded, fun _ => placed, fun _ => total, fun _ => carried⟩,
      fun ok => ok.carried kind⟩
  · rw [if_neg total]
    simp only [true_or, not_true, false_iff]
    exact fun ok => total (ok.total kind)

end

/-! ## One step -/

/-- The state a call works on: the one given, or a fresh one. -/
def loaded (current : Option PersistedState) (request : Request) : PersistedState :=
  current.getD (freshState request true)

/-- The request at its effective time. -/
def effective (current : Option PersistedState) (request : Request) : Request :=
  clampRequest (loaded current request) request

@[simp] theorem clampRequest_policy (state : PersistedState) (request : Request) :
    (clampRequest state request).policy = request.policy := by
  unfold clampRequest
  dsimp only
  split <;> rfl

@[simp] theorem clampRequest_cost (state : PersistedState) (request : Request) :
    (clampRequest state request).cost = request.cost := by
  unfold clampRequest
  dsimp only
  split <;> rfl

@[simp] theorem clampRequest_unixMicro (state : PersistedState) (request : Request) :
    (clampRequest state request).now.unixMicro = max request.now.unixMicro state.observedMicros := by
  unfold clampRequest
  dsimp only
  split
  · exact Time.unixMicro_ofUnixMicro _
  · rename_i same
    exact (not_not.mp same).symm

/-- A request on whole microseconds stays on them when it is clamped. -/
theorem clampRequest_whole (whole : request.now = .ofUnixMicro request.now.unixMicro) :
    clampRequest state request =
      { request with now := .ofUnixMicro (max request.now.unixMicro state.observedMicros) } := by
  unfold clampRequest
  dsimp only
  split
  · rfl
  · rename_i same
    rw [not_not.mp same, ← whole]

theorem clampRequest_of_le (ahead : state.observedMicros ≤ request.now.unixMicro) :
    clampRequest state request = request := by
  unfold clampRequest
  rw [if_neg (not_not.mpr (max_eq_left ahead))]

theorem clampRequest_bounds {request : Request} (bounds : request.Bounds period)
    (room : max request.now.unixMicro state.observedMicros + period ≤ 9007199254740991) :
    (clampRequest state request).Bounds period := by
  refine bounds.retimed (clampRequest_policy _ _) (clampRequest_cost _ _) ?_ ?_
  · rw [clampRequest_unixMicro]
    exact bounds.not_before.trans (le_max_left _ _)
  · rw [clampRequest_unixMicro]
    exact room

/-- The state that the algorithm is given: balance carried over, period, time and
revision recorded. -/
def prepared (state : PersistedState) (request : Request) : PersistedState :=
  { recordWindowPeriod (carryToken state request) request.policy with
    observedMicros := request.now.unixMicro
    revision := request.policy.revision }

/-- The exact step of an accepted request. -/
def spend (rate : TokenRate) (state : PersistedState) (request : Request) : Applied :=
  match request.policy.algorithm with
  | .tokenBucket => spendToken rate (refilled rate state request.now.unixMicro) request
  | .fixedWindow => spendFixed rate.period state request
  | _ => spendSliding rate.period state request

/-- A request that passes every test. -/
structure Accepted (current : Option PersistedState) (request : Request) (period : Nat) : Prop where
  kind : request.policy.algorithm.IsRate
  stored : StoredOk (loaded current request) request.policy period
  bounds : (effective current request).Bounds period
  timely : EffectiveOk (loaded current request) (effective current request) period
  window : request.policy.algorithm = .fixedWindow → ExactMicros (windowStart request.now.unixMicro period)

/-- A request that leaves the exact range: the start of its fixed window does, or the
recorded time leaves no room for the period. -/
def Overflows (current : Option PersistedState) (request : Request) (period : Nat) : Prop :=
  (request.policy.algorithm = .fixedWindow ∧
    ¬ ExactMicros (windowStart request.now.unixMicro period)) ∨
  ∃ state, current = some state ∧
    9007199254740991 < max request.now.unixMicro state.observedMicros + period

/-- What an accepted request leaves behind. -/
def outcome (accepted : Accepted current request period) : Applied :=
  spend (rateOf accepted.bounds) (prepared (loaded current request) (effective current request))
    (effective current request)

/-- Preparing a state records time and revision and keeps its identity. -/
theorem prepared_header (state : PersistedState) (request : Request) :
    (prepared state request).schema = state.schema ∧
      (prepared state request).policyID = state.policyID ∧
      (prepared state request).algorithm = state.algorithm ∧
      (prepared state request).revision = request.policy.revision ∧
      (prepared state request).observedMicros = request.now.unixMicro := by
  unfold prepared recordWindowPeriod carryToken
  split <;> split <;> exact ⟨rfl, rfl, rfl, rfl, rfl⟩

theorem prepared_token (kind : request.policy.algorithm = .tokenBucket) :
    prepared state request = { carryToken state request with
      observedMicros := request.now.unixMicro, revision := request.policy.revision } := by
  simp only [prepared, recordWindowPeriod, kind]

theorem prepared_window (kind : usesWindowMetadata request.policy.algorithm = true) :
    prepared state request = { state with
      periodMicros := request.policy.period.microseconds
      observedMicros := request.now.unixMicro, revision := request.policy.revision } := by
  have windowed : request.policy.algorithm ≠ .tokenBucket := by
    intro token
    simp [token, usesWindowMetadata] at kind
  unfold prepared recordWindowPeriod carryToken
  rw [if_neg (fun carried => windowed carried.1)]
  cases same : request.policy.algorithm <;> simp_all [usesWindowMetadata]

/-- The balance handed to the token bucket fits the policy, whatever revision
wrote it. -/
theorem prepared_level (bounds : request.Bounds period) (kind : request.policy.algorithm = .tokenBucket)
    (ok : TokenOk state request.policy period) :
    (prepared state request).tokens ≤ request.policy.limit ∧ (prepared state request).remainder < period := by
  rw [prepared_token kind]
  unfold carryToken
  by_cases same : state.revision = request.policy.revision
  · rw [if_neg (fun carried => carried.2 same)]
    exact ⟨ok.within same, ok.fraction same⟩
  · rw [if_pos ⟨kind, same⟩]
    exact ⟨Nat.min_le_right _ _, bounds.period_pos⟩

theorem prepared_last {request : Request} (bounds : request.Bounds period)
    (kind : request.policy.algorithm = .tokenBucket) (last : ExactMicros state.lastMicros) :
    ExactMicros (prepared state request).lastMicros := by
  have late := bounds.room
  rw [prepared_token kind]
  unfold carryToken ExactMicros at *
  split
  · dsimp only
    omega
  · exact last

theorem dispatch_exact (kind : request.policy.algorithm.IsRate) (bounds : request.Bounds period)
    (stored : StoredOk state request.policy period)
    (timely : EffectiveOk state request period) :
    dispatch (recordWindowPeriod (carryToken state request) request.policy) request true =
      pure (spend (rateOf bounds) (prepared state request) request) := by
  unfold dispatch spend
  rcases kind with kind | kind | kind
  · obtain ⟨within, fraction⟩ := prepared_level bounds kind (stored.token kind)
    rw [kind]
    exact mutateToken_exact bounds within fraction
  · rw [kind]
    exact mutateFixed_exact bounds _
  · have ring : (prepared state request).segments = state.segments := by
      rw [prepared_window (by simp [kind, usesWindowMetadata])]
    rw [kind]
    show mutateSliding (prepared state request) request = _
    refine mutateSliding_exact bounds ?_ ?_ ?_ <;> rw [ring]
    · exact fun slot => (stored.sliding kind slot).2
    · exact timely.placed kind
    · exact timely.total kind

theorem freshState_window (kind : usesWindowMetadata request.policy.algorithm = true) :
    (freshState request true).periodMicros = request.policy.period.microseconds := by
  simp only [freshState, if_true, recordWindowPeriod]
  cases same : request.policy.algorithm <;> simp_all [usesWindowMetadata]

/-- The fields of a fresh state other than the recorded period. -/
theorem freshState_eq (request : Request) : ∃ period, freshState request true =
    { policyID := request.policy.id, revision := request.policy.revision
      algorithm := request.policy.algorithm, tokens := request.policy.limit
      lastMicros := request.now.unixMicro, observedMicros := request.now.unixMicro
      periodMicros := period } := by
  simp only [freshState, if_true, recordWindowPeriod]
  split
  · exact ⟨_, rfl⟩
  · exact ⟨_, rfl⟩
  · exact ⟨_, rfl⟩

theorem freshState_observed (request : Request) :
    (freshState request true).observedMicros = request.now.unixMicro := by
  obtain ⟨_, same⟩ := freshState_eq request
  rw [same]

theorem total_fresh (request : Request) (oldest : Int) :
    (ringOf (freshState request true).segments).total oldest = 0 := by
  obtain ⟨_, same⟩ := freshState_eq request
  simp [same, ringOf, Ring.total]

/-- A fresh state passes every test of the request it was made for. -/
theorem freshState_accepted {request : Request} (kind : request.policy.algorithm.IsRate)
    (bounds : request.Bounds period)
    (window : request.policy.algorithm = .fixedWindow →
      ExactMicros (windowStart request.now.unixMicro period)) : Accepted none request period := by
  have same : effective none request = request := clampRequest_of_le (freshState_observed request).le
  have early := bounds.not_before
  have late := bounds.room
  have timed : ExactMicros request.now.unixMicro := ⟨early, by omega⟩
  have zero : ExactMicros 0 := ⟨by decide, by decide⟩
  refine ⟨kind, ?_, by rw [same]; exact bounds, ?_, window⟩
  · obtain ⟨_, fresh⟩ := freshState_eq request
    simp only [loaded, Option.getD_none, fresh]
    exact ⟨rfl, rfl, rfl, timed, fun _ => ⟨timed, by simp, fun _ => bounds.period_pos, fun _ => le_rfl⟩,
      fun _ => ⟨zero, by simp, by simp⟩, fun _ slot => ⟨zero, by simp⟩⟩
  · rw [same]
    refine ⟨fun windowed => Or.inr ?_, fun _ slot live used => ?_, fun _ => ?_, fun _ _ excess => ?_⟩
    · rw [loaded, Option.getD_none, freshState_window windowed, bounds.period_eq,
        Duration.microseconds_ofMicros]
    · obtain ⟨_, fresh⟩ := freshState_eq request
      simp [loaded, fresh, ringOf] at used
    · rw [loaded, Option.getD_none, total_fresh]
      exact Nat.zero_le _
    · rw [loaded, Option.getD_none, total_fresh] at excess
      omega

theorem windowOverflows_exact {request : Request} (bounds : request.Bounds period) :
    windowOverflows request true = pure (decide (request.policy.algorithm = .fixedWindow ∧
      validPersistedMicros (windowStart request.now.unixMicro period) = false)) := by
  unfold windowOverflows
  by_cases kind : request.policy.algorithm = .fixedWindow
  · rw [if_pos ⟨rfl, kind⟩, floor_now bounds, pure_bind]
    cases validPersistedMicros (windowStart request.now.unixMicro period) <;> simp [kind]
  · rw [if_neg (fun both => kind both.2)]
    simp [kind]

theorem mutateLoaded_accepted (accepted : Accepted current request period) :
    mutateLoaded current (loaded current request) request true =
      pure (.finished current (outcome accepted)) := by
  classical
  have policy : (effective current request).policy = request.policy := clampRequest_policy _ _
  have stored : StoredOk (loaded current request) (effective current request).policy period := by
    rw [policy]
    exact accepted.stored
  have kind : (effective current request).policy.algorithm.IsRate := by
    rw [policy]
    exact accepted.kind
  have checked := checkEffective_exact accepted.bounds (loaded current request)
  rw [if_pos accepted.timely] at checked
  unfold mutateLoaded mutateEffective outcome
  rw [if_pos rfl, ← effective, checked, pure_bind]
  rw [dispatch_exact kind accepted.bounds stored accepted.timely, pure_bind]

theorem mutateLoaded_late {request : Request} (bounds : request.Bounds period)
    (late : 9007199254740991 < max request.now.unixMicro state.observedMicros + period) :
    mutateLoaded current state request true = pure (.failed current .overflow) := by
  have range : validateServerClockRange (clampRequest state request).now (.ofMicros period) =
      pure (some .overflow) := by
    rw [validateServerClockRange_exact _ bounds.period_pos (bounds.period_le.trans (by decide)), clampRequest_unixMicro,
      if_neg (by omega)]
  rw [mutateLoaded, mutateEffective, if_pos rfl, checkEffective, clampRequest_policy, bounds.period_eq,
    range, pure_bind]
  rfl

/-- Every valid request under a rate policy is answered in one of three ways, in
exact arithmetic. -/
theorem mutateState_cases {request : Request} (kind : request.policy.algorithm.IsRate)
    (bounds : request.Bounds period) (current : Option PersistedState) :
    (mutateState current request = pure (.failed current .overflow) ∧
      Overflows current request period) ∨
    (mutateState current request = pure (.failed current .corrupt) ∧
      ∃ state, current = some state ∧ (StoredOk state request.policy period →
        ∃ _ : (clampRequest state request).Bounds period,
          ¬ EffectiveOk state (clampRequest state request) period)) ∨
    ∃ accepted : Accepted current request period,
      mutateState current request = pure (.finished current (outcome accepted)) := by
  classical
  have exact := period_exact bounds
  by_cases outside : request.policy.algorithm = .fixedWindow ∧
      validPersistedMicros (windowStart request.now.unixMicro period) = false
  · refine Or.inl ⟨?_, Or.inl ⟨outside.1, (validPersistedMicros_eq_false _).mp outside.2⟩⟩
    unfold mutateState mutateStateMode
    rw [windowOverflows_exact bounds, pure_bind, decide_eq_true outside, if_pos rfl]
  have window : request.policy.algorithm = .fixedWindow →
      ExactMicros (windowStart request.now.unixMicro period) := by
    intro fixed
    rw [not_and, Bool.not_eq_false, validPersistedMicros_iff] at outside
    exact outside fixed
  have enter : mutateState current request = mutateStored current request true := by
    unfold mutateState mutateStateMode
    rw [windowOverflows_exact bounds, pure_bind, decide_eq_false outside, if_neg (by decide)]
  cases current with
  | none =>
    refine Or.inr (Or.inr ⟨freshState_accepted kind bounds window, ?_⟩)
    rw [enter]
    exact mutateLoaded_accepted _
  | some state =>
    rw [mutateStored, checkStored_exact kind exact, pure_bind] at enter
    by_cases stored : StoredOk state request.policy period
    swap
    · rw [if_neg stored] at enter
      exact Or.inr (Or.inl ⟨enter, state, rfl, fun ok => absurd ok stored⟩)
    rw [if_pos stored] at enter
    by_cases room : max request.now.unixMicro state.observedMicros + period ≤ 9007199254740991
    swap
    · refine Or.inl ⟨?_, Or.inr ⟨state, rfl, not_le.mp room⟩⟩
      rw [enter]
      exact mutateLoaded_late bounds (not_le.mp room)
    have clamped := clampRequest_bounds bounds room
    by_cases timely : EffectiveOk state (clampRequest state request) period
    · have accepted : Accepted (some state) request period := ⟨kind, stored, clamped, timely, window⟩
      exact Or.inr (Or.inr ⟨accepted, enter.trans (mutateLoaded_accepted accepted)⟩)
    · refine Or.inr (Or.inl ⟨?_, state, rfl, fun _ => ⟨clamped, timely⟩⟩)
      rw [enter]
      rw [mutateLoaded, mutateEffective, if_pos rfl, checkEffective_exact clamped, if_neg timely,
        pure_bind]

end RateLimit.Postgres
