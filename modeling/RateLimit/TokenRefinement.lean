import RateLimit.TokenBound
import RateLimit.Reference

/-! The integer token bucket of PostgreSQL against the rational one of the reference
model. Where a stored balance is worth what the reference holds, one request gets the
same answer from both and leaves them worth the same again: the 128-bit refill with
its carried remainder is the rational refill, and the ceilings of the two waiting
times agree. The reference's strict caller tests the effective range before it enters
the model; without that test the two differ, as the concrete run at the end shows. -/
namespace RateLimit.Postgres

open Machine Reference

/-! ## Rational helpers of the reference -/

theorem floorRat_exact {value : ℚ} {whole : Nat} (floor : ⌊value⌋ = whole)
    (fits : whole < 18446744073709551616) : floorRat value = pure whole := by
  have nonneg : 0 ≤ value.num := by
    rw [Rat.num_nonneg, ← Int.floor_nonneg, floor]
    exact Int.natCast_nonneg _
  rw [← Rat.num_div_den value, Rat.floor_intCast_div_natCast] at floor
  unfold floorRat
  rw [Int.tdiv_eq_ediv_of_nonneg nonneg, floor, u64_exact (by omega) (by omega)]
  rfl

/-- Rounding a quotient up as the reference does is the ceiling. -/
private theorem rounded_up (numerator : Int) {denominator : Nat} (nonneg : 0 ≤ numerator)
    (positive : 0 < denominator) :
    (if numerator % denominator ≠ 0 then numerator.tdiv denominator + 1
      else numerator.tdiv denominator) = ⌈(numerator : ℚ) / denominator⌉ := by
  have den : (0 : ℚ) < denominator := by exact_mod_cast positive
  have split := Int.mul_ediv_add_emod numerator denominator
  have low := Int.emod_nonneg numerator (show (denominator : Int) ≠ 0 by omega)
  have high := Int.emod_lt_of_pos numerator (show (0 : Int) < denominator by omega)
  have exact : (denominator : ℚ) * (numerator / denominator : Int) + (numerator % denominator : Int) =
      numerator := by
    exact_mod_cast split
  have upper : ((numerator % denominator : Int) : ℚ) ≤ denominator := by exact_mod_cast high.le
  rw [Int.tdiv_eq_ediv_of_nonneg nonneg, eq_comm, Int.ceil_eq_iff, lt_div_iff₀ den, div_le_iff₀ den]
  by_cases inexact : numerator % denominator ≠ 0
  · have lower : (1 : ℚ) ≤ (numerator % denominator : Int) := by exact_mod_cast (by omega)
    rw [if_pos inexact]
    push_cast
    constructor <;> linarith
  · rw [if_neg inexact]
    rw [not_not.mp inexact] at exact
    push_cast at exact ⊢
    constructor <;> linarith

theorem referenceRefillDuration_exact {request : Request} (bounds : request.Bounds period)
    (within : missing ≤ request.policy.limit) (fraction : remainder < period) :
    referenceRefillDuration ((missing : ℚ) - remainder / period) request.policy =
      pure (.ofMicros ((rateOf bounds).wait missing remainder)) := by
  have positive : (0 : ℚ) < period := by exact_mod_cast bounds.period_pos
  unfold referenceRefillDuration
  by_cases none : missing = 0
  · have empty : (rateOf bounds).wait missing remainder = 0 := by
      have capacity := bounds.capacity_pos
      simp only [TokenRate.wait, rateOf, none, Nat.zero_mul, Nat.zero_sub]
      exact Nat.div_eq_of_lt (by omega)
    have least : ((missing : ℚ) - remainder / period) ≤ 0 := by
      rw [none, Nat.cast_zero, zero_sub]
      exact neg_nonpos.mpr (by positivity)
    rw [if_pos least, empty]
    rfl
  have some : (0 : ℚ) < (missing : ℚ) - remainder / period := by
    have whole : (1 : ℚ) ≤ missing := by exact_mod_cast Nat.pos_of_ne_zero none
    have part : (remainder : ℚ) / period < 1 := by
      rw [div_lt_one positive]
      exact_mod_cast fraction
    linarith
  have least : remainder ≤ missing * period :=
    fraction.le.trans (Nat.le_mul_of_pos_left period (Nat.pos_of_ne_zero none))
  have wait : ((rateOf bounds).wait missing remainder : Int) =
      ⌈((missing : ℚ) - remainder / period) * period / request.policy.capacity⌉ :=
    (rateOf bounds).wait_eq_ceil least
  have bound : (rateOf bounds).wait missing remainder ≤ missing * period - remainder :=
    (rateOf bounds).wait_le missing remainder
  have product : missing * period ≤ 9007199254740991 :=
    (Nat.mul_le_mul_right period within).trans bounds.product
  have nonneg : 0 ≤ ((missing : ℚ) - remainder / period) * period / request.policy.capacity := by
    positivity
  rw [if_neg (not_le.mpr some), bounds.period_eq, Duration.microseconds_ofMicros]
  dsimp only
  rw [Int.cast_natCast, rounded_up _ (Rat.num_nonneg.mpr nonneg) (Rat.den_pos _), Rat.num_div_den, ← wait,
    i64_exact (by omega) (by omega), pure_bind]
  simp only [Duration.microsecond]
  rw [i64_exact (by omega) (by omega)]
  rfl

/-! ## Spending -/

/-- On a balance worth what the reference holds, both spend alike. -/
theorem referenceToken_exact {request : Request} (bounds : request.Bounds period)
    (entry : ReferenceState) (state : PersistedState) (held : state.tokens ≤ request.policy.limit)
      (part : state.remainder < period)
    (worth : (refillReference entry request).tokens = (rateOf bounds).credit (levelOf state)) :
    referenceToken entry request = pure
      { state := { refillReference entry request with
          tokens := (rateOf bounds).credit (levelOf (spendToken (rateOf bounds) state request).state) }
        decision := (spendToken (rateOf bounds) state request).decision
        error := (spendToken (rateOf bounds) state request).error } := by
  have limit := bounds.limit_le
  have cost := bounds.cost_le
  have floor : ⌊(rateOf bounds).credit (levelOf state)⌋ = state.tokens := TokenRate.floor_credit part
  have affords : (request.cost : ℚ) ≤ (refillReference entry request).tokens ↔
      ¬ state.tokens < request.cost := by
    rw [worth, not_lt, ← Int.cast_natCast, ← Int.le_floor, floor]
    exact Int.ofNat_le
  have gap (tokens most : Nat) (least : tokens ≤ most) :
      (most : ℚ) - (rateOf bounds).credit ⟨tokens, state.remainder⟩ =
        ((most - tokens : Nat) : ℚ) - state.remainder / period :=
    (rateOf bounds).credit_gap state.remainder least
  unfold referenceToken
  dsimp only
  generalize refillReference entry request = filled at worth affords ⊢
  by_cases short : state.tokens < request.cost
  · have duration (most : Nat) (least : state.tokens ≤ most) (within : most ≤ request.policy.limit) :
        referenceRefillDuration (most - filled.tokens) request.policy =
          pure (.ofMicros ((rateOf bounds).wait (most - state.tokens) state.remainder)) := by
      rw [worth, levelOf, gap _ _ least, referenceRefillDuration_exact bounds (by omega) part]
    rw [if_neg (fun enough => (affords.mp enough) short), duration _ held le_rfl, duration _ short.le cost,
      worth, floorRat_exact floor (by omega), spendToken, if_pos short, ← worth]
    rfl
  · have left : filled.tokens - request.cost =
        (rateOf bounds).credit ⟨state.tokens - request.cost, state.remainder⟩ := by
      rw [worth]
      exact (TokenRate.credit_sub (not_lt.mp short)).symm
    have rest : ⌊(rateOf bounds).credit ⟨state.tokens - request.cost, state.remainder⟩⌋ =
        (state.tokens - request.cost : Nat) := TokenRate.floor_credit part
    have reset : referenceRefillDuration
        (request.policy.limit - (rateOf bounds).credit ⟨state.tokens - request.cost, state.remainder⟩)
          request.policy = pure (.ofMicros ((rateOf bounds).wait
            (request.policy.limit - (state.tokens - request.cost)) state.remainder)) := by
      rw [gap _ _ (by omega), referenceRefillDuration_exact bounds (by omega) part]
    rw [if_pos (affords.mpr short), left, floorRat_exact rest (by omega), reset, spendToken,
      if_neg short]
    rfl

/-! ## One request -/

/-- A stored balance and a reference entry that stand for the same. -/
structure Mirrors (state : PersistedState) (entry : ReferenceState) (writer : Request) (period : Nat) :
    Prop extends Balance state writer period where
  algorithm : entry.algorithm = .tokenBucket
  revision : entry.revision = state.revision
  observed : entry.observed = .ofUnixMicro state.observedMicros
  last : entry.last = .ofUnixMicro state.observedMicros
  worth : entry.tokens = (rateOf bounds).credit (levelOf state)

theorem clampTime_ofUnixMicro (a b : Int) :
    clampTime (.ofUnixMicro a) (.ofUnixMicro b) = .ofUnixMicro (max a b) := by
  unfold clampTime
  split <;> rename_i order <;> simp only [Time.ofUnixMicro, Time.mk.injEq] at order ⊢ <;> omega

/-- The rational refill is the integer one. -/
theorem refillReference_worth {request : Request} (entry : ReferenceState) (bounds : request.Bounds period)
    (level : (rateOf bounds).InRange level') (now : request.now = .ofUnixMicro micros)
    (last : entry.last = .ofUnixMicro before) (later : before ≤ micros)
    (worth : entry.tokens = (rateOf bounds).credit level') :
    refillReference entry request = { entry with
      tokens := (rateOf bounds).credit ((rateOf bounds).refill level' (micros - before).toNat)
      last := .ofUnixMicro micros } := by
  unfold refillReference
  by_cases moved : before < micros
  · have after : entry.last.nanos < request.now.nanos := by
      rw [last, now]
      simp only [Time.ofUnixMicro]
      omega
    have enough : (rateOf bounds).limit * (rateOf bounds).period ≤
        9223372036854775 * (rateOf bounds).capacity :=
      bounds.product.trans (le_trans (by decide) (Nat.le_mul_of_pos_right _ bounds.capacity_pos))
    have elapsed : (request.now.sub entry.last).microseconds =
        (min (micros - before).toNat 9223372036854775 : Nat) := by
      rw [now, last, Time.sub_microseconds later]
      omega
    rw [if_pos after, ← (rateOf bounds).refill_min level' _ enough, level.credit_refill, elapsed,
      bounds.period_eq, Duration.microseconds_ofMicros, worth, now]
    generalize min (micros - before).toNat 9223372036854775 = elapsed
    have earned : (rateOf bounds).credit level' + ((elapsed : Int) : ℚ) / ((period : Int) : ℚ) *
        request.policy.capacity = (rateOf bounds).credit level' + (rateOf bounds).earned elapsed := by
      simp only [TokenRate.earned, rateOf, Int.cast_natCast]
      ring
    have capped (value limit : ℚ) : (if value > limit then limit else value) = min limit value := by
      rw [min_def]
      split <;> split <;> linarith
    dsimp only
    rw [earned, capped]
    rfl
  · have same : micros = before := by omega
    have still : ¬ entry.last.nanos < request.now.nanos := by
      rw [last, now, same]
      exact lt_irrefl _
    rw [if_neg still, same, ← last]
    simp [TokenRate.refill, ← worth]

section
variable {request : Request} (kind : request.policy.algorithm = .tokenBucket)
  (bounds : request.Bounds period) (accepted : Accepted current request period)
include kind bounds

/-- The reference's step from an entry whose refill is the one PostgreSQL computes. -/
theorem admitCurrent_exact (entry : ReferenceState) (level : TokenLevel) (before : Int)
    (held : (rateOf accepted.bounds).InRange level)
    (available : availableLevel accepted = (rateOf accepted.bounds).refill level
      ((effective current request).now.unixMicro - before).toNat)
    (worth : entry.tokens = (rateOf accepted.bounds).credit level)
    (last : entry.last = .ofUnixMicro before)
    (later : before ≤ (effective current request).now.unixMicro)
    (clock : (loaded current request).lastMicros = (loaded current request).observedMicros)
    (token : entry.algorithm = .tokenBucket) (revision : entry.revision = request.policy.revision)
    (now : { request with now := clampTime request.now entry.observed } = effective current request)
    (whole : (effective current request).now = .ofUnixMicro (effective current request).now.unixMicro) :
    ∃ next, admitCurrent entry request = pure
        { state := next, decision := (outcome accepted).decision, error := (outcome accepted).error } ∧
      Mirrors (outcome accepted).state next request period := by
  have rate := rateOf_effective accepted bounds
  have found := held.refill ((effective current request).now.unixMicro - before).toNat
  obtain ⟨observed, -⟩ := outcome_clock accepted kind clock
  have filled := refillReference_worth { entry with observed := (effective current request).now }
    accepted.bounds held whole last later worth
  rw [← available] at filled found
  have spent := referenceToken_exact accepted.bounds
    { entry with observed := (effective current request).now }
    (refilled (rateOf accepted.bounds) (prepared (loaded current request) (effective current request))
      (effective current request).now.unixMicro) found.tokens_le found.remainder_lt
    (by rw [filled]; rfl)
  rw [filled, ← outcome_token accepted kind] at spent
  rw [rate] at found spent
  refine ⟨{ entry with
      observed := (effective current request).now
      tokens := (rateOf bounds).credit (levelOf (outcome accepted).state)
      last := .ofUnixMicro (effective current request).now.unixMicro },
    ?_, outcome_balance kind bounds accepted found clock, token,
    revision.trans (outcome_kept accepted).revision.symm, ?_, ?_, rfl⟩
  · unfold admitCurrent
    rw [now]
    dsimp only
    rw [effective_token kind]
    exact spent
  · rw [observed]
    exact whole
  · rw [observed]

end

theorem carryReference_same (same : entry.revision = request.policy.revision) :
    carryReference entry request = pure entry := by
  rw [carryReference, if_neg (not_not.mpr same)]

/-- Capping and rounding down carries the whole tokens the new limit has room for. -/
theorem carryReference_differs {rate : TokenRate} (differs : entry.revision ≠ request.policy.revision)
    (worth : entry.tokens = rate.credit level) (part : level.remainder < rate.period)
    (small : request.policy.limit ≤ 9007199254740991) :
    carryReference entry request = pure { entry with
      tokens := ((min level.tokens request.policy.limit : Nat) : ℚ)
      last := clampTime request.now entry.last } := by
  have floor : ⌊entry.tokens⌋ = level.tokens := by
    rw [worth, TokenRate.floor_credit part]
  have capped : ⌊if entry.tokens > request.policy.limit then (request.policy.limit : ℚ)
      else entry.tokens⌋ = (min level.tokens request.policy.limit : Nat) := by
    split
    · rename_i above
      have least : (request.policy.limit : Int) ≤ level.tokens := by
        rw [← floor, Int.le_floor]
        exact_mod_cast above.le
      rw [Int.floor_natCast]
      omega
    · rename_i below
      have most : (level.tokens : Int) ≤ request.policy.limit := by
        rw [← floor]
        exact_mod_cast (Int.floor_le _).trans (not_lt.mp below)
      rw [floor]
      omega
  rw [carryReference, if_pos differs, floorRat_exact capped (by omega)]
  rfl

theorem admitLocked_token (token : entry.algorithm = .tokenBucket)
    (kind : request.policy.algorithm = .tokenBucket) (nonneg : ¬ entry.tokens < 0)
    (within : entry.revision = request.policy.revision → ¬ entry.tokens > request.policy.limit)
    (carried : carryReference entry request = pure next) :
    admitLocked (some entry) request true =
      admitCurrent { next with revision := request.policy.revision } request := by
  have sound : ¬ (entry.tokens < 0 ∨
      (entry.revision = request.policy.revision ∧ entry.tokens > request.policy.limit)) := by
    rintro (negative | ⟨same, above⟩)
    · exact nonneg negative
    · exact within same above
  unfold admitLocked
  rw [stateFor, Option.getD_some]
  rw [if_neg (by simp [token, kind]), if_pos ⟨rfl, token⟩, if_neg sound, carried, pure_bind]

/-- One request, first on an empty key. -/
theorem admitLocked_fresh {request : Request} (kind : request.policy.algorithm = .tokenBucket)
    (bounds : request.Bounds period) (whole : request.now = .ofUnixMicro request.now.unixMicro)
    (accepted : Accepted none request period) :
    ∃ next, admitLocked none request true = pure
        { state := next, decision := (outcome accepted).decision, error := (outcome accepted).error } ∧
      Mirrors (outcome accepted).state next request period := by
  have now : effective none request = request := clampRequest_of_le (freshState_observed request).le
  obtain ⟨_, fresh⟩ := freshState_eq request
  obtain ⟨next, run, mirrors⟩ := admitCurrent_exact kind bounds accepted (stateFor none request)
    ⟨request.policy.limit, 0⟩ request.now.unixMicro
    (by rw [rateOf_effective accepted bounds]; exact ⟨bounds.period_pos, le_rfl, fun _ => rfl⟩)
    (by simp [available_fresh kind accepted, now]) (by simp [stateFor, TokenRate.credit]) whole
    (by rw [now]) (by simp [loaded, fresh]) kind rfl (by simp [now, stateFor, clampTime])
    (by rw [now]; exact whole)
  refine ⟨next, ?_, mirrors⟩
  rw [← run]
  unfold admitLocked
  simp [stateFor, kind, carryReference]

/-- One request on an entry that mirrors the stored balance. -/
theorem admitLocked_mirrors {request writer : Request} (mirrors : Mirrors state entry writer period')
    (follows : Follows request.policy writer.policy) (kind : request.policy.algorithm = .tokenBucket)
    (bounds : request.Bounds period) (whole : request.now = .ofUnixMicro request.now.unixMicro)
    (accepted : Accepted (some state) request period) :
    ∃ next, admitLocked (some entry) request true = pure
        { state := next, decision := (outcome accepted).decision, error := (outcome accepted).error } ∧
      Mirrors (outcome accepted).state next request period := by
  have rate := rateOf_effective accepted bounds
  have clamped : effective (some state) request = { request with
      now := .ofUnixMicro (max request.now.unixMicro state.observedMicros) } := clampRequest_whole whole
  have time : (effective (some state) request).now.unixMicro =
      max request.now.unixMicro state.observedMicros := clampRequest_unixMicro _ _
  have exact : (effective (some state) request).now =
      .ofUnixMicro (effective (some state) request).now.unixMicro := by
    rw [time, clamped]
  have now : { request with now := clampTime request.now entry.observed } =
      effective (some state) request := by
    rw [clamped, mirrors.observed, whole, clampTime_ofUnixMicro, Time.unixMicro_ofUnixMicro]
  have nonneg : ¬ entry.tokens < 0 := by
    rw [mirrors.worth, not_lt]
    unfold TokenRate.credit
    positivity
  by_cases same : entry.revision = request.policy.revision
  · obtain ⟨policy, equal⟩ := mirrors.kept.same_revision follows bounds (mirrors.revision ▸ same)
    have shared := rate.trans (rateOf_congr bounds mirrors.bounds policy equal)
    have within : ¬ entry.tokens > request.policy.limit := by
      rw [mirrors.worth, policy]
      exact not_lt.mpr mirrors.level.credit_le
    obtain ⟨next, run, mirrored⟩ := admitCurrent_exact kind bounds accepted
      { entry with revision := request.policy.revision } (levelOf state) state.observedMicros
      (by rw [shared]; exact mirrors.level)
      (available_same kind accepted mirrors.clock (mirrors.revision ▸ same))
      (by rw [shared]; exact mirrors.worth) mirrors.last (by rw [time]; exact le_max_right _ _)
      mirrors.clock mirrors.algorithm rfl now exact
    refine ⟨next, ?_, mirrored⟩
    rw [← run, admitLocked_token mirrors.algorithm kind nonneg (fun _ => within) (carryReference_same same)]
  · have differs : state.revision ≠ request.policy.revision := mirrors.revision ▸ same
    have carried := carryReference_differs same mirrors.worth mirrors.level.remainder_lt bounds.limit_le
    rw [mirrors.last, whole, clampTime_ofUnixMicro] at carried
    obtain ⟨next, run, mirrored⟩ := admitCurrent_exact kind bounds accepted
      { entry with
        tokens := ((min state.tokens request.policy.limit : Nat) : ℚ)
        last := .ofUnixMicro (max request.now.unixMicro state.observedMicros)
        revision := request.policy.revision }
      ⟨min state.tokens request.policy.limit, 0⟩ (max request.now.unixMicro state.observedMicros)
      (by rw [rate]; exact ⟨bounds.period_pos, Nat.min_le_right _ _, fun _ => rfl⟩)
      (by rw [available_carried kind accepted differs, time, sub_self]; simp)
      (by simp [TokenRate.credit]) rfl time.ge mirrors.clock mirrors.algorithm rfl now exact
    refine ⟨next, ?_, mirrored⟩
    rw [← run, admitLocked_token mirrors.algorithm kind nonneg (fun equal => absurd equal same) carried]
    rfl

/-! ## Whole runs -/

/-- Both sides are empty, or mirror each other. -/
def Paired (requests : List ValidRequest) (current : Option PersistedState)
    (entry : Option ReferenceState) : Prop :=
  (current = none ∧ entry = none) ∨
    ∃ state mirror, current = some state ∧ entry = some mirror ∧
      ∃ writer ∈ requests, ∃ period, Mirrors state mirror writer.toRequest period

/-- The reference's strict call, once the range of its effective time is tested. -/
theorem admitStrict_exact {request : Request} (kind : request.policy.algorithm = .tokenBucket)
    (bounds : request.Bounds period) (whole : request.now = .ofUnixMicro request.now.unixMicro)
    (time : effectiveTime entry request.now = .ofUnixMicro micros) (early : -9007199254740991 ≤ micros) :
    admitStrict entry request =
      if micros + period ≤ 9007199254740991 then do
        let answered ← admitLocked entry request true
        pure (some answered.state,
          strictDecisionResult answered.decision answered.error answered.state.observed)
      else pure (entry, ⟨{}, some .overflow⟩) := by
  have matched : periodMismatch entry request.policy = false := by
    unfold periodMismatch
    cases entry <;> simp [kind, usesWindowMetadata]
  have range := validateServerClockRange_exact (.ofUnixMicro micros) bounds.period_pos
    (bounds.period_le.trans (by decide))
  rw [Time.unixMicro_ofUnixMicro] at range
  unfold admitStrict
  rw [← whole]
  dsimp only
  rw [matched, if_neg (by decide), validateStrictEffectiveRange, time, bounds.period_eq, range, pure_bind]
  by_cases room : micros + period ≤ 9007199254740991
  · rw [if_pos ⟨early, room⟩, if_pos room]
  · rw [if_neg (fun inside => room inside.2), if_neg room]

theorem strictDecisionResult_timely {decision : Decision} {observed : Time} (error : Option Sentinel)
    (after : observed.nanos ≤ decision.reset.nanos) :
    strictDecisionResult decision error observed = ⟨decision, error⟩ := by
  have timely : validateStrictDecisionTime decision observed = none := by
    rw [validateStrictDecisionTime, if_neg (fun both => absurd both.2 (not_lt.mpr after))]
  rw [strictDecisionResult, timely]

/-- The strict call of the reference returns what its model decided. -/
theorem admitStrict_accepted {request : Request} (kind : request.policy.algorithm = .tokenBucket)
    (bounds : request.Bounds period) (whole : request.now = .ofUnixMicro request.now.unixMicro)
    (time : effectiveTime entry request.now = .ofUnixMicro (effective current request).now.unixMicro)
    (accepted : Accepted current request period)
    (run : admitLocked entry request true = pure
      { state := next, decision := (outcome accepted).decision, error := (outcome accepted).error })
    (mirrors : Mirrors (outcome accepted).state next request period) :
    admitStrict entry request = pure (some next,
      (outcome accepted).answer) := by
  have after : next.observed.nanos ≤ (outcome accepted).decision.reset.nanos := by
    rw [mirrors.observed, outcome_observed accepted]
    exact (Time.ofUnixMicro_unixMicro_le _).trans (outcome_complete accepted).2
  rw [admitStrict_exact kind bounds whole time accepted.bounds.not_before, if_pos accepted.bounds.room, run,
    pure_bind, strictDecisionResult_timely _ after]

/-- One request in a run on both sides. -/
theorem Paired.step {requests : List ValidRequest} {request : ValidRequest}
    (paired : Paired requests current entry) (revisions : Revisions requests) (member : request ∈ requests)
    (kind : request.policy.algorithm = .tokenBucket)
    (whole : request.now = .ofUnixMicro request.now.unixMicro) :
    ∃ first second, mutateStep current request = pure first ∧
      admitStrict entry request.toRequest = pure second ∧ first.2 = second.2 ∧
      Paired requests first.1 second.1 := by
  obtain ⟨period, bounds⟩ := request.bounds (Or.inl kind)
  have early := bounds.not_before
  rcases paired with ⟨rfl, rfl⟩ | ⟨state, mirror, rfl, rfl, writer, written, period', mirrors⟩
  · have now : effective none request.toRequest = request.toRequest :=
      clampRequest_of_le (freshState_observed request.toRequest).le
    have reached : Reached requests none := by simp [Reached]
    rcases reached.step revisions member (Or.inl kind) bounds with
      ⟨-, ⟨fixed, -⟩ | ⟨state, same, -⟩⟩ | ⟨accepted, result, -⟩
    · rw [kind] at fixed
      cases fixed
    · cases same
    · obtain ⟨next, run, mirrors⟩ := admitLocked_fresh kind bounds whole accepted
      have strict := admitStrict_accepted kind bounds whole (by rw [now]; exact whole) accepted run mirrors
      exact ⟨_, _, result, strict, rfl, Or.inr ⟨_, next, rfl, rfl, request, member, period, mirrors⟩⟩
  · have time : effectiveTime (some mirror) request.now =
        .ofUnixMicro (max request.now.unixMicro state.observedMicros) := by
      have clamped := clampTime_ofUnixMicro request.now.unixMicro state.observedMicros
      rw [← whole, ← mirrors.observed] at clamped
      exact clamped
    have reached : Reached requests (some state) := by
      intro _ same
      cases same
      exact ⟨writer, written, period', mirrors.kept⟩
    rcases reached.step revisions member (Or.inl kind) bounds with
      ⟨overflow, ⟨fixed, -⟩ | ⟨_, same, late⟩⟩ | ⟨accepted, result, -⟩
    · rw [kind] at fixed
      cases fixed
    · cases same
      have strict := admitStrict_exact kind bounds whole time (by omega)
      rw [if_neg (by omega)] at strict
      exact ⟨_, _, overflow, strict, rfl,
        Or.inr ⟨state, mirror, rfl, rfl, writer, written, period', mirrors⟩⟩
    · obtain ⟨next, run, mirrored⟩ :=
        admitLocked_mirrors mirrors (revisions request member writer written) kind bounds whole accepted
      have strict := admitStrict_accepted kind bounds whole
        (by rw [effective, clampRequest_unixMicro]; exact time) accepted run mirrored
      exact ⟨_, _, result, strict, rfl, Or.inr ⟨_, next, rfl, rfl, request, member, period, mirrored⟩⟩

/-- The reference as a machine on one key, behind the range test of its strict caller. -/
def referenceStep (entry : Option ReferenceState) (request : ValidRequest) :
    Machine (Option ReferenceState × Answer) :=
  admitStrict entry request.toRequest

/-- Tokens and carried remainder on one side are worth the rational balance on the
other, the remainder counted in the period of the stored revision. -/
def SameWorth (requests : List ValidRequest) (current : Option PersistedState)
    (entry : Option ReferenceState) : Prop :=
  (current = none ↔ entry = none) ∧
    ∀ state mirror, current = some state → entry = some mirror →
      ∃ request ∈ requests, request.policy.revision = state.revision ∧
        (state.tokens : ℚ) + state.remainder / request.policy.period.microseconds = mirror.tokens

theorem Paired.sameWorth (paired : Paired requests current entry) : SameWorth requests current entry := by
  rcases paired with ⟨rfl, rfl⟩ | ⟨state, mirror, rfl, rfl, writer, written, period, mirrors⟩
  · simp [SameWorth]
  · refine ⟨by simp, fun _ _ same same' => ?_⟩
    cases same
    cases same'
    refine ⟨writer, written, mirrors.kept.revision.symm, ?_⟩
    rw [mirrors.worth, mirrors.bounds.period_eq, Duration.microseconds_ofMicros]
    rfl

/-- The integer token bucket is the rational one. In every run on one policy ID, with
any request times on whole microseconds and any revisions, `mutateState` from nothing
answers every request as the reference does behind its caller's range test, and the
stored balance is worth the reference's throughout. -/
theorem token_bucket_refines_reference (requests : List ValidRequest)
    (token : ∀ request ∈ requests, request.policy.algorithm = .tokenBucket)
    (revisions : Revisions requests)
    (whole : ∀ request ∈ requests, request.now = .ofUnixMicro request.now.unixMicro) :
    ∃ firsts seconds, Runs.trace mutateStep none requests = pure firsts ∧
      Runs.trace referenceStep none requests = pure seconds ∧
      List.Forall₂ (fun first second => first.output = second.output ∧
        SameWorth requests first.after second.after) firsts seconds := by
  obtain ⟨firsts, seconds, first, second, same⟩ := Runs.trace_simulation mutateStep referenceStep
    (Paired requests) (fun _ answer answer' => answer = answer') requests
    (fun current entry request paired member =>
      paired.step revisions member (token request member) (whole request member))
    (Or.inl ⟨rfl, rfl⟩)
  exact ⟨firsts, seconds, first, second, same.imp fun _ _ both => ⟨both.1, both.2.sameWorth⟩⟩

theorem token_bucket_refines_reference_revised :
    Revisions [firstRequest, revisedRequest] ∧
      ∃ firsts seconds, Runs.trace mutateStep none [firstRequest, revisedRequest] = pure firsts ∧
        Runs.trace referenceStep none [firstRequest, revisedRequest] = pure seconds ∧
        firsts.length = seconds.length := by
  refine ⟨by decide, ?_⟩
  obtain ⟨firsts, seconds, first, second, same⟩ := token_bucket_refines_reference
    [firstRequest, revisedRequest] (by decide) (by decide) (by decide)
  exact ⟨firsts, seconds, first, second, same.length_eq⟩

/-- The last microsecond but one of the exact range, under a period of one. -/
def lastRequest : ValidRequest :=
  (ratePolicy .tokenBucket 97 1 0 1 micro_fits).request rfl 1 9007199254740990 rfl

/-- A request at the epoch under a revision with a period of two. -/
def widerRequest : ValidRequest :=
  (ratePolicy .tokenBucket 98 1 0 2 (by decide)).request rfl 1 0 rfl

/-- The reference's model itself, without the range test of its strict caller. -/
def lockedStep (entry : Option ReferenceState) (request : ValidRequest) :
    Machine (Option ReferenceState × Answer) := do
  let answered ← admitLocked entry request.toRequest true
  pure (some answered.state, ⟨answered.decision, answered.error⟩)

/-- The errors a machine returns in a run. -/
def errorsOf (step : σ → ValidRequest → Machine (σ × Answer)) (start : σ) (requests : List ValidRequest) :
    Machine (List (Option Sentinel)) :=
  (·.map fun entry => entry.output.error) <$> Runs.trace step start requests

/-- A request between two microseconds, under a period of one. -/
def partRequest (nanos : Int) (accepted : Request.validate ⟨lastRequest.policy, ⟨[107], [117]⟩, 1, ⟨nanos⟩⟩ = .ok ()) :
    ValidRequest :=
  ⟨⟨lastRequest.policy, ⟨[107], [117]⟩, 1, ⟨nanos⟩⟩, lastRequest.built, accepted⟩

/-- Without that test the two part: the recorded time leaves the wider revision no
room, PostgreSQL says so, and the model decides all the same. They also part between
microseconds, of which the model counts those that have passed in full. -/
theorem admitLocked_decides_past_the_range :
    Revisions [lastRequest, widerRequest] ∧
      (∀ request ∈ [lastRequest, widerRequest], request.policy.algorithm = .tokenBucket ∧
        request.now = .ofUnixMicro request.now.unixMicro) ∧
      errorsOf mutateStep none [lastRequest, widerRequest] = pure [none, some .overflow] ∧
      errorsOf lockedStep none [lastRequest, widerRequest] = pure [none, some .rejected] ∧
      errorsOf mutateStep none [partRequest 900 rfl, partRequest 1000 rfl] = pure [none, none] ∧
      errorsOf lockedStep none [partRequest 900 rfl, partRequest 1000 rfl] = pure [none, some .rejected] := by
  exact ⟨by decide, by decide, by decide +kernel, by decide +kernel, by decide +kernel, by decide +kernel⟩

end RateLimit.Postgres
