import RateLimit.TokenBound

/-! When a token bucket has what its decisions promise. A wait is rounded up to a microsecond
and a refill is rounded down, with what is left over carried along, so that the two meet: the
tokens are there when the wait is over, and not one microsecond before. -/
namespace RateLimit.Postgres

open Machine

/-- The tokens that a stored balance amounts to at a time, with no request in between. -/
def balanceAt (state : PersistedState) (request : Request) (time : Time) : Machine Nat := do
  let current ← refillToken state { request with now := time }
  pure current.tokens

/-- The times in the decision of a step that left `state` are exact. -/
structure TimesExact (entry : StateEntry) (state : PersistedState) : Prop where
  decided : entry.after = some state ∧ (entry.output.error = none ∨ entry.output.error = some .rejected)
  /-- `tokenDuration` neither saturates nor wraps. -/
  reset : ∃ micros : Nat, micros ≤ 9007199254740991 ∧
    tokenDuration (entry.input.policy.limit - state.tokens) state.remainder entry.input.policy =
      pure (.ofMicros micros) ∧
    entry.output.decision.reset = (effective entry.before entry.input.toRequest).now.add (.ofMicros micros)
  retry : entry.output.error = some .rejected → ∃ micros : Nat, micros ≤ 9007199254740991 ∧
    tokenDuration (entry.input.cost - state.tokens) state.remainder entry.input.policy = pure (.ofMicros micros) ∧
    entry.output.decision.retryAfter = .ofMicros micros
  /-- The bucket is full at the reset and not before. -/
  full : ∀ time : Time, entry.effectiveMicros ≤ time.unixMicro →
    ∃ held, balanceAt state entry.input.toRequest time = pure held ∧ held ≤ entry.input.policy.limit ∧
      (held = entry.input.policy.limit ↔ entry.output.decision.reset.unixMicro ≤ time.unixMicro)
  /-- The cost can be spent when the wait is over and not before. -/
  spent : entry.output.error = some .rejected → ∀ time : Time, entry.effectiveMicros ≤ time.unixMicro →
    ∃ applied, mutateToken state { entry.input.toRequest with now := time } = pure applied ∧
      applied.error = if entry.effectiveMicros + entry.output.decision.retryAfter.microseconds ≤
        time.unixMicro then none
        else some .rejected
  /-- So it is for every valid request of the same cost. -/
  retried : entry.output.error = some .rejected → ∀ later : ValidRequest, later.policy = entry.input.policy →
    later.cost = entry.input.cost → entry.effectiveMicros ≤ later.now.unixMicro →
    ∃ next answer, mutateStep (some state) later = pure (next, answer) ∧
      answer.error = if entry.effectiveMicros + entry.output.decision.retryAfter.microseconds ≤
        later.now.unixMicro then none
        else some .rejected

section
variable {state : PersistedState} {writer : Request} (balance : Balance state writer period)
include balance

/-- A stored balance has so many tokens once the wait for the missing ones is over. -/
theorem Balance.reaches (within : target ≤ writer.policy.limit) {now : Int} (later : state.observedMicros ≤ now) :
    target ≤ (refilled (rateOf balance.bounds) state now).tokens ↔
      state.observedMicros + (rateOf balance.bounds).wait (target - state.tokens) state.remainder ≤ now := by
  have exact : target ≤ (refilled (rateOf balance.bounds) state now).tokens ↔ _ :=
    TokenRate.le_refill_iff balance.level.remainder_lt within
  rw [exact, balance.clock]
  dsimp only [levelOf]
  omega

theorem Balance.full {time : Time} (later : state.observedMicros ≤ time.unixMicro) :
    ∃ held, balanceAt state writer time = pure held ∧ held ≤ writer.policy.limit ∧
      (held = writer.policy.limit ↔ state.observedMicros +
        (rateOf balance.bounds).wait (writer.policy.limit - state.tokens) state.remainder ≤ time.unixMicro) := by
  have most : (refilled (rateOf balance.bounds) state time.unixMicro).tokens ≤ writer.policy.limit :=
    (rateOf balance.bounds).refill_tokens_le balance.level.tokens_le
  refine ⟨(refilled (rateOf balance.bounds) state time.unixMicro).tokens, ?_, most, ?_⟩
  · rw [balanceAt, refillToken_at balance.bounds balance.level.remainder_lt, pure_bind]
  · rw [← balance.reaches le_rfl later]
    omega

theorem Balance.spent {time : Time} (later : state.observedMicros ≤ time.unixMicro) :
    ∃ applied, mutateToken state { writer with now := time } = pure applied ∧
      applied.error = if state.observedMicros +
          (rateOf balance.bounds).wait (writer.cost - state.tokens) state.remainder ≤ time.unixMicro then none
        else some .rejected := by
  have reaches := balance.reaches balance.bounds.cost_le later
  refine ⟨_, mutateToken_at balance.bounds balance.level.tokens_le balance.level.remainder_lt time, ?_⟩
  split
  · rename_i reached
    have room : ¬ (refilled (rateOf balance.bounds) state time.unixMicro).tokens <
      ({ writer with now := time } : Request).cost :=
      not_lt.mpr (reaches.mpr reached)
    exact (spendToken_room _ room).1
  · rename_i early
    have short : (refilled (rateOf balance.bounds) state time.unixMicro).tokens <
      ({ writer with now := time } : Request).cost :=
      not_le.mp (mt reaches.mp early)
    exact (spendToken_short _ short).1

/-- The same through `mutateState`, which leaves a request alone that is not early. -/
theorem Balance.retried (kind : writer.policy.algorithm = .tokenBucket)
    (later : ValidRequest) (same : later.policy = writer.policy) (after : state.observedMicros ≤ later.now.unixMicro) :
    ∃ next answer, mutateStep (some state) later = pure (next, answer) ∧
      answer.error = if state.observedMicros +
          (rateOf balance.bounds).wait (later.cost - state.tokens) state.remainder ≤ later.now.unixMicro then none
        else some .rejected := by
  have token : later.policy.algorithm = .tokenBucket := same ▸ kind
  have bounds : later.toRequest.Bounds period := bounds_of_period later (Or.inl token) (same ▸ balance.bounds.period_eq)
  have follows : Follows later.policy writer.policy :=
    ⟨by rw [same], by rw [same], fun _ => by rw [same], fun _ => same⟩
  rcases balance.kept.step follows bounds (Or.inl token) with ⟨-, ⟨fixed, -⟩ | ⟨_, stored, beyond⟩⟩ | ⟨accepted, result⟩
  · rw [token] at fixed
    cases fixed
  · cases stored
    have := bounds.room
    omega
  have now : (effective (some state) later.toRequest).now.unixMicro = later.now.unixMicro := by
    rw [effective, clampRequest_unixMicro]
    exact max_eq_left after
  have rate : rateOf accepted.bounds = rateOf balance.bounds :=
    (rateOf_effective accepted bounds).trans (rateOf_congr bounds balance.bounds same rfl)
  have within : later.cost ≤ (rateOf balance.bounds).limit := by
    rw [← rate, rateOf_effective accepted bounds]
    exact bounds.cost_le
  have reaches := balance.reaches within after
  have available : (availableLevel accepted).tokens =
    (refilled (rateOf balance.bounds) state later.now.unixMicro).tokens := by
    rw [available_same token accepted balance.clock (same ▸ balance.kept.revision), now, rate,
      ← balance.clock]
    rfl
  rw [← available] at reaches
  refine ⟨some (outcome accepted).state, (outcome accepted).answer, ?_, ?_⟩
  · rw [mutateStep, result]
    rfl
  · split
    · rename_i reached
      exact (outcome_room accepted token (not_lt.mpr (reaches.mpr reached))).1
    · rename_i early
      exact (outcome_short accepted token (not_le.mp (mt reaches.mp early))).1

end

section
variable {current : Option PersistedState} {request : Request} (accepted : Accepted current request period)
  (kind : request.policy.algorithm = .tokenBucket)
include kind

/-- The times of a decision are waits for what the bucket lacks after it. -/
theorem outcome_times :
    (outcome accepted).decision.reset = (effective current request).now.add (.ofMicros
        ((rateOf accepted.bounds).wait (request.policy.limit - (outcome accepted).state.tokens)
          (outcome accepted).state.remainder)) ∧
      ((outcome accepted).error = some .rejected → (outcome accepted).decision.retryAfter = .ofMicros
        ((rateOf accepted.bounds).wait (request.cost - (outcome accepted).state.tokens)
          (outcome accepted).state.remainder)) := by
  have limit : (rateOf accepted.bounds).limit = request.policy.limit := by
    simp [rateOf, effective]
  have cost : (effective current request).cost = request.cost := clampRequest_cost _ _
  rw [outcome_token accepted kind, ← limit, ← cost]
  unfold spendToken
  split
  · exact ⟨rfl, fun _ => rfl⟩
  · exact ⟨rfl, by rintro ⟨⟩⟩

end

theorem wait_small {request : Request} (bounds : request.Bounds period) (within : missing ≤ request.policy.limit)
    (remainder : Nat) : (rateOf bounds).wait missing remainder ≤ 9007199254740991 :=
  calc (rateOf bounds).wait missing remainder ≤ missing * period - remainder :=
    (rateOf bounds).wait_le missing remainder
    _ ≤ missing * period := Nat.sub_le _ _
    _ ≤ request.policy.limit * period := Nat.mul_le_mul_right period within
    _ ≤ 9007199254740991 := bounds.product

/-- The times of an accepted request are exact. -/
theorem acceptedEntry_exact {request : ValidRequest} (kind : request.policy.algorithm = .tokenBucket)
    (bounds : request.toRequest.Bounds period) (accepted : Accepted current request.toRequest period)
    (balance : Balance (outcome accepted).state request.toRequest period) :
    TimesExact (acceptedEntry request accepted) (outcome accepted).state := by
  have observed := outcome_observed accepted
  have rate : rateOf accepted.bounds = rateOf balance.bounds := rateOf_effective accepted bounds
  obtain ⟨reset, retry⟩ := outcome_times accepted kind
  rw [rate] at reset retry
  have added (micros : Nat) : ((effective current request.toRequest).now.add (.ofMicros micros)).unixMicro =
      (outcome accepted).state.observedMicros + micros := by
    rw [observed]
    simp only [Time.add, Time.unixMicro, Duration.ofMicros]
    omega
  have missing : request.cost - (outcome accepted).state.tokens ≤ request.policy.limit :=
    (Nat.sub_le _ _).trans bounds.cost_le
  exact
    { decided := ⟨rfl, outcome_error accepted⟩
      reset := ⟨_, wait_small bounds (Nat.sub_le _ _) _,
        tokenDuration_exact bounds (Nat.sub_le _ _) balance.level.remainder_lt, reset⟩
      retry := fun rejected => ⟨_, wait_small bounds missing _,
        tokenDuration_exact bounds missing balance.level.remainder_lt, retry rejected⟩
      full := fun time later => by
        obtain ⟨held, exact, most, full⟩ := balance.full (observed.trans_le later)
        refine ⟨held, exact, most, full.trans ?_⟩
        rw [acceptedEntry, reset, added]
      spent := fun rejected time later => by
        rw [acceptedEntry_effective, ← observed] at later ⊢
        rw [acceptedEntry, retry rejected, Duration.microseconds_ofMicros]
        exact balance.spent later
      retried := fun rejected later same price after => by
        rw [acceptedEntry_effective, ← observed] at after ⊢
        rw [acceptedEntry, retry rejected, Duration.microseconds_ofMicros, ← show later.cost = request.cost from price]
        exact balance.retried kind later same after }

/-- Nothing is stored yet, or a balance under the policy with room for its period. -/
def Banked (policy : Policy) (current : Option PersistedState) : Prop :=
  ∀ state, current = some state → ∃ (writer : Request) (period : Nat), writer.policy = policy ∧
    Balance state writer period ∧ state.observedMicros + period ≤ 9007199254740991

/-- A step of a run under one token policy decides, and its times are exact. -/
theorem Banked.step {policy : Policy} (token : policy.algorithm = .tokenBucket) (banked : Banked policy current)
    (request : ValidRequest) (same : request.policy = policy) :
    ∃ result, mutateStep current request = pure result ∧ Banked policy result.1 ∧
      ∃ state, TimesExact ⟨current, request, result.2, result.1⟩ state := by
  subst same
  obtain ⟨period, bounds⟩ := request.bounds (Or.inl token)
  have decides : ∃ accepted : Accepted current request.toRequest period,
      mutateState current request.toRequest = pure (.finished current (outcome accepted)) ∧
        Balance (outcome accepted).state request.toRequest period := by
    cases current with
    | none =>
      rcases mutateState_cases (Or.inl token) bounds none with
        ⟨-, ⟨fixed, -⟩ | ⟨_, missing, -⟩⟩ | ⟨-, _, missing, -⟩ | ⟨accepted, result⟩
      · rw [token] at fixed
        cases fixed
      · cases missing
      · cases missing
      · refine ⟨accepted, result, outcome_balance token bounds accepted ?_ ?_⟩
        · rw [available_fresh token accepted]
          exact ⟨bounds.period_pos, le_rfl, fun _ => rfl⟩
        · obtain ⟨_, fresh⟩ := freshState_eq request.toRequest
          simp [loaded, fresh]
    | some state =>
      obtain ⟨writer, period', same, balance, room⟩ := banked state rfl
      obtain rfl : period' = period :=
        ofMicros_injective (by rw [← balance.bounds.period_eq, same, bounds.period_eq])
      have follows : Follows request.policy writer.policy :=
        ⟨by rw [same], by rw [same], fun _ => by rw [same], fun _ => same.symm⟩
      rcases balance.kept.step follows bounds
        (Or.inl token) with ⟨-, ⟨fixed, -⟩ | ⟨_, stored, beyond⟩⟩ | ⟨accepted, result⟩
      · rw [token] at fixed
        cases fixed
      · cases stored
        have := bounds.room
        omega
      · exact ⟨accepted, result, outcome_balance token bounds accepted
          (balance.available follows token bounds accepted).1 balance.clock⟩
  obtain ⟨accepted, result, balance⟩ := decides
  refine ⟨(some (outcome accepted).state, (outcome accepted).answer), ?_, ?_, _,
    acceptedEntry_exact token bounds accepted balance⟩
  · rw [mutateStep, result]
    rfl
  · rintro state same
    cases same
    exact ⟨request.toRequest, period, rfl, balance, outcome_observed accepted ▸ accepted.bounds.room⟩

/-- Waits and resets of token buckets are exact. In every run of `mutateState` under one token
policy every request is decided. A bucket that rejects a cost has it when `RetryAfter` is
over and not one microsecond before, and it is full at `Reset` and not before. -/
theorem token_times_exact (policy : Policy) (token : policy.algorithm = .tokenBucket) (requests : List ValidRequest)
    (same : ∀ request ∈ requests, request.policy = policy) :
    ∃ entries, Runs.trace mutateStep none requests = pure entries ∧ entries.map Entry.input = requests ∧
      ∀ entry ∈ entries, ∃ state, TimesExact entry state := by
  obtain ⟨entries, run, inputs, exact⟩ := Runs.trace_invariant mutateStep (Banked policy)
    (fun entry => ∃ state, TimesExact entry state)
    requests (fun current request banked member => banked.step token request (same request member))
    (show Banked policy none from nofun)
  exact ⟨entries, run, inputs, fun entry member => (exact entry member).2⟩

/-- Ten tokens a second with a burst of five. -/
def tenPerSecond : Policy := ratePolicy .tokenBucket 97 10 5 1000000 second_fits

/-- A request for nine of the fifteen tokens. -/
def nineOf (micros : Int) (accepted : (Request.mk tenPerSecond ⟨[107], [117]⟩ 9 (.ofUnixMicro micros)).validate
    = .ok ()) :
    ValidRequest := tenPerSecond.request rfl 9 micros accepted

theorem token_times_exact_twice :
    tenPerSecond.algorithm = .tokenBucket ∧ ∃ entries,
      Runs.trace mutateStep none [nineOf 5 rfl, nineOf 7 rfl] = pure entries ∧
        (∃ entry ∈ entries, entry.output.error = some .rejected ∧ entry.output.decision.retryAfter = .ofMicros 299998) ∧
        ∀ entry ∈ entries, ∃ state, TimesExact entry state := by
  have same : ∀ request ∈ [nineOf 5 rfl, nineOf 7 rfl], request.policy = tenPerSecond := by
    simp only [List.forall_mem_cons]
    exact ⟨rfl, rfl, List.forall_mem_nil _⟩
  obtain ⟨entries, run, -, exact⟩ := token_times_exact tenPerSecond rfl _ same
  refine ⟨rfl, entries, run, ?_, exact⟩
  have rejected : (match Runs.trace mutateStep none [nineOf 5 rfl, nineOf 7 rfl] with
      | .done entries _ => entries.any fun entry => decide (entry.output.error = some .rejected ∧
          entry.output.decision.retryAfter = .ofMicros 299998)
      | .panic => false) = true := by decide +kernel
  rw [run] at rejected
  simpa using List.any_eq_true.mp rejected

end RateLimit.Postgres
