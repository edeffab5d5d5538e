import RateLimit.TokenTimes
import RateLimit.SlidingRelease

/-! The range of resets. A request is refused if its time leaves no room for one period, but a
bucket with a burst takes longer than a period to fill, and a sliding window resets up to a
segment later. -/
namespace RateLimit.Postgres

open Machine

/-- From the effective time of a step on, an empty bucket would fill within the exact range, and
so would the current segment end a period ago. -/
def ResetFits (entry : StateEntry) : Prop :=
  (entry.input.policy.algorithm = .tokenBucket →
    (entry.input.policy.limit : Int) * entry.input.policy.period.microseconds ≤
      (9007199254740991 - entry.effectiveMicros) * entry.input.policy.capacity) ∧
  (entry.input.policy.algorithm = .slidingWindow →
    (segmentAt entry.effectiveMicros entry.input.policy.period.microseconds.toNat + 1) *
      widthOf entry.input.policy.period.microseconds.toNat + entry.input.policy.period.microseconds ≤ 9007199254740991)

instance (entry : StateEntry) : Decidable (ResetFits entry) := inferInstanceAs (Decidable ((_ → _) ∧ (_ → _)))

section
variable {current : Option PersistedState} {request : Request} (accepted : Accepted current request period)

theorem token_reset_le (kind : request.policy.algorithm = .tokenBucket)
    (fits : (request.policy.limit : Int) * period ≤
      (9007199254740991 - (effective current request).now.unixMicro) * request.policy.capacity) :
    (outcome accepted).decision.reset.unixMicro ≤ 9007199254740991 := by
  obtain ⟨reset, -⟩ := outcome_times accepted kind
  have late := accepted.bounds.room
  have capacity : (rateOf accepted.bounds).capacity = request.policy.capacity := by simp [rateOf, effective]
  obtain ⟨left, enough⟩ : ∃ left : Nat, (left : Int) = 9007199254740991 - (effective current request).now.unixMicro :=
    ⟨(9007199254740991 - (effective current request).now.unixMicro).toNat, by omega⟩
  have waits : (rateOf accepted.bounds).wait (request.policy.limit - (outcome accepted).state.tokens)
      (outcome accepted).state.remainder ≤ left := by
    rw [TokenRate.wait_le_iff, Nat.le_div_iff_mul_le (rateOf accepted.bounds).period_pos]
    calc (request.policy.limit - (outcome accepted).state.tokens) * period ≤ request.policy.limit * period :=
          Nat.mul_le_mul_right period (Nat.sub_le _ _)
      _ ≤ left * request.policy.capacity := by
          rw [← enough] at fits
          exact_mod_cast fits
      _ ≤ left * (rateOf accepted.bounds).capacity + (outcome accepted).state.remainder := by
          rw [capacity]
          exact Nat.le_add_right _ _
  rw [reset]
  simp only [Time.add, Time.unixMicro, Duration.ofMicros] at enough waits ⊢
  omega

theorem fixed_reset_le (kind : request.policy.algorithm = .fixedWindow) :
    (outcome accepted).decision.reset.unixMicro ≤ 9007199254740991 := by
  have same : (effective current request).policy.algorithm = .fixedWindow := by
    rw [effective, clampRequest_policy, kind]
  have reset : (outcome accepted).decision.reset =
      .ofUnixMicro (windowStart (effective current request).now.unixMicro period + period) := by
    simp only [outcome, spend, same]
    exact spendUsage_reset _ _ _
  rw [reset, Time.unixMicro_ofUnixMicro]
  have start := (windowStart_bounds accepted.bounds).1
  have late := accepted.bounds.room
  omega

theorem sliding_reset_le (kind : request.policy.algorithm = .slidingWindow)
    (fits : (segmentAt (effective current request).now.unixMicro period + 1) * widthOf period + period ≤
      9007199254740991) :
    (outcome accepted).decision.reset.unixMicro ≤ 9007199254740991 := by
  obtain ⟨result, segments⟩ := outcome_spendSliding accepted kind
  have sliding : (effective current request).policy.algorithm = .slidingWindow := by
    rw [effective, clampRequest_policy, kind]
  have late := accepted.bounds.room
  obtain ⟨positive, -, -⟩ := widthOf_bounds accepted.bounds
  rw [result, spendSliding, spendSegment_reset, segments, slidingReset, accepted.bounds.period_eq]
  split
  · rename_i found
    rcases earliestUsed_cases (oldestAt (effective current request).now.unixMicro period)
      (List.ofFn (loaded current request).segments) maxInt64 with missing | ⟨segment, listed, newer, used, same⟩
    · exact absurd missing found
    · obtain ⟨slot, rfl⟩ := List.mem_ofFn.mp listed
      have past := (accepted.timely.placed sliding slot newer used).1
      have before : (((loaded current request).segments slot).index + 1) * widthOf period ≤
          (segmentAt (effective current request).now.unixMicro period + 1) * widthOf period :=
        mul_le_mul_of_nonneg_right (Int.add_le_add_right past 1) positive.le
      rw [same]
      simp only [Time.add, Time.ofUnixMicro, Time.unixMicro, Duration.ofMicros]
      omega
  · simp only [Time.add, Time.unixMicro, Duration.ofMicros] at late ⊢
    omega

end

/-- Resets stay in the exact range. In every run of `mutateState` each decision of a step whose
policy and effective time fit has its reset within the integers that a double holds exactly. -/
theorem resets_in_range (requests : List ValidRequest)
    (rate : ∀ request ∈ requests, request.policy.algorithm ≠ .concurrency) :
    ∃ entries, Runs.trace mutateStep none requests = pure entries ∧ entries.map Entry.input = requests ∧
      ∀ entry ∈ entries, (entry.output.error = none ∨ entry.output.error = some .rejected) → ResetFits entry →
        -9007199254740991 ≤ entry.output.decision.reset.unixMicro ∧ entry.output.decision.reset.unixMicro ≤
          9007199254740991 := by
  obtain ⟨entries, run, inputs, held⟩ := Runs.trace_invariant mutateStep (fun _ => True)
    (fun entry => (entry.output.error = none ∨ entry.output.error = some .rejected) → ResetFits entry →
      -9007199254740991 ≤ entry.output.decision.reset.unixMicro ∧ entry.output.decision.reset.unixMicro ≤
        9007199254740991)
    requests (fun current request _ member => by
      have kind := request.built.sound.known.resolve_right (rate request member)
      obtain ⟨period, bounds⟩ := request.bounds kind
      rcases mutateState_cases kind bounds current with ⟨overflow, -⟩ | ⟨corrupt, -⟩ | ⟨accepted, result⟩
      · refine ⟨_, by rw [mutateStep, overflow]; rfl, trivial, ?_⟩
        rintro (allowed | rejected)
        · cases allowed
        · cases rejected
      · refine ⟨_, by rw [mutateStep, corrupt]; rfl, trivial, ?_⟩
        rintro (allowed | rejected)
        · cases allowed
        · cases rejected
      · refine ⟨(some (outcome accepted).state, (outcome accepted).answer),
          by rw [mutateStep, result]; rfl, trivial, fun _ fits => ?_⟩
        have early := accepted.bounds.not_before
        have after := (outcome_complete accepted).2
        have timed : request.policy.period.microseconds = period := by
          rw [bounds.period_eq, Duration.microseconds_ofMicros]
        unfold ResetFits at fits
        dsimp only at fits ⊢
        rw [timed, Int.toNat_natCast] at fits
        refine ⟨?_, ?_⟩
        · simp only [Time.unixMicro] at early ⊢
          omega
        · rcases kind with token | fixed | sliding
          · exact token_reset_le accepted token (fits.1 token)
          · exact fixed_reset_le accepted fixed
          · exact sliding_reset_le accepted sliding (fits.2 sliding)) trivial
  exact ⟨entries, run, inputs, fun entry member => (held entry member).2⟩

theorem resets_in_range_first :
    (∀ request ∈ [firstRequest, firstRequest], request.policy.algorithm ≠ .concurrency) ∧ ∃ entries,
      Runs.trace mutateStep none [firstRequest, firstRequest] = pure entries ∧
        (∀ entry ∈ entries, entry.output.error = none ∧ ResetFits entry) ∧
        ∀ entry ∈ entries, -9007199254740991 ≤ entry.output.decision.reset.unixMicro ∧
          entry.output.decision.reset.unixMicro ≤ 9007199254740991 := by
  have rate : ∀ request ∈ [firstRequest, firstRequest], request.policy.algorithm ≠ .concurrency := by decide
  obtain ⟨entries, run, -, within⟩ := resets_in_range _ rate
  have all : (match Runs.trace mutateStep none [firstRequest, firstRequest] with
      | .done entries _ => entries.all fun entry => decide (entry.output.error = none ∧ ResetFits entry)
      | .panic => false) = true := by decide +kernel
  rw [run] at all
  have fits : ∀ entry ∈ entries, entry.output.error = none ∧ ResetFits entry := by simpa using List.all_eq_true.mp all
  exact ⟨rate, entries, run, fits, fun entry member => within entry member (Or.inl (fits entry member).1)
    (fits entry member).2⟩

/-- Two requests in a sliding window of sixteen microseconds, as late as can be. -/
def lastWindow : Policy := ratePolicy .slidingWindow 97 2 0 16 pane_fits

def closingRequest : ValidRequest := lastWindow.request rfl 1 9007199254740975 rfl

/-- A bucket with a burst that takes the whole exact range to fill. -/
def slowBucket : Policy := ratePolicy .tokenBucket 97 1 9007199254740990 1 micro_fits

def emptyingRequest : ValidRequest := slowBucket.request rfl 9007199254740991 1 rfl

/-- A sliding window whose reset is a microsecond beyond the exact range, and a bucket whose
reset is. -/
theorem resets_out_of_range :
    (List.map (fun entry => (entry.output.error, entry.output.decision.reset.unixMicro)) <$>
        Runs.trace mutateStep none [closingRequest, closingRequest] =
      pure [(none, 9007199254740991), (none, 9007199254740992)]) ∧
    List.map (fun entry => (entry.output.error, entry.output.decision.reset.unixMicro)) <$>
        Runs.trace mutateStep none [emptyingRequest] = pure [(none, 9007199254740992)] := by
  refine ⟨?_, ?_⟩ <;> decide +kernel

end RateLimit.Postgres
