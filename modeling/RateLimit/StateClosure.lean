import RateLimit.StateChecks
import RateLimit.Runs

/-! The strict state machine is closed. Whatever a row holds, a valid request is
answered by an error that leaves the row alone or by a complete decision; and what
the machine itself has written it accepts again, under any revision of the policy.
`Kept` is the invariant behind the second half: every accepted request establishes
it, whatever it found, and no test refuses a state that has it. -/
namespace RateLimit.Postgres

open Machine

/-! ## Decisions -/

/-- The two answers that carry a state. -/
def Complete (applied : Applied) (request : Request) : Prop :=
  (applied.error = none ∧ completeAllowed applied.decision request) ∨
    (applied.error = some .rejected ∧ completeRejected applied.decision request)

section
variable {request : Request} (bounds : request.Bounds period)
include bounds

theorem reset_ne_zero (after : request.now.nanos ≤ reset.nanos) : reset ≠ Time.zero := by
  have early := bounds.not_before
  unfold Time.unixMicro at early
  rintro rfl
  simp only [Time.zero] at after
  omega

theorem spendToken_complete (held : state.tokens ≤ request.policy.limit) :
    Complete (spendToken (rateOf bounds) state request) request ∧
      request.now.nanos ≤ (spendToken (rateOf bounds) state request).decision.reset.nanos := by
  unfold spendToken
  split
  · rename_i short
    have after := Time.le_add_ofMicros request.now
      ((rateOf bounds).wait ((rateOf bounds).limit - state.tokens) state.remainder)
    refine ⟨Or.inr ⟨rfl, rfl, rfl, rfl, short, reset_ne_zero bounds after, ?_⟩, after⟩
    simp only [Duration.ofMicros]
    omega
  · have after := Time.le_add_ofMicros request.now
      ((rateOf bounds).wait ((rateOf bounds).limit - (state.tokens - request.cost)) state.remainder)
    exact ⟨Or.inl ⟨rfl, rfl, rfl, rfl, Nat.sub_le_sub_right held _, reset_ne_zero bounds after, rfl⟩, after⟩

theorem spendUsage_complete (state : PersistedState) (after : request.now.nanos ≤ reset.nanos) :
    Complete (spendUsage state request reset) request ∧
      request.now.nanos ≤ (spendUsage state request reset).decision.reset.nanos := by
  have zero := reset_ne_zero bounds after
  unfold spendUsage
  split
  · rename_i short
    exact ⟨Or.inr ⟨rfl, rfl, rfl, rfl, short, zero, le_max_right _ _⟩, after⟩
  · refine ⟨Or.inl ⟨rfl, rfl, rfl, rfl, ?_, zero, rfl⟩, after⟩
    dsimp only
    omega

theorem spendFixed_complete (state : PersistedState) :
    Complete (spendFixed period state request) request ∧
      request.now.nanos ≤ (spendFixed period state request).decision.reset.nanos :=
  spendUsage_complete bounds _ (Time.nanos_le_ofUnixMicro (windowStart_bounds bounds).2)

/-- A sliding window resets a period after a segment that still counts has ended. -/
theorem slidingReset_after (state : PersistedState) :
    request.now.nanos ≤ (slidingReset (widthOf period)
      (earliestUsed (oldestAt request.now.unixMicro period) (List.ofFn state.segments) maxInt64)
      request).nanos := by
  obtain ⟨positive, -, -⟩ := widthOf_bounds bounds
  have start := multiple_bounds (request.now.unixMicro - period) positive
  unfold slidingReset
  rw [bounds.period_eq]
  split
  · rename_i found
    rcases earliestUsed_cases (oldestAt request.now.unixMicro period) (List.ofFn state.segments)
      maxInt64 with missing | ⟨segment, -, newer, -, same⟩
    · exact absurd missing found
    rw [same]
    have boundary : request.now.unixMicro - period < (segment.index + 1) * widthOf period := by
      unfold oldestAt at newer
      nlinarith
    simp only [Time.add, Time.ofUnixMicro, Duration.ofMicros, Time.unixMicro] at boundary ⊢
    omega
  · exact Time.le_add_ofMicros _ _

theorem spendSegment_complete (state : PersistedState)
    (after : request.now.nanos ≤ (slidingReset width earliest request).nanos) :
    Complete (spendSegment state request index width earliest) request ∧
      request.now.nanos ≤ (spendSegment state request index width earliest).decision.reset.nanos := by
  have complete := spendUsage_complete bounds
    { state with segments := claimSlot state.segments index } after
  unfold spendSegment
  dsimp only
  split
  · exact complete
  · exact complete

theorem spend_complete (kind : request.policy.algorithm.IsRate)
    (held : request.policy.algorithm = .tokenBucket →
      state.tokens ≤ request.policy.limit) :
    Complete (spend (rateOf bounds) state request) request ∧
      request.now.nanos ≤ (spend (rateOf bounds) state request).decision.reset.nanos := by
  unfold spend
  rcases kind with kind | kind | kind <;> rw [kind]
  · exact spendToken_complete bounds ((rateOf bounds).refill_tokens_le (held kind))
  · exact spendFixed_complete bounds state
  · exact spendSegment_complete bounds _ (slidingReset_after bounds state)

end

/-- Every accepted request gets a complete decision whose reset is not in its past. -/
theorem outcome_complete (accepted : Accepted current request period) :
    Complete (outcome accepted) request ∧
      (effective current request).now.nanos ≤ (outcome accepted).decision.reset.nanos := by
  have policy : (effective current request).policy = request.policy := clampRequest_policy _ _
  have cost : (effective current request).cost = request.cost := clampRequest_cost _ _
  have kind : (effective current request).policy.algorithm.IsRate := by
    rw [policy]
    exact accepted.kind
  have complete := spend_complete accepted.bounds kind
    (fun token => (prepared_level accepted.bounds token
      (by rw [policy]; exact accepted.stored.token (by rw [← policy]; exact token))).1)
  refine ⟨?_, complete.2⟩
  have same := complete.1
  simp only [Complete, completeAllowed, completeRejected, policy, cost] at same ⊢
  exact same

/-! ## The ring after a step -/

section
variable {request : Request} (bounds : request.Bounds period)
include bounds

/-- Clearing what expired and taking over the current slot keeps the ring's content. -/
theorem slots_hold (holds : (ringOf segments).Holds content (oldestAt request.now.unixMicro period)
      (segmentAt request.now.unixMicro period)) :
    (ringOf (claimSlot (dropExpired segments (oldestAt request.now.unixMicro period))
        (segmentAt request.now.unixMicro period))).Holds content
      (oldestAt request.now.unixMicro period) (segmentAt request.now.unixMicro period) := by
  rw [ringOf_claimSlot, ringOf_dropExpired]
  exact holds.drop.claim (segment_span bounds _).2

theorem slots_total (placed : (ringOf segments).Placed (oldestAt request.now.unixMicro period)
      (segmentAt request.now.unixMicro period)) :
    (ringOf (claimSlot (dropExpired segments (oldestAt request.now.unixMicro period))
        (segmentAt request.now.unixMicro period))).total (oldestAt request.now.unixMicro period) =
      (ringOf segments).total (oldestAt request.now.unixMicro period) := by
  rw [(slots_hold bounds placed.holds).total_eq, placed.holds.total_eq]

omit bounds in
theorem claimSlot_index (segments : Segments) (index : Int) :
    (ringOf (claimSlot segments index)).index (Ring.slot 16 index) = index := by
  rw [ringOf_claimSlot]
  exact Ring.claim_index_self _ _

end

/-! ## What a step leaves behind -/

/-- A sliding window as its own policy leaves it at time `now`. -/
structure SlidingKept (state : PersistedState) (policy : Policy) (period : Nat) (now : Int) : Prop where
  segments : SegmentsOk state.segments
  placed : (ringOf state.segments).Placed (oldestAt now period) (segmentAt now period)
  total : (ringOf state.segments).total (oldestAt now period) ≤ 9007199254740991
  carried : policy.limit < (ringOf state.segments).total (oldestAt now period) → state.carried = true

/-- A state as an accepted request under `policy` leaves it. -/
structure Kept (state : PersistedState) (policy : Policy) (period : Nat) : Prop where
  schema : state.schema = stateSchema
  policyID : state.policyID = policy.id
  algorithm : state.algorithm = policy.algorithm
  revision : state.revision = policy.revision
  observed : ExactMicros state.observedMicros
  period_eq : policy.period = .ofMicros period
  period_pos : 0 < period
  recorded : usesWindowMetadata policy.algorithm = true → state.periodMicros = period
  token : policy.algorithm = .tokenBucket → TokenOk state policy period
  fixed : policy.algorithm = .fixedWindow → FixedOk state policy
  sliding : policy.algorithm = .slidingWindow →
    SlidingKept state policy period state.observedMicros

/-- The algorithms leave identity, revision and recorded times alone. -/
structure SameHeader (left right : PersistedState) : Prop where
  schema : left.schema = right.schema
  policyID : left.policyID = right.policyID
  algorithm : left.algorithm = right.algorithm
  revision : left.revision = right.revision
  observed : left.observedMicros = right.observedMicros
  period : left.periodMicros = right.periodMicros

theorem spendUsage_frame (state : PersistedState) (request : Request) (reset : Time) :
    SameHeader (spendUsage state request reset).state state := by
  unfold spendUsage
  split <;> exact ⟨rfl, rfl, rfl, rfl, rfl, rfl⟩

theorem spend_frame (rate : TokenRate) (state : PersistedState) (request : Request) :
    SameHeader (spend rate state request).state state := by
  unfold spend
  split
  · unfold spendToken
    split <;> exact ⟨rfl, rfl, rfl, rfl, rfl, rfl⟩
  · exact ⟨(spendUsage_frame _ _ _).schema, (spendUsage_frame _ _ _).policyID,
      (spendUsage_frame _ _ _).algorithm, (spendUsage_frame _ _ _).revision,
      (spendUsage_frame _ _ _).observed, (spendUsage_frame _ _ _).period⟩
  · unfold spendSliding spendSegment
    dsimp only
    split
    all_goals exact ⟨(spendUsage_frame _ _ _).schema, (spendUsage_frame _ _ _).policyID,
      (spendUsage_frame _ _ _).algorithm, (spendUsage_frame _ _ _).revision,
      (spendUsage_frame _ _ _).observed, (spendUsage_frame _ _ _).period⟩

theorem spendToken_kept (bounds : request.Bounds period) (held : state.tokens ≤ request.policy.limit)
    (part : state.remainder < period) (last : ExactMicros state.lastMicros) :
    TokenOk (spendToken (rateOf bounds) (refilled (rateOf bounds) state request.now.unixMicro)
      request).state request.policy period := by
  have late := bounds.room
  have small := bounds.period_le
  have tokens : (refilled (rateOf bounds) state request.now.unixMicro).tokens ≤ request.policy.limit :=
    (rateOf bounds).refill_tokens_le held
  have remainder : (refilled (rateOf bounds) state request.now.unixMicro).remainder < period :=
    (rateOf bounds).refill_remainder_lt part
  have moved : ExactMicros (refilled (rateOf bounds) state request.now.unixMicro).lastMicros := by
    unfold ExactMicros at last ⊢
    simp only [refilled]
    omega
  unfold spendToken
  split
  · exact ⟨moved, by dsimp only; omega, fun _ => remainder, fun _ => tokens⟩
  · exact ⟨moved, by dsimp only; omega, fun _ => remainder, fun _ => (Nat.sub_le _ _).trans tokens⟩

theorem spendFixed_kept {request : Request} (bounds : request.Bounds period) (state : PersistedState)
    (used : state.used ≤ 9007199254740991)
    (window : ExactMicros (windowStart request.now.unixMicro period)) :
    FixedOk (spendFixed period state request).state request.policy := by
  have limit := bounds.limit_le
  have kept : (if state.window = windowStart request.now.unixMicro period then state.used else 0) ≤
      9007199254740991 := by
    split <;> omega
  unfold spendFixed
  dsimp only
  by_cases short : request.policy.limit -
      (if state.window = windowStart request.now.unixMicro period then state.used else 0) < request.cost
  · rw [spendUsage_short _ _ short]
    exact ⟨window, kept, fun _ excess => decide_eq_true excess⟩
  · rw [spendUsage_room _ _ short]
    refine ⟨window, ?_, fun _ excess => decide_eq_true excess⟩
    dsimp only
    omega

theorem SegmentsOk.dropExpired (valid : SegmentsOk segments) (oldest : Int) :
    SegmentsOk (dropExpired segments oldest) := by
  intro slot
  unfold Postgres.dropExpired
  split
  · exact ⟨⟨by decide, by decide⟩, by decide⟩
  · exact valid slot

theorem SegmentsOk.claimSlot (valid : SegmentsOk segments) (exact : ExactMicros index) :
    SegmentsOk (claimSlot segments index) := by
  unfold Postgres.claimSlot
  split
  · intro slot
    by_cases here : slot = Ring.slot 16 index
    · subst here
      rw [Function.update_self]
      exact ⟨exact, Nat.zero_le _⟩
    · rw [Function.update_of_ne here]
      exact valid slot
  · exact valid

theorem SegmentsOk.creditSlot (valid : SegmentsOk segments)
    (fits : (segments (Ring.slot 16 index)).used + cost ≤ 9007199254740991) :
    SegmentsOk (creditSlot segments index cost) := by
  intro slot
  unfold Postgres.creditSlot
  by_cases here : slot = Ring.slot 16 index
  · subst here
    rw [Function.update_self]
    exact ⟨(valid _).1, fits⟩
  · rw [Function.update_of_ne here]
    exact valid slot

theorem segmentAt_exact {request : Request} (bounds : request.Bounds period) :
    ExactMicros (segmentAt request.now.unixMicro period) := by
  have width := widthOf_bounds bounds
  have early := bounds.not_before
  have late := bounds.room
  exact quotient_bounds width.1 early (by omega) (by decide)

theorem spendSliding_kept {request : Request} (bounds : request.Bounds period)
    (state : PersistedState) (valid : SegmentsOk state.segments)
    (placed : (ringOf state.segments).Placed (oldestAt request.now.unixMicro period)
      (segmentAt request.now.unixMicro period))
    (total : (ringOf state.segments).total (oldestAt request.now.unixMicro period) ≤ 9007199254740991) :
    SlidingKept (spendSliding period state request).state request.policy period request.now.unixMicro := by
  have limit := bounds.limit_le
  obtain ⟨start, -⟩ := segment_span bounds request.now.unixMicro
  have holds := slots_hold bounds placed.holds
  have same := slots_total bounds placed
  have owned := claimSlot_index (dropExpired state.segments (oldestAt request.now.unixMicro period))
    (segmentAt request.now.unixMicro period)
  have claimed : SegmentsOk (claimSlot (dropExpired state.segments
      (oldestAt request.now.unixMicro period)) (segmentAt request.now.unixMicro period)) :=
    (valid.dropExpired _).claimSlot (segmentAt_exact bounds)
  unfold spendSliding
  by_cases short : request.policy.limit - (swept period state request).used < request.cost
  · rw [(spendSegment_short _ _ _ short).2]
    exact ⟨claimed, holds.placed, same.le.trans total, fun excess => decide_eq_true (lt_of_lt_of_eq excess same)⟩
  · have counted : (swept period state request).used =
        (ringOf state.segments).total (oldestAt request.now.unixMicro period) := rfl
    have cost := bounds.cost_pos
    have credited := holds.credit start le_rfl owned request.cost
    have sum := Ring.total_credit (lt_of_lt_of_eq start owned.symm) request.cost
    rw [← ringOf_creditSlot] at credited sum
    rw [same] at sum
    have within : (ringOf (creditSlot (claimSlot (dropExpired state.segments
        (oldestAt request.now.unixMicro period)) (segmentAt request.now.unixMicro period))
          (segmentAt request.now.unixMicro period) request.cost)).total
        (oldestAt request.now.unixMicro period) ≤ request.policy.limit := by omega
    have slot := Ring.amount_le_total _ (lt_of_lt_of_eq start owned.symm)
    rw [same] at slot
    rw [(spendSegment_room _ _ _ short).2]
    exact ⟨claimed.creditSlot (le_trans (Nat.add_le_add_right slot _) (by omega)), credited.placed,
      within.trans limit, fun excess => absurd excess (not_lt.mpr within)⟩

/-- An accepted request records its effective time. -/
theorem outcome_observed (accepted : Accepted current request period) :
    (outcome accepted).state.observedMicros = (effective current request).now.unixMicro :=
  (spend_frame _ _ _).observed.trans (prepared_header _ _).2.2.2.2

/-- Every accepted request establishes the invariant, whatever state it found. -/
theorem outcome_kept (accepted : Accepted current request period) :
    Kept (outcome accepted).state request.policy period := by
  have policy : (effective current request).policy = request.policy := clampRequest_policy _ _
  have bounds := accepted.bounds
  have early := bounds.not_before
  have late := bounds.room
  obtain ⟨schema, policyID, algorithm, revision, -⟩ :=
    prepared_header (loaded current request) (effective current request)
  have frame := spend_frame (rateOf bounds) (prepared (loaded current request) (effective current request))
    (effective current request)
  have window : usesWindowMetadata request.policy.algorithm = true →
      prepared (loaded current request) (effective current request) = { loaded current request with
        periodMicros := period, observedMicros := (effective current request).now.unixMicro
        revision := request.policy.revision } := by
    intro windowed
    rw [prepared_window (by rw [policy]; exact windowed), bounds.period_eq,
      Duration.microseconds_ofMicros, policy]
  have now := outcome_observed accepted
  refine ⟨frame.schema.trans (schema.trans accepted.stored.schema),
    frame.policyID.trans (policyID.trans accepted.stored.policyID),
    frame.algorithm.trans (algorithm.trans accepted.stored.algorithm),
    frame.revision.trans (revision.trans (by rw [policy])), ?_, ?_, bounds.period_pos, ?_, ?_, ?_, ?_⟩
  · rw [now]
    exact ⟨early, by omega⟩
  · rw [← policy]
    exact bounds.period_eq
  · intro windowed
    refine frame.period.trans ?_
    rw [window windowed]
  · intro kind
    have token : (effective current request).policy.algorithm = .tokenBucket := by rw [policy, kind]
    have ok := accepted.stored.token kind
    obtain ⟨held, part⟩ := prepared_level bounds token (by rw [policy]; exact ok)
    have kept := spendToken_kept bounds held part (prepared_last bounds token ok.last)
    rw [policy] at kept
    simp only [outcome, spend, token]
    exact kept
  · intro kind
    have fixed : (effective current request).policy.algorithm = .fixedWindow := by rw [policy, kind]
    have start := accepted.window kind
    have stop := windowStart_bounds bounds
    have later : windowStart request.now.unixMicro period ≤
        windowStart (effective current request).now.unixMicro period := by
      refine windowStart_mono bounds.period_pos ?_
      rw [effective, clampRequest_unixMicro]
      exact le_max_left _ _
    have kept := spendFixed_kept bounds
      (prepared (loaded current request) (effective current request))
      (by rw [window (by simp [kind, usesWindowMetadata])]; exact (accepted.stored.fixed kind).used)
      ⟨by have := start.1; omega, by omega⟩
    rw [policy] at kept
    simp only [outcome, spend, fixed]
    exact kept
  · intro kind
    have sliding : (effective current request).policy.algorithm = .slidingWindow := by rw [policy, kind]
    have segments : (prepared (loaded current request) (effective current request)).segments =
        (loaded current request).segments := by
      rw [window (by simp [kind, usesWindowMetadata])]
    have kept := spendSliding_kept bounds
      (prepared (loaded current request) (effective current request))
      (by rw [segments]; exact accepted.stored.sliding kind)
      (by rw [segments]; exact accepted.timely.placed sliding)
      (by rw [segments]; exact accepted.timely.total sliding)
    rw [policy] at kept
    rw [now]
    simp only [outcome, spend, sliding]
    exact kept

/-! ## What a step leaves behind is accepted again -/

/-- A policy may follow another on the same key: the same ID and algorithm, for
windows the same period, and a revision names one policy only. -/
structure Follows (next policy : Policy) : Prop where
  id : next.id = policy.id
  algorithm : next.algorithm = policy.algorithm
  period : usesWindowMetadata policy.algorithm = true → next.period = policy.period
  revision : next.revision = policy.revision → next = policy

instance (next policy : Policy) : Decidable (Follows next policy) :=
  decidable_of_iff (next.id = policy.id ∧ next.algorithm = policy.algorithm ∧
      (usesWindowMetadata policy.algorithm = true → next.period = policy.period) ∧
      (next.revision = policy.revision → next = policy))
    ⟨fun ⟨id, algorithm, period, revision⟩ => ⟨id, algorithm, period, revision⟩,
      fun ⟨id, algorithm, period, revision⟩ => ⟨id, algorithm, period, revision⟩⟩

theorem ofMicros_injective {a b : Nat} (same : Duration.ofMicros a = .ofMicros b) : a = b := by
  simp only [Duration.ofMicros, Duration.mk.injEq] at same
  omega

theorem bounds_of_period {period : Nat} (request : ValidRequest) (rate : request.policy.algorithm.IsRate)
    (same : request.policy.period = .ofMicros period) : request.toRequest.Bounds period := by
  obtain ⟨period', bounds⟩ := request.bounds rate
  obtain rfl : period' = period := ofMicros_injective (by rw [← bounds.period_eq, same])
  exact bounds

section
variable {request : Request} (kept : Kept state policy period) (follows : Follows request.policy policy)
  (bounds : request.Bounds period')
include kept follows bounds

theorem Kept.same_period (windowed : usesWindowMetadata policy.algorithm = true) : period' = period :=
  ofMicros_injective (by rw [← bounds.period_eq, follows.period windowed, kept.period_eq])

theorem Kept.same_revision (same : state.revision = request.policy.revision) :
    request.policy = policy ∧ period' = period := by
  have equal := follows.revision (same.symm.trans kept.revision)
  exact ⟨equal, ofMicros_injective (by rw [← bounds.period_eq, equal, kept.period_eq])⟩

theorem Kept.stored : StoredOk state request.policy period' where
  schema := kept.schema
  policyID := kept.policyID.trans follows.id.symm
  algorithm := kept.algorithm.trans follows.algorithm.symm
  observed := kept.observed
  token kind := by
    have ok := kept.token (by rw [← follows.algorithm, kind])
    refine ⟨ok.last, ok.remainder, fun same => ?_, fun same => ?_⟩
    · rw [(kept.same_revision follows bounds same).2]
      exact ok.fraction kept.revision
    · rw [(kept.same_revision follows bounds same).1]
      exact ok.within kept.revision
  fixed kind := by
    have ok := kept.fixed (by rw [← follows.algorithm, kind])
    refine ⟨ok.window, ok.used, fun same excess => ?_⟩
    rw [(kept.same_revision follows bounds same).1] at excess
    exact ok.carried kept.revision excess
  sliding kind := (kept.sliding (by rw [← follows.algorithm, kind])).segments

theorem Kept.timely : EffectiveOk state (clampRequest state request) period' := by
  have later : state.observedMicros ≤ (clampRequest state request).now.unixMicro := by
    rw [clampRequest_unixMicro]
    exact le_max_right _ _
  have move := segment_mono kept.period_pos later
  refine ⟨fun windowed => Or.inr ?_, fun kind => ?_, fun kind => ?_, fun kind same excess => ?_⟩
  all_goals
    rw [clampRequest_policy, follows.algorithm] at *
  · rw [kept.same_period follows bounds windowed]
    exact kept.recorded windowed
  · rw [kept.same_period follows bounds (by simp [kind, usesWindowMetadata])]
    exact (kept.sliding kind).placed.slide move.1 move.2
  · rw [kept.same_period follows bounds (by simp [kind, usesWindowMetadata])]
    exact (Ring.total_anti _ move.1).trans (kept.sliding kind).total
  · rw [kept.same_period follows bounds (by simp [kind, usesWindowMetadata]),
      (kept.same_revision follows bounds same).1] at excess
    exact (kept.sliding kind).carried (excess.trans_le (Ring.total_anti _ move.1))

/-- A kept state is never refused as corrupt: the next request overflows, or it is
accepted. -/
theorem Kept.step (kind : request.policy.algorithm.IsRate) :
    (mutateState (some state) request = pure (.failed (some state) .overflow) ∧
        Overflows (some state) request period') ∨
      ∃ accepted : Accepted (some state) request period',
        mutateState (some state) request = pure (.finished (some state) (outcome accepted)) := by
  rcases mutateState_cases kind bounds (some state) with
    overflow | ⟨-, state', same, refused⟩ | accepted
  · exact Or.inl overflow
  · cases same
    obtain ⟨-, untimely⟩ := refused (kept.stored follows bounds)
    exact absurd (kept.timely follows bounds) untimely
  · exact Or.inr accepted

end

/-- One call in a sequence on one key. A caller that gets no state back still holds
the one it passed in. -/
def mutateStep (current : Option PersistedState) (request : ValidRequest) :
    Machine (Option PersistedState × Answer) := do
  let result ← mutateState current request.toRequest
  pure (result.next.or result.argument, ⟨result.decision, result.error⟩)

/-- The same by the released path. -/
def mutateStepLegacy (current : Option PersistedState) (request : Request) :
    Machine (Option PersistedState × Answer) := do
  let result ← mutateStateLegacy current request
  pure (result.next.or result.argument, ⟨result.decision, result.error⟩)

/-- One step of a run of `mutateState`. -/
abbrev StateEntry := Entry (Option PersistedState) ValidRequest Answer

/-- The clamped time of a step, in microseconds. -/
def StateEntry.effectiveMicros (entry : StateEntry) : Int :=
  (effective entry.before entry.input.toRequest).now.unixMicro

/-- The cost a step admits. -/
def StateEntry.admitted (entry : StateEntry) : Nat := entry.output.admitted entry.input.toRequest

/-- The entry of an accepted request. -/
def acceptedEntry (request : ValidRequest) (accepted : Accepted current request.toRequest period) : StateEntry :=
  ⟨current, request, ⟨(outcome accepted).decision, (outcome accepted).error⟩, some (outcome accepted).state⟩

@[simp] theorem acceptedEntry_effective (request : ValidRequest)
    (accepted : Accepted current request.toRequest period) :
    (acceptedEntry request accepted).effectiveMicros = (effective current request.toRequest).now.unixMicro :=
  rfl

theorem acceptedEntry_allowed {request : ValidRequest} {accepted : Accepted current request.toRequest period}
    (allowed : (outcome accepted).error = none) : (acceptedEntry request accepted).admitted = request.cost := by
  simp [acceptedEntry, StateEntry.admitted, Answer.admitted, allowed]

theorem acceptedEntry_rejected {request : ValidRequest} {accepted : Accepted current request.toRequest period}
    (rejected : (outcome accepted).error = some .rejected) : (acceptedEntry request accepted).admitted = 0 := by
  simp [acceptedEntry, StateEntry.admitted, Answer.admitted, rejected]

/-- The requests of a sequence are under revisions of one policy. -/
def Revisions (requests : List ValidRequest) : Prop :=
  ∀ first ∈ requests, ∀ second ∈ requests, Follows first.policy second.policy

instance (requests : List ValidRequest) : Decidable (Revisions requests) :=
  inferInstanceAs (Decidable (∀ first ∈ requests, ∀ second ∈ requests, Follows first.policy second.policy))

/-- Nothing is stored yet, or what a request of the sequence left behind. -/
def Reached (requests : List ValidRequest) (current : Option PersistedState) : Prop :=
  ∀ state, current = some state → ∃ request ∈ requests, ∃ period, Kept state request.policy period

/-- What `mutateState` does on a row that only requests of the sequence have written: the
row passes the tests of what is stored, and the call overflows or is accepted. -/
theorem Reached.mutateState {requests : List ValidRequest} {request : Request} {member : ValidRequest}
    (reached : Reached requests current) (revisions : Revisions requests) (inside : member ∈ requests)
    (policy : request.policy = member.policy) (rate : request.policy.algorithm.IsRate)
    (bounds : request.Bounds period) :
    (∀ state, current = some state → StoredOk state request.policy period ∧
      (usesWindowMetadata request.policy.algorithm = true → state.periodMicros = period)) ∧
    ((mutateState current request = pure (.failed current .overflow) ∧ Overflows current request period) ∨
      ∃ accepted : Accepted current request period,
        mutateState current request = pure (.finished current (outcome accepted)) ∧
        Reached requests (some (outcome accepted).state)) := by
  have finish (accepted : Accepted current request period) : Reached requests (some (outcome accepted).state) := by
    rintro state ⟨⟩
    exact ⟨member, inside, period, policy ▸ outcome_kept accepted⟩
  cases current with
  | none =>
    refine ⟨by simp, ?_⟩
    rcases mutateState_cases rate bounds none with overflow | ⟨-, state, same, -⟩ | ⟨accepted, result⟩
    · exact Or.inl overflow
    · cases same
    · exact Or.inr ⟨accepted, result, finish accepted⟩
  | some state =>
    obtain ⟨writer, written, _, kept⟩ := reached state rfl
    have follows : Follows request.policy writer.policy := policy ▸ revisions member inside writer written
    constructor
    · rintro _ ⟨⟩
      refine ⟨kept.stored follows bounds, fun windowed => ?_⟩
      rw [follows.algorithm] at windowed
      rw [kept.recorded windowed, kept.same_period follows bounds windowed]
    · rcases kept.step follows bounds rate with overflow | ⟨accepted, result⟩
      · exact Or.inl overflow
      · exact Or.inr ⟨accepted, result, finish accepted⟩

/-- One call in a sequence under revisions of one policy: it overflows and changes
nothing, or it is accepted. -/
theorem Reached.step {requests : List ValidRequest} {request : ValidRequest}
    (reached : Reached requests current) (revisions : Revisions requests)
    (member : request ∈ requests) (rate : request.policy.algorithm.IsRate)
    (bounds : request.toRequest.Bounds period) :
    (mutateStep current request = pure (current, ⟨{}, some .overflow⟩) ∧
        Overflows current request.toRequest period) ∨
      ∃ accepted : Accepted current request.toRequest period,
        mutateStep current request = pure (some (outcome accepted).state,
          (outcome accepted).answer) ∧
        Reached requests (some (outcome accepted).state) := by
  unfold mutateStep
  obtain ⟨-, ⟨overflow, late⟩ | ⟨accepted, result, next⟩⟩ := reached.mutateState revisions member rfl rate bounds
  · rw [overflow]
    exact Or.inl ⟨rfl, late⟩
  · rw [result]
    exact Or.inr ⟨accepted, rfl, next⟩

theorem outcome_error (accepted : Accepted current request period) :
    (outcome accepted).error = none ∨ (outcome accepted).error = some .rejected := by
  rcases (outcome_complete accepted).1 with ⟨allowed, -⟩ | ⟨rejected, -⟩
  · exact Or.inl allowed
  · exact Or.inr rejected

/-- A run from a reached state is exact and never finds corruption. -/
theorem Reached.run (requests : List ValidRequest) (reached : Reached requests current)
    (revisions : Revisions requests) (rate : ∀ request ∈ requests, request.policy.algorithm.IsRate)
    {inputs : List ValidRequest} (included : ∀ request ∈ inputs, request ∈ requests) :
    ∃ entries, Runs.trace mutateStep current inputs = pure entries ∧
      ∀ entry ∈ entries, entry.output.error ≠ some .corrupt := by
  have kept : ∀ state request, Reached requests state → request ∈ inputs →
      ∃ result, mutateStep state request = pure result ∧ Reached requests result.1 ∧
        result.2.error ≠ some .corrupt := by
    intro state request reached member
    have member := included request member
    obtain ⟨period, bounds⟩ := request.bounds (rate request member)
    rcases reached.step revisions member (rate request member) bounds with
      ⟨overflow, -⟩ | ⟨accepted, result, next⟩
    · exact ⟨_, overflow, reached, by simp⟩
    · refine ⟨_, result, next, ?_⟩
      rcases outcome_error accepted with error | error <;> simp [error]
  obtain ⟨entries, run, -, held⟩ := Runs.trace_invariant mutateStep (Reached requests)
    (fun entry => entry.output.error ≠ some .corrupt) inputs kept reached
  exact ⟨entries, run, fun entry member => (held entry member).2⟩

/-- The strict state machine is closed against any stored content: whatever
`current` holds, the call is exact and returns an error with the argument untouched, or
a next state with a complete decision. On that next state no later sequence of
requests under revisions of the policy ever finds corruption. -/
theorem mutateState_closed (current : Option PersistedState) (request : ValidRequest)
    (rate : request.policy.algorithm ≠ .concurrency) :
    ∃ result, mutateState current request.toRequest = pure result ∧
      ((result.next = none ∧ result.decision = {} ∧ result.argument = current ∧
          (result.error = some .corrupt ∨ result.error = some .overflow)) ∨
        ∃ next, result.next = some next ∧
          ((result.error = none ∧ completeAllowed result.decision request.toRequest) ∨
            (result.error = some .rejected ∧ completeRejected result.decision request.toRequest)) ∧
          (effective current request.toRequest).now.nanos ≤ result.decision.reset.nanos ∧
          ∀ later : List ValidRequest, Revisions (request :: later) →
            ∃ entries, Runs.trace mutateStep (some next) later = pure entries ∧
              ∀ entry ∈ entries, entry.output.error ≠ some .corrupt) := by
  have kind := request.built.sound.known.resolve_right rate
  obtain ⟨period, bounds⟩ := request.bounds kind
  rcases mutateState_cases kind bounds current with
    ⟨overflow, -⟩ | ⟨corrupt, -⟩ | ⟨accepted, result⟩
  · exact ⟨_, overflow, Or.inl ⟨rfl, rfl, rfl, Or.inr rfl⟩⟩
  · exact ⟨_, corrupt, Or.inl ⟨rfl, rfl, rfl, Or.inl rfl⟩⟩
  · obtain ⟨complete, after⟩ := outcome_complete accepted
    refine ⟨_, result, Or.inr ⟨_, rfl, complete, after, fun later revisions => ?_⟩⟩
    refine Reached.run (request :: later) ?_ revisions ?_ (fun _ => List.mem_cons_of_mem _)
    · intro state same
      cases same
      exact ⟨request, by simp, period, outcome_kept accepted⟩
    · intro other member
      rw [(revisions other member request (by simp)).algorithm]
      exact kind

/-- A request under ten tokens a second with a burst of five. -/
def firstRequest : ValidRequest :=
  (ratePolicy .tokenBucket 97 10 5 1000000 second_fits).request rfl 3 5 rfl

theorem firstRequest_built : newPolicy firstRequest.policy.toPolicySpec = .ok firstRequest.policy := rfl

/-- A later one, timed earlier, under a slower revision of that policy. -/
def revisedRequest : ValidRequest :=
  (ratePolicy .tokenBucket 98 4 0 2000000 (by decide)).request rfl 2 1 rfl

/-- What the first request leaves behind. -/
def firstStored : PersistedState where
  policyID := firstRequest.policy.id
  revision := firstRequest.policy.revision
  algorithm := .tokenBucket
  tokens := 12
  lastMicros := 5
  observedMicros := 5

/-- The revision finds the state of the first request, is allowed, and can be asked again. -/
theorem mutateState_closed_revised : revisedRequest.policy.algorithm ≠ .concurrency ∧
    Mutation.next <$> mutateState none firstRequest.toRequest = pure (some firstStored) ∧
    ∃ result next, mutateState (some firstStored) revisedRequest.toRequest = pure result ∧ result.next = some next ∧
      result.error = none ∧ completeAllowed result.decision revisedRequest.toRequest ∧
      ∃ entries, Runs.trace mutateStep (some next) [firstRequest, revisedRequest] = pure entries ∧
        ∀ entry ∈ entries, entry.output.error ≠ some .corrupt := by
  refine ⟨by decide, rfl, ?_⟩
  obtain ⟨result, run, decided⟩ := mutateState_closed (some firstStored) revisedRequest (by decide)
  have error : Mutation.error <$> mutateState (some firstStored) revisedRequest.toRequest = pure none := rfl
  rw [run] at error
  replace error : result.error = none := pure_injective error
  rcases decided with ⟨-, -, -, corrupt | overflow⟩ | ⟨next, same, ⟨-, complete⟩ | ⟨rejected, -⟩, -, later⟩
  · cases error.symm.trans corrupt
  · cases error.symm.trans overflow
  · exact ⟨result, next, run, same, error, complete, later [firstRequest, revisedRequest] (by decide)⟩
  · cases error.symm.trans rejected

end RateLimit.Postgres
