import RateLimit.StateClosure

/-! How much a token bucket can let through. The potential is the rational credit
of the stored balance: a refill adds at most what the elapsed time is worth, an
admission takes exactly its cost, and a change of revision never adds anything.
Summed over any stretch of a run, the cost admitted is bounded by one full bucket
and the refill of the time in between, whatever revisions alternate and however
the clocks jump. -/
namespace RateLimit.Postgres

open Machine

/-- The stored balance. -/
def levelOf (state : PersistedState) : TokenLevel := ⟨state.tokens, state.remainder⟩

/-- The cost all steps of a stretch admit. -/
def admittedCost (entries : List StateEntry) : Nat := (entries.map StateEntry.admitted).sum

/-! ## The level after a step -/

section
variable {current : Option PersistedState} {request : Request} (accepted : Accepted current request period)
  (kind : request.policy.algorithm = .tokenBucket)

/-- The balance that a request finds, after a possible change of revision and the
refill. -/
def availableLevel (accepted : Accepted current request period) : TokenLevel :=
  levelOf (refilled (rateOf accepted.bounds)
    (prepared (loaded current request) (effective current request))
    (effective current request).now.unixMicro)

include kind

theorem effective_token : (effective current request).policy.algorithm = .tokenBucket := by
  rw [effective, clampRequest_policy, kind]

theorem outcome_token : outcome accepted = spendToken (rateOf accepted.bounds)
    (refilled (rateOf accepted.bounds) (prepared (loaded current request) (effective current request))
      (effective current request).now.unixMicro) (effective current request) := by
  simp only [outcome, spend, effective_token kind]

theorem outcome_short (short : (availableLevel accepted).tokens < request.cost) :
    (outcome accepted).error = some .rejected ∧
      levelOf (outcome accepted).state = availableLevel accepted := by
  rw [← clampRequest_cost (loaded current request) request] at short
  obtain ⟨error, state⟩ := spendToken_short (rateOf accepted.bounds) short
  rw [outcome_token accepted kind]
  exact ⟨error, congrArg levelOf state⟩

theorem outcome_room (room : ¬ (availableLevel accepted).tokens < request.cost) :
    (outcome accepted).error = none ∧ levelOf (outcome accepted).state =
      ⟨(availableLevel accepted).tokens - request.cost, (availableLevel accepted).remainder⟩ := by
  rw [← clampRequest_cost (loaded current request) request] at room ⊢
  obtain ⟨error, state⟩ := spendToken_room (rateOf accepted.bounds) room
  rw [outcome_token accepted kind]
  exact ⟨error, congrArg levelOf state⟩

theorem outcome_state : ∃ tokens remainder, (outcome accepted).state =
    { prepared (loaded current request) (effective current request) with
      tokens := tokens, remainder := remainder
      lastMicros := max (prepared (loaded current request) (effective current request)).lastMicros
        (effective current request).now.unixMicro } := by
  rw [outcome_token accepted kind]
  unfold spendToken
  split <;> exact ⟨_, _, rfl⟩

/-- A step moves both clocks to the effective time, if the refill clock was not ahead
of the recorded one. -/
theorem outcome_clock (together : (loaded current request).lastMicros =
      (loaded current request).observedMicros) :
    (outcome accepted).state.observedMicros = (effective current request).now.unixMicro ∧
      (outcome accepted).state.lastMicros = (effective current request).now.unixMicro := by
  obtain ⟨tokens, remainder, same⟩ := outcome_state accepted kind
  have behind : (loaded current request).lastMicros ≤ (effective current request).now.unixMicro := by
    rw [together, effective, clampRequest_unixMicro]
    exact le_max_right _ _
  rw [same, prepared_token (effective_token kind)]
  refine ⟨rfl, ?_⟩
  dsimp only
  unfold carryToken
  split
  · dsimp only
    omega
  · omega

end

/-! ## Credit over one step -/

theorem rateOf_effective (accepted : Accepted current request period) (bounds : request.Bounds period) :
    rateOf accepted.bounds = rateOf bounds := by
  simp [rateOf, effective]

theorem rateOf_congr {first second : Request} (bounds : first.Bounds period)
    (bounds' : second.Bounds period') (policy : first.policy = second.policy) (same : period = period') :
    rateOf bounds = rateOf bounds' := by
  subst same
  simp only [rateOf, policy]

/-- A stored balance, as the request `writer` left it there. -/
structure Balance (state : PersistedState) (writer : Request) (period : Nat) : Prop where
  bounds : writer.Bounds period
  kept : Kept state writer.policy period
  level : (rateOf bounds).InRange (levelOf state)
  clock : state.lastMicros = state.observedMicros

section
variable {request : Request} (kind : request.policy.algorithm = .tokenBucket)
include kind

theorem available_fresh (accepted : Accepted none request period) :
    availableLevel accepted = ⟨request.policy.limit, 0⟩ := by
  have same : effective none request = request := clampRequest_of_le (freshState_observed request).le
  obtain ⟨_, fresh⟩ := freshState_eq request
  unfold availableLevel
  rw [prepared_token (effective_token kind)]
  simp [levelOf, refilled, loaded, carryToken, TokenRate.refill, same, fresh]

/-- Under the revision that wrote it, a balance is refilled for the time since. -/
theorem available_same (accepted : Accepted (some state) request period)
    (clock : state.lastMicros = state.observedMicros) (same : state.revision = request.policy.revision) :
    availableLevel accepted = (rateOf accepted.bounds).refill (levelOf state)
      ((effective (some state) request).now.unixMicro - state.observedMicros).toNat := by
  have unchanged : ¬ ((effective (some state) request).policy.algorithm = .tokenBucket ∧
      (loaded (some state) request).revision ≠ (effective (some state) request).policy.revision) := by
    rintro ⟨-, differs⟩
    rw [effective, clampRequest_policy] at differs
    exact differs same
  unfold availableLevel
  rw [prepared_token (effective_token kind), carryToken, if_neg unchanged, ← clock]
  rfl

/-- Another revision keeps the whole tokens it has room for and starts its refill
clock anew. -/
theorem available_carried (accepted : Accepted (some state) request period)
    (differs : state.revision ≠ request.policy.revision) :
    availableLevel accepted = ⟨min state.tokens request.policy.limit, 0⟩ := by
  have changed : (effective (some state) request).policy.algorithm = .tokenBucket ∧
      (loaded (some state) request).revision ≠ (effective (some state) request).policy.revision := by
    refine ⟨effective_token kind, ?_⟩
    rw [effective, clampRequest_policy]
    exact differs
  have still : ((effective (some state) request).now.unixMicro -
      max state.lastMicros (effective (some state) request).now.unixMicro).toNat = 0 := by
    omega
  have limit : (effective (some state) request).policy.limit = request.policy.limit := by
    rw [effective, clampRequest_policy]
  unfold availableLevel
  rw [prepared_token (effective_token kind), carryToken, if_pos changed]
  simp only [levelOf, refilled, loaded, Option.getD_some, still, limit, TokenRate.refill, true_or, if_true]

end

section
variable {request writer : Request} (balance : Balance state writer period')
  (follows : Follows request.policy writer.policy) (kind : request.policy.algorithm = .tokenBucket)
  (bounds : request.Bounds period) (accepted : Accepted (some state) request period)
include balance follows kind

/-- A step finds a level in range, worth no more than what was stored and what the
time since has earned. -/
theorem Balance.available :
    (rateOf bounds).InRange (availableLevel accepted) ∧
      (rateOf bounds).credit (availableLevel accepted) ≤
        (rateOf balance.bounds).credit (levelOf state) + (rateOf bounds).earned
          ((effective (some state) request).now.unixMicro - state.observedMicros).toNat := by
  by_cases same : state.revision = request.policy.revision
  · obtain ⟨policy, equal⟩ := balance.kept.same_revision follows bounds same
    have rate := rateOf_congr bounds balance.bounds policy equal
    rw [available_same kind accepted balance.clock same, rateOf_effective accepted bounds, rate]
    exact ⟨balance.level.refill _, TokenRate.credit_refill_le _ _ _⟩
  · rw [available_carried kind accepted same]
    refine ⟨⟨bounds.period_pos, Nat.min_le_right _ _, fun _ => rfl⟩, ?_⟩
    have earned := (rateOf bounds).earned_nonneg
      ((effective (some state) request).now.unixMicro - state.observedMicros).toNat
    have fraction : (0 : ℚ) ≤ (state.remainder : ℚ) / (rateOf balance.bounds).period := by positivity
    have least : ((min state.tokens request.policy.limit : Nat) : ℚ) ≤ state.tokens := by
      exact_mod_cast Nat.min_le_left _ _
    simp only [TokenRate.credit, levelOf, Nat.cast_zero, zero_div, add_zero]
    linarith

end

section
variable {request : Request} (kind : request.policy.algorithm = .tokenBucket)
  (bounds : request.Bounds period) (accepted : Accepted current request period)
include kind

/-- What a step admits it takes from the credit. -/
theorem outcome_credit : (rateOf bounds).credit (levelOf (outcome accepted).state) =
    (rateOf bounds).credit (availableLevel accepted) -
      (Answer.admitted (outcome accepted).answer request : Nat) := by
  by_cases short : (availableLevel accepted).tokens < request.cost
  · obtain ⟨error, level⟩ := outcome_short accepted kind short
    simp [level, error, Answer.admitted]
  · obtain ⟨error, level⟩ := outcome_room accepted kind short
    rw [level, TokenRate.credit_sub (not_lt.mp short)]
    simp [error, Answer.admitted]

theorem outcome_balance (found : (rateOf bounds).InRange (availableLevel accepted))
    (clock : (loaded current request).lastMicros = (loaded current request).observedMicros) :
    Balance (outcome accepted).state request period := by
  refine ⟨bounds, outcome_kept accepted, ?_, ?_⟩
  · by_cases short : (availableLevel accepted).tokens < request.cost
    · rw [(outcome_short accepted kind short).2]
      exact found
    · rw [(outcome_room accepted kind short).2]
      have cost := bounds.cost_pos
      have within := found.tokens_le
      exact ⟨found.remainder_lt, by dsimp only; omega, fun full => by dsimp only at full; omega⟩
  · obtain ⟨observed, last⟩ := outcome_clock accepted kind clock
    rw [observed, last]

end

/-! ## The bound over a run -/

/-- The largest limit of the policies used. -/
def maxLimit (requests : List ValidRequest) : ℚ :=
  requests.foldr (fun request most => max (request.policy.limit : ℚ) most) 0

/-- The largest refill rate of the policies used, in tokens per microsecond. -/
def maxRate (requests : List ValidRequest) : ℚ :=
  requests.foldr (fun request most =>
    max ((request.policy.capacity : ℚ) / request.policy.period.microseconds) most) 0

theorem le_foldr_max {requests : List ValidRequest} (value : ValidRequest → ℚ)
    (member : request ∈ requests) :
    value request ≤ requests.foldr (fun request most => max (value request) most) 0 := by
  induction requests with
  | nil => cases member
  | cons first rest ih =>
    rcases List.mem_cons.mp member with rfl | later
    · exact le_max_left _ _
    · exact (ih later).trans (le_max_right _ _)

theorem limit_le_maxLimit {requests : List ValidRequest} {request : ValidRequest}
    (member : request ∈ requests) : (request.policy.limit : ℚ) ≤ maxLimit requests :=
  le_foldr_max (fun request : ValidRequest => (request.policy.limit : ℚ)) member

theorem rate_le_maxRate {requests : List ValidRequest} {request : ValidRequest}
    (member : request ∈ requests) (bounds : request.toRequest.Bounds period) (elapsed : Nat) :
    (rateOf bounds).earned elapsed ≤ elapsed * maxRate requests := by
  have most := le_foldr_max (fun request : ValidRequest =>
    (request.policy.capacity : ℚ) / request.policy.period.microseconds) member
  rw [bounds.period_eq, Duration.microseconds_ofMicros] at most
  exact mul_le_mul_of_nonneg_left most (Nat.cast_nonneg _)

/-- What holds of the history of a run and the state it leads to: every stretch of
the history, together with the credit left, stays within the bound. -/
structure Ledger (requests : List ValidRequest) (history : List StateEntry)
    (current : Option PersistedState) : Prop where
  start : current = none → history = []
  stretch : ∀ state, current = some state →
    ∃ writer ∈ requests, ∃ period, ∃ balance : Balance state writer.toRequest period,
      (∀ earlier last, history = earlier ++ [last] → state.observedMicros = last.effectiveMicros) ∧
      ∀ earlier first middle, history = earlier ++ first :: middle →
        (admittedCost (first :: middle) : ℚ) + (rateOf balance.bounds).credit (levelOf state) ≤
          maxLimit requests + (state.observedMicros - first.effectiveMicros : Int) * maxRate requests

theorem admittedCost_snoc (entries : List StateEntry) (last : StateEntry) :
    admittedCost (entries ++ [last]) = admittedCost entries + last.admitted := by
  simp [admittedCost]

theorem Ledger.overflow {requests : List ValidRequest} {request : ValidRequest}
    (ledger : Ledger requests history (some state)) (bounds : request.toRequest.Bounds period)
    (late : 9007199254740991 < max request.now.unixMicro state.observedMicros + period) :
    Ledger requests (history ++ [⟨some state, request, ⟨{}, some .overflow⟩, some state⟩])
      (some state) := by
  obtain ⟨writer, written, period', balance, -, stretch⟩ := ledger.stretch state rfl
  have room := bounds.room
  have time : state.observedMicros =
      StateEntry.effectiveMicros ⟨some state, request, ⟨{}, some .overflow⟩, some state⟩ := by
    simp only [StateEntry.effectiveMicros, effective, loaded, Option.getD_some, clampRequest_unixMicro]
    omega
  refine ⟨by simp, fun _ same => ?_⟩
  cases same
  refine ⟨writer, written, period', balance, ?_, ?_⟩
  · intro earlier last shape
    obtain ⟨-, same⟩ := List.append_inj' shape rfl
    simp only [List.cons.injEq, and_true] at same
    rw [← same, ← time]
  · intro earlier first middle shape
    rcases Runs.stretch_snoc shape with ⟨rfl, rfl, rfl⟩ | ⟨between, rfl, old⟩
    · have credit := balance.level.credit_le
      have limit := limit_le_maxLimit written
      rw [← time, sub_self, Int.cast_zero, zero_mul, add_zero]
      simp only [admittedCost, StateEntry.admitted, Answer.admitted, List.map_cons, List.map_nil,
        List.sum_cons, List.sum_nil]
      have bound := credit.trans limit
      simpa using bound
    · have before := stretch earlier first between old
      rw [← List.cons_append, admittedCost_snoc]
      simpa [StateEntry.admitted, Answer.admitted] using before

section
variable {requests : List ValidRequest} {request : ValidRequest} (member : request ∈ requests)
  (kind : request.policy.algorithm = .tokenBucket) (bounds : request.toRequest.Bounds period)
  (accepted : Accepted current request.toRequest period)

include kind

theorem acceptedEntry_credit : ((acceptedEntry request accepted).admitted : ℚ) +
    (rateOf bounds).credit (levelOf (outcome accepted).state) =
      (rateOf bounds).credit (availableLevel accepted) := by
  rw [outcome_credit kind bounds accepted]
  exact add_sub_cancel _ _

include member

/-- An accepted request extends every stretch if what it found is covered by it. -/
theorem Ledger.extend (found : (rateOf bounds).InRange (availableLevel accepted))
    (clock : (loaded current request.toRequest).lastMicros = (loaded current request.toRequest).observedMicros)
    (covered : ∀ earlier first between, history = earlier ++ first :: between →
      (admittedCost (first :: between) : ℚ) + (rateOf bounds).credit (availableLevel accepted) ≤
        maxLimit requests + ((acceptedEntry request accepted).effectiveMicros - first.effectiveMicros : Int) *
          maxRate requests) :
    Ledger requests (history ++ [acceptedEntry request accepted]) (some (outcome accepted).state) := by
  have balance := outcome_balance kind bounds accepted found clock
  have time : (outcome accepted).state.observedMicros = (acceptedEntry request accepted).effectiveMicros :=
    (outcome_clock accepted kind clock).1
  have spent := acceptedEntry_credit kind bounds accepted
  refine ⟨by simp, fun _ same => ?_⟩
  cases same
  refine ⟨request, member, period, balance, ?_, ?_⟩
  · intro earlier last shape
    obtain ⟨-, same⟩ := List.append_inj' shape rfl
    simp only [List.cons.injEq, and_true] at same
    rw [← same, ← time]
  · intro earlier first middle shape
    rw [time]
    rcases Runs.stretch_snoc shape with ⟨rfl, rfl, rfl⟩ | ⟨between, rfl, old⟩
    · have credit := found.credit_le.trans (limit_le_maxLimit member)
      rw [sub_self, Int.cast_zero, zero_mul, add_zero]
      simp only [admittedCost, List.map_cons, List.map_nil, List.sum_cons, List.sum_nil, add_zero]
      linarith
    · have before := covered earlier first between old
      rw [← List.cons_append, admittedCost_snoc, Nat.cast_add]
      linarith

include bounds in
theorem Ledger.admit (revisions : Revisions requests) (ledger : Ledger requests history current) :
    Ledger requests (history ++ [acceptedEntry request accepted]) (some (outcome accepted).state) := by
  cases current with
  | none =>
    cases ledger.start rfl
    refine Ledger.extend member kind bounds accepted ?_ ?_ (by simp)
    · rw [available_fresh kind accepted]
      exact ⟨bounds.period_pos, le_rfl, fun _ => rfl⟩
    · obtain ⟨_, fresh⟩ := freshState_eq request.toRequest
      simp [loaded, fresh]
  | some state =>
    obtain ⟨writer, written, period', balance, -, stretch⟩ := ledger.stretch state rfl
    obtain ⟨found, credit⟩ := balance.available (revisions request member writer written) kind bounds accepted
    refine Ledger.extend member kind bounds accepted found balance.clock ?_
    intro earlier first between old
    have before := stretch earlier first between old
    have earned := rate_le_maxRate member bounds
      ((effective (some state) request.toRequest).now.unixMicro - state.observedMicros).toNat
    have later : state.observedMicros ≤ (effective (some state) request.toRequest).now.unixMicro := by
      rw [effective, clampRequest_unixMicro]
      exact le_max_right _ _
    have elapsed : ((((effective (some state) request.toRequest).now.unixMicro -
        state.observedMicros).toNat : Nat) : ℚ) =
          ((effective (some state) request.toRequest).now.unixMicro - state.observedMicros : Int) := by
      exact_mod_cast Int.toNat_of_nonneg (by omega)
    rw [elapsed] at earned
    have split : ((acceptedEntry request accepted).effectiveMicros - first.effectiveMicros : Int) =
        (state.observedMicros - first.effectiveMicros) +
          ((effective (some state) request.toRequest).now.unixMicro - state.observedMicros) := by
      simp only [acceptedEntry, StateEntry.effectiveMicros]
      ring
    rw [split]
    push_cast at before earned ⊢
    linarith

end

/-- The bound on what a token bucket lets through. In every run of `mutateState`
on one policy ID, whatever the request times and revisions, the cost admitted between
two of its requests is at most the largest limit and the refill, at the largest rate,
of the effective time between them. -/
theorem token_admission_bound (requests : List ValidRequest)
    (token : ∀ request ∈ requests, request.policy.algorithm = .tokenBucket)
    (revisions : Revisions requests) :
    ∃ entries, Runs.trace mutateStep none requests = pure entries ∧
      ∀ earlier first middle last later, entries = earlier ++ first :: middle ++ later →
        (first :: middle).getLast? = some last →
        (admittedCost (first :: middle) : ℚ) ≤ maxLimit requests +
          (last.effectiveMicros - first.effectiveMicros : Int) * maxRate requests := by
  have kept : ∀ history current request, Ledger requests history current → request ∈ requests →
      ∃ result, mutateStep current request = pure result ∧ True ∧
        Ledger requests (history ++ [⟨current, request, result.2, result.1⟩]) result.1 := by
    intro history current request ledger member
    have kind := token request member
    obtain ⟨period, bounds⟩ := request.bounds (Or.inl kind)
    have reached : Reached requests current := by
      rintro state rfl
      obtain ⟨writer, written, period', balance, -⟩ := ledger.stretch state rfl
      exact ⟨writer, written, period', balance.kept⟩
    rcases reached.step revisions member (Or.inl kind) bounds with
      ⟨overflow, ⟨fixed, -⟩ | ⟨state, rfl, late⟩⟩ | ⟨accepted, result, -⟩
    · rw [kind] at fixed
      cases fixed
    · exact ⟨_, overflow, trivial, ledger.overflow bounds late⟩
    · exact ⟨_, result, trivial, ledger.admit member kind bounds accepted revisions⟩
  obtain ⟨entries, run, -, held⟩ := Runs.trace_history mutateStep (Ledger requests) (fun _ _ => True)
    requests kept
    (show Ledger requests [] none from ⟨fun _ => rfl, by simp⟩)
  refine ⟨entries, run, ?_⟩
  intro earlier first middle last later shape ends
  obtain ⟨front, same⟩ := List.getLast?_eq_some_iff.mp ends
  have position : entries = (earlier ++ front) ++ last :: later := by
    rw [shape, same]
    simp
  have ledger := (held (earlier ++ front) last later position).2.2
  rw [List.append_assoc, ← same] at ledger
  cases after : last.after with
  | none =>
    have empty := ledger.start after
    simp at empty
  | some state =>
    obtain ⟨writer, -, period, balance, clock, stretch⟩ := ledger.stretch state after
    have bound := stretch earlier first middle rfl
    have credit : 0 ≤ (rateOf balance.bounds).credit (levelOf state) := by
      unfold TokenRate.credit
      positivity
    rw [clock (earlier ++ front) last (by rw [same, List.append_assoc])] at bound
    linarith

theorem token_admission_bound_revised :
    (∀ request ∈ [firstRequest, revisedRequest], request.policy.algorithm = .tokenBucket) ∧
      Revisions [firstRequest, revisedRequest] ∧
      ∃ entries, Runs.trace mutateStep none [firstRequest, revisedRequest] = pure entries :=
  ⟨by decide, by decide,
    (token_admission_bound [firstRequest, revisedRequest] (by decide) (by decide)).imp fun _ bound => bound.1⟩

end RateLimit.Postgres
