import RateLimit.MemoryStore

/-! What the memory store does with the state of one key. The rate algorithms may wrap
but do not panic, and what they decide is complete for the request; the lease operations
are exact. -/
namespace RateLimit.Memory

open Machine

/-! ## Rate algorithms -/

/-- What no rate algorithm changes of a state. -/
structure Charged (current next : State) : Prop where
  revision : next.revision = current.revision
  algorithm : next.algorithm = current.algorithm
  lastSeen : next.lastSeen = current.lastSeen
  leases : next.leases = current.leases

/-- A decision that is complete for its request. -/
def Decided (request : Request) (decision : Decision) (error : Option Sentinel) : Prop :=
  error = none ∧ completeAllowed decision request ∨ error = some .rejected ∧ completeRejected decision request

/-- The balance that a request finds is within its limit. -/
def Within (current : State) (request : Request) : Prop :=
  request.policy.algorithm = .tokenBucket → current.tokens ≤ request.policy.limit

/-- What holds of an algorithm's outcome. -/
structure Admits (current : State) (request : Request) (outcome : Outcome) : Prop where
  charged : Charged current outcome.state
  within : Within current request → Within outcome.state request
  decided : Within current request → Decided request outcome.decision outcome.error

/-- The integers behind a rate request, at any time after the first exact one. -/
structure Limits (request : Request) (period : Nat) : Prop where
  period_pos : 0 < period
  period_eq : request.policy.period = .ofMicros period
  period_le : period ≤ 9007199254740991
  limit_le : request.policy.limit ≤ 9007199254740991
  cost_pos : 0 < request.cost
  cost_le : request.cost ≤ request.policy.limit
  not_before : -9007199254740991 ≤ request.now.unixMicro

theorem limits_of_bounds {request : Request} (bounds : request.Bounds period) : Limits request period :=
  ⟨bounds.period_pos, bounds.period_eq, bounds.period_le, bounds.limit_le, bounds.cost_pos, bounds.cost_le,
    bounds.not_before⟩

/-- Only the time of a request may change on its way. -/
theorem Limits.retimed (limits : Limits request period) {now : Time} (early : -9007199254740991 ≤ now.unixMicro) :
    Limits { request with now := now } period :=
  ⟨limits.period_pos, limits.period_eq, limits.period_le, limits.limit_le, limits.cost_pos, limits.cost_le, early⟩

/-- An instant that is not before the range of a 64-bit count is not the zero time. -/
theorem nonzero_of_le {time : Time} (early : -9223372036854775808 ≤ time.nanos) : time ≠ Time.zero := by
  rintro rfl
  simp [Time.zero] at early

theorem refill_yields (current : State) (request : Request) :
    (refill current request).Yields fun next =>
      Charged current next ∧ (current.tokens ≤ request.policy.limit → next.tokens ≤ request.policy.limit) := by
  unfold refill
  split
  · exact yields_pure ⟨⟨rfl, rfl, rfl, rfl⟩, id⟩
  split
  · exact yields_pure ⟨⟨rfl, rfl, rfl, rfl⟩, id⟩
  apply (u64_yields _).bind
  intro elapsed _
  apply (u64_yields _).bind
  intro period _
  split
  · exact yields_pure ⟨⟨rfl, rfl, rfl, rfl⟩, fun _ => le_rfl⟩
  rename_i fits
  rw [div64_exact (not_le.mp fits), pure_bind]
  apply (u64_yields _).bind
  intro sum _
  exact yields_pure ⟨⟨rfl, rfl, rfl, rfl⟩, fun _ => min_le_right _ _⟩

theorem refillDuration_yields (tokens remainder : Nat) (policy : Policy) :
    (refillDuration tokens remainder policy).Yields fun duration => 0 ≤ duration.nanos := by
  have most : 0 ≤ maxInt64 := by decide
  unfold refillDuration
  split
  · exact yields_pure le_rfl
  apply (u64_yields _).bind
  intro period _
  dsimp only
  split
  · exact yields_pure most
  rename_i fits
  rw [div64_exact (not_le.mp fits), pure_bind]
  have rounded : ∀ micros : Nat, (if (micros : Int) > maxInt64 / Duration.microsecond then pure ⟨maxInt64⟩
      else do
        let nanos ← i64 (micros * Duration.microsecond)
        pure ⟨nanos⟩ : Machine Duration).Yields fun duration => 0 ≤ duration.nanos := by
    intro micros
    split
    · exact yields_pure most
    · rename_i small
      simp only [maxInt64, Duration.microsecond] at small ⊢
      rw [i64_exact (by omega) (by omega), pure_bind]
      exact yields_pure (by dsimp only; omega)
  split
  · apply (u64_yields _).bind
    intro micros _
    exact rounded micros
  · rw [pure_bind]
    exact rounded _

section
variable {current : State} {request : Request} {period : Nat} (bounds : Limits request period)
include bounds

theorem early_nanos : -9223372036854775808 ≤ request.now.nanos := by
  have := bounds.not_before
  simp only [Time.unixMicro] at this
  omega

theorem reset_nonzero {wait : Duration} (nonneg : 0 ≤ wait.nanos) : request.now.add wait ≠ Time.zero := by
  apply nonzero_of_le
  have := early_nanos bounds
  simp only [Time.add]
  omega

theorem admitToken_yields (token : request.policy.algorithm = .tokenBucket) :
    (admitToken current request).Yields (Admits current request) := by
  have limit := bounds.limit_le
  apply (refill_yields current request).bind
  rintro filled ⟨charged, filled_le⟩
  split
  · rename_i short
    apply (u64_yields _).bind
    intro missing _
    apply (refillDuration_yields _ _ _).bind
    intro retry retry_nonneg
    apply (u64_yields _).bind
    intro empty _
    apply (refillDuration_yields _ _ _).bind
    intro reset reset_nonneg
    exact yields_pure ⟨charged, fun within _ => filled_le (within token), fun _ =>
      Or.inr ⟨rfl, rfl, rfl, rfl, short, reset_nonzero bounds reset_nonneg, retry_nonneg⟩⟩
  · rename_i enough
    have spent : (u64 ((filled.tokens : Int) - request.cost)).Yields fun tokens =>
        filled.tokens ≤ request.policy.limit → tokens = filled.tokens - request.cost :=
      ⟨_, u64_returns _, fun fits => by omega⟩
    apply spent.bind
    intro tokens tokens_eq
    apply (u64_yields _).bind
    intro empty _
    apply (refillDuration_yields _ _ _).bind
    intro reset reset_nonneg
    refine yields_pure ⟨⟨charged.revision, charged.algorithm, charged.lastSeen, charged.leases⟩, ?_, ?_⟩
    · intro within _
      have most := filled_le (within token)
      dsimp only
      omega
    · intro within
      have most := filled_le (within token)
      refine Or.inl ⟨rfl, rfl, rfl, rfl, ?_, reset_nonzero bounds reset_nonneg, rfl⟩
      dsimp only
      omega

theorem consumeWindow_yields (current : State) (rate : request.policy.algorithm ≠ .tokenBucket) {reset : Time}
    (dated : reset ≠ Time.zero) : (consumeWindow current request reset).Yields (Admits current request) := by
  have positive := bounds.cost_pos
  have limit := bounds.limit_le
  unfold consumeWindow
  dsimp only
  rw [u64_sub_exact (min_le_right _ _) (by omega), pure_bind]
  split
  · rename_i short
    exact yields_pure ⟨⟨rfl, rfl, rfl, rfl⟩, fun _ token => absurd token rate, fun _ =>
      Or.inr ⟨rfl, rfl, rfl, rfl, short, dated, le_max_right _ _⟩⟩
  · rename_i enough
    have room : current.used + request.cost ≤ request.policy.limit := by omega
    rw [u64_add_exact (by omega), pure_bind, u64_sub_exact room (by omega), pure_bind]
    refine yields_pure ⟨⟨rfl, rfl, rfl, rfl⟩, fun _ token => absurd token rate, fun _ =>
      Or.inl ⟨rfl, rfl, rfl, rfl, ?_, dated, rfl⟩⟩
    dsimp only
    omega

end

/-- A 64-bit count of nanoseconds is an instant after the zero time. -/
theorem i64_dated (value : Int) : (i64 value).Yields fun nanos => -9223372036854775808 ≤ nanos :=
  ⟨_, i64_returns value, Int.le_bmod (by decide)⟩

theorem quo_yields (value : Int) (nonzero : divisor ≠ 0) : (quo value divisor).Yields fun _ => True := by
  rw [quo, if_neg nonzero]
  exact i64_yields _

theorem rem_yields (value : Int) (nonzero : divisor ≠ 0) : (rem value divisor).Yields fun _ => True := by
  rw [rem, if_neg nonzero]
  exact i64_yields _

theorem floorBoundary_yields (value : Int) (nonzero : size ≠ 0) :
    (floorBoundary value size).Yields fun _ => True := by
  apply (quo_yields value nonzero).bind
  intro quotient _
  apply (rem_yields value nonzero).bind
  intro remainder _
  split
  · exact i64_yields _
  split
  · apply (i64_yields _).bind
    intro lower _
    exact i64_yields _
  · exact i64_yields _

theorem sweepSegments_yields (oldest : Int) (slots : List (Fin 16)) (segments : Fin 16 → Segment) (used : Nat)
    (earliest : Int) : (sweepSegments oldest slots segments used earliest).Yields fun _ => True := by
  induction slots generalizing segments used earliest with
  | nil => exact yields_pure trivial
  | cons slot rest ih =>
    unfold sweepSegments
    split
    · exact ih _ _ _
    · apply (u64_yields _).bind
      intro total _
      exact ih _ _ _

/-- A remainder moved up once is an index into the ring. -/
theorem positiveMod_slot (value : Int) : ∃ position, positiveMod value 16 = pure position ∧ 0 ≤ position ∧
    position < 16 := by
  have above : -16 < value.tmod 16 := Int.lt_tmod_of_pos value (by decide)
  have below : value.tmod 16 < 16 := Int.tmod_lt_of_pos value (by decide)
  unfold positiveMod
  rw [rem_exact (by decide) (by omega) (by omega), pure_bind]
  split
  · exact ⟨value.tmod 16 + 16, i64_exact (by omega) (by omega), by omega, by omega⟩
  · exact ⟨value.tmod 16, rfl, by omega, below⟩

section
variable {current : State} {request : Request} {period : Nat} (bounds : Limits request period)
include bounds

theorem period_nanos : request.policy.period.nanos = period * 1000 ∧ 0 < period ∧ period ≤ 9007199254740991 := by
  refine ⟨?_, bounds.period_pos, bounds.period_le⟩
  rw [bounds.period_eq]
  rfl

theorem admitFixed_yields (rate : request.policy.algorithm ≠ .tokenBucket) :
    (admitFixed current request).Yields (Admits current request) := by
  obtain ⟨nanos, positive, -⟩ := period_nanos bounds
  apply (i64_yields _).bind
  intro now _
  apply (floorBoundary_yields now (by omega)).bind
  intro start _
  apply (i64_dated _).bind
  intro stop early
  obtain ⟨outcome, returns, admits⟩ := consumeWindow_yields bounds
    (if current.windowStart ≠ start then { current with windowStart := start, used := 0 } else current)
    rate (show (⟨stop⟩ : Time) ≠ Time.zero from nonzero_of_le early)
  refine ⟨outcome, returns, ?_, fun _ token => absurd token rate, fun _ => admits.decided fun token =>
    absurd token rate⟩
  have charged := admits.charged
  by_cases moved : current.windowStart ≠ start
  · rw [if_pos moved] at charged
    exact ⟨charged.revision, charged.algorithm, charged.lastSeen, charged.leases⟩
  · rw [if_neg moved] at charged
    exact charged

theorem slidingReset_yields (earliest size : Int) :
    (slidingReset earliest size request).Yields fun reset => reset ≠ Time.zero := by
  obtain ⟨nanos, positive, -⟩ := period_nanos bounds
  unfold slidingReset
  split
  · apply (i64_yields _).bind
    intro next _
    apply (i64_dated _).bind
    intro boundary early
    refine yields_pure (nonzero_of_le ?_)
    simp only [Time.add]
    omega
  · exact yields_pure (reset_nonzero bounds (by omega))

theorem admitSliding_yields (rate : request.policy.algorithm ≠ .tokenBucket) :
    (admitSliding current request).Yields (Admits current request) := by
  obtain ⟨nanos, positive, small⟩ := period_nanos bounds
  have size : (request.policy.period.nanos + 16 - 1).tdiv 16 = (period * 1000 + 15 : Int) / 16 := by
    rw [nanos, Int.tdiv_eq_ediv_of_nonneg (by omega)]
    omega
  have nonzero : (period * 1000 + 15 : Int) / 16 ≠ 0 := by omega
  unfold admitSliding
  rw [i64_exact (by omega) (by omega), pure_bind, quo_exact (by decide) (by omega) (by omega), pure_bind, size]
  apply (i64_yields _).bind
  intro now _
  apply (floorBoundary_yields now nonzero).bind
  intro boundary _
  apply (quo_yields boundary nonzero).bind
  intro index _
  apply (i64_yields _).bind
  intro ago _
  apply (floorBoundary_yields ago nonzero).bind
  intro boundary _
  apply (quo_yields boundary nonzero).bind
  intro oldest _
  apply (sweepSegments_yields oldest _ current.segments 0 maxInt64).bind
  rintro ⟨segments, used, earliest⟩ _
  dsimp only
  obtain ⟨position, exact, lower, upper⟩ := positiveMod_slot index
  rw [exact, pure_bind, Postgres.slotAt, dif_pos ⟨lower, upper⟩, pure_bind]
  apply (slidingReset_yields bounds earliest _).bind
  intro reset dated
  apply (consumeWindow_yields bounds _ rate dated).bind
  intro outcome admits
  have charged := admits.charged
  split
  · apply (u64_yields _).bind
    intro used _
    exact yields_pure ⟨⟨charged.revision, charged.algorithm, charged.lastSeen, charged.leases⟩,
      fun _ token => absurd token rate, fun _ => admits.decided fun token => absurd token rate⟩
  · exact yields_pure ⟨⟨charged.revision, charged.algorithm, charged.lastSeen, charged.leases⟩,
      fun _ token => absurd token rate, fun _ => admits.decided fun token => absurd token rate⟩

/-- Every algorithm decides, completely. -/
theorem admitState_yields (current : State) : (admitState current request).Yields (Admits current request) := by
  unfold admitState
  split
  · exact admitToken_yields bounds ‹_›
  · rename_i fixed
    exact admitFixed_yields bounds (by simp [fixed])
  · rename_i other _
    exact admitSliding_yields bounds other

end

/-! ## Leases of one key -/

/-- What holds of the leases of a key. -/
structure LeasesBounded (leases : Leases) : Prop where
  total : LeaseTable.total LeaseState.cost leases ≤ 1024
  dated : ∀ entry ∈ leases.entries, -9223372036854775808 ≤ entry.2.expiresAt.nanos
  whole : ∀ entry ∈ leases.entries, entry.2.expiresAt.nanos % 1000 = 0

theorem LeasesBounded.empty : LeasesBounded ∅ where
  total := Nat.zero_le _
  dated := by rintro entry ⟨⟩
  whole := by rintro entry ⟨⟩

theorem LeasesBounded.active (bounded : LeasesBounded leases) (now : Time) :
    LeasesBounded (activeLeases now leases) where
  total := LeaseTable.total_keep_le.trans bounded.total
  dated := fun entry member => bounded.dated entry (LeaseTable.mem_keep.mp member).1
  whole := fun entry member => bounded.whole entry (LeaseTable.mem_keep.mp member).1

theorem LeasesBounded.erase (bounded : LeasesBounded leases) (id : GoString) : LeasesBounded (leases.erase id) where
  total := LeaseTable.total_erase_le.trans bounded.total
  dated := fun entry member => bounded.dated entry (LeaseTable.mem_of_erase member)
  whole := fun entry member => bounded.whole entry (LeaseTable.mem_of_erase member)

theorem lookup_activeLeases {leases : Leases} {id : GoString} {lease : LeaseState} {now : Time} :
    (activeLeases now leases).lookup id = some lease ↔ leases.lookup id = some lease ∧
      now.nanos < lease.expiresAt.nanos := by
  rw [activeLeases, LeaseTable.lookup_keep, decide_eq_true_iff]

theorem hasActiveLease_iff {leases : Leases} {now : Time} :
    hasActiveLease leases now = true ↔ ∃ id lease, leases.lookup id = some lease ∧
      now.nanos < lease.expiresAt.nanos := by
  unfold hasActiveLease
  rw [List.any_eq_true]
  constructor
  · rintro ⟨⟨id, lease⟩, member, live⟩
    exact ⟨id, lease, LeaseTable.lookup_iff_mem.mpr member, of_decide_eq_true live⟩
  · rintro ⟨id, lease, found, live⟩
    exact ⟨⟨id, lease⟩, LeaseTable.lookup_iff_mem.mp found, decide_eq_true live⟩

theorem sumCosts_exact (entries : List (Σ _ : GoString, LeaseState)) (used : Nat)
    (fits : used + (entries.map fun entry => entry.2.cost).sum < 18446744073709551616) :
    sumCosts entries used = pure (used + (entries.map fun entry => entry.2.cost).sum) := by
  induction entries generalizing used with
  | nil => rfl
  | cons entry rest ih =>
    rw [List.map_cons, List.sum_cons] at fits ⊢
    rw [sumCosts, u64_add_exact (by omega), pure_bind, ih _ (by omega), Nat.add_assoc]

private theorem earliest_from (entries : List (Σ _ : GoString, LeaseState)) (start : Time) :
    let earliest := entries.foldl (fun earliest entry =>
      if earliest = Time.zero ∨ entry.2.expiresAt.nanos < earliest.nanos then entry.2.expiresAt else earliest) start
    earliest = start ∧ (entries = [] ∨ start ≠ Time.zero) ∨ ∃ entry ∈ entries, earliest = entry.2.expiresAt := by
  induction entries generalizing start with
  | nil => exact Or.inl ⟨rfl, Or.inl rfl⟩
  | cons first rest ih =>
    rw [List.foldl_cons]
    by_cases earlier : start = Time.zero ∨ first.2.expiresAt.nanos < start.nanos
    · rw [if_pos earlier]
      rcases ih first.2.expiresAt with ⟨same, -⟩ | ⟨entry, member, same⟩
      · exact Or.inr ⟨first, by simp, same⟩
      · exact Or.inr ⟨entry, by simp [member], same⟩
    · rw [if_neg earlier]
      rcases ih start with ⟨same, -⟩ | ⟨entry, member, same⟩
      · exact Or.inl ⟨same, Or.inr fun zero => earlier (Or.inl zero)⟩
      · exact Or.inr ⟨entry, by simp [member], same⟩

/-- The earliest expiry is that of a lease. -/
theorem earliestLease_mem {leases : Leases} (some : leases.entries ≠ []) :
    ∃ entry ∈ leases.entries, earliestLease leases = entry.2.expiresAt := by
  rcases earliest_from leases.entries Time.zero with ⟨-, none | nonzero⟩ | found
  · exact absurd none some
  · exact absurd rfl nonzero
  · exact found

/-- The cost of the leases that are active at a time. -/
def activeCost (now : Time) (leases : Leases) : Nat := LeaseTable.total LeaseState.cost (activeLeases now leases)

/-- What an acquisition leaves of a key's leases, and what it answers. -/
inductive Verdict (leases : Leases) (request : LeaseRequest) : Leases → LeaseAnswer → Prop where
  | foreign (found : (activeLeases request.request.now leases).lookup request.leaseID = some existing)
    (other : existing.cost ≠ request.request.cost) :
    Verdict leases request (activeLeases request.request.now leases) { error := some .leaseNotOwned }
  | retried (found : (activeLeases request.request.now leases).lookup request.leaseID = some existing)
    (same : existing.cost = request.request.cost) :
    Verdict leases request (activeLeases request.request.now leases)
      { lease := makeLease request existing.expiresAt
        decision :=
          { allowed := true, limit := request.request.policy.limit
            remaining := request.request.policy.limit -
              min (activeCost request.request.now leases) request.request.policy.limit
            reset := existing.expiresAt, reason := .allowed }
        error := none }
  | short (new : (activeLeases request.request.now leases).lookup request.leaseID = none)
    (full : request.request.policy.limit < activeCost request.request.now leases + request.request.cost) :
    Verdict leases request (activeLeases request.request.now leases)
      { decision :=
          { allowed := false, limit := request.request.policy.limit
            remaining := request.request.policy.limit -
              min (activeCost request.request.now leases) request.request.policy.limit
            reset := earliestLease (activeLeases request.request.now leases)
            retryAfter :=
              ⟨max ((earliestLease (activeLeases request.request.now leases)).sub request.request.now).nanos 0⟩
            reason := .limited }
        error := some .rejected }
  | granted (new : (activeLeases request.request.now leases).lookup request.leaseID = none)
    (room : activeCost request.request.now leases + request.request.cost ≤ request.request.policy.limit) :
    Verdict leases request
      ((activeLeases request.request.now leases).insert request.leaseID
        ⟨request.request.cost, request.request.now.add request.request.policy.lease⟩)
      { lease := makeLease request (request.request.now.add request.request.policy.lease)
        decision :=
          { allowed := true, limit := request.request.policy.limit
            remaining := request.request.policy.limit - activeCost request.request.now leases - request.request.cost
            reset := request.request.now.add request.request.policy.lease, reason := .allowed }
        error := none }

section
variable {request : LeaseRequest} {term : Nat} (bounds : request.Bounds term)
include bounds

/-- An acquisition gives one of the verdicts, and is exact. -/
theorem acquire_verdict {current : State} (bounded : LeasesBounded current.leases) :
    ∃ leases answer, Verdict current.leases request leases answer ∧
      acquire current request = pure
        ⟨{ current with lastSeen := request.request.now, leases := leases }, answer.lease, answer.decision,
          answer.error⟩ := by
  have most := (bounded.active request.request.now).total
  have limit := bounds.limit_le
  have positive := bounds.cost_pos
  have sum : sumCosts (activeLeases request.request.now current.leases).entries 0 =
      pure (activeCost request.request.now current.leases) := by
    rw [sumCosts_exact _ _ (by simp only [LeaseTable.total] at most; omega), Nat.zero_add]
    rfl
  unfold acquire
  dsimp only
  rw [sum, pure_bind, u64_sub_exact (min_le_right _ _) (by omega), pure_bind]
  cases found : (activeLeases request.request.now current.leases).lookup request.leaseID with
  | some existing =>
    by_cases same : existing.cost = request.request.cost
    · refine ⟨_, _, .retried found same, ?_⟩
      dsimp only
      rw [if_neg (not_not.mpr same)]
    · refine ⟨_, _, .foreign found same, ?_⟩
      dsimp only
      rw [if_pos same]
  | none =>
    by_cases room : activeCost request.request.now current.leases + request.request.cost ≤ request.request.policy.limit
    · refine ⟨_, _, .granted found room, ?_⟩
      rw [if_neg (by omega), min_eq_left (by omega), u64_sub_exact (by omega) (by omega), pure_bind]
    · refine ⟨_, _, .short found (not_le.mp room), ?_⟩
      rw [if_pos (by omega)]

theorem Verdict.bounded (verdict : Verdict leases request after answer) (bounded : LeasesBounded leases)
    (whole : request.request.now.nanos % 1000 = 0) : LeasesBounded after := by
  have swept := bounded.active request.request.now
  cases verdict with
  | foreign | retried | short => exact swept
  | granted new room =>
    have limit := bounds.limit_le
    have early := bounds.not_before
    have expiry : (request.request.now.add request.request.policy.lease).nanos = request.request.now.nanos + term
      * 1000 := by
      rw [bounds.lease_eq]
      rfl
    simp only [Time.unixMicro] at early
    constructor
    · rw [LeaseTable.total_insert new]
      exact (Nat.add_comm _ _).trans_le (room.trans limit)
    · intro entry member
      rcases (LeaseTable.mem_insert new).mp member with rfl | old
      · dsimp only
        omega
      · exact swept.dated entry old
    · intro entry member
      rcases (LeaseTable.mem_insert new).mp member with rfl | old
      · dsimp only
        omega
      · exact swept.whole entry old

/-- A refusal finds a lease that is still active, and its expiry is the reset. -/
theorem short_reset {leases : Leases}
    (full : request.request.policy.limit < activeCost request.request.now leases + request.request.cost) :
    ∃ entry ∈ (activeLeases request.request.now leases).entries,
      earliestLease (activeLeases request.request.now leases) = entry.2.expiresAt ∧
        request.request.now.nanos < entry.2.expiresAt.nanos := by
  have cost := bounds.cost_le
  have some : (activeLeases request.request.now leases).entries ≠ [] := by
    intro none
    have free : activeCost request.request.now leases = 0 := by simp [activeCost, LeaseTable.total, none]
    omega
  obtain ⟨entry, member, same⟩ := earliestLease_mem some
  exact ⟨entry, member, same, of_decide_eq_true (LeaseTable.mem_keep.mp member).2⟩

/-- No verdict is taken for a corrupt one. -/
theorem Verdict.timely (verdict : Verdict leases request after answer) :
    validateStrictLeaseTime answer.lease answer.decision request.request.now = none := by
  cases verdict with
  | foreign => simp [validateStrictLeaseTime, Postgres.validateStrictLeaseTime, Postgres.validateStrictDecisionTime]
  | retried found => exact Postgres.validateStrictLeaseTime_lease rfl (lookup_activeLeases.mp found).2
  | short _ full =>
    obtain ⟨entry, -, same, late⟩ := short_reset bounds full
    apply Postgres.validateStrictLeaseTime_none
    rwa [same]
  | granted =>
    apply Postgres.validateStrictLeaseTime_lease rfl
    have positive := bounds.lease_pos
    rw [bounds.lease_eq]
    simp only [Time.add, Duration.ofMicros]
    omega

end

end RateLimit.Memory
