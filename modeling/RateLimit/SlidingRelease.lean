import RateLimit.WindowAccounting

/-! When a sliding window frees what it holds. A segment stops counting one period after it
begins. The reset of a decision is one period after the earliest segment ends, so that usage is
freed one segment before the reset says so. -/
namespace RateLimit.Postgres

open Machine

/-- The usage that `mutateSliding` computes at a time, with no request in between. -/
def slidingUsageAt (state : PersistedState) (request : Request) (time : Time) : Machine Nat := do
  let width ← segmentWidth request.policy.period.microseconds
  let oldest ← segmentIndex (periodAgo { request with now := time }).unixMicro width
  let usage ← collectUsage oldest (List.ofFn state.segments) 0 maxInt64
  pure usage.1

/-- The earliest segment newer than `oldest` that holds usage. -/
structure FirstUsed (segments : Segments) (oldest index : Int) : Prop where
  used : ∃ slot, (segments slot).used ≠ 0 ∧ (segments slot).index = index
  newer : oldest < index
  least : ∀ slot, (segments slot).used ≠ 0 → oldest < (segments slot).index → index ≤ (segments slot).index

/-- `mutateSliding` finds the earliest segment, if there is one. -/
theorem earliestUsed_first {segments : Segments} {oldest : Int} (small : ∀ slot, (segments slot).index < maxInt64)
    (some : (ringOf segments).total oldest ≠ 0) :
    FirstUsed segments oldest (earliestUsed oldest (List.ofFn segments) maxInt64) := by
  have member (slot : Fin 16) : segments slot ∈ List.ofFn segments := List.mem_ofFn.mpr ⟨slot, rfl⟩
  obtain ⟨-, least⟩ := earliestUsed_le oldest (List.ofFn segments) maxInt64
  obtain ⟨slot, newer, used⟩ := Ring.exists_of_total_ne_zero _ some
  rcases earliestUsed_cases oldest (List.ofFn segments) maxInt64 with missing | ⟨segment, listed, newer', used', same⟩
  · have below := least _ (member slot) newer used
    have := small slot
    omega
  · obtain ⟨place, rfl⟩ := List.mem_ofFn.mp listed
    exact ⟨⟨place, used', same.symm⟩, same ▸ newer', fun slot used newer => least _ (member slot) newer used⟩

section
variable {request : Request} (bounds : request.Bounds period) {segments : Segments}
  (placed : (ringOf segments).Placed (oldestAt request.now.unixMicro period) (segmentAt request.now.unixMicro period))
include bounds placed

/-- What expired is dropped and a slot is claimed: the window holds what it held. -/
theorem claimed_holds :
    (ringOf (claimSlot (dropExpired segments (oldestAt request.now.unixMicro period))
      (segmentAt request.now.unixMicro period))).Holds (ringOf segments).table
        (oldestAt request.now.unixMicro period) (segmentAt request.now.unixMicro period) := by
  rw [ringOf_claimSlot, ringOf_dropExpired]
  exact placed.holds.drop.claim (segment_span bounds _).2

/-- The usage stays what it is until a period after the start of the earliest segment. -/
theorem claimed_frees (first : FirstUsed segments (oldestAt request.now.unixMicro period) index)
    (later : request.now.unixMicro ≤ now) :
    (ringOf (claimSlot (dropExpired segments (oldestAt request.now.unixMicro period))
        (segmentAt request.now.unixMicro period))).total (oldestAt now period) =
        (ringOf (claimSlot (dropExpired segments (oldestAt request.now.unixMicro period))
          (segmentAt request.now.unixMicro period))).total (oldestAt request.now.unixMicro period) ↔
      now < index * widthOf period + period := by
  obtain ⟨positive, -, -⟩ := widthOf_bounds bounds
  have counts : oldestAt now period < index ↔ now < index * widthOf period + period := by
    rw [oldestAt, Int.ediv_lt_iff_lt_mul positive]
    omega
  rw [Ring.total_eq_iff _ (segment_mono bounds.period_pos later).1, ← counts]
  constructor
  · intro live
    obtain ⟨slot, used, rfl⟩ := first.used
    have kept := claimSlot_keeps bounds placed first.newer used
    have here := live slot
    simp only [ringOf, kept] at here
    exact here first.newer used
  · intro live slot newer used
    obtain ⟨-, -, same⟩ := (claimed_holds bounds placed).sound slot newer used
    rw [same] at used
    unfold Ring.table at used
    split at used
    · rename_i named
      have least := first.least _ used (by rw [show (segments _).index = _ from named]; exact newer)
      have here : (segments _).index = _ := named
      omega
    · exact absurd rfl used

end

section
variable {current : Option PersistedState} {request : Request} (accepted : Accepted current request period)
  (kind : request.policy.algorithm = .slidingWindow)
include kind

/-- A rejection finds usage and leaves it. -/
theorem outcome_rejected (rejected : (outcome accepted).error = some .rejected) :
    (ringOf (loaded current request).segments).total (oldestAt (effective current request).now.unixMicro period) ≠ 0 ∧
      (outcome accepted).state.segments = claimSlot (dropExpired (loaded current request).segments
        (oldestAt (effective current request).now.unixMicro period))
        (segmentAt (effective current request).now.unixMicro period) ∧
      (outcome accepted).decision.reset = slidingReset (widthOf period)
        (earliestUsed (oldestAt (effective current request).now.unixMicro period)
          (List.ofFn (loaded current request).segments) maxInt64) (effective current request) := by
  obtain ⟨result, segments⟩ := outcome_spendSliding accepted kind
  refine ⟨fun empty => ?_, ?_, ?_⟩
  · have room : ¬ (effective current request).policy.limit - (swept period
        (prepared (loaded current request) (effective current request)) (effective current request)).used <
        (effective current request).cost := by
      rw [swept, segments]
      dsimp only
      rw [empty]
      exact not_lt.mpr accepted.bounds.cost_le
    rw [result, spendSliding, (spendSegment_room _ _ _ room).1] at rejected
    cases rejected
  · rcases outcome_sliding accepted kind with ⟨-, same⟩ | ⟨allowed, -⟩
    · exact same
    · rw [allowed] at rejected
      cases rejected
  · rw [result, spendSliding, spendSegment_reset, segments]

/-- The reset is a period after the earliest segment ends, and that segment has begun. -/
theorem outcome_first (rejected : (outcome accepted).error = some .rejected) :
    ∃ first,
        FirstUsed (loaded current request).segments (oldestAt (effective current request).now.unixMicro period) first ∧
      (outcome accepted).decision.reset.unixMicro = (first + 1) * widthOf period + period ∧
      first * widthOf period ≤ (effective current request).now.unixMicro := by
  obtain ⟨found, -, reset⟩ := outcome_rejected accepted kind rejected
  have small : ∀ slot, ((loaded current request).segments slot).index < maxInt64 := by
    intro slot
    have exact := (accepted.stored.sliding kind slot).1.2
    unfold maxInt64
    omega
  have first := earliestUsed_first small found
  generalize earliestUsed (oldestAt (effective current request).now.unixMicro period)
    (List.ofFn (loaded current request).segments) maxInt64 = index at first reset
  obtain ⟨slot, used, rfl⟩ := first.used
  have placed := accepted.timely.placed (by rw [effective, clampRequest_policy, kind]) slot first.newer used
  refine ⟨_, first, ?_, (segment_bounds accepted.bounds first.newer placed.1).2.1⟩
  rw [reset, slidingReset, if_pos (small slot).ne, accepted.bounds.period_eq]
  simp only [Time.add, Time.ofUnixMicro, Time.unixMicro, Duration.ofMicros]
  omega

end

theorem slidingUsageAt_exact {request : Request} (bounds : request.Bounds period) {state : PersistedState} {time : Time}
    (low : -18014398509481982 ≤ time.unixMicro - period) (high : time.unixMicro - period ≤ 18014398509481982)
    (fits : (ringOf state.segments).total (oldestAt time.unixMicro period) ≤ 9007199254740991) :
    slidingUsageAt state request time = pure ((ringOf state.segments).total (oldestAt time.unixMicro period)) := by
  obtain ⟨positive, short, -⟩ := widthOf_bounds bounds
  have small := bounds.period_le
  have ago : (periodAgo { request with now := time }).unixMicro = time.unixMicro - period :=
    periodAgo_unixMicro bounds.period_eq
  unfold slidingUsageAt
  rw [segmentWidth_period bounds, pure_bind, ago, segmentIndex_exact positive (by omega) low high, pure_bind,
    collectUsage_exact (by rw [liveUsage_ofFn]; unfold oldestAt at fits; omega), pure_bind, liveUsage_ofFn,
      Nat.zero_add]
  rfl

/-- What becomes of the usage that a rejected request found: it stays the same until the
earliest segment began a period ago, and the reset comes one segment later. -/
structure Released (entry : StateEntry) (period : Nat) (before after : PersistedState) (first : Int) : Prop where
  found : FirstUsed before.segments (oldestAt entry.effectiveMicros period) first
  reset : entry.output.decision.reset.unixMicro = (first + 1) * widthOf period + period
  usage : ∃ used, slidingUsageAt after entry.input.toRequest (effective entry.before entry.input.toRequest).now =
    pure used ∧
    (∀ time : Time, entry.effectiveMicros ≤ time.unixMicro → time.unixMicro < entry.output.decision.reset.unixMicro →
      ∃ left, slidingUsageAt after entry.input.toRequest time = pure left ∧
        (left = used ↔ time.unixMicro < first * widthOf period + period)) ∧
    ∃ left, slidingUsageAt after entry.input.toRequest entry.output.decision.reset = pure left ∧ left < used

/-- A rejected request finds usage, and what frees it is known. -/
theorem acceptedEntry_released {request : ValidRequest} (kind : request.policy.algorithm = .slidingWindow)
    (bounds : request.toRequest.Bounds period) (accepted : Accepted current request.toRequest period)
    (rejected : (outcome accepted).error = some .rejected) :
    ∃ before first, current = some before ∧
      Released (acceptedEntry request accepted) period before (outcome accepted).state first := by
  obtain ⟨found, segments, -⟩ := outcome_rejected accepted kind rejected
  obtain ⟨first, earliest, reset, started⟩ := outcome_first accepted kind rejected
  have sliding : (effective current request.toRequest).policy.algorithm = .slidingWindow := by
    rw [effective, clampRequest_policy, kind]
  have placed := accepted.timely.placed sliding
  obtain ⟨positive, short, -⟩ := widthOf_bounds bounds
  have next : (first + 1) * widthOf period = first * widthOf period + widthOf period := by ring
  have early := accepted.bounds.not_before
  have late := accepted.bounds.room
  have small := bounds.period_le
  -- What the code computes up to the reset is the total of the ring.
  have total : (ringOf (outcome accepted).state.segments).total
      (oldestAt (effective current request.toRequest).now.unixMicro period) ≤ 9007199254740991 := by
    rw [segments, (claimed_holds accepted.bounds placed).total_eq, ← placed.holds.total_eq]
    exact accepted.timely.total sliding
  have exact : ∀ time : Time, (effective current request.toRequest).now.unixMicro ≤ time.unixMicro →
      time.unixMicro ≤ (first + 1) * widthOf period + period →
      slidingUsageAt (outcome accepted).state request.toRequest time =
        pure ((ringOf (outcome accepted).state.segments).total (oldestAt time.unixMicro period)) := by
    intro time after before
    refine slidingUsageAt_exact bounds (by omega) (by omega) ?_
    exact (Ring.total_anti _ (segment_mono bounds.period_pos after).1).trans total
  have frees : ∀ {now : Int}, (effective current request.toRequest).now.unixMicro ≤ now →
      ((ringOf (outcome accepted).state.segments).total (oldestAt now period) =
        (ringOf (outcome accepted).state.segments).total
          (oldestAt (effective current request.toRequest).now.unixMicro period) ↔
        now < first * widthOf period + period) := by
    intro now later
    rw [segments]
    exact claimed_frees accepted.bounds placed earliest later
  have ahead : (effective current request.toRequest).now.unixMicro < first * widthOf period + period :=
    (frees le_rfl).mp rfl
  have stored : ∃ before, current = some before := by
    cases current with
    | none => exact absurd (total_fresh _ _) found
    | some before => exact ⟨before, rfl⟩
  obtain ⟨before, rfl⟩ := stored
  have within : (effective (some before) request.toRequest).now.unixMicro ≤ (first + 1) * widthOf period +
    period := by omega
  have after : (effective (some before) request.toRequest).now.unixMicro ≤
    (outcome accepted).decision.reset.unixMicro :=
    reset ▸ within
  have passed : ¬ (outcome accepted).decision.reset.unixMicro < first * widthOf period + period := by omega
  refine ⟨before, first, rfl, earliest, reset, _, exact _ le_rfl within,
    fun time after early => ⟨_, exact time after (early.le.trans reset.le), frees after⟩, _, exact _ after reset.le, ?_⟩
  exact lt_of_le_of_ne (Ring.total_anti _ (segment_mono bounds.period_pos after).1) (mt (frees after).mp passed)

/-- Sliding windows free usage one segment before the reset. In every run of `mutateState` under
one sliding-window policy, after a rejected request and up to its reset, the usage is what it
was exactly until the earliest segment that held some at the request began a period ago; that
is one segment width before the reset, at which it is smaller. -/
theorem sliding_usage_released (policy : Policy) (sliding : policy.algorithm = .slidingWindow) (period : Nat)
    (timed : policy.period = .ofMicros period) (requests : List ValidRequest)
    (same : ∀ request ∈ requests, request.policy = policy) :
    ∃ entries, Runs.trace mutateStep none requests = pure entries ∧ entries.map Entry.input = requests ∧
      ∀ entry ∈ entries, entry.output.error = some .rejected →
        ∃ before after first, entry.before = some before ∧ entry.after = some after ∧
          Released entry period before after first := by
  have revisions : Revisions requests := by
    intro first member second member'
    rw [same first member, same second member']
    exact ⟨rfl, rfl, fun _ => rfl, fun _ => rfl⟩
  obtain ⟨entries, run, inputs, held⟩ := Runs.trace_invariant mutateStep (Reached requests)
    (fun entry => entry.output.error = some .rejected → ∃ before after first, entry.before = some before ∧
      entry.after = some after ∧ Released entry period before after first) requests
    (fun current request reached member => by
      have kind : request.policy.algorithm = .slidingWindow := by rw [same request member, sliding]
      have bounds := bounds_of_period request (Or.inr (Or.inr kind)) (by rw [same request member, timed])
      rcases reached.step revisions member (Or.inr (Or.inr kind)) bounds with ⟨overflow, -⟩ | ⟨accepted, result, next⟩
      · exact ⟨_, overflow, reached, nofun⟩
      · refine ⟨_, result, next, fun rejected => ?_⟩
        obtain ⟨before, first, rfl, released⟩ := acceptedEntry_released kind bounds accepted rejected
        exact ⟨before, _, first, rfl, rfl, released⟩)
    (show Reached requests none from nofun)
  exact ⟨entries, run, inputs, fun entry member => (held entry member).2⟩

/-- A request in the same segment as the first, which leaves no room for it. -/
def narrowAgain : ValidRequest := narrowPolicy.request narrowPolicy_built 1 2 rfl

theorem sliding_usage_released_again :
    narrowPolicy.algorithm = .slidingWindow ∧ narrowPolicy.period = .ofMicros (32 : Nat) ∧ ∃ entries,
      Runs.trace mutateStep none [narrowFirst, narrowAgain] = pure entries ∧
        (∃ entry ∈ entries, entry.output.error = some .rejected) ∧
        ∀ entry ∈ entries, entry.output.error = some .rejected →
          ∃ before after first, entry.before = some before ∧ entry.after = some after ∧
            Released entry 32 before after first := by
  have same : ∀ request ∈ [narrowFirst, narrowAgain], request.policy = narrowPolicy := by
    simp only [List.forall_mem_cons]
    exact ⟨rfl, rfl, List.forall_mem_nil _⟩
  obtain ⟨entries, run, -, released⟩ := sliding_usage_released narrowPolicy rfl 32 rfl _ same
  refine ⟨rfl, rfl, entries, run, ?_, released⟩
  have rejected : (match Runs.trace mutateStep none [narrowFirst, narrowAgain] with
      | .done entries _ => entries.any fun entry => decide (entry.output.error = some .rejected)
      | .panic => false) = true := by decide +kernel
  rw [run] at rejected
  simpa using List.any_eq_true.mp rejected

/-- The second request is told to wait for the reset at 34 microseconds, but at 32 the window is
empty. -/
theorem sliding_empty_before_reset :
    ∃ after, (mutateStep none narrowFirst >>= fun first => mutateStep first.1 narrowAgain) =
        pure (some after,
          ⟨{ allowed := false, limit := 1, reset := .ofUnixMicro 34, retryAfter := .ofMicros 32, reason := .limited },
          some .rejected⟩) ∧
      slidingUsageAt after narrowAgain.toRequest (.ofUnixMicro 2) = pure 1 ∧
      slidingUsageAt after narrowAgain.toRequest (.ofUnixMicro 32) = pure 0 := by
  refine ⟨_, rfl, ?_, ?_⟩ <;> decide +kernel

end RateLimit.Postgres
