import RateLimit.StateAging

/-! The released state machine, `mutateStateLegacy`, in exact arithmetic. It runs the
strict machine's algorithms without the strict tests, and its sliding window sweeps
and counts in one pass; what it decides and what it keeps of a window are the same. -/
namespace RateLimit.Postgres

open Machine

/-! ## The one-pass sweep -/

theorem sweepLegacy_exact (slots : List (Fin 16)) (distinct : slots.Nodup)
    (fits : state.used + liveUsage oldest (slots.map state.segments) < 18446744073709551616) :
    sweepLegacy oldest slots state earliest = pure
      ({ state with
          segments := fun slot => if slot ∈ slots ∧ (state.segments slot).index ≤ oldest then {}
            else state.segments slot
          used := state.used + liveUsage oldest (slots.map state.segments) },
        earliestUsed oldest (slots.map state.segments) earliest) := by
  induction slots generalizing state earliest with
  | nil => simp [sweepLegacy, liveUsage, earliestUsed]
  | cons slot rest ih =>
    obtain ⟨apart, distinct⟩ := List.nodup_cons.mp distinct
    rw [List.map_cons, liveUsage_cons] at fits ⊢
    unfold sweepLegacy earliestUsed
    by_cases stale : (state.segments slot).index ≤ oldest
    · -- The slots still to come do not see the cleared one.
      have others : rest.map (Function.update state.segments slot {}) = rest.map state.segments := by
        refine List.map_congr_left fun other member => Function.update_of_ne ?_ _ _
        rintro rfl
        exact apart member
      have swept : (fun other => if other ∈ rest ∧ (Function.update state.segments slot {} other).index ≤ oldest
            then ({} : PersistedSegment) else Function.update state.segments slot {} other) =
          fun other => if other ∈ slot :: rest ∧ (state.segments other).index ≤ oldest then {}
            else state.segments other := by
        funext other
        by_cases here : other = slot
        · subst here
          rw [Function.update_self, ite_self, if_pos ⟨List.mem_cons_self, stale⟩]
        · simp only [Function.update_of_ne here, List.mem_cons, here, false_or]
      rw [if_pos stale, if_neg (not_lt.mpr stale), Nat.zero_add] at *
      rw [if_neg (fun live => absurd stale (not_le.mpr live.1))]
      rw [ih distinct (by rw [others]; exact fits), others, swept]
    · have live : oldest < (state.segments slot).index := not_le.mp stale
      rw [if_pos live] at fits
      rw [if_neg stale, if_pos live, u64_add_exact (by omega), pure_bind,
        ih distinct (by dsimp only; omega)]
      have swept : (fun other => if other ∈ rest ∧ (state.segments other).index ≤ oldest
            then ({} : PersistedSegment) else state.segments other) =
          fun other => if other ∈ slot :: rest ∧ (state.segments other).index ≤ oldest then {}
            else state.segments other := by
        funext other
        by_cases here : other = slot
        · subst here
          rw [if_neg (fun both => stale both.2), if_neg (fun both => stale both.2)]
        · simp only [List.mem_cons, here, false_or]
      simp only [swept, Nat.add_assoc, live, true_and]

/-- A sliding window after the sweep. Unlike the strict one it does not say whether
usage was carried over. -/
def sweptLegacy (period : Nat) (state : PersistedState) (request : Request) : PersistedState :=
  { state with
    segments := dropExpired state.segments (oldestAt request.now.unixMicro period)
    used := (ringOf state.segments).total (oldestAt request.now.unixMicro period) }

/-- The exact `mutateSlidingLegacy`. -/
def spendSlidingLegacy (period : Nat) (state : PersistedState) (request : Request) : Applied :=
  spendSegment (sweptLegacy period state request) request (segmentAt request.now.unixMicro period)
    (widthOf period) (earliestUsed (oldestAt request.now.unixMicro period)
      (List.ofFn state.segments) maxInt64)

theorem mutateSlidingLegacy_exact {request : Request} (bounds : request.Bounds period)
    (small : ∀ slot, (state.segments slot).used ≤ 9007199254740991)
    (placed : (ringOf state.segments).Placed (oldestAt request.now.unixMicro period)
      (segmentAt request.now.unixMicro period))
    (fits : (ringOf state.segments).total (oldestAt request.now.unixMicro period) ≤ 9007199254740991) :
    mutateSlidingLegacy state request = pure (spendSlidingLegacy period state request) := by
  have slots : (List.finRange 16).map state.segments = List.ofFn state.segments := List.ofFn_eq_map.symm
  have dropped : (fun slot : Fin 16 => if slot ∈ List.finRange 16 ∧
        (state.segments slot).index ≤ oldestAt request.now.unixMicro period then ({} : PersistedSegment)
      else state.segments slot) = dropExpired state.segments (oldestAt request.now.unixMicro period) := by
    funext slot
    simp [dropExpired]
  unfold mutateSlidingLegacy spendSlidingLegacy sweptLegacy
  rw [← liveUsage_ofFn] at fits ⊢
  rw [segmentWidth_period bounds, pure_bind, segmentIndex_now bounds, pure_bind,
    segmentIndex_periodAgo bounds, pure_bind,
    sweepLegacy_exact _ (List.nodup_finRange 16) (by rw [slots]; dsimp only; omega), pure_bind]
  rw [slots, dropped, Nat.zero_add]
  refine consumeSegment_exact bounds ?_ ?_
  · intro slot
    simp only [dropExpired]
    split
    · exact Nat.zero_le _
    · exact small slot
  · intro found
    rcases earliestUsed_cases (oldestAt request.now.unixMicro period) (List.ofFn state.segments)
      maxInt64 with missing | ⟨segment, member, newer, used, same⟩
    · exact absurd missing found
    · obtain ⟨slot, rfl⟩ := List.mem_ofFn.mp member
      rw [same]
      exact ⟨newer, (placed slot newer used).1⟩

theorem spendSegment_carried (state : PersistedState) (carried : Bool) (request : Request)
    (index width earliest : Int) :
    spendSegment { state with carried := carried } request index width earliest =
      { spendSegment state request index width earliest with
        state := { (spendSegment state request index width earliest).state with carried := carried } } := by
  unfold spendSegment spendUsage
  by_cases short : request.policy.limit - state.used < request.cost
  · simp only [if_pos short, reduceCtorEq, if_false]
  · simp only [if_neg short, if_true]

/-! ## A whole step -/

/-- The exact step of the released machine. -/
def spendLegacy (rate : TokenRate) (state : PersistedState) (request : Request) : Applied :=
  match request.policy.algorithm with
  | .tokenBucket => spendToken rate (refilled rate state request.now.unixMicro) request
  | .fixedWindow => spendFixed rate.period state request
  | _ => spendSlidingLegacy rate.period state request

/-- Up to the mark for carried usage, which it never reads, the released machine
does what the strict one does. -/
theorem spend_legacy (rate : TokenRate) (state : PersistedState) (request : Request) :
    ∃ carried, spend rate state request = { spendLegacy rate state request with
      state := { (spendLegacy rate state request).state with carried := carried } } := by
  unfold spend spendLegacy
  cases request.policy.algorithm with
  | tokenBucket => exact ⟨_, rfl⟩
  | fixedWindow => exact ⟨_, rfl⟩
  | _ => exact ⟨_, spendSegment_carried (sweptLegacy rate.period state request) _ request _ _ _⟩

/-- The state that the released machine works on. -/
def legacyLoaded (current : Option PersistedState) (request : Request) : PersistedState :=
  current.getD (freshState request false)

/-- A state with the time and the revision of a request recorded. -/
def stamped (state : PersistedState) (request : Request) : PersistedState :=
  { state with observedMicros := request.now.unixMicro, revision := request.policy.revision }

/-- The usage that a window state counts at `now`. -/
def usageAt (algorithm : Algorithm) (period : Nat) (state : PersistedState) (now : Int) : Nat :=
  match algorithm with
  | .fixedWindow => windowUsed period state now
  | .slidingWindow => (ringOf state.segments).total (oldestAt now period)
  | _ => 0

/-- A step on a fixed window leaves usage behind: it finds some, or there is room. -/
theorem spendFixed_usage {request : Request} (bounds : request.Bounds period) (state : PersistedState) :
    0 < windowUsed period (spendFixed period state request).state request.now.unixMicro := by
  have cost := bounds.cost_pos
  have most := bounds.cost_le
  have window := (spendFixed_cases period state request).1
  unfold windowUsed
  rw [if_pos window]
  unfold spendFixed
  dsimp only
  by_cases short : request.policy.limit - windowUsed period state request.now.unixMicro < request.cost
  · rw [spendUsage_short _ _ short]
    show 0 < windowUsed period state request.now.unixMicro
    omega
  · rw [spendUsage_room _ _ short]
    exact Nat.add_pos_right _ cost

/-- So does a step on a sliding window. -/
theorem spendSliding_usage {request : Request} (bounds : request.Bounds period) (state : PersistedState)
    (placed : (ringOf state.segments).Placed (oldestAt request.now.unixMicro period)
      (segmentAt request.now.unixMicro period)) :
    0 < (ringOf (spendSliding period state request).state.segments).total
      (oldestAt request.now.unixMicro period) := by
  have cost := bounds.cost_pos
  have most := bounds.cost_le
  have same := slots_total bounds placed
  unfold spendSliding
  by_cases short : request.policy.limit - (swept period state request).used < request.cost
  · rw [(spendSegment_short _ _ _ short).2]
    have found : 0 < (ringOf state.segments).total (oldestAt request.now.unixMicro period) := by
      have counted : (swept period state request).used =
          (ringOf state.segments).total (oldestAt request.now.unixMicro period) := rfl
      omega
    exact lt_of_lt_of_eq found same.symm
  · rw [(spendSegment_room _ _ _ short).2]
    rw [ringOf_creditSlot, Ring.total_credit]
    · exact Nat.add_pos_right _ cost
    · rw [claimSlot_index]
      exact (segment_span bounds _).1

/-- A state that the released machine left under a policy: what it holds fits the
policy, none of it lies ahead, and a window holds some usage. -/
structure LegacyKept (policy : Policy) (rate : TokenRate) (state : PersistedState) : Prop where
  schema : state.schema = stateSchema
  policyID : state.policyID = policy.id
  algorithm : state.algorithm = policy.algorithm
  unrecorded : state.periodMicros = 0
  early : -9007199254740991 ≤ state.observedMicros
  room : state.observedMicros + rate.period ≤ 9007199254740991
  settled : Settled policy.algorithm rate state
  segments : policy.algorithm = .slidingWindow → SegmentsOk state.segments
  placed : policy.algorithm = .slidingWindow → (ringOf state.segments).Placed
    (oldestAt state.observedMicros rate.period) (segmentAt state.observedMicros rate.period)
  total : policy.algorithm = .slidingWindow →
    (ringOf state.segments).total (oldestAt state.observedMicros rate.period) ≤ 9007199254740991
  spent : usesWindowMetadata policy.algorithm = true →
    0 < usageAt policy.algorithm rate.period state state.observedMicros

/-- Nothing is stored yet, or what the released machine left. -/
def LegacyReached (policy : Policy) (rate : TokenRate) (current : Option PersistedState) : Prop :=
  ∀ state, current = some state → LegacyKept policy rate state

/-- What a loaded state offers to a step at `now`. -/
structure LegacyReady (policy : Policy) (rate : TokenRate) (now : Int) (state : PersistedState) : Prop where
  schema : state.schema = stateSchema
  policyID : state.policyID = policy.id
  algorithm : state.algorithm = policy.algorithm
  unrecorded : state.periodMicros = 0
  ready : Ready policy.algorithm rate now state
  segments : policy.algorithm = .slidingWindow → SegmentsOk state.segments
  placed : policy.algorithm = .slidingWindow →
    (ringOf state.segments).Placed (oldestAt now rate.period) (segmentAt now rate.period)
  total : policy.algorithm = .slidingWindow →
    (ringOf state.segments).total (oldestAt now rate.period) ≤ 9007199254740991

theorem LegacyKept.ready (kept : LegacyKept policy rate state) (later : state.observedMicros ≤ now) :
    LegacyReady policy rate now state := by
  have move := segment_mono rate.period_pos later
  exact ⟨kept.schema, kept.policyID, kept.algorithm, kept.unrecorded, kept.settled.ready later, kept.segments,
    fun kind => (kept.placed kind).slide move.1 move.2,
    fun kind => (Ring.total_anti _ move.1).trans (kept.total kind)⟩

theorem freshState_legacy {request : Request} (bounds : request.Bounds period) :
    LegacyReady request.policy (rateOf bounds) request.now.unixMicro (freshState request false) ∧
      Blank (rateOf bounds) request.now.unixMicro (freshState request false) := by
  have blank : Blank (rateOf bounds) request.now.unixMicro (freshState request false) := ⟨rfl, rfl, rfl, rfl⟩
  have exact : ExactMicros 0 := ⟨by decide, by decide⟩
  refine ⟨⟨rfl, rfl, rfl, rfl, blank.ready, fun _ slot => ⟨exact, Nat.zero_le _⟩,
    fun _ slot _ used => absurd rfl used, fun _ => ?_⟩, blank⟩
  have zero : (ringOf (freshState request false).segments).total
      (oldestAt request.now.unixMicro (rateOf bounds).period) = 0 := by
    simp [ringOf, freshState, Ring.total]
  rw [zero]
  exact Nat.zero_le _

/-- The effective request of the released machine. -/
def legacyEffective (current : Option PersistedState) (request : Request) : Request :=
  clampRequest (legacyLoaded current request) request

/-- What a step of the released machine leaves behind. -/
def legacyOutcome (rate : TokenRate) (current : Option PersistedState) (request : Request) : Applied :=
  spendLegacy rate (stamped (legacyLoaded current request) (legacyEffective current request))
    (legacyEffective current request)

section
variable {request : Request} (bounds : request.Bounds period)
  (reached : LegacyReached request.policy (rateOf bounds) current)
include bounds reached

theorem legacyEffective_bounds : (legacyEffective current request).Bounds period := by
  refine clampRequest_bounds bounds ?_
  have late := bounds.room
  cases current with
  | none =>
    have fresh : (legacyLoaded none request).observedMicros = request.now.unixMicro := rfl
    rw [fresh, max_self]
    exact late
  | some state =>
    rw [← max_add_add_right]
    exact max_le late (reached state rfl).room

theorem legacyLoaded_ready : LegacyReady request.policy (rateOf bounds)
    (legacyEffective current request).now.unixMicro (legacyLoaded current request) := by
  rw [legacyEffective, clampRequest_unixMicro]
  cases current with
  | none =>
    have fresh : (legacyLoaded none request).observedMicros = request.now.unixMicro := rfl
    rw [fresh, max_self]
    exact (freshState_legacy bounds).1
  | some state => exact (reached state rfl).ready (le_max_right _ _)

theorem dispatchLegacy_exact (kind : request.policy.algorithm.IsRate) :
    dispatch (legacyLoaded current request) (legacyEffective current request) false =
      pure (legacyOutcome (rateOf bounds) current request) := by
  have policy : (legacyEffective current request).policy = request.policy := clampRequest_policy _ _
  have moved := legacyEffective_bounds bounds reached
  have ready := legacyLoaded_ready bounds reached
  have rate : rateOf moved = rateOf bounds := by simp only [rateOf, policy]
  unfold legacyOutcome dispatch spendLegacy
  rw [← rate]
  rcases kind with kind | kind | kind
  · have level := (ready.ready.token kind).1
    have token : (legacyEffective current request).policy.algorithm = .tokenBucket := by rw [policy, kind]
    rw [token]
    refine mutateToken_exact moved ?_ level.remainder_lt
    rw [policy]
    exact level.tokens_le
  · have fixed : (legacyEffective current request).policy.algorithm = .fixedWindow := by rw [policy, kind]
    rw [fixed]
    exact mutateFixed_exact moved _
  · have sliding : (legacyEffective current request).policy.algorithm = .slidingWindow := by rw [policy, kind]
    rw [sliding]
    exact mutateSlidingLegacy_exact moved (fun slot => (ready.segments kind slot).2) (ready.placed kind)
      (ready.total kind)

/-- The released machine answers every valid request in exact arithmetic. -/
theorem mutateStateLegacy_exact (kind : request.policy.algorithm.IsRate) :
    mutateStateLegacy current request =
      pure (.finished current (legacyOutcome (rateOf bounds) current request)) := by
  have exact := dispatchLegacy_exact bounds reached kind
  have enter : mutateStateLegacy current request = mutateStored current request false := by
    unfold mutateStateLegacy mutateStateMode windowOverflows
    rw [if_neg (by simp), pure_bind, if_neg (by decide)]
  have loads : mutateLoaded current (legacyLoaded current request) request false =
      pure (.finished current (legacyOutcome (rateOf bounds) current request)) := by
    unfold mutateLoaded mutateEffective
    rw [if_neg (by decide), ← legacyEffective, exact, pure_bind]
  rw [enter]
  unfold mutateStored
  cases current with
  | none => exact loads
  | some state =>
    have kept := reached state rfl
    dsimp only
    rw [checkStored, if_neg (not_not.mpr kept.schema), if_neg (not_not.mpr kept.policyID),
      if_neg (not_not.mpr kept.algorithm), if_neg (by decide), pure_bind]
    exact loads

omit reached in
theorem legacyOutcome_observed : (legacyOutcome (rateOf bounds) current request).state.observedMicros =
    (legacyEffective current request).now.unixMicro := by
  obtain ⟨carried, same⟩ := spend_legacy (rateOf bounds)
    (stamped (legacyLoaded current request) (legacyEffective current request))
    (legacyEffective current request)
  have frame := (spend_frame (rateOf bounds)
    (stamped (legacyLoaded current request) (legacyEffective current request))
    (legacyEffective current request)).observed
  rw [same] at frame
  exact frame

theorem legacyOutcome_kept (kind : request.policy.algorithm.IsRate) :
    LegacyKept request.policy (rateOf bounds) (legacyOutcome (rateOf bounds) current request).state := by
  have policy : (legacyEffective current request).policy = request.policy := clampRequest_policy _ _
  have moved := legacyEffective_bounds bounds reached
  have ready := legacyLoaded_ready bounds reached
  have rate : rateOf moved = rateOf bounds := by simp only [rateOf, policy]
  have now : (legacyOutcome (rateOf bounds) current request).state.observedMicros =
    (legacyEffective current request).now.unixMicro := legacyOutcome_observed bounds
  obtain ⟨carried, same⟩ := spend_legacy (rateOf bounds)
    (stamped (legacyLoaded current request) (legacyEffective current request))
    (legacyEffective current request)
  have frame := spend_frame (rateOf bounds)
    (stamped (legacyLoaded current request) (legacyEffective current request))
    (legacyEffective current request)
  have before : Ready (legacyEffective current request).policy.algorithm (rateOf moved)
      (legacyEffective current request).now.unixMicro
      (stamped (legacyLoaded current request) (legacyEffective current request)) := by
    rw [policy, rate]
    exact ready.ready.congr rfl rfl rfl
  have settled := spend_settled moved before rfl
  rw [rate, policy, same] at settled
  rw [same] at frame
  have ring : request.policy.algorithm = .slidingWindow →
      SegmentsOk (legacyOutcome (rateOf bounds) current request).state.segments ∧
        (ringOf (legacyOutcome (rateOf bounds) current request).state.segments).Placed
          (oldestAt (legacyEffective current request).now.unixMicro period)
          (segmentAt (legacyEffective current request).now.unixMicro period) ∧
        (ringOf (legacyOutcome (rateOf bounds) current request).state.segments).total
          (oldestAt (legacyEffective current request).now.unixMicro period) ≤ 9007199254740991 ∧
        0 < (ringOf (legacyOutcome (rateOf bounds) current request).state.segments).total
          (oldestAt (legacyEffective current request).now.unixMicro period) := by
    intro kind
    have shape : spend (rateOf bounds) (stamped (legacyLoaded current request) (legacyEffective current request))
        (legacyEffective current request) = spendSliding period
          (stamped (legacyLoaded current request) (legacyEffective current request))
          (legacyEffective current request) := by
      simp only [spend, policy, kind]
      rfl
    have kept := spendSliding_kept moved (stamped (legacyLoaded current request)
      (legacyEffective current request)) (ready.segments kind) (ready.placed kind) (ready.total kind)
    have usage := spendSliding_usage moved (stamped (legacyLoaded current request)
      (legacyEffective current request)) (ready.placed kind)
    rw [← shape, same] at kept usage
    exact ⟨kept.segments, kept.placed, kept.total, usage⟩
  refine ⟨frame.schema.trans ready.schema, frame.policyID.trans ready.policyID,
    frame.algorithm.trans ready.algorithm, frame.period.trans ready.unrecorded, ?_, ?_,
      ⟨settled.token, settled.fixed, settled.sliding⟩,
    fun sliding => (ring sliding).1, fun sliding => ?_, fun sliding => ?_, fun windowed => ?_⟩ <;> rw [now]
  · exact moved.not_before
  · exact moved.room
  · exact (ring sliding).2.1
  · exact (ring sliding).2.2.1
  · rcases kind with token | fixed | sliding
    · rw [token] at windowed
      cases windowed
    · have shape : spend (rateOf bounds)
          (stamped (legacyLoaded current request) (legacyEffective current request))
          (legacyEffective current request) = spendFixed period
            (stamped (legacyLoaded current request) (legacyEffective current request))
            (legacyEffective current request) := by
        simp only [spend, policy, fixed]
        rfl
      have usage := spendFixed_usage moved
        (stamped (legacyLoaded current request) (legacyEffective current request))
      rw [← shape, same] at usage
      rw [usageAt.eq_def, fixed]
      exact usage
    · rw [usageAt.eq_def, sliding]
      exact (ring sliding).2.2.2

end

/-- Two steps of the released machine that come to the same effective request, on
states that show the same then, get the same answer and leave the same behind. -/
theorem legacyOutcome_same {first second : Request} (kind : first.policy.algorithm.IsRate)
    (together : legacyEffective current first = legacyEffective other second)
    (same : SameAt first.policy.algorithm rate (legacyEffective current first).now.unixMicro
      (legacyLoaded current first) (legacyLoaded other second)) :
    (legacyOutcome rate current first).decision = (legacyOutcome rate other second).decision ∧
      (legacyOutcome rate current first).error = (legacyOutcome rate other second).error ∧
      Alike first.policy.algorithm rate (legacyEffective current first).now.unixMicro
        (legacyOutcome rate current first).state (legacyOutcome rate other second).state := by
  have policy : (legacyEffective current first).policy = first.policy := clampRequest_policy _ _
  have before : SameAt (legacyEffective current first).policy.algorithm rate
      (legacyEffective current first).now.unixMicro
      (stamped (legacyLoaded current first) (legacyEffective current first))
      (stamped (legacyLoaded other second) (legacyEffective current first)) := by
    rw [policy]
    exact ⟨same.token, same.fixed, same.sliding⟩
  obtain ⟨decision, error, alike⟩ := spend_same (by rw [policy]; exact kind) before
  unfold legacyOutcome
  rw [← together]
  obtain ⟨_, left⟩ := spend_legacy rate
    (stamped (legacyLoaded current first) (legacyEffective current first)) (legacyEffective current first)
  obtain ⟨_, right⟩ := spend_legacy rate
    (stamped (legacyLoaded other second) (legacyEffective current first)) (legacyEffective current first)
  rw [left, right] at decision error alike
  rw [policy] at alike
  exact ⟨decision, error, alike.token, alike.fixed, alike.sliding⟩

end RateLimit.Postgres
