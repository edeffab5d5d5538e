import RateLimit.StateClosure

/-! What the windows count. A run is its own log: the cost admitted at some set of
effective times is a sum over its entries. A fixed window stores exactly the cost
admitted in its current window; the sixteen slots of a sliding window stand for the
unbounded table of costs by segment, as far as segments still count. Slots are reused
all the time and never while they count, because no more than sixteen segments do. -/
namespace RateLimit.Postgres

open Machine

/-! ## Sums over a history -/

/-- The cost admitted by the entries that satisfy a predicate. -/
def costWhere (history : List StateEntry) (counted : StateEntry → Prop) [DecidablePred counted] : Nat :=
  (history.map fun entry => if counted entry then entry.admitted else 0).sum

section
variable {history : List StateEntry} {counted counted' : StateEntry → Prop} [DecidablePred counted]
  [DecidablePred counted']

theorem costWhere_snoc (last : StateEntry) :
    costWhere (history ++ [last]) counted =
      costWhere history counted + if counted last then last.admitted else 0 := by
  simp [costWhere]

/-- Only entries that admit something need to be compared. -/
theorem costWhere_mono (included : ∀ entry ∈ history, entry.admitted ≠ 0 → counted entry → counted' entry) :
    costWhere history counted ≤ costWhere history counted' := by
  refine List.sum_le_sum fun entry member => ?_
  by_cases zero : entry.admitted = 0
  · simp [zero]
  · by_cases here : counted entry
    · rw [if_pos here, if_pos (included entry member zero here)]
    · simp [here]

theorem costWhere_none (outside : ∀ entry ∈ history, entry.admitted ≠ 0 → ¬ counted entry) :
    costWhere history counted = 0 := by
  have least : costWhere history counted ≤ costWhere history fun _ => False := costWhere_mono outside
  simpa [costWhere] using least

end

/-- The cost admitted in one segment. -/
def segmentCost (history : List StateEntry) (period : Nat) (index : Int) : Nat :=
  costWhere history fun entry => segmentAt entry.effectiveMicros period = index

theorem segmentCost_snoc (history : List StateEntry) (last : StateEntry) (period : Nat) :
    segmentCost (history ++ [last]) period = Function.update (segmentCost history period)
      (segmentAt last.effectiveMicros period)
      (segmentCost history period (segmentAt last.effectiveMicros period) + last.admitted) := by
  funext index
  unfold segmentCost
  rw [costWhere_snoc]
  by_cases here : index = segmentAt last.effectiveMicros period
  · subst here
    simp
  · rw [Function.update_of_ne here, if_neg (fun same => here same.symm), Nat.add_zero]

/-- Segment by segment or all at once, a range of segments costs the same. -/
theorem sum_segmentCost (history : List StateEntry) (period : Nat) (oldest newest : Int) :
    ∑ index ∈ Finset.Ioc oldest newest, segmentCost history period index =
      costWhere history fun entry => oldest < segmentAt entry.effectiveMicros period ∧
        segmentAt entry.effectiveMicros period ≤ newest := by
  unfold segmentCost costWhere
  induction history with
  | nil => simp
  | cons entry rest ih =>
    simp only [List.map_cons, List.sum_cons, Finset.sum_add_distrib, ih, Finset.sum_ite_eq,
      Finset.mem_Ioc]

/-! ## What a state remembers of its history -/

/-- The segment of an entry counts at time `now`. -/
def Live (period : Nat) (now : Int) (entry : StateEntry) : Prop :=
  oldestAt now period < segmentAt entry.effectiveMicros period ∧
    segmentAt entry.effectiveMicros period ≤ segmentAt now period

instance (period : Nat) (now : Int) : DecidablePred (Live period now) :=
  fun entry => inferInstanceAs (Decidable (oldestAt now period < segmentAt entry.effectiveMicros period ∧
    segmentAt entry.effectiveMicros period ≤ segmentAt now period))

/-- An entry falls into the fixed window that starts at `start`. -/
def InWindow (period : Nat) (start : Int) (entry : StateEntry) : Prop :=
  windowStart entry.effectiveMicros period = start

instance (period : Nat) (start : Int) : DecidablePred (InWindow period start) :=
  fun entry => inferInstanceAs (Decidable (windowStart entry.effectiveMicros period = start))

/-- The history of a run and the state it led to agree on what has been used. -/
structure WindowLedger (period : Nat) (history : List StateEntry) (current : Option PersistedState) :
    Prop where
  start : current = none → ∀ entry ∈ history, entry.admitted = 0
  past : ∀ state, current = some state → ∀ entry ∈ history, entry.admitted ≠ 0 →
    entry.effectiveMicros ≤ state.observedMicros
  fixed : ∀ state, current = some state → state.algorithm = .fixedWindow →
    state.window = windowStart state.observedMicros period ∧
      state.used = costWhere history (InWindow period state.window)
  sliding : ∀ state, current = some state → state.algorithm = .slidingWindow →
    (ringOf state.segments).Holds (segmentCost history period)
      (oldestAt state.observedMicros period) (segmentAt state.observedMicros period)

theorem WindowLedger.empty (period : Nat) : WindowLedger period [] none :=
  ⟨by simp, by simp, by simp, by simp⟩

/-- A step that admits nothing and keeps the state keeps the ledger. -/
theorem WindowLedger.idle (ledger : WindowLedger period history current) (nothing : last.admitted = 0) :
    WindowLedger period (history ++ [last]) current := by
  have content : segmentCost (history ++ [last]) period = segmentCost history period := by
    rw [segmentCost_snoc, nothing, Nat.add_zero, Function.update_eq_self]
  refine ⟨fun empty entry member => ?_, fun state same entry member admitted => ?_,
    fun state same kind => ?_, fun state same kind => ?_⟩
  · rcases List.mem_append.mp member with old | new
    · exact ledger.start empty entry old
    · rw [List.mem_singleton.mp new, nothing]
  · rcases List.mem_append.mp member with old | new
    · exact ledger.past state same entry old admitted
    · rw [List.mem_singleton.mp new] at admitted
      exact absurd nothing admitted
  · obtain ⟨window, used⟩ := ledger.fixed state same kind
    refine ⟨window, ?_⟩
    rw [costWhere_snoc, nothing, ite_self, Nat.add_zero]
    exact used
  · rw [content]
    exact ledger.sliding state same kind

section
variable {request : Request} (ledger : WindowLedger period history current)
  (accepted : Accepted current request period)
include ledger accepted

theorem WindowLedger.past_effective (member : entry ∈ history) (admitted : entry.admitted ≠ 0) :
    entry.effectiveMicros ≤ (effective current request).now.unixMicro := by
  cases current with
  | none => exact absurd (ledger.start rfl entry member) admitted
  | some state =>
    refine (ledger.past state rfl entry member admitted).trans ?_
    rw [effective, clampRequest_unixMicro]
    exact le_max_right _ _

/-- A fixed window finds what the history admitted in the window of the request. -/
theorem WindowLedger.window_used (kind : request.policy.algorithm = .fixedWindow) :
    windowUsed period (loaded current request) (effective current request).now.unixMicro =
      costWhere history (InWindow period
        (windowStart (effective current request).now.unixMicro period)) := by
  unfold windowUsed
  cases current with
  | none =>
    obtain ⟨_, fresh⟩ := freshState_eq request
    rw [costWhere_none fun entry member admitted => absurd (ledger.start rfl entry member) admitted]
    simp [loaded, fresh]
  | some state =>
    obtain ⟨window, used⟩ := ledger.fixed state rfl (accepted.stored.algorithm.trans kind)
    by_cases same : state.window = windowStart (effective (some state) request).now.unixMicro period
    · rw [← same]
      simpa [loaded] using used
    · -- The request opens a later window, in which nothing was admitted yet.
      have later : state.observedMicros ≤ (effective (some state) request).now.unixMicro := by
        rw [effective, clampRequest_unixMicro]
        exact le_max_right _ _
      have opened := windowStart_mono accepted.bounds.period_pos later
      rw [costWhere_none]
      · simp [loaded, same]
      · intro entry member admitted inside
        have before := windowStart_mono accepted.bounds.period_pos
          (ledger.past state rfl entry member admitted)
        unfold InWindow at inside
        rw [window] at same
        omega

/-- A sliding window finds the table of what the history admitted by segment. -/
theorem WindowLedger.ring_holds (kind : request.policy.algorithm = .slidingWindow) :
    (ringOf (loaded current request).segments).Holds (segmentCost history period)
      (oldestAt (effective current request).now.unixMicro period)
      (segmentAt (effective current request).now.unixMicro period) := by
  cases current with
  | none =>
    obtain ⟨_, fresh⟩ := freshState_eq request
    refine ⟨fun slot _ used => ?_, fun index _ _ used => ?_⟩
    · simp [loaded, fresh, ringOf] at used
    · exact absurd (costWhere_none fun entry member admitted =>
        absurd (ledger.start rfl entry member) admitted) used
  | some state =>
    have later : state.observedMicros ≤ (effective (some state) request).now.unixMicro := by
      rw [effective, clampRequest_unixMicro]
      exact le_max_right _ _
    have move := segment_mono accepted.bounds.period_pos later
    refine (ledger.sliding state rfl (accepted.stored.algorithm.trans kind)).slide move.1 move.2 ?_
    intro index beyond _
    refine costWhere_none fun entry member admitted here => ?_
    have before := (segment_mono accepted.bounds.period_pos
      (ledger.past state rfl entry member admitted)).2
    omega

end

/-! ## One step -/

section
variable {current : Option PersistedState} {request : Request} (accepted : Accepted current request period)

theorem outcome_fixed (kind : request.policy.algorithm = .fixedWindow) :
    (outcome accepted).state.window = windowStart (effective current request).now.unixMicro period ∧
    (((outcome accepted).error = some .rejected ∧ (outcome accepted).state.used =
        windowUsed period (loaded current request) (effective current request).now.unixMicro) ∨
      ((outcome accepted).error = none ∧
        request.cost ≤ request.policy.limit -
          windowUsed period (loaded current request) (effective current request).now.unixMicro ∧
        (outcome accepted).state.used =
          windowUsed period (loaded current request) (effective current request).now.unixMicro +
            request.cost)) := by
  have same : (effective current request).policy.algorithm = .fixedWindow := by
    rw [effective, clampRequest_policy, kind]
  have cases := spendFixed_cases period (prepared (loaded current request) (effective current request))
    (effective current request)
  have used : windowUsed period (prepared (loaded current request) (effective current request))
      (effective current request).now.unixMicro =
      windowUsed period (loaded current request) (effective current request).now.unixMicro := by
    rw [prepared_window (by simp [same, usesWindowMetadata])]
    rfl
  have result : outcome accepted = spendFixed period
      (prepared (loaded current request) (effective current request)) (effective current request) := by
    simp only [outcome, spend, same]
    rfl
  rw [used] at cases
  rw [result]
  simpa only [effective, clampRequest_policy, clampRequest_cost] using cases

theorem outcome_spendSliding (kind : request.policy.algorithm = .slidingWindow) :
    outcome accepted = spendSliding period (prepared (loaded current request) (effective current request))
        (effective current request) ∧
      (prepared (loaded current request) (effective current request)).segments = (loaded current request).segments := by
  have same : (effective current request).policy.algorithm = .slidingWindow := by
    rw [effective, clampRequest_policy, kind]
  constructor
  · simp only [outcome, spend, same]
    rfl
  · rw [prepared_window (by simp [same, usesWindowMetadata])]

theorem outcome_sliding (kind : request.policy.algorithm = .slidingWindow) :
    ((outcome accepted).error = some .rejected ∧ (outcome accepted).state.segments =
        claimSlot (dropExpired (loaded current request).segments
          (oldestAt (effective current request).now.unixMicro period))
          (segmentAt (effective current request).now.unixMicro period)) ∨
      ((outcome accepted).error = none ∧
        request.cost ≤ request.policy.limit - (ringOf (loaded current request).segments).total
          (oldestAt (effective current request).now.unixMicro period) ∧
        (outcome accepted).state.segments =
          creditSlot (claimSlot (dropExpired (loaded current request).segments
            (oldestAt (effective current request).now.unixMicro period))
            (segmentAt (effective current request).now.unixMicro period))
            (segmentAt (effective current request).now.unixMicro period) request.cost) := by
  have cases := spendSliding_cases period (prepared (loaded current request) (effective current request))
    (effective current request)
  obtain ⟨result, segments⟩ := outcome_spendSliding accepted kind
  rw [segments] at cases
  rw [result]
  simpa only [effective, clampRequest_policy, clampRequest_cost] using cases

end

/-- What a fixed window shows at one step of a run. -/
structure FixedAccounted (period : Nat) (earlier : List StateEntry) (entry : StateEntry) : Prop where
  window : ∀ state, entry.after = some state → entry.output.error ≠ some .overflow →
    state.window = windowStart entry.effectiveMicros period
  used : ∀ state, entry.after = some state → state.used =
    costWhere (earlier ++ [entry]) (InWindow period state.window)
  within : entry.output.error = none →
    costWhere earlier (InWindow period (windowStart entry.effectiveMicros period)) + entry.input.cost ≤
      entry.input.policy.limit

/-- What a sliding window shows at one step of a run. -/
structure SlidingAccounted (period : Nat) (earlier : List StateEntry) (entry : StateEntry) : Prop where
  before : ∀ state, entry.before = some state →
    (ringOf state.segments).total (oldestAt entry.effectiveMicros period) =
      costWhere earlier (Live period entry.effectiveMicros)
  after : ∀ state, entry.after = some state →
    (ringOf state.segments).total (oldestAt entry.effectiveMicros period) =
      costWhere (earlier ++ [entry]) (Live period entry.effectiveMicros)
  kept : ∀ state next, entry.before = some state → entry.after = some next → ∀ slot,
    oldestAt entry.effectiveMicros period < (state.segments slot).index →
    (state.segments slot).used ≠ 0 →
      (next.segments slot).index = (state.segments slot).index ∧
        (state.segments slot).used ≤ (next.segments slot).used
  within : entry.output.error = none →
    costWhere earlier (Live period entry.effectiveMicros) + entry.input.cost ≤ entry.input.policy.limit

theorem segmentCost_total {ring : Ring 16} (holds : ring.Holds (segmentCost history period)
      (oldestAt now period) (segmentAt now period)) :
    ring.total (oldestAt now period) = costWhere history (Live period now) := by
  rw [holds.total_eq, sum_segmentCost]
  rfl

/-- A live amount stays in its slot when the slot of the request is taken over. -/
theorem claimSlot_keeps {request : Request} (bounds : request.Bounds period)
    (placed : (ringOf segments).Placed (oldestAt request.now.unixMicro period)
      (segmentAt request.now.unixMicro period))
    (live : oldestAt request.now.unixMicro period < (segments slot).index)
    (used : (segments slot).used ≠ 0) :
    claimSlot (dropExpired segments (oldestAt request.now.unixMicro period))
      (segmentAt request.now.unixMicro period) slot = segments slot := by
  have fresh : dropExpired segments (oldestAt request.now.unixMicro period) slot = segments slot := by
    unfold dropExpired
    rw [if_neg (not_le.mpr live)]
  have dropped : (ringOf (dropExpired segments (oldestAt request.now.unixMicro period))).Placed
      (oldestAt request.now.unixMicro period) (segmentAt request.now.unixMicro period) := by
    rw [ringOf_dropExpired]
    exact placed.holds.drop.placed
  have keeps := dropped.claim_keeps (s := slot) (segment_span bounds _).2
    (by simp only [ringOf, fresh]; exact live) (by simp only [ringOf, fresh]; exact used)
  rw [← ringOf_claimSlot] at keeps
  simp only [ringOf, fresh] at keeps
  cases same : claimSlot (dropExpired segments (oldestAt request.now.unixMicro period))
    (segmentAt request.now.unixMicro period) slot
  cases own : segments slot
  simp only [same, own] at keeps
  rw [keeps.1, keeps.2]

theorem creditSlot_grows (segments : Segments) (index : Int) (cost : Nat) (slot : Fin 16) :
    (creditSlot segments index cost slot).index = (segments slot).index ∧
      (segments slot).used ≤ (creditSlot segments index cost slot).used := by
  unfold creditSlot
  by_cases here : slot = Ring.slot 16 index
  · subst here
    simp
  · simp [Function.update_of_ne here]

/-- What fits into the room left stays within the limit with it. -/
theorem add_le_of_room {used limit cost : Nat} (positive : 0 < cost) (room : cost ≤ limit - used) :
    used + cost ≤ limit := by
  omega

section
variable {request : ValidRequest} (ledger : WindowLedger period history current)
  (accepted : Accepted current request.toRequest period)
include ledger

theorem WindowLedger.admit_fixed (kind : request.policy.algorithm = .fixedWindow) :
    FixedAccounted period history (acceptedEntry request accepted) := by
  obtain ⟨window, step⟩ := outcome_fixed accepted kind
  rw [ledger.window_used accepted kind] at step
  refine ⟨fun _ same _ => ?_, fun _ same => ?_, fun allowed => ?_⟩
  · cases same
    exact window
  · cases same
    have here : InWindow period (outcome accepted).state.window (acceptedEntry request accepted) :=
      window.symm
    rw [costWhere_snoc, if_pos here, window]
    rcases step with ⟨rejected, used⟩ | ⟨allowed, -, used⟩
    · rw [used, acceptedEntry_rejected rejected, Nat.add_zero]
    · rw [used, acceptedEntry_allowed allowed]
  · have cost := accepted.bounds.cost_pos
    simp only [effective, clampRequest_cost] at cost
    rcases step with ⟨rejected, -⟩ | ⟨-, room, -⟩
    · cases rejected.symm.trans allowed
    · exact add_le_of_room cost room

/-- The ring after an accepted request is the table of the longer history. -/
theorem WindowLedger.admit_ring (kind : request.policy.algorithm = .slidingWindow) :
    (ringOf (outcome accepted).state.segments).Holds
      (segmentCost (history ++ [acceptedEntry request accepted]) period)
      (oldestAt (effective current request.toRequest).now.unixMicro period)
      (segmentAt (effective current request.toRequest).now.unixMicro period) := by
  have holds := slots_hold accepted.bounds (ledger.ring_holds accepted kind)
  obtain ⟨start, -⟩ := segment_span accepted.bounds (effective current request.toRequest).now.unixMicro
  rw [segmentCost_snoc, acceptedEntry_effective]
  rcases outcome_sliding accepted kind with ⟨rejected, segments⟩ | ⟨allowed, -, segments⟩
  · rw [segments, acceptedEntry_rejected rejected, Nat.add_zero, Function.update_eq_self]
    exact holds
  · rw [segments, acceptedEntry_allowed allowed, ringOf_creditSlot]
    exact holds.credit start le_rfl (claimSlot_index _ _) request.cost

theorem WindowLedger.admit_sliding (kind : request.policy.algorithm = .slidingWindow) :
    SlidingAccounted period history (acceptedEntry request accepted) := by
  have found := ledger.ring_holds accepted kind
  have step := outcome_sliding accepted kind
  refine ⟨fun state same => ?_, fun _ same => ?_, fun state _ same next slot live used => ?_, fun allowed => ?_⟩
  · cases same
    exact segmentCost_total found
  · cases same
    exact segmentCost_total (ledger.admit_ring accepted kind)
  · cases same
    cases next
    have keeps := claimSlot_keeps accepted.bounds found.placed live used
    rcases step with ⟨-, segments⟩ | ⟨-, -, segments⟩
    · rw [segments, keeps]
      exact ⟨rfl, le_rfl⟩
    · have grows := creditSlot_grows (claimSlot (dropExpired (loaded (some state) request.toRequest).segments
        (oldestAt (effective (some state) request.toRequest).now.unixMicro period))
        (segmentAt (effective (some state) request.toRequest).now.unixMicro period))
        (segmentAt (effective (some state) request.toRequest).now.unixMicro period) request.cost slot
      rw [keeps] at grows
      rw [segments]
      exact grows
  · have cost := accepted.bounds.cost_pos
    simp only [effective, clampRequest_cost] at cost
    rcases step with ⟨rejected, -⟩ | ⟨-, room, -⟩
    · cases rejected.symm.trans allowed
    · rw [segmentCost_total found] at room
      exact add_le_of_room cost room

theorem WindowLedger.admit :
    WindowLedger period (history ++ [acceptedEntry request accepted]) (some (outcome accepted).state) := by
  have kept := outcome_kept accepted
  have observed := outcome_observed accepted
  refine ⟨by simp, fun state same entry member admitted => ?_, fun state same kind => ?_,
    fun state same kind => ?_⟩
  all_goals cases same; rw [observed]
  · rcases List.mem_append.mp member with old | new
    · exact ledger.past_effective accepted old admitted
    · rw [List.mem_singleton.mp new]
      rfl
  · rw [kept.algorithm] at kind
    exact ⟨(outcome_fixed accepted kind).1, (ledger.admit_fixed accepted kind).used _ rfl⟩
  · rw [kept.algorithm] at kind
    exact ledger.admit_ring accepted kind

end

/-- A request that overflows admits nothing and leaves the accounts as they are. -/
theorem WindowLedger.overflow {request : ValidRequest} (ledger : WindowLedger period history current)
    (bounds : request.toRequest.Bounds period) (late : Overflows current request.toRequest period)
    (algorithm : ∀ state, current = some state → state.algorithm = request.policy.algorithm) :
    (request.policy.algorithm = .fixedWindow →
      FixedAccounted period history ⟨current, request, ⟨{}, some .overflow⟩, current⟩) ∧
    (request.policy.algorithm = .slidingWindow →
      SlidingAccounted period history ⟨current, request, ⟨{}, some .overflow⟩, current⟩) := by
  have idle : WindowLedger period (history ++ [⟨current, request, ⟨{}, some .overflow⟩, current⟩]) current :=
    ledger.idle rfl
  refine ⟨fun kind => ⟨fun _ _ other => absurd rfl other, fun state same => ?_, by simp⟩, fun kind => ?_⟩
  · exact (idle.fixed state same ((algorithm state same).trans kind)).2
  · rcases late with ⟨fixed, -⟩ | ⟨state, rfl, late⟩
    · rw [kind] at fixed
      cases fixed
    -- Only a recorded time ahead of the request is this late, so it is the effective one.
    have room := bounds.room
    have time : StateEntry.effectiveMicros ⟨some state, request, ⟨{}, some .overflow⟩, some state⟩ =
        state.observedMicros := by
      simp only [StateEntry.effectiveMicros, effective, loaded, Option.getD_some, clampRequest_unixMicro]
      omega
    have stored := (algorithm state rfl).trans kind
    refine ⟨fun _ same => ?_, fun _ same => ?_, fun _ _ same next slot _ _ => ?_, by simp⟩
    · cases same
      rw [time]
      exact segmentCost_total (ledger.sliding state rfl stored)
    · cases same
      rw [time]
      exact segmentCost_total (idle.sliding state rfl stored)
    · cases same
      cases next
      exact ⟨rfl, le_rfl⟩

/-! ## Whole runs -/

/-- Every run under revisions of a window policy with one period keeps its ledger. -/
theorem window_run {requests : List ValidRequest} {period : Nat}
    (windowed : ∀ request ∈ requests, usesWindowMetadata request.policy.algorithm = true)
    (unchanged : ∀ request ∈ requests, request.policy.period = .ofMicros period)
    (revisions : Revisions requests) :
    ∃ entries, Runs.trace mutateStep none requests = pure entries ∧
      entries.map Entry.input = requests ∧
      ∀ earlier entry later, entries = earlier ++ entry :: later →
        (entry.admitted ≠ 0 → ∀ old ∈ earlier, old.admitted ≠ 0 →
          old.effectiveMicros ≤ entry.effectiveMicros) ∧
        (entry.input.policy.algorithm = .fixedWindow → FixedAccounted period earlier entry) ∧
        (entry.input.policy.algorithm = .slidingWindow → SlidingAccounted period earlier entry) := by
  have kept : ∀ history current request,
      Reached requests current ∧ WindowLedger period history current → request ∈ requests →
      ∃ result, mutateStep current request = pure result ∧
        ((Answer.admitted result.2 request.toRequest ≠ 0 → ∀ old ∈ history, old.admitted ≠ 0 →
            old.effectiveMicros ≤ (effective current request.toRequest).now.unixMicro) ∧
          (request.policy.algorithm = .fixedWindow →
            FixedAccounted period history ⟨current, request, result.2, result.1⟩) ∧
          (request.policy.algorithm = .slidingWindow →
            SlidingAccounted period history ⟨current, request, result.2, result.1⟩)) ∧
        Reached requests result.1 ∧
        WindowLedger period (history ++ [⟨current, request, result.2, result.1⟩]) result.1 := by
    rintro history current request ⟨reached, ledger⟩ member
    have kind : request.policy.algorithm.IsRate := by
      have window := windowed request member
      unfold Algorithm.IsRate
      cases same : request.policy.algorithm <;> simp_all [usesWindowMetadata]
    obtain ⟨period', bounds⟩ := request.bounds kind
    obtain rfl : period' = period :=
      ofMicros_injective (by rw [← bounds.period_eq, unchanged request member])
    rcases reached.step revisions member kind bounds with
      ⟨overflow, late⟩ | ⟨accepted, result, next⟩
    · have algorithm : ∀ state, current = some state → state.algorithm = request.policy.algorithm := by
        intro state same
        obtain ⟨writer, written, _, stored⟩ := reached state same
        rw [stored.algorithm, (revisions request member writer written).algorithm]
      exact ⟨_, overflow, ⟨fun admitted => absurd rfl admitted, ledger.overflow bounds late algorithm⟩,
        reached, ledger.idle rfl⟩
    · exact ⟨_, result, ⟨fun _ old => ledger.past_effective accepted,
        ledger.admit_fixed accepted, ledger.admit_sliding accepted⟩, next, ledger.admit accepted⟩
  obtain ⟨entries, run, inputs, held⟩ := Runs.trace_history mutateStep
    (fun history current => Reached requests current ∧ WindowLedger period history current)
    (fun history (entry : StateEntry) =>
      (entry.admitted ≠ 0 → ∀ old : StateEntry, old ∈ history → old.admitted ≠ 0 →
        old.effectiveMicros ≤ entry.effectiveMicros) ∧
      (entry.input.policy.algorithm = .fixedWindow → FixedAccounted period history entry) ∧
        (entry.input.policy.algorithm = .slidingWindow → SlidingAccounted period history entry))
    requests kept ⟨by simp [Reached], WindowLedger.empty period⟩
  exact ⟨entries, run, inputs, fun earlier entry later shape => (held earlier entry later shape).2.1⟩

/-- Window accounting is exact. In every run of `mutateState` under revisions of a
window policy with one period, at every step: the usage a fixed window stores is what
the run admitted in that window; the slots of a sliding window add up to what the run
admitted in the segments that count, before the step and after it; a slot that counts
is not overwritten; and an admission keeps this sum with its own cost within the limit
it was admitted under. -/
theorem window_accounting (requests : List ValidRequest) (period : Nat)
    (windowed : ∀ request ∈ requests, usesWindowMetadata request.policy.algorithm = true)
    (unchanged : ∀ request ∈ requests, request.policy.period = .ofMicros period)
    (revisions : Revisions requests) :
    ∃ entries, Runs.trace mutateStep none requests = pure entries ∧
      ∀ earlier entry later, entries = earlier ++ entry :: later →
        (entry.input.policy.algorithm = .fixedWindow → FixedAccounted period earlier entry) ∧
        (entry.input.policy.algorithm = .slidingWindow → SlidingAccounted period earlier entry) := by
  obtain ⟨entries, run, -, held⟩ := window_run windowed unchanged revisions
  exact ⟨entries, run, fun earlier entry later shape => (held earlier entry later shape).2⟩

/-- A request under a sliding window of a hundred microseconds with a limit of ten. -/
def slidingRequest : ValidRequest :=
  (ratePolicy .slidingWindow 97 10 0 100 (by decide)).request rfl 3 5 rfl

/-- A later one under a revision with a smaller limit. -/
def smallerRequest : ValidRequest :=
  (ratePolicy .slidingWindow 98 4 0 100 (by decide)).request rfl 2 50 rfl

theorem window_accounting_revised :
    (∀ request ∈ [slidingRequest, smallerRequest],
        usesWindowMetadata request.policy.algorithm = true) ∧
      (∀ request ∈ [slidingRequest, smallerRequest], request.policy.period = .ofMicros 100) ∧
      Revisions [slidingRequest, smallerRequest] ∧
      ∃ entries, Runs.trace mutateStep none [slidingRequest, smallerRequest] = pure entries :=
  ⟨by decide, by decide, by decide,
    (window_accounting [slidingRequest, smallerRequest] 100 (by decide) (by decide) (by decide)).imp
      fun _ accounted => accounted.1⟩

/-! ## Rolling periods -/

/-- The clamped time of a step, in nanoseconds. -/
def StateEntry.effectiveNanos (entry : StateEntry) : Int :=
  (effective entry.before entry.input.toRequest).now.nanos

/-- The cost admitted in the period that ends with `instant`. -/
def rollingCost (entries : List StateEntry) (period : Duration) (instant : Int) : Nat :=
  costWhere entries fun entry =>
    instant - period.nanos < entry.effectiveNanos ∧ entry.effectiveNanos ≤ instant

/-- No earlier admission of the last period falls into the segment that contains the
instant one period ago. That segment is released as soon as its first microsecond is
a period old. -/
def Clear (period : Nat) (earlier : List StateEntry) (entry : StateEntry) : Prop :=
  ∀ old ∈ earlier, old.admitted ≠ 0 →
    entry.effectiveNanos - (Duration.ofMicros period).nanos < old.effectiveNanos →
    segmentAt old.effectiveMicros period ≠ oldestAt entry.effectiveMicros period

/-- What a clear step admitted in the last period still counts. -/
theorem Clear.live (clear : Clear period earlier entry) (positive : 0 < period) (member : old ∈ earlier)
    (admitted : old.admitted ≠ 0) (past : old.effectiveMicros ≤ entry.effectiveMicros)
    (recent : entry.effectiveNanos - (Duration.ofMicros period).nanos < old.effectiveNanos) :
    Live period entry.effectiveMicros old := by
  have width : 0 < widthOf period := by
    unfold widthOf
    omega
  have floored : entry.effectiveMicros - period ≤ old.effectiveMicros := by
    simp only [Duration.ofMicros, StateEntry.effectiveNanos, StateEntry.effectiveMicros,
      Time.unixMicro] at recent ⊢
    omega
  have start : oldestAt entry.effectiveMicros period ≤ segmentAt old.effectiveMicros period :=
    Int.ediv_le_ediv width floored
  exact ⟨lt_of_le_of_ne start (clear old member admitted recent).symm, (segment_mono positive past).2⟩

/-- Of the entries that admit something under a predicate one is the last. -/
theorem last_counted (entries : List StateEntry) (counted : StateEntry → Prop) [DecidablePred counted] :
    costWhere entries counted = 0 ∨
      ∃ earlier entry later, entries = earlier ++ entry :: later ∧ entry.admitted ≠ 0 ∧ counted entry ∧
        costWhere entries counted = costWhere earlier counted + entry.admitted := by
  induction entries using List.reverseRecOn with
  | nil => exact Or.inl rfl
  | append_singleton history last ih =>
    rw [costWhere_snoc]
    by_cases here : counted last ∧ last.admitted ≠ 0
    · exact Or.inr ⟨history, last, [], rfl, here.2, here.1, by rw [if_pos here.1]⟩
    · have nothing : (if counted last then last.admitted else 0) = 0 := by
        by_cases inside : counted last
        · rw [if_pos inside]
          by_contra admitted
          exact here ⟨inside, admitted⟩
        · rw [if_neg inside]
      rw [nothing, Nat.add_zero]
      rcases ih with zero | ⟨earlier, entry, later, shape, admitted, inside, sum⟩
      · exact Or.inl zero
      · exact Or.inr ⟨earlier, entry, later ++ [last], by rw [shape]; simp, admitted, inside, sum⟩

/-- The limit over rolling periods. A sliding window with one policy never admits more
than its limit in a rolling period, if every request finds it clear. -/
theorem sliding_rolling_limit (requests : List ValidRequest) (policy : Policy) (period : Nat)
    (kind : policy.algorithm = .slidingWindow) (unchanged : policy.period = .ofMicros period)
    (same : ∀ request ∈ requests, request.policy = policy) :
    ∃ entries, Runs.trace mutateStep none requests = pure entries ∧
      ((∀ earlier entry later, entries = earlier ++ entry :: later → Clear period earlier entry) →
        ∀ instant, rollingCost entries policy.period instant ≤ policy.limit) := by
  have revisions : Revisions requests := by
    intro first memberF second memberS
    rw [same first memberF, same second memberS]
    exact ⟨rfl, rfl, fun _ => rfl, fun _ => rfl⟩
  obtain ⟨entries, run, inputs, held⟩ := window_run
    (fun request member => by rw [same request member, kind]; rfl)
    (fun request member => by rw [same request member, unchanged]) revisions
  refine ⟨entries, run, fun clear instant => ?_⟩
  unfold rollingCost
  rcases last_counted entries (fun entry => instant - policy.period.nanos < entry.effectiveNanos ∧
      entry.effectiveNanos ≤ instant) with zero | ⟨earlier, entry, later, shape, admitted, inside, sum⟩
  · rw [zero]
    exact Nat.zero_le _
  -- Whatever else the period holds was admitted before its last admission and counted there.
  obtain ⟨past, -, accounted⟩ := held earlier entry later shape
  have input : entry.input.policy = policy := by
    refine same entry.input ?_
    rw [← inputs, shape]
    simp
  have positive : 0 < period := by
    obtain ⟨period', bounds⟩ := entry.input.bounds (by rw [input, kind]; exact Or.inr (Or.inr rfl))
    obtain rfl : period' = period := ofMicros_injective (by rw [← bounds.period_eq, input, unchanged])
    exact bounds.period_pos
  have allowed : entry.output.error = none ∧ entry.admitted = entry.input.cost := by
    unfold StateEntry.admitted Answer.admitted at admitted ⊢
    split at admitted
    · rename_i none
      exact ⟨none, if_pos none⟩
    · exact absurd rfl admitted
  have counted : (costWhere earlier fun old => instant - policy.period.nanos < old.effectiveNanos ∧
      old.effectiveNanos ≤ instant) ≤ costWhere earlier (Live period entry.effectiveMicros) := by
    refine costWhere_mono fun old member some within => ?_
    refine (clear earlier entry later shape).live positive member some (past admitted old member some) ?_
    rw [← unchanged]
    omega
  have within := (accounted (by rw [input, kind])).within allowed.1
  rw [input] at within
  rw [sum, allowed.2]
  omega

/-- A second request under the policy of `slidingRequest`. -/
def slidingLater : ValidRequest :=
  (ratePolicy .slidingWindow 97 10 0 100 (by decide)).request rfl 4 50 rfl

theorem sliding_rolling_limit_two :
    slidingRequest.policy.algorithm = .slidingWindow ∧ slidingRequest.policy.period = .ofMicros 100 ∧
      (∀ request ∈ [slidingRequest, slidingLater], request.policy = slidingRequest.policy) ∧
      ∃ entries, Runs.trace mutateStep none [slidingRequest, slidingLater] = pure entries ∧
        ∀ instant, rollingCost entries slidingRequest.policy.period instant ≤ slidingRequest.policy.limit := by
  refine ⟨rfl, rfl, by decide, ?_⟩
  obtain ⟨entries, run, limit⟩ := sliding_rolling_limit [slidingRequest, slidingLater]
    slidingRequest.policy 100 rfl rfl (by decide)
  refine ⟨entries, run, limit ?_⟩
  cases run
  intro earlier entry later shape
  rcases earlier with _ | ⟨first, _ | ⟨second, rest⟩⟩
  · exact fun old member => by simp at member
  · obtain ⟨one, shape⟩ := List.cons.inj shape
    obtain ⟨two, -⟩ := List.cons.inj shape
    intro old member
    obtain rfl := List.mem_singleton.mp member
    rw [← one, ← two]
    decide
  · have longer := congrArg List.length shape
    simp at longer

/-- A limit of one in thirty-two microseconds, in segments of two. -/
def narrowPolicy : Policy := ratePolicy .slidingWindow 97 1 0 32 (by decide)

theorem narrowPolicy_built : newPolicy narrowPolicy.toPolicySpec = .ok narrowPolicy := rfl

def narrowFirst : ValidRequest := narrowPolicy.request rfl 1 1 rfl

def narrowSecond : ValidRequest := narrowPolicy.request rfl 1 32 rfl

/-- Two admissions under a limit of one within thirty-two microseconds: the segment of
the first is released a microsecond early. -/
theorem sliding_releases_early : narrowFirst.now.nanos ≤ narrowSecond.now.nanos ∧ ∃ entries,
    Runs.trace mutateStep none [narrowFirst, narrowSecond] = pure entries ∧
      narrowPolicy.limit < rollingCost entries narrowPolicy.period 32000 := by
  refine ⟨by decide, _, rfl, ?_⟩
  decide

end RateLimit.Postgres
