import RateLimit.MemoryEviction
import RateLimit.MemoryUnbounded

/-! The windows of the memory store over unbounded integers. The store with 64-bit counts is
the unbounded one with the starts of its fixed windows wrapped, as long as no sliding window
reaches back before the range of a count. -/
namespace RateLimit.Memory

open Machine

/-! ## States with wrapped windows -/

/-- A state with the start of its fixed window wrapped. -/
def wrapped (state : State) : State := if state.algorithm = .fixedWindow then wrapStart state else state

@[simp] theorem wrapped_lastSeen (state : State) : (wrapped state).lastSeen = state.lastSeen := by
  unfold wrapped
  split <;> rfl

@[simp] theorem wrapped_leases (state : State) : (wrapped state).leases = state.leases := by
  unfold wrapped
  split <;> rfl

@[simp] theorem wrapped_revision (state : State) : (wrapped state).revision = state.revision := by
  unfold wrapped
  split <;> rfl

@[simp] theorem wrapped_algorithm (state : State) : (wrapped state).algorithm = state.algorithm := by
  unfold wrapped
  split <;> rfl

@[simp] theorem wrapped_windowPeriod (state : State) : (wrapped state).windowPeriod = state.windowPeriod := by
  unfold wrapped
  split <;> rfl

theorem wrapped_seen (state : State) (now : Time) :
    { wrapped state with lastSeen := now } = wrapped { state with lastSeen := now } := by
  unfold wrapped
  split <;> rfl

theorem wrapped_fresh (request : Request) : wrapped (freshState request) = freshState request := by
  unfold wrapped
  split <;> rfl

theorem wrapped_carried (state : State) (request : Request) :
    wrapped (carryRevision state request) = carryRevision (wrapped state) request := by
  unfold wrapped carryRevision
  dsimp only
  split <;> rfl

theorem wrapped_adopted (found : Option State) (request : Request) :
    wrapped (adopted found request) = adopted (found.map wrapped) request := by
  cases found with
  | none => exact wrapped_fresh request
  | some state =>
    unfold adopted
    dsimp only [Option.map_some]
    rw [wrapped_revision]
    split
    · exact wrapped_carried state request
    · rfl

/-! ## Stores with wrapped windows -/

def Shard.wrapped (shard : Shard) : Shard := { shard with states := LeaseTable.adjust Memory.wrapped shard.states }

def Store.wrapped (store : Store) : Store := { store with shards := fun index => (store.shards index).wrapped }

theorem Store.find_wrapped (store : Store) (key : GoString) : store.wrapped.find key =
    (store.find key).map Memory.wrapped :=
  LeaseTable.lookup_adjust _

theorem Store.setShard_wrapped (store : Store) (index : Fin store.count) (shard : Shard) :
    (store.setShard index shard).wrapped = store.wrapped.setShard index shard.wrapped := by
  unfold Store.wrapped Store.setShard
  dsimp only
  congr 1
  funext other
  by_cases same : other = index
  · subst same
    rw [Function.update_self, Function.update_self]
  · rw [Function.update_of_ne same, Function.update_of_ne same]

theorem Shard.insert_wrapped (shard : Shard) (states : States) (key : GoString) (state : State) :
    ({ shard with states := states.insert key state } : Shard).wrapped =
      { shard.wrapped with
        states := (LeaseTable.adjust Memory.wrapped states).insert key (Memory.wrapped state) } :=
  congrArg (fun states => ({ shard with states := states } : Shard)) (LeaseTable.adjust_insert _ _ _ _)

theorem older_wrapped (left right : Σ _ : GoString, State) :
    older ⟨left.1, wrapped left.2⟩ ⟨right.1, wrapped right.2⟩ = older left right := by
  simp only [older, wrapped_lastSeen]

/-- The victim is the same one. -/
theorem evictOldest_wrapped (states : States) (now : Time) :
    evictOldest (LeaseTable.adjust wrapped states) now = (evictOldest states now).map (LeaseTable.adjust wrapped) := by
  have sorted := List.map_mergeSort (r := fun left right => !older right left)
    (s := fun left right => !older right left)
    (f := fun entry : Σ _ : GoString, State => (⟨entry.1, wrapped entry.2⟩ : Σ _ : GoString, State))
    (l := states.entries.filter fun entry => !hasActiveLease entry.2.leases now)
    (fun left _ right _ => by rw [older_wrapped])
  have kept : (LeaseTable.adjust wrapped states).entries.filter (fun entry => !hasActiveLease entry.2.leases now) =
      (states.entries.filter fun entry => !hasActiveLease entry.2.leases now).map
        fun entry => (⟨entry.1, wrapped entry.2⟩ : Σ _ : GoString, State) := by
    change (states.entries.map _).filter _ = _
    rw [List.filter_map]
    simp [Function.comp_def]
  unfold evictOldest
  dsimp only
  rw [kept, ← sorted]
  cases (states.entries.filter fun entry => !hasActiveLease entry.2.leases now).mergeSort
      fun left right => !older right left with
  | nil => rfl
  | cons oldest rest => exact congrArg some (LeaseTable.adjust_erase _ _ _).symm

theorem Shard.makeRoom_wrapped (target : Shard) (now : Time) :
    target.wrapped.makeRoom now = (target.makeRoom now).map (LeaseTable.adjust Memory.wrapped) := by
  have length : target.wrapped.states.entries.length = target.states.entries.length := List.length_map _
  have victim : evictOldest target.wrapped.states now = _ := evictOldest_wrapped target.states now
  unfold Shard.makeRoom
  rw [length, victim, show target.wrapped.maxKeys = target.maxKeys from rfl,
    show target.wrapped.rejectOnCapacity = target.rejectOnCapacity from rfl]
  split
  · split
    · rfl
    · cases evictOldest target.states now <;> rfl
  · rfl

theorem Shard.getOrCreate_wrapped (target : Shard) (key : GoString) (request : Request) :
    target.wrapped.getOrCreate key request =
      (target.getOrCreate key request).map fun made =>
        (LeaseTable.adjust Memory.wrapped made.1, Memory.wrapped made.2) := by
  have found : target.wrapped.states.lookup key = (target.states.lookup key).map Memory.wrapped :=
    LeaseTable.lookup_adjust _
  have carried := wrapped_adopted (target.states.lookup key) request
  unfold Shard.getOrCreate
  rw [found, Shard.makeRoom_wrapped]
  generalize target.states.lookup key = current at carried ⊢
  cases current with
  | some current =>
    exact congrArg (fun state => Except.ok (LeaseTable.adjust Memory.wrapped target.states, state)) carried.symm
  | none =>
    cases target.makeRoom request.now with
    | error problem => rfl
    | ok states => exact congrArg (fun state => Except.ok (LeaseTable.adjust Memory.wrapped states, state)) carried.symm

theorem Shard.mismatched_wrapped (target : Shard) (key : GoString) (algorithm : Algorithm) :
    target.wrapped.mismatched key algorithm = target.mismatched key algorithm := by
  have found : target.wrapped.states.lookup key = (target.states.lookup key).map Memory.wrapped :=
    LeaseTable.lookup_adjust _
  unfold Shard.mismatched
  rw [found]
  cases target.states.lookup key with
  | none => rfl
  | some current => simp

theorem effectiveTime_wrapped (found : Option State) (now : Time) :
    effectiveTime (found.map wrapped) now = effectiveTime found now := by
  cases found with
  | none => rfl
  | some current => simp [effectiveTime, clampLastSeen]

theorem periodMismatch_wrapped (found : Option State) (policy : Policy) :
    periodMismatch (found.map wrapped) policy = periodMismatch found policy := by
  cases found with
  | none => rfl
  | some current => simp [periodMismatch]

/-! ## Sound states -/

/-- What holds of the window of a state. -/
def WindowSound (state : State) : Prop :=
  match state.algorithm with
  | .fixedWindow => FixedSound state
  | .slidingWindow => SlidingSound state
  | _ => True

/-- The windows of a store are sound. -/
def Store.WindowSound (store : Store) : Prop := ∀ key state, store.find key = some state → Memory.WindowSound state

theorem segmentSize_pos {period : Duration} (positive : 0 < period.nanos) : 0 < segmentSize period := by
  unfold segmentSize
  omega

theorem SlidingSound.later {state : State} (sound : SlidingSound state) (later : state.lastSeen.nanos ≤ now.nanos) :
    SlidingSound { state with lastSeen := now } where
  period_pos := sound.period_pos
  timely := fun slot used => (sound.timely slot used).trans
    (Int.ediv_le_ediv (segmentSize_pos sound.period_pos) later)
  fits := sound.fits

/-- The state that an admission works on is sound. -/
theorem WindowSound.adopted {found : Option State} {request : Request} {now : Time} (limits : Limits request period)
    (sound : ∀ current, found = some current → Memory.WindowSound current)
    (later : ∀ current, found = some current → current.lastSeen.nanos ≤ now.nanos) :
    Memory.WindowSound { Memory.adopted found request with lastSeen := now } := by
  obtain ⟨nanos, positive, small⟩ := period_nanos limits
  cases found with
  | none =>
    unfold Memory.WindowSound Memory.adopted freshState
    split
    · exact ⟨by dsimp only; omega, by dsimp only; omega, by dsimp only; omega, by dsimp only; omega⟩
    · refine ⟨by dsimp only; omega, fun slot used => absurd rfl used, ?_⟩
      simp [held]
    · trivial
  | some current =>
    have held := sound current rfl
    have seen := later current rfl
    have same : ∀ next : State, next.algorithm = current.algorithm → next.windowStart = current.windowStart →
        next.windowPeriod = current.windowPeriod → next.segments = current.segments → next.lastSeen = now →
        Memory.WindowSound next := by
      intro next algorithm start lasts segments clock
      unfold Memory.WindowSound at held ⊢
      rw [algorithm]
      split at held
      · exact ⟨by rw [lasts]; exact held.period_pos, by rw [lasts]; exact held.period_le,
          by rw [lasts, start]; exact held.low, by rw [lasts, start]; exact held.high⟩
      · have shown := held.later seen
        exact ⟨by rw [lasts]; exact shown.period_pos, by rw [lasts, segments, clock]; exact shown.timely,
          by rw [segments]; exact shown.fits⟩
      · trivial
    unfold Memory.adopted
    dsimp only
    split <;> exact same _ rfl rfl rfl rfl rfl

theorem wrapped_other {state : State} (other : state.algorithm ≠ .fixedWindow) : wrapped state = state := if_neg other

/-- What an algorithm with 64-bit counts does to a wrapped state is what it does over
unbounded integers, wrapped. -/
structure Wraps (current : State) (request : Request) (outcome : Outcome) : Prop where
  unbounded : (Unbounded.admitState current request).Returns outcome
  counted : (admitState (wrapped current) request).Returns { outcome with state := wrapped outcome.state }
  sound : WindowSound outcome.state
  charged : Charged current outcome.state

section
variable {current : State} {request : Request} {period : Nat} (limits : Limits request period)
  (range : InRange request.now period) (sound : WindowSound current) (seen : current.lastSeen = request.now)
  (kind : current.algorithm = request.policy.algorithm)
include limits range sound seen kind

theorem admitState_wraps (rate : request.policy.algorithm.IsRate)
    (samePeriod : request.policy.algorithm ≠ .tokenBucket → current.windowPeriod = request.policy.period)
    (fits : request.policy.algorithm = .slidingWindow → SlidingFits request.now request.policy.period) :
    ∃ outcome, Wraps current request outcome := by
  unfold WindowSound at sound
  rw [kind] at sound
  cases named : request.policy.algorithm with
  | tokenBucket =>
    have other : current.algorithm ≠ .fixedWindow := by simp [kind, named]
    have token : (admitToken current request).Yields (Admits current request) := admitToken_yields limits named
    obtain ⟨outcome, returns, admits⟩ := token
    have after : outcome.state.algorithm = .tokenBucket := by rw [admits.charged.algorithm, kind, named]
    refine ⟨outcome, ⟨?_, ?_, ?_, admits.charged⟩⟩
    · simpa only [Unbounded.admitState, named] using returns
    · rw [wrapped_other other, wrapped_other (by simp [after])]
      simpa only [admitState, named] using returns
    · simp only [WindowSound, after]
  | fixedWindow =>
    simp only [named] at sound
    have lasts := samePeriod (by simp [named])
    have charged := Unbounded.admitFixed_charged current request
    have before : current.algorithm = .fixedWindow := kind.trans named
    have after := charged.algorithm.trans before
    refine ⟨Unbounded.admitFixed current request, ⟨?_, ?_, ?_, charged⟩⟩
    · simpa only [Unbounded.admitState, named] using returns_pure _
    · rw [wrapped, if_pos before, wrapped, if_pos after]
      simpa only [admitState, named] using admitFixed_wraps limits range sound lasts
    · simpa only [WindowSound, after] using Unbounded.admitFixed_sound limits range sound lasts
  | slidingWindow =>
    simp only [named] at sound
    have lasts := samePeriod (by simp [named])
    have charged : Charged current (Unbounded.admitSliding current request).state := Unbounded.slide_charged _ _ _ _ _
    have before : current.algorithm = .slidingWindow := kind.trans named
    have after := charged.algorithm.trans before
    refine ⟨Unbounded.admitSliding current request, ⟨?_, ?_, ?_, charged⟩⟩
    · simpa only [Unbounded.admitState, named] using returns_pure _
    · rw [wrapped_other (by simp [before]), wrapped_other (by simp [after])]
      simpa only [admitState, named] using returns_of_eq (admitSliding_exact limits range sound seen lasts (fits named))
    · simpa only [WindowSound, after] using Unbounded.admitSliding_sound limits sound seen lasts
  | concurrency | other => simp [named, Algorithm.IsRate] at rate

end

/-! ## Steps -/

/-- The counts of a sliding window are in range at the time the request is decided at. -/
def WindowFits (store : Store) (request : Request) : Prop :=
  request.policy.algorithm = .slidingWindow →
    SlidingFits (effectiveTime (store.find (stateKey request)) (truncate request.now)) request.policy.period

instance (store : Store) (request : Request) : Decidable (WindowFits store request) :=
  inferInstanceAs (Decidable (_ → _))

/-- A window is kept for the period it was made for. -/
theorem adopted_windowPeriod {found : Option State} {request : Request}
    (sound : ∀ current, found = some current → WindowSound current)
    (matched : ∀ current, found = some current → current.algorithm = request.policy.algorithm)
    (same : periodMismatch found request.policy = false)
    (window : request.policy.algorithm = .fixedWindow ∨ request.policy.algorithm = .slidingWindow) :
    (adopted found request).windowPeriod = request.policy.period := by
  cases found with
  | none => rfl
  | some current =>
    have positive : current.windowPeriod.nanos ≠ 0 := by
      have held := sound current rfl
      have kind := matched current rfl
      unfold WindowSound at held
      rw [kind] at held
      rcases window with fixed | sliding
      · simp only [fixed] at held
        exact (held.period_pos).ne'
      · simp only [sliding] at held
        exact (held.period_pos).ne'
    have equal : current.windowPeriod = request.policy.period := by
      rcases window with named | named <;>
        simpa [periodMismatch, Postgres.usesWindowMetadata, named, positive] using same
    unfold adopted
    dsimp only
    split <;> exact equal

theorem le_effectiveTime {found : Option State} (now : Time) :
    ∀ current, found = some current → current.lastSeen.nanos ≤ (effectiveTime found now).nanos := by
  rintro current rfl
  simp only [effectiveTime, clampLastSeen]
  split <;> omega

/-- The algorithm on the state that an admission works on, at the time it is decided at. -/
theorem adopted_wraps {found : Option State} {request : Request} {period : Nat} (bounds : request.Bounds period)
    (rate : request.policy.algorithm.IsRate) (sound : ∀ current, found = some current → WindowSound current)
    (matched : ∀ current, found = some current → current.algorithm = request.policy.algorithm)
    (same : periodMismatch found request.policy = false) (range : InRange (effectiveTime found request.now) period)
    (fits : request.policy.algorithm = .slidingWindow →
      SlidingFits (effectiveTime found request.now) request.policy.period) :
    ∃ outcome, Wraps { adopted found request with lastSeen := effectiveTime found request.now }
      { request with now := effectiveTime found request.now } outcome := by
  have timed : Request.Bounds { request with now := effectiveTime found request.now } period :=
    bounds.retimed rfl rfl range.1 range.2
  have ready := WindowSound.adopted (limits_of_bounds bounds) sound (le_effectiveTime request.now)
  refine admitState_wraps (limits_of_bounds timed) range ready rfl (adopted_algorithm matched) rate
    (fun window => ?_) fits
  refine adopted_windowPeriod sound matched same ?_
  cases named : request.policy.algorithm with
  | tokenBucket => exact absurd named window
  | fixedWindow => exact Or.inl rfl
  | slidingWindow => exact Or.inr rfl
  | concurrency | other => simp [named, Algorithm.IsRate] at rate

theorem admitHeld_wraps {store : Store} (sound : store.WindowSound) {request : Request} {period : Nat}
    (bounds : request.Bounds period) (rate : request.policy.algorithm.IsRate)
    (fits : request.policy.algorithm = .slidingWindow →
      SlidingFits (effectiveTime (store.find (stateKey request)) request.now) request.policy.period) :
    ∃ result, (store.admitHeldBy Unbounded.admitState request).Returns result ∧
      (store.wrapped.admitHeld request).Returns (result.1.wrapped, result.2) ∧ result.1.WindowSound := by
  unfold Store.admitHeld Store.admitHeldBy
  dsimp only
  rw [Store.find_wrapped, periodMismatch_wrapped, effectiveTime_wrapped]
  by_cases foreign : periodMismatch (store.find (stateKey request)) request.policy = true
  · rw [if_pos foreign, if_pos foreign]
    exact ⟨_, returns_pure _, returns_pure _, sound⟩
  rw [if_neg foreign, if_neg foreign, bounds.period_eq,
    validateStrictEffectiveRange_exact _ bounds.period_pos (bounds.period_le.trans (by decide)), pure_bind, pure_bind]
  by_cases range : InRange (effectiveTime (store.find (stateKey request)) request.now) period
  swap
  · rw [if_neg range]
    exact ⟨_, returns_pure _, returns_pure _, sound⟩
  rw [if_pos range]
  have shard : store.wrapped.shards (store.wrapped.shardFor (stateKey request)) =
    (store.shards (store.shardFor (stateKey request))).wrapped := rfl
  unfold Shard.admitLockedBy
  rw [shard, Shard.mismatched_wrapped, Shard.getOrCreate_wrapped]
  by_cases mismatched : (store.shards (store.shardFor (stateKey request))).mismatched
    (stateKey request) request.policy.algorithm = true
  · rw [if_pos mismatched, if_pos mismatched, pure_bind, pure_bind]
    rw [Store.setShard_self, ← shard, Store.setShard_self]
    exact ⟨_, returns_pure _, returns_pure _, sound⟩
  have matched : ∀ current, store.find (stateKey request) = some current →
      current.algorithm = request.policy.algorithm := by
    intro current found
    by_contra other
    exact mismatched (Shard.mismatched_iff.mpr ⟨current, found, other⟩)
  rw [if_neg mismatched, if_neg mismatched]
  rcases store.getOrCreate_cases (stateKey request) request with ⟨-, full⟩ | ⟨states, created, updated⟩
  · rw [full]
    dsimp only [Except.map]
    rw [pure_bind, pure_bind]
    rw [Store.setShard_self, ← shard, Store.setShard_self]
    exact ⟨_, returns_pure _, returns_pure _, sound⟩
  rw [created]
  dsimp only [Except.map]
  have clamped : clampLastSeen (wrapped (adopted (store.find (stateKey request)) request)) request.now =
      effectiveTime (store.find (stateKey request)) request.now := by
    rw [← adopted_clamped, clampLastSeen, wrapped_lastSeen]
    rfl
  obtain ⟨outcome, wraps⟩ := adopted_wraps bounds rate (fun current found => sound _ current found) matched
    (Bool.eq_false_iff.mpr foreign) range fits
  rw [clamped, adopted_clamped, wrapped_seen, bind_assoc, bind_assoc]
  have here := (updated outcome.state).here
  refine ⟨(store.setShard (store.shardFor (stateKey request))
      { store.shards (store.shardFor (stateKey request)) with
        states := states.insert (stateKey request) outcome.state },
    strictDecisionResult ⟨outcome.decision, outcome.error⟩ outcome.state.lastSeen), ?_, ?_, ?_⟩
  · refine wraps.unbounded.bind ?_
    rw [pure_bind]
    rw [here]
    exact returns_pure _
  · refine wraps.counted.bind ?_
    rw [pure_bind]
    have stored : store.wrapped.setShard (store.wrapped.shardFor (stateKey request))
        { (store.shards (store.shardFor (stateKey request))).wrapped with
          states := (LeaseTable.adjust wrapped states).insert (stateKey request) (wrapped outcome.state) } =
        (store.setShard (store.shardFor (stateKey request))
          { store.shards (store.shardFor (stateKey request)) with
            states := states.insert (stateKey request) outcome.state }).wrapped := by
      rw [Store.setShard_wrapped, Shard.insert_wrapped]
      rfl
    rw [stored, Store.find_wrapped, here]
    dsimp only [Option.map_some]
    rw [wrapped_lastSeen]
    exact returns_pure _
  · intro key state found
    by_cases same : key = stateKey request
    · subst same
      cases here.symm.trans found
      exact wraps.sound
    · exact sound key state ((updated outcome.state).old key state same found)

/-- An admission call. -/
structure AdmitCall where
  waits : Waits := {}
  request : Request
  built : request.policy.Built

/-- `AdmitStrict` as a step of a store. -/
def admitStep (store : Store) (call : AdmitCall) : Machine (Store × Admitted) :=
  store.admitStrict call.waits call.request

/-- The same over unbounded integers. -/
def unboundedStep (store : Store) (call : AdmitCall) : Machine (Store × Admitted) :=
  store.admitStrictBy Unbounded.admitState call.waits call.request

theorem admitStep_wraps {store : Store} (sound : store.WindowSound) (call : AdmitCall)
    (fits : WindowFits store call.request) :
    ∃ result, (unboundedStep store call).Returns result ∧
      (admitStep store.wrapped call).Returns (result.1.wrapped, result.2) ∧ result.1.WindowSound := by
  obtain ⟨waits, request, built⟩ := call
  have closed : store.wrapped.closed = store.closed := rfl
  unfold unboundedStep admitStep Store.admitStrict Store.admitStrictBy
  rw [closed]
  cases valid : request.validate with
  | error problem => exact ⟨_, returns_pure _, returns_pure _, sound⟩
  | ok =>
    cases strictContext waits.entry with
    | some problem => exact ⟨_, returns_pure _, returns_pure _, sound⟩
    | none =>
      by_cases shut : store.closed = true
      · rw [if_pos shut, if_pos shut]
        exact ⟨_, returns_pure _, returns_pure _, sound⟩
      rw [if_neg shut, if_neg shut]
      by_cases concurrent : request.policy.algorithm = .concurrency
      · rw [if_pos concurrent, if_pos concurrent]
        exact ⟨_, returns_pure _, returns_pure _, sound⟩
      rw [if_neg concurrent, if_neg concurrent]
      cases waits.interrupted with
      | some problem => exact ⟨_, returns_pure _, returns_pure _, sound⟩
      | none =>
        have rate := built.sound.known.resolve_right concurrent
        obtain ⟨period, bounds⟩ := (⟨request, built, valid⟩ : ValidRequest).bounds rate
        have timed : (truncated request).Bounds period :=
          bounds.retimed rfl rfl (by simpa [truncated] using bounds.not_before) (by simpa [truncated] using bounds.room)
        obtain ⟨result, unbounded, counted, next⟩ := admitHeld_wraps sound timed rate fits
        exact ⟨(result.1, ⟨result.2.decision, result.2.error.map .sentinel⟩), unbounded.bind (returns_pure _),
          counted.bind (returns_pure _), next⟩

/-! ## Runs -/

/-- What a key has used. -/
def State.usage (state : State) : Nat × (Fin 16 → Segment) := (state.used, state.segments)

theorem wrapped_usage (state : State) : (wrapped state).usage = state.usage := by
  unfold wrapped
  split <;> rfl

theorem newStore_wrapped (made : newStore options = .ok store) : store.wrapped = store := by
  have shards := (newStore_made made).shards
  obtain ⟨count, positive, content, closed⟩ := store
  unfold Store.wrapped
  congr 1
  funext index
  dsimp only at shards ⊢
  rw [shards]
  rfl

/-- The memory store is the store over unbounded integers. For every run of admissions at
times with a count of microseconds, in which the counts of the sliding windows are in range,
whatever the fixed windows do: the two stores give the same decisions and errors, and every
key has the same usage at every step. -/
theorem memory_windows_unbounded (options : Options) (store : Store) (made : newStore options = .ok store)
    (calls : List AdmitCall) :
    ∃ entries, (Runs.trace admitStep store calls).Returns entries ∧ entries.map Entry.input = calls ∧
      ((∀ entry ∈ entries, entry.input.request.now.HasMicros ∧ WindowFits entry.before entry.input.request) →
        ∃ others, (Runs.trace unboundedStep store calls).Returns others ∧
          List.Forall₂ (fun entry other => entry.output = other.output ∧
            ∀ key, (entry.after.find key).map State.usage = (other.after.find key).map State.usage)
            entries others) := by
  obtain ⟨entries, run, inputs, -⟩ := Runs.trace_returns admitStep (fun _ store => Sized options store)
    (fun _ _ => True) calls
    (fun _ store call sized _ => by
      obtain ⟨result, returns, -, next⟩ := admitStrict_effect sized call.waits call.built
      exact ⟨result, returns, trivial, next⟩) (Sized.start made)
  refine ⟨entries, run, inputs, fun fits => ?_⟩
  have start : ∀ key state, store.find key = some state → WindowSound state := by
    intro key state found
    rw [newStore_find made] at found
    cases found
  obtain ⟨others, run', same⟩ := Runs.trace_shadows admitStep unboundedStep
    (fun store other => store = other.wrapped ∧ other.WindowSound)
      (fun store call => WindowFits store call.request) Eq calls
    (by
      rintro store other call first ⟨rfl, sound⟩ fits - returns
      have fits' : WindowFits other call.request := by
        unfold WindowFits at fits ⊢
        rwa [Store.find_wrapped, effectiveTime_wrapped] at fits
      obtain ⟨second, unbounded, counted, next⟩ := admitStep_wraps sound call fits'
      cases returns.unique counted
      exact ⟨second, unbounded, rfl, rfl, next⟩)
    ⟨(newStore_wrapped made).symm, start⟩ run fun entry member => (fits entry member).2
  refine ⟨others, run', same.imp ?_⟩
  rintro entry other ⟨equal, after, -⟩
  refine ⟨equal, fun key => ?_⟩
  rw [after, Store.find_wrapped, Option.map_map]
  congr 1
  funext state
  exact wrapped_usage state

/-- One request in a sliding window of a minute. -/
def oneAMinute : Policy := ratePolicy .slidingWindow 97 1 0 60000000 minute_fits

theorem oneAMinute_built : oneAMinute.Built := by
  have built : newPolicy oneAMinute.toPolicySpec = .ok oneAMinute := rfl
  exact ⟨_, built⟩

def minuteCall (micros : Int) : AdmitCall where
  request := ⟨oneAMinute, ⟨[107], [117]⟩, 1, .ofUnixMicro micros⟩
  built := oneAMinute_built

theorem memory_windows_unbounded_minute :
    newStore { maxKeys := 3, shards := 2 } = .ok threeKeys ∧
      ∃ entries others, (Runs.trace admitStep threeKeys [minuteCall 0, minuteCall 1]).Returns entries ∧
        (Runs.trace unboundedStep threeKeys [minuteCall 0, minuteCall 1]).Returns others ∧
        List.Forall₂ (fun entry other => entry.output = other.output ∧
          ∀ key, (entry.after.find key).map State.usage = (other.after.find key).map State.usage) entries others := by
  have made : newStore { maxKeys := 3, shards := 2 } = .ok threeKeys := rfl
  obtain ⟨entries, run, -, unbounded⟩ := memory_windows_unbounded _ threeKeys made [minuteCall 0, minuteCall 1]
  have fits : ∀ entry ∈ entries, entry.input.request.now.HasMicros ∧ WindowFits entry.before entry.input.request := by
    have all : (match Runs.trace admitStep threeKeys [minuteCall 0, minuteCall 1] with
        | .done entries _ => entries.all fun entry =>
          decide (entry.input.request.now.HasMicros ∧ WindowFits entry.before entry.input.request)
        | .panic => false) = true := by decide +kernel
    obtain ⟨_, ends⟩ := run
    rw [ends] at all
    exact fun entry member => of_decide_eq_true (List.all_eq_true.mp all entry member)
  obtain ⟨others, run', same⟩ := unbounded fits
  exact ⟨made, entries, others, run, run', same⟩

/-- One request in a sliding window of about 285 years. -/
def oneAnAge : Policy := ratePolicy .slidingWindow 97 1 0 9007199254740991 exact_fits

theorem oneAnAge_built : oneAnAge.Built := by
  have built : newPolicy oneAnAge.toPolicySpec = .ok oneAnAge := rfl
  exact ⟨_, built⟩

/-- Two requests in the last seconds before 1970. -/
def ageCalls : List AdmitCall :=
  [⟨{}, ⟨oneAnAge, ⟨[107], [117]⟩, 1, .ofUnixMicro (-2000000)⟩, oneAnAge_built⟩,
    ⟨{}, ⟨oneAnAge, ⟨[107], [117]⟩, 1, .ofUnixMicro (-1000000)⟩, oneAnAge_built⟩]

/-- The second request is admitted, as the boundary one period ago wraps to a time after it
and all usage is taken to have expired. -/
theorem sliding_usage_wraps_away :
    (∀ call ∈ ageCalls, call.request.validate = .ok ()) ∧
      List.map (fun entry => entry.output.decision.allowed) <$> Runs.trace admitStep threeKeys ageCalls =
        .done [true, true] true ∧
      List.map (fun entry => entry.output.decision.allowed) <$> Runs.trace unboundedStep threeKeys ageCalls =
        .done [true, false] false := by
  refine ⟨?_, by decide +kernel, by decide +kernel⟩
  simp only [ageCalls, List.forall_mem_cons]
  exact ⟨rfl, rfl, List.forall_mem_nil _⟩

end RateLimit.Memory
