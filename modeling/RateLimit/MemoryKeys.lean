import RateLimit.MemorySpec
import RateLimit.Runs

/-! What the operations of the memory store do to its keys. An operation writes its own
key, and may evict another one, which has no active lease; a sweep drops what has expired.
Every state that is stored keeps its leases within bounds, and has leases only under the
concurrency algorithm. -/
namespace RateLimit.Memory

open Machine

/-! ## One key of a store -/

theorem Store.find_setShard (store : Store) (index : Fin store.count) (shard : Shard) (key : GoString) :
    (store.setShard index shard).find key =
      if store.shardFor key = index then shard.states.lookup key else store.find key := by
  change (Function.update store.shards index shard (store.shardFor key)).states.lookup key = _
  rw [Function.update_apply]
  split <;> rfl

theorem Store.setShard_self (store : Store) (index : Fin store.count) : store.setShard index (store.shards index) =
    store := by
  rw [Store.setShard, Function.update_eq_self]

/-- What `New` accepts, and the store it makes. -/
structure Made (options : Options) (store : Store) : Prop where
  some_keys : 1 ≤ options.maxKeys
  some_shards : 0 < options.shards
  spread : options.shards ≤ options.maxKeys
  count : store.count = options.shards.toNat
  opened : store.closed = false
  shards : ∀ index, store.shards index =
    { maxKeys := if index.val < options.maxKeys.toNat % options.shards.toNat
        then options.maxKeys.toNat / options.shards.toNat + 1 else options.maxKeys.toNat / options.shards.toNat
      rejectOnCapacity := options.rejectOnCapacity }

theorem newStore_made (made : newStore options = .ok store) : Made options store := by
  unfold newStore at made
  iterate 5
    split at made
    · cases made
  cases made
  exact ⟨by omega, by omega, by omega, rfl, rfl, fun _ => rfl⟩

theorem newStore_find (made : newStore options = .ok store) (key : GoString) : store.find key = none := by
  rw [Store.find, (newStore_made made).shards]
  rfl

/-- What is left of a table of states was there, and every key with an active lease is left. -/
structure Evicts (states rest : States) (now : Time) : Prop where
  old : ∀ key state, rest.lookup key = some state → states.lookup key = some state
  kept : ∀ key state, states.lookup key = some state → hasActiveLease state.leases now = true →
    rest.lookup key = some state

theorem Evicts.refl : Evicts states states now := ⟨fun _ _ same => same, fun _ _ same _ => same⟩

theorem evictOldest_evicts (evicted : evictOldest states now = some rest) : Evicts states rest now := by
  unfold evictOldest at evicted
  dsimp only at evicted
  split at evicted
  · cases evicted
  rename_i oldest others sorted
  cases evicted
  have member : oldest ∈ states.entries.filter fun entry => !hasActiveLease entry.2.leases now := by
    rw [← List.mem_mergeSort, sorted]
    exact List.mem_cons_self
  obtain ⟨stored, inactive⟩ := List.mem_filter.mp member
  have found : states.lookup oldest.1 = some oldest.2 := LeaseTable.lookup_iff_mem.mpr stored
  constructor
  · intro key state left
    by_cases same : key = oldest.1
    · subst same
      rw [AList.lookup_erase] at left
      cases left
    · rwa [AList.lookup_erase_ne same] at left
  · intro key state present active
    by_cases same : key = oldest.1
    · subst same
      cases found.symm.trans present
      rw [active] at inactive
      cases inactive
    · rwa [AList.lookup_erase_ne same]

theorem Shard.makeRoom_cases (target : Shard) (now : Time) :
    target.makeRoom now = .error .unavailable ∨ ∃ states, target.makeRoom now = .ok states ∧
      Evicts target.states states now := by
  unfold Shard.makeRoom
  split
  · split
    · exact Or.inl rfl
    · split
      · exact Or.inl rfl
      · rename_i states evicted
        exact Or.inr ⟨states, rfl, evictOldest_evicts evicted⟩
  · exact Or.inr ⟨_, rfl, .refl⟩

/-- The state an operation works on. -/
def adopted (found : Option State) (request : Request) : State :=
  match found with
  | some current => if current.revision ≠ request.policy.revision then carryRevision current request else current
  | none => freshState request

/-- The leases of a key. -/
def leasesOf (found : Option State) : Leases :=
  match found with
  | some current => current.leases
  | none => ∅

theorem adopted_revision (found : Option State) (request : Request) :
    (adopted found request).revision = request.policy.revision := by
  cases found with
  | none => rfl
  | some current =>
    unfold adopted
    dsimp only
    split
    · rfl
    · rename_i same
      exact not_not.mp same

theorem adopted_leases (found : Option State) (request : Request) : (adopted found request).leases =
    leasesOf found := by
  cases found with
  | none => rfl
  | some current =>
    unfold adopted
    dsimp only
    split <;> rfl

theorem adopted_algorithm {found : Option State} {request : Request}
    (same : ∀ current, found = some current → current.algorithm = request.policy.algorithm) :
    (adopted found request).algorithm = request.policy.algorithm := by
  cases found with
  | none => rfl
  | some current =>
    have kind := same current rfl
    unfold adopted
    dsimp only
    split
    · exact kind
    · exact kind

theorem adopted_clamped (found : Option State) (request : Request) :
    clampLastSeen (adopted found request) request.now = effectiveTime found request.now := by
  cases found with
  | none => simp [adopted, freshState, clampLastSeen, effectiveTime]
  | some current =>
    unfold adopted
    dsimp only
    split <;> rfl

/-- A store after an operation on one key. -/
structure Updated (store next : Store) (key : GoString) (now : Time) (state : State) : Prop where
  here : next.find key = some state
  old : ∀ other current, other ≠ key → next.find other = some current → store.find other = some current
  kept : ∀ other current, other ≠ key → store.find other = some current →
    hasActiveLease current.leases now = true → next.find other = some current
  closed : next.closed = store.closed

/-- To write one state to what is left of its shard updates the store. -/
theorem Store.updated_of_evicts (store : Store) {key : GoString}
    (evicts : Evicts (store.shards (store.shardFor key)).states states now) (state : State) :
    Updated store (store.setShard (store.shardFor key)
      { store.shards (store.shardFor key) with states := states.insert key state }) key now state := by
  refine ⟨?_, ?_, ?_, rfl⟩
  · rw [Store.find_setShard, if_pos rfl, AList.lookup_insert]
  · intro other current different found
    rw [Store.find_setShard] at found
    split at found
    · rename_i together
      rw [AList.lookup_insert_ne different] at found
      rw [Store.find, together]
      exact evicts.old other current found
    · exact found
  · intro other current different found active
    rw [Store.find_setShard]
    split
    · rename_i together
      rw [AList.lookup_insert_ne different]
      rw [Store.find, together] at found
      exact evicts.kept other current found active
    · exact found

/-- A store after one key was written. If the key was there, the others are as they were. -/
structure Written (store next : Store) (key : GoString) (now : Time) (state : State) : Prop
    extends Updated store next key now state where
  others : store.find key ≠ none → ∀ other, other ≠ key → next.find other = store.find other

theorem Store.find_insert_ne (store : Store) (key : GoString) (state : State) {other : GoString}
    (different : other ≠ key) :
    (store.setShard (store.shardFor key) { store.shards (store.shardFor key) with
      states := (store.shards (store.shardFor key)).states.insert key state }).find other = store.find other := by
  rw [Store.find_setShard]
  split
  · rename_i together
    rw [AList.lookup_insert_ne different, Store.find, together]
  · rfl

/-- To find or make a state fails only for a new key, and writing one updates the store. -/
theorem Store.getOrCreate_cases (store : Store) (key : GoString) (request : Request) :
    (store.find key = none ∧ (store.shards (store.shardFor key)).getOrCreate key request = .error .unavailable) ∨
      ∃ states, (store.shards (store.shardFor key)).getOrCreate key request =
          .ok (states, adopted (store.find key) request) ∧
        ∀ state, Written store (store.setShard (store.shardFor key)
          { store.shards (store.shardFor key) with states := states.insert key state }) key request.now state := by
  unfold Shard.getOrCreate
  cases found : store.find key with
  | some current =>
    have here : (store.shards (store.shardFor key)).states.lookup key = some current := found
    rw [here]
    exact Or.inr ⟨_, rfl, fun state => ⟨store.updated_of_evicts .refl state,
      fun _ _ different => store.find_insert_ne key state different⟩⟩
  | none =>
    have here : (store.shards (store.shardFor key)).states.lookup key = none := found
    rw [here]
    rcases Shard.makeRoom_cases (store.shards (store.shardFor key)) request.now with full | ⟨states, room, evicts⟩
    · exact Or.inl ⟨rfl, by rw [full]⟩
    · exact Or.inr ⟨states, by rw [room]; rfl, fun state => ⟨store.updated_of_evicts evicts state,
        fun present => absurd found present⟩⟩

/-! ## Operations -/

/-- A store after a request was decided on its key. -/
structure Served (store next : Store) (request : Request) (state : State) : Prop where
  matched : ∀ current, store.find (stateKey request) = some current → current.algorithm = request.policy.algorithm
  updated : Updated store next (stateKey request) request.now state
  revision : state.revision = request.policy.revision
  algorithm : state.algorithm = request.policy.algorithm
  lastSeen : state.lastSeen = effectiveTime (store.find (stateKey request)) request.now

theorem Shard.mismatched_iff {target : Shard} :
    target.mismatched key algorithm = true ↔ ∃ current, target.states.lookup key = some current ∧
      current.algorithm ≠ algorithm := by
  unfold Shard.mismatched
  cases target.states.lookup key with
  | none => simp
  | some current => simp

/-- The effective time leaves room for a duration in the exact range. -/
def InRange (effective : Time) (micros : Nat) : Prop :=
  -9007199254740991 ≤ effective.unixMicro ∧ effective.unixMicro + micros ≤ 9007199254740991

instance (effective : Time) (micros : Nat) : Decidable (InRange effective micros) := inferInstanceAs (Decidable (_ ∧ _))

theorem validateStrictEffectiveRange_exact (effective : Time) {micros : Nat} (positive : 0 < micros)
    (small : micros ≤ 9223372036854775) :
    validateStrictEffectiveRange effective (.ofMicros micros) =
      pure (if InRange effective micros then none else some .overflow) :=
  Postgres.validateServerClockRange_exact effective positive small

theorem strictDecisionResult_cases (answer : Answer) (effective : Time) :
    strictDecisionResult answer effective = answer ∨ strictDecisionResult answer effective = ⟨{}, some .corrupt⟩ := by
  unfold strictDecisionResult validateStrictDecisionTime Postgres.validateStrictDecisionTime
  by_cases early : answer.decision.reset ≠ Time.zero ∧ answer.decision.reset.nanos < effective.nanos
  · exact Or.inr (by rw [if_pos early])
  · exact Or.inl (by rw [if_neg early])

/-- A state that is kept for the algorithm of a request, if there is one. -/
def Matched (store : Store) (request : Request) : Prop :=
  ∀ current, store.find (stateKey request) = some current → current.algorithm = request.policy.algorithm

theorem Store.matched_of_not_mismatched {store : Store} {request : Request}
    (same : (store.shards (store.shardFor (stateKey request))).mismatched
      (stateKey request) request.policy.algorithm ≠ true) :
    Matched store request := by
  intro current found
  by_contra other
  exact same (Shard.mismatched_iff.mpr ⟨current, found, other⟩)

/-- A request at the time it is decided at. -/
def decidedAt (store : Store) (request : Request) : Request :=
  { request with now := effectiveTime (store.find (stateKey request)) request.now }

/-- The state that a request is decided on. -/
def decidedOn (store : Store) (request : Request) : State :=
  { adopted (store.find (stateKey request)) request with
    lastSeen := effectiveTime (store.find (stateKey request)) request.now }

theorem decidedAt_limits {store : Store} {request : Request} (bounds : request.Bounds period)
    (range : InRange (decidedAt store request).now period) : Limits (decidedAt store request) period := by
  have timed : (decidedAt store request).Bounds period := bounds.retimed rfl rfl range.1 range.2
  exact limits_of_bounds timed

section
variable {store : Store} {request : Request}

/-- An admission fails before it gets to its algorithm, or writes what that leaves. -/
theorem Store.admitLocked_yields {Post : Outcome → Prop}
    (decides : Matched store request → (admitState (decidedOn store request) (decidedAt store request)).Yields Post) :
    ((store.shards (store.shardFor (stateKey request))).admitLocked (stateKey request) request).Yields fun result =>
      (store.setShard (store.shardFor (stateKey request)) result.1 = store ∧
        ∃ problem ∈ [Sentinel.corrupt, .unavailable], result.2 = ⟨{}, some problem⟩) ∨
        ∃ outcome, Post outcome ∧ Matched store request ∧
          Written store (store.setShard (store.shardFor (stateKey request)) result.1) (stateKey request) request.now
            outcome.state ∧
          result.2 = ⟨outcome.decision, outcome.error⟩ := by
  unfold Shard.admitLocked Shard.admitLockedBy
  by_cases mismatched : (store.shards (store.shardFor (stateKey request))).mismatched
    (stateKey request) request.policy.algorithm = true
  · rw [if_pos mismatched]
    exact yields_pure (Or.inl ⟨store.setShard_self _, .corrupt, by simp, rfl⟩)
  have matched := Store.matched_of_not_mismatched mismatched
  rw [if_neg mismatched]
  rcases store.getOrCreate_cases (stateKey request) request with ⟨-, full⟩ | ⟨states, created, updated⟩
  · rw [full]
    exact yields_pure (Or.inl ⟨store.setShard_self _, .unavailable, by simp, rfl⟩)
  rw [created]
  dsimp only
  rw [adopted_clamped]
  apply (decides matched).bind
  intro outcome holds
  exact yields_pure (Or.inr ⟨outcome, holds, matched, updated outcome.state, rfl⟩)

/-- The same with the lock held and after the strict checks. -/
theorem Store.admitHeld_decides {period : Nat} (bounds : request.Bounds period) {Post : Outcome → Prop}
    (decides : Matched store request → InRange (decidedAt store request).now period →
      (admitState (decidedOn store request) (decidedAt store request)).Yields Post) :
    (store.admitHeld request).Yields fun result =>
      (result.1 = store ∧ ∃ problem ∈ [Sentinel.corrupt, .overflow, .unavailable], result.2 = ⟨{}, some problem⟩) ∨
        ∃ outcome, Post outcome ∧ Matched store request ∧ InRange (decidedAt store request).now period ∧
          Written store result.1 (stateKey request) request.now outcome.state ∧
          result.2 = strictDecisionResult ⟨outcome.decision, outcome.error⟩ outcome.state.lastSeen := by
  unfold Store.admitHeld Store.admitHeldBy
  dsimp only
  split
  · exact yields_pure (Or.inl ⟨rfl, .corrupt, by simp, rfl⟩)
  rw [bounds.period_eq, validateStrictEffectiveRange_exact _ bounds.period_pos (bounds.period_le.trans (by decide)),
    pure_bind]
  by_cases range : InRange (effectiveTime (store.find (stateKey request)) request.now) period
  swap
  · rw [if_neg range]
    exact yields_pure (Or.inl ⟨rfl, .overflow, by simp, rfl⟩)
  rw [if_pos range]
  apply (Store.admitLocked_yields fun matched => decides matched range).bind
  rintro ⟨target, answer⟩ (⟨same, problem, listed, rfl⟩ | ⟨outcome, holds, matched, updated, rfl⟩)
  · rw [same]
    refine yields_pure (Or.inl ⟨rfl, problem, ?_, by simp [strictDecisionResult, validateStrictDecisionTime,
      Postgres.validateStrictDecisionTime]⟩)
    simp only [List.mem_cons, List.not_mem_nil, or_false] at listed ⊢
    tauto
  · refine yields_pure (Or.inr ⟨outcome, holds, matched, range, updated, ?_⟩)
    rw [show Store.find _ _ = _ from updated.here]

end

/-- What an admission with the lock held does. -/
theorem Store.admitHeld_yields {store : Store} {request : Request} {period : Nat} (bounds : request.Bounds period) :
    (store.admitHeld request).Yields fun result =>
      (result.1 = store ∧ ∃ problem ∈ [Sentinel.corrupt, .overflow, .unavailable], result.2 = ⟨{}, some problem⟩) ∨
        ∃ state, Served store result.1 request state ∧ state.leases = leasesOf (store.find (stateKey request)) ∧
          InRange state.lastSeen period ∧
          (Within (adopted (store.find (stateKey request)) request) request → Within state request ∧
            (Decided request result.2.decision result.2.error ∨ result.2 = ⟨{}, some .corrupt⟩)) := by
  obtain ⟨result, returns, cases⟩ := Store.admitHeld_decides bounds fun _ range =>
    admitState_yields (decidedAt_limits bounds range) (decidedOn store request)
  refine ⟨result, returns, cases.imp_right ?_⟩
  rintro ⟨outcome, admits, matched, range, written, answer⟩
  have charged := admits.charged
  refine ⟨outcome.state, ⟨matched, written.toUpdated, ?_, ?_, charged.lastSeen⟩, ?_, ?_, ?_⟩
  · exact charged.revision.trans (adopted_revision _ _)
  · exact charged.algorithm.trans (adopted_algorithm matched)
  · exact charged.leases.trans (adopted_leases _ _)
  · rw [charged.lastSeen]
    exact range
  · intro within
    refine ⟨admits.within within, ?_⟩
    rw [answer]
    rcases strictDecisionResult_cases ⟨outcome.decision, outcome.error⟩ outcome.state.lastSeen with same | corrupt
    · rw [same]
      exact Or.inl (admits.decided within)
    · exact Or.inr corrupt

/-- A lease request at another time. -/
def retimed (request : LeaseRequest) (now : Time) : LeaseRequest :=
  { request with request := { request.request with now := now } }

section
variable {store : Store} {request : LeaseRequest}

/-- An acquisition fails before it gets to the leases of its key, or writes what it leaves. -/
theorem Store.acquireLocked_yields {Post : Leased → Prop}
    (decides : Matched store request.request →
      (acquire (adopted (store.find (stateKey request.request)) request.request)
        (retimed request (decidedAt store request.request).now)).Yields Post) :
    ((store.shards (store.shardFor (stateKey request.request))).acquireLocked (stateKey request.request) request).Yields
      fun result =>
      (store.setShard (store.shardFor (stateKey request.request)) result.1 = store ∧
        ∃ problem ∈ [Sentinel.corrupt, .unavailable], result.2 = { error := some problem }) ∨
        ∃ leased, Post leased ∧ Matched store request.request ∧
          Written store (store.setShard (store.shardFor (stateKey request.request)) result.1) (stateKey request.request)
            request.request.now leased.state ∧
          result.2 = ⟨leased.lease, leased.decision, leased.error⟩ := by
  unfold Shard.acquireLocked
  by_cases mismatched : (store.shards (store.shardFor (stateKey request.request))).mismatched
      (stateKey request.request) request.request.policy.algorithm = true
  · rw [if_pos mismatched]
    exact yields_pure (Or.inl ⟨store.setShard_self _, .corrupt, by simp, rfl⟩)
  have matched := Store.matched_of_not_mismatched mismatched
  rw [if_neg mismatched]
  rcases store.getOrCreate_cases (stateKey request.request) request.request with ⟨-, full⟩ | ⟨states, created, written⟩
  · rw [full]
    exact yields_pure (Or.inl ⟨store.setShard_self _, .unavailable, by simp, rfl⟩)
  rw [created]
  dsimp only
  rw [adopted_clamped]
  apply (decides matched).bind
  intro leased holds
  exact yields_pure (Or.inr ⟨leased, holds, matched, written leased.state, rfl⟩)

/-- The same with the lock held and after the strict checks. -/
theorem Store.acquireHeld_decides {term : Nat} (bounds : request.Bounds term) {Post : Leased → Prop}
    (decides : Matched store request.request → InRange (decidedAt store request.request).now term →
      (acquire (adopted (store.find (stateKey request.request)) request.request)
        (retimed request (decidedAt store request.request).now)).Yields Post) :
    (store.acquireHeld request).Yields fun result =>
      (result.1 = store ∧ ∃ problem ∈ [Sentinel.corrupt, .overflow, .unavailable],
        result.2 = { error := some problem }) ∨
        ∃ leased, Post leased ∧ Matched store request.request ∧
          Written store result.1 (stateKey request.request) request.request.now leased.state ∧
          result.2 = strictLeaseResult ⟨leased.lease, leased.decision, leased.error⟩ leased.state.lastSeen := by
  unfold Store.acquireHeld
  dsimp only
  rw [bounds.lease_eq, validateStrictEffectiveRange_exact _ bounds.lease_pos bounds.lease_le, pure_bind]
  by_cases range : InRange (effectiveTime (store.find (stateKey request.request)) request.request.now) term
  swap
  · rw [if_neg range]
    exact yields_pure (Or.inl ⟨rfl, .overflow, by simp, rfl⟩)
  rw [if_pos range]
  apply (Store.acquireLocked_yields fun matched => decides matched range).bind
  rintro ⟨target, answer⟩ (⟨same, problem, listed, rfl⟩ | ⟨leased, holds, matched, written, rfl⟩)
  · rw [same]
    refine yields_pure (Or.inl ⟨rfl, problem, ?_, by simp [strictLeaseResult, validateStrictLeaseTime,
      Postgres.validateStrictLeaseTime, Postgres.validateStrictDecisionTime]⟩)
    simp only [List.mem_cons, List.not_mem_nil, or_false] at listed ⊢
    tauto
  · refine yields_pure (Or.inr ⟨leased, holds, matched, written, ?_⟩)
    rw [show Store.find _ _ = _ from written.here]

end

/-- What an acquisition with the lock held does. -/
inductive Acquires (store : Store) (request : LeaseRequest) (term : Nat) : Store → LeaseAnswer → Prop where
  | overflow (outside : ¬ InRange (effectiveTime (store.find (stateKey request.request)) request.request.now) term) :
    Acquires store request term store { error := some .overflow }
  | corrupt (found : store.find (stateKey request.request) = some current)
    (other : current.algorithm ≠ request.request.policy.algorithm) :
    Acquires store request term store { error := some .corrupt }
  | unavailable (missing : store.find (stateKey request.request) = none) :
    Acquires store request term store { error := some .unavailable }
  | decided (range : InRange (effectiveTime (store.find (stateKey request.request)) request.request.now) term)
    (served : Served store next request.request state)
    (verdict : Verdict (leasesOf (store.find (stateKey request.request)))
      (retimed request (effectiveTime (store.find (stateKey request.request)) request.request.now))
        state.leases answer) :
    Acquires store request term next answer

theorem Store.acquireHeld_acquires {store : Store} {request : LeaseRequest} {term : Nat} (bounds : request.Bounds term)
    (bounded : LeasesBounded (leasesOf (store.find (stateKey request.request)))) :
    ∃ next answer, store.acquireHeld request = pure (next, answer) ∧ Acquires store request term next answer := by
  unfold Store.acquireHeld
  dsimp only
  rw [bounds.lease_eq, validateStrictEffectiveRange_exact _ bounds.lease_pos bounds.lease_le, pure_bind]
  by_cases range : InRange (effectiveTime (store.find (stateKey request.request)) request.request.now) term
  swap
  · rw [if_neg range]
    exact ⟨_, _, rfl, .overflow range⟩
  rw [if_pos range]
  have undated : ∀ problem effective, strictLeaseResult { error := some problem } effective =
    { error := some problem } := by
    intro problem effective
    simp [strictLeaseResult, validateStrictLeaseTime, Postgres.validateStrictLeaseTime,
      Postgres.validateStrictDecisionTime]
  unfold Shard.acquireLocked
  by_cases mismatched : (store.shards (store.shardFor (stateKey request.request))).mismatched
      (stateKey request.request) request.request.policy.algorithm = true
  · obtain ⟨current, found, other⟩ := Shard.mismatched_iff.mp mismatched
    rw [if_pos mismatched, pure_bind]
    rw [Store.setShard_self, undated]
    exact ⟨_, _, rfl, .corrupt found other⟩
  have matched := Store.matched_of_not_mismatched mismatched
  rw [if_neg mismatched]
  rcases store.getOrCreate_cases (stateKey request.request) request.request with ⟨missing, full⟩ | ⟨states,
    created, updated⟩
  · rw [full, pure_bind]
    rw [Store.setShard_self, undated]
    exact ⟨_, _, rfl, .unavailable missing⟩
  rw [created]
  dsimp only
  rw [adopted_clamped, bind_assoc]
  have timed :
    (retimed request (effectiveTime (store.find (stateKey request.request)) request.request.now)).Bounds term :=
    bounds.later rfl rfl range.1
  obtain ⟨leases, answer, verdict, exact⟩ := acquire_verdict timed
    (show LeasesBounded (adopted (store.find (stateKey request.request)) request.request).leases by
      rw [adopted_leases]
      exact bounded)
  have timely : validateStrictLeaseTime answer.lease answer.decision
      (effectiveTime (store.find (stateKey request.request)) request.request.now) = none := verdict.timely timed
  rw [adopted_leases] at verdict
  unfold retimed at exact
  rw [exact, pure_bind, pure_bind]
  have written := (updated
    { adopted (store.find (stateKey request.request)) request.request with
      lastSeen := effectiveTime (store.find (stateKey request.request)) request.request.now
      leases := leases }).toUpdated
  refine ⟨_, answer, ?_,
    .decided range ⟨matched, written, adopted_revision _ _, adopted_algorithm matched, rfl⟩ verdict⟩
  unfold strictLeaseResult
  rw [show Store.find _ _ = _ from written.here]
  rw [timely]

/-- What a release does. -/
inductive Releases (store : Store) (lease : Lease) : Store → Option Sentinel → Prop where
  | missing (absent : (leasesOf (store.find (Postgres.bucketName lease.policyID lease.key))).lookup lease.id = none) :
    Releases store lease store (some .leaseNotFound)
  | foreign (found : (leasesOf (store.find (Postgres.bucketName lease.policyID lease.key))).lookup lease.id =
      some existing)
    (other : existing ≠ ⟨lease.cost, lease.expiresAt⟩) :
    Releases store lease store (some .leaseNotOwned)
  | released (found : store.find (Postgres.bucketName lease.policyID lease.key) = some current)
    (held : current.leases.lookup lease.id = some ⟨lease.cost, lease.expiresAt⟩)
    (updated : ∀ now, Updated store next (Postgres.bucketName lease.policyID lease.key) now
      { current with leases := current.leases.erase lease.id }) :
    Releases store lease next none

/-- What a release with the lock held does. -/
theorem Store.releaseHeld_releases (store : Store) (lease : Lease) :
    let index := store.shardFor (Postgres.bucketName lease.policyID lease.key)
    Releases store lease (store.setShard index ((store.shards index).releaseLocked lease).1)
      ((store.shards index).releaseLocked lease).2 := by
  intro index
  unfold Shard.releaseLocked
  dsimp only
  cases found : store.find (Postgres.bucketName lease.policyID lease.key) with
  | none =>
    rw [show AList.lookup _ (store.shards index).states = _ from found]
    rw [Store.setShard_self]
    exact .missing (by rw [found]; rfl)
  | some current =>
    rw [show AList.lookup _ (store.shards index).states = _ from found]
    dsimp only
    cases held : current.leases.lookup lease.id with
    | none =>
      rw [Store.setShard_self]
      exact .missing (by rw [found]; exact held)
    | some existing =>
      dsimp only
      by_cases other : existing.cost ≠ lease.cost ∨ existing.expiresAt ≠ lease.expiresAt
      · rw [if_pos other]
        rw [Store.setShard_self]
        refine .foreign (by rw [found]; exact held) ?_
        rintro rfl
        simp at other
      · rw [if_neg other]
        simp only [not_or, not_not] at other
        obtain ⟨cost, expiresAt⟩ := existing
        obtain ⟨rfl, rfl⟩ := other
        exact .released found held fun now => store.updated_of_evicts .refl _

/-! ## Sound stores -/

/-- What holds of every state that is stored. -/
structure StateSound (state : State) : Prop where
  bounded : LeasesBounded state.leases
  concurrent : state.leases.entries ≠ [] → state.algorithm = .concurrency
  whole : state.lastSeen.nanos % 1000 = 0
  early : -9007199254740991 ≤ state.lastSeen.unixMicro

def Store.Sound (store : Store) : Prop := ∀ key state, store.find key = some state → StateSound state

theorem Store.Sound.leases {store : Store} (sound : store.Sound) (key : GoString) :
    LeasesBounded (leasesOf (store.find key)) := by
  cases found : store.find key with
  | none => exact .empty
  | some state => exact (sound key state found).bounded

theorem Updated.sound {store next : Store} (updated : Updated store next key now state) (sound : store.Sound)
    (here : StateSound state) : next.Sound := by
  intro other current found
  by_cases same : other = key
  · subst same
    cases updated.here.symm.trans found
    exact here
  · exact sound other current (updated.old other current same found)

theorem effectiveTime_whole {store : Store} (sound : store.Sound) {now : Time} (whole : now.nanos % 1000 = 0)
    (key : GoString) : (effectiveTime (store.find key) now).nanos % 1000 = 0 := by
  cases found : store.find key with
  | none => exact whole
  | some state =>
    unfold effectiveTime clampLastSeen
    dsimp only
    split
    · exact (sound key state found).whole
    · exact whole

theorem Served.sound {store next : Store} {request : Request} (served : Served store next request state)
    (sound : store.Sound) (whole : request.now.nanos % 1000 = 0) (range : InRange state.lastSeen micros)
    (bounded : LeasesBounded state.leases) (concurrent : state.leases.entries ≠ [] → state.algorithm = .concurrency) :
    next.Sound := by
  refine served.updated.sound sound ⟨bounded, concurrent, ?_, range.1⟩
  rw [served.lastSeen]
  exact effectiveTime_whole sound whole _

theorem Acquires.sound {store next : Store} {request : LeaseRequest}
    (acquires : Acquires store request term next answer)
    (bounds : request.Bounds term) (concurrent : request.request.policy.algorithm = .concurrency)
    (whole : request.request.now.nanos % 1000 = 0) (sound : store.Sound) : next.Sound := by
  cases acquires with
  | overflow | corrupt | unavailable => exact sound
  | decided range served verdict =>
    have timed :
      (retimed request (effectiveTime (store.find (stateKey request.request)) request.request.now)).Bounds term :=
      bounds.later rfl rfl range.1
    refine served.sound sound whole (by rw [served.lastSeen]; exact range) ?_ fun _ => served.algorithm.trans concurrent
    exact verdict.bounded timed (sound.leases _) (effectiveTime_whole sound whole _)

theorem Releases.sound {store next : Store} (releases : Releases store lease next problem) (sound : store.Sound) :
    next.Sound := by
  cases releases with
  | missing | foreign => exact sound
  | released found held updated =>
    have here := sound _ _ found
    refine (updated Time.zero).sound sound ⟨here.bounded.erase _, fun some => ?_, here.whole, here.early⟩
    refine here.concurrent fun none => some ?_
    rw [List.eq_nil_iff_forall_not_mem] at none ⊢
    exact fun entry member => none entry (LeaseTable.mem_of_erase member)

/-! ## Sweeps -/

/-- What a sweep leaves of a key. -/
theorem Store.find_sweep (store : Store) (now : Time) (idleFor : Duration) (key : GoString) :
    (store.sweep now idleFor).1.find key = store.find key ∨
      (store.sweep now idleFor).1.find key =
        ((store.find key).filter fun current => !idle now idleFor current).map (dropExpired now) := by
  unfold Store.sweep
  split
  · exact Or.inl rfl
  split
  · exact Or.inl rfl
  split
  · exact Or.inl rfl
  right
  change (LeaseTable.adjust _ (LeaseTable.keep _ _)).lookup key = _
  rw [LeaseTable.lookup_adjust, LeaseTable.lookup_keep_eq_filter]
  rfl

/-- Every key that a sweep leaves was there, with its leases or those that are active. -/
theorem Store.sweep_old {store : Store} (found : (store.sweep now idleFor).1.find key = some state) :
    ∃ current, store.find key = some current ∧ (state = current ∨ state = dropExpired now current) := by
  rcases store.find_sweep now idleFor key with same | swept
  · exact ⟨state, same.symm.trans found, Or.inl rfl⟩
  · rw [swept, Option.map_eq_some_iff] at found
    obtain ⟨current, left, rfl⟩ := found
    exact ⟨current, (Option.filter_eq_some_iff.mp left).1, Or.inr rfl⟩

theorem Store.Sound.sweep {store : Store} (sound : store.Sound) (now : Time) (idleFor : Duration) :
    (store.sweep now idleFor).1.Sound := by
  intro key state found
  obtain ⟨current, present, rfl | rfl⟩ := Store.sweep_old found
  · exact sound key state present
  · have here := sound key current present
    refine ⟨here.bounded.active now, fun some => here.concurrent fun none => some ?_, here.whole, here.early⟩
    change current.leases.entries.filter _ = []
    rw [none]
    rfl

/-! ## Calls -/

/-- A call gets to its key. -/
structure Clear (store : Store) (waits : Waits) : Prop where
  entry : strictContext waits.entry = none
  opened : store.closed = false
  waited : waits.interrupted = none

/-- Why a call does not get to its key. -/
inductive Stopped (store : Store) (waits : Waits) : GoError → Prop where
  | entry (stops : strictContext waits.entry = some problem) : Stopped store waits problem
  | closed (closed : store.closed = true) : Stopped store waits (.sentinel .unavailable)
  | waited (stops : waits.interrupted = some problem) : Stopped store waits problem

theorem Stopped.not_clear (stopped : Stopped store waits problem) : ¬ Clear store waits := by
  intro clear
  cases stopped with
  | entry stops => cases stops.symm.trans clear.entry
  | closed closed => cases closed.symm.trans clear.opened
  | waited stops => cases stops.symm.trans clear.waited

/-- `request.Now.Truncate(time.Microsecond)`. -/
def truncated (request : Request) : Request := { request with now := truncate request.now }

theorem truncate_whole (now : Time) : (truncate now).nanos % 1000 = 0 := by
  simp only [truncate, Time.ofUnixMicro]
  omega

theorem truncate_le (now : Time) : (truncate now).nanos ≤ now.nanos := Time.ofUnixMicro_unixMicro_le now

@[simp] theorem unixMicro_truncate (now : Time) : (truncate now).unixMicro = now.unixMicro :=
  Time.unixMicro_ofUnixMicro _

/-- What an admission does. -/
inductive AdmitCase (store : Store) (waits : Waits) (request : Request) : Machine (Store × Admitted) → Prop where
  | invalid (refused : request.validate = .error problem) :
    AdmitCase store waits request (pure (store, ⟨{}, some (.wrapped problem)⟩))
  | stopped (valid : request.validate = .ok ()) (stopped : Stopped store waits problem) :
    AdmitCase store waits request (pure (store, ⟨{}, some problem⟩))
  | unsupported (valid : request.validate = .ok ()) (concurrent : request.policy.algorithm = .concurrency) :
    AdmitCase store waits request (pure (store, ⟨{}, some (.sentinel .unsupported)⟩))
  | held (valid : request.validate = .ok ()) (clear : Clear store waits)
    (rate : request.policy.algorithm ≠ .concurrency) :
    AdmitCase store waits request (do
      let (store, answer) ← store.admitHeld (truncated request)
      pure (store, ⟨answer.decision, answer.error.map .sentinel⟩))

theorem Store.admitStrict_case (store : Store) (waits : Waits) (request : Request) :
    AdmitCase store waits request (store.admitStrict waits request) := by
  unfold Store.admitStrict Store.admitStrictBy
  split
  · exact .invalid ‹_›
  · exact .stopped ‹_› (.entry ‹_›)
  · rename_i valid entry
    by_cases closed : store.closed = true
    · rw [if_pos closed]
      exact .stopped valid (.closed closed)
    rw [if_neg closed]
    by_cases concurrent : request.policy.algorithm = .concurrency
    · rw [if_pos concurrent]
      exact .unsupported valid concurrent
    rw [if_neg concurrent]
    split
    · exact .stopped valid (.waited ‹_›)
    · exact .held valid ⟨entry, Bool.eq_false_iff.mpr closed, ‹_›⟩ concurrent

/-- An admission of a valid request to a sound store fails, and leaves the store as it
was, or is decided on its key. -/
theorem Store.admitStrict_served {store : Store} (sound : store.Sound) (waits : Waits) {request : Request}
    (built : request.policy.Built) (valid : request.validate = .ok ()) :
    (store.admitStrict waits request).Yields fun result =>
      (result.1 = store ∧ ∃ problem, result.2 = ⟨{}, some problem⟩ ∧ (Stopped store waits problem ∨
        ∃ category ∈ [Sentinel.unsupported, .corrupt, .overflow, .unavailable], problem = .sentinel category)) ∨
        ∃ state, Served store result.1 (truncated request) state ∧ result.1.Sound ∧
          state.leases = leasesOf (store.find (stateKey request)) ∧
          (Within (adopted (store.find (stateKey request)) (truncated request)) request → Within state request ∧
            ((∃ error, Decided request result.2.decision error ∧ result.2.error = error.map .sentinel) ∨
              result.2 = ⟨{}, some (.sentinel .corrupt)⟩)) := by
  have case := store.admitStrict_case waits request
  generalize store.admitStrict waits request = run at case ⊢
  cases case with
  | invalid refused => cases refused.symm.trans valid
  | stopped _ stopped => exact yields_pure (Or.inl ⟨rfl, _, rfl, Or.inl stopped⟩)
  | unsupported => exact yields_pure (Or.inl ⟨rfl, _, rfl, Or.inr ⟨.unsupported, by simp, rfl⟩⟩)
  | held _ clear rate =>
    obtain ⟨period, bounds⟩ := (⟨request, built, valid⟩ : ValidRequest).bounds (built.sound.known.resolve_right rate)
    have timed : (truncated request).Bounds period :=
      bounds.retimed rfl rfl (by simpa [truncated] using bounds.not_before) (by simpa [truncated] using bounds.room)
    apply (Store.admitHeld_yields timed).bind
    rintro ⟨next, answer⟩ (⟨same, problem, listed, rfl⟩ | ⟨state, served, leases, range, decided⟩)
    · exact yields_pure (Or.inl ⟨same, _, rfl, Or.inr ⟨problem, List.mem_cons_of_mem _ listed, rfl⟩⟩)
    · refine yields_pure (Or.inr ⟨state, served, ?_, leases, fun within => ?_⟩)
      · refine served.sound sound (truncate_whole _) range (leases ▸ sound.leases _) ?_
        rw [leases]
        intro some
        cases found : store.find (stateKey (truncated request)) with
        | none =>
          rw [found] at some
          exact absurd rfl some
        | some current =>
          rw [found] at some
          exact served.algorithm.trans ((served.matched current found).symm.trans ((sound _ _ found).concurrent some))
      · obtain ⟨kept, complete | corrupt⟩ := decided within
        · exact ⟨kept, Or.inl ⟨_, complete, rfl⟩⟩
        · cases corrupt
          exact ⟨kept, Or.inr rfl⟩

/-- What an acquisition does. -/
inductive AcquireCase (store : Store) (waits : Waits) (request : LeaseRequest) : Machine (Store × Acquired) → Prop where
  | invalid (refused : request.validate = .error problem) :
    AcquireCase store waits request (pure (store, { error := some (.wrapped problem) }))
  | stopped (valid : request.validate = .ok ()) (stopped : Stopped store waits problem) :
    AcquireCase store waits request (pure (store, { error := some problem }))
  | held (valid : request.validate = .ok ()) (clear : Clear store waits) :
    AcquireCase store waits request (do
      let (store, answer) ← store.acquireHeld (retimed request (truncate request.request.now))
      pure (store, ⟨answer.lease, answer.decision, answer.error.map .sentinel⟩))

theorem Store.acquireStrict_case (store : Store) (waits : Waits) (request : LeaseRequest) :
    AcquireCase store waits request (store.acquireStrict waits request) := by
  unfold Store.acquireStrict
  split
  · exact .invalid ‹_›
  · exact .stopped ‹_› (.entry ‹_›)
  · rename_i valid entry
    by_cases closed : store.closed = true
    · rw [if_pos closed]
      exact .stopped valid (.closed closed)
    rw [if_neg closed]
    split
    · exact .stopped valid (.waited ‹_›)
    · exact .held valid ⟨entry, Bool.eq_false_iff.mpr closed, ‹_›⟩

/-- An acquisition of a sound store fails before it gets to its key, or acquires there. -/
theorem Store.acquireStrict_acquires {store : Store} (sound : store.Sound) (waits : Waits) {request : LeaseRequest}
    (built : request.request.policy.Built) :
    (¬ (request.validate = .ok () ∧ Clear store waits) ∧
        ∃ problem, store.acquireStrict waits request = pure (store, { error := some problem })) ∨
      ∃ term next answer, request.Bounds term ∧ request.request.now.unixMicro + term ≤ 9007199254740991 ∧
        request.request.policy.algorithm = .concurrency ∧
        Acquires store (retimed request (truncate request.request.now)) term next answer ∧
        store.acquireStrict waits request =
          pure (next, ⟨answer.lease, answer.decision, answer.error.map .sentinel⟩) := by
  have case := store.acquireStrict_case waits request
  generalize store.acquireStrict waits request = run at case ⊢
  cases case with
  | invalid refused =>
    refine Or.inl ⟨fun both => ?_, _, rfl⟩
    cases refused.symm.trans both.1
  | stopped _ stopped => exact Or.inl ⟨fun both => stopped.not_clear both.2, _, rfl⟩
  | held valid clear =>
    obtain ⟨term, bounds, room⟩ := (⟨request, built, valid⟩ : ValidLeaseRequest).bounds
    have timed : (retimed request (truncate request.request.now)).Bounds term :=
      bounds.later rfl rfl (by simpa [retimed] using bounds.not_before)
    obtain ⟨next, answer, exact, acquires⟩ := Store.acquireHeld_acquires timed (sound.leases _)
    refine Or.inr ⟨term, next, answer, bounds, room, (⟨request, built, valid⟩ : ValidLeaseRequest).checked.2.1,
      acquires, ?_⟩
    rw [exact, pure_bind]

/-- What a release does. -/
inductive ReleaseCase (store : Store) (waits : Waits) (lease : Lease) : Store × Option GoError → Prop where
  | invalid (incomplete : lease.id = [] ∨ lease.policyID = [] ∨ lease.key.value = [] ∨ lease.cost = 0 ∨
      lease.expiresAt = Time.zero) :
    ReleaseCase store waits lease (store, some (.sentinel .invalidRequest))
  | stopped (stopped : Stopped store waits problem) : ReleaseCase store waits lease (store, some problem)
  | held (clear : Clear store waits) (releases : Releases store lease next problem) :
    ReleaseCase store waits lease (next, problem.map .sentinel)

theorem Store.releaseStrict_case (store : Store) (waits : Waits) (lease : Lease) :
    ReleaseCase store waits lease (store.releaseStrict waits lease) := by
  unfold Store.releaseStrict
  split
  · exact .invalid ‹_›
  split
  · exact .stopped (.entry ‹_›)
  rename_i entry
  by_cases closed : store.closed = true
  · rw [if_pos closed]
    exact .stopped (.closed closed)
  rw [if_neg closed]
  split
  · exact .stopped (.waited ‹_›)
  · exact .held ⟨entry, Bool.eq_false_iff.mpr closed, ‹_›⟩ (store.releaseHeld_releases lease)

/-- A call on a store. The policies of its requests were built. -/
inductive Call where
  | admitStrict (waits : Waits) (request : Request) (built : request.policy.Built)
  | acquireStrict (waits : Waits) (request : LeaseRequest) (built : request.request.policy.Built)
  | releaseStrict (waits : Waits) (lease : Lease)
  | sweep (now : Time) (idleFor : Duration)
  | close

inductive Reply where
  | admitted (result : Admitted)
  | acquired (result : Acquired)
  | released (error : Option GoError)
  | swept (removed : Nat) (error : Option Sentinel)
  | closed
  deriving DecidableEq

/-- One call on a store. -/
def step (store : Store) : Call → Machine (Store × Reply)
  | .admitStrict waits request _ => do
    let (store, result) ← store.admitStrict waits request
    pure (store, .admitted result)
  | .acquireStrict waits request _ => do
    let (store, result) ← store.acquireStrict waits request
    pure (store, .acquired result)
  | .releaseStrict waits lease =>
    let (store, error) := store.releaseStrict waits lease
    pure (store, .released error)
  | .sweep now idleFor =>
    let (store, removed, error) := store.sweep now idleFor
    pure (store, .swept removed error)
  | .close => pure (store.close, .closed)

end RateLimit.Memory
