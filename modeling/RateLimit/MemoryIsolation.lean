import RateLimit.Keys
import RateLimit.MemoryEviction

/-! Keys of a memory store do not interfere. While no shard is full, an operation does to
its key what it does to a key that is alone in the world: `stepAlone` knows no shards and no
other keys. So the results for one pair of a policy ID and a key depend on the operations on
this pair only, and not on how the store is split. -/
namespace RateLimit.Memory

open Machine

/-! ## A key alone -/

/-- A state is kept for another algorithm. -/
def foreignState (found : Option State) (algorithm : Algorithm) : Bool :=
  match found with
  | some existing => decide (existing.algorithm ≠ algorithm)
  | none => false

/-- An admission to one key: the state to write, if any, and the answer. -/
def admitAlone (found : Option State) (request : Request) : Machine (Option State × Answer) :=
  if periodMismatch found request.policy then pure (none, ⟨{}, some .corrupt⟩)
  else do
    let effective := effectiveTime found request.now
    match ← validateStrictEffectiveRange effective request.policy.period with
    | some problem => pure (none, ⟨{}, some problem⟩)
    | none =>
      if foreignState found request.policy.algorithm then pure (none, ⟨{}, some .corrupt⟩)
      else do
        let outcome ← admitState { adopted found request with lastSeen := effective } { request with now := effective }
        pure (some outcome.state, strictDecisionResult ⟨outcome.decision, outcome.error⟩ outcome.state.lastSeen)

/-- An acquisition from one key. -/
def acquireAlone (found : Option State) (request : LeaseRequest) : Machine (Option State × LeaseAnswer) := do
  let effective := effectiveTime found request.request.now
  match ← validateStrictEffectiveRange effective request.request.policy.lease with
  | some problem => pure (none, { error := some problem })
  | none =>
    if foreignState found request.request.policy.algorithm then pure (none, { error := some .corrupt })
    else do
      let leased ← acquire (adopted found request.request) (retimed request effective)
      pure (some leased.state, strictLeaseResult ⟨leased.lease, leased.decision, leased.error⟩ leased.state.lastSeen)

/-- A release to one key. -/
def releaseAlone (found : Option State) (lease : Lease) : Option State × Option Sentinel :=
  match found with
  | none => (none, some .leaseNotFound)
  | some current =>
    match current.leases.lookup lease.id with
    | none => (none, some .leaseNotFound)
    | some existing =>
      if existing.cost ≠ lease.cost ∨ existing.expiresAt ≠ lease.expiresAt then (none, some .leaseNotOwned)
      else (some { current with leases := current.leases.erase lease.id }, none)

/-- `AdmitStrict` on one key of a store that is open. -/
def admitStrictAlone (found : Option State) (waits : Waits) (request : Request) : Machine (Option State × Admitted) :=
  match request.validate, strictContext waits.entry with
  | .error problem, _ => pure (none, ⟨{}, some (.wrapped problem)⟩)
  | .ok (), some problem => pure (none, ⟨{}, some problem⟩)
  | .ok (), none =>
    if request.policy.algorithm = .concurrency then pure (none, ⟨{}, some (.sentinel .unsupported)⟩)
    else match waits.interrupted with
      | some problem => pure (none, ⟨{}, some problem⟩)
      | none => do
        let (written, answer) ← admitAlone found (truncated request)
        pure (written, ⟨answer.decision, answer.error.map .sentinel⟩)

/-- `AcquireStrict` on one key of a store that is open. -/
def acquireStrictAlone (found : Option State) (waits : Waits) (request : LeaseRequest) :
    Machine (Option State × Acquired) :=
  match request.validate, strictContext waits.entry with
  | .error problem, _ => pure (none, { error := some (.wrapped problem) })
  | .ok (), some problem => pure (none, { error := some problem })
  | .ok (), none =>
    match waits.interrupted with
    | some problem => pure (none, { error := some problem })
    | none => do
      let (written, answer) ← acquireAlone found (retimed request (truncate request.request.now))
      pure (written, ⟨answer.lease, answer.decision, answer.error.map .sentinel⟩)

/-- `ReleaseStrict` on one key of a store that is open. -/
def releaseStrictAlone (found : Option State) (waits : Waits) (lease : Lease) : Option State × Option GoError :=
  if lease.id = [] ∨ lease.policyID = [] ∨ lease.key.value = [] ∨ lease.cost = 0 ∨ lease.expiresAt = Time.zero then
    (none, some (.sentinel .invalidRequest))
  else match strictContext waits.entry with
    | some problem => (none, some problem)
    | none =>
      match waits.interrupted with
      | some problem => (none, some problem)
      | none =>
        let (written, problem) := releaseAlone found lease
        (written, problem.map .sentinel)

/-- A call on one key of a store that is open; a sweep and a closing are not on one key. -/
def stepAlone (found : Option State) : Call → Machine (Option State × Reply)
  | .admitStrict waits request _ => do
    let (written, result) ← admitStrictAlone found waits request
    pure (written, .admitted result)
  | .acquireStrict waits request _ => do
    let (written, result) ← acquireStrictAlone found waits request
    pure (written, .acquired result)
  | .releaseStrict waits lease =>
    let (written, error) := releaseStrictAlone found waits lease
    pure (written, .released error)
  | .sweep _ _ => pure (none, .swept 0 none)
  | .close => pure (none, .closed)

/-- A state written back to the shard of its key. -/
def Store.write (store : Store) (key : GoString) : Option State → Store
  | none => store
  | some state => store.setShard (store.shardFor key)
      { store.shards (store.shardFor key) with states := (store.shards (store.shardFor key)).states.insert key state }

theorem Store.find_written (store : Store) (key : GoString) (state : State) :
    (store.setShard (store.shardFor key)
      { store.shards (store.shardFor key) with
        states := (store.shards (store.shardFor key)).states.insert key state }).find key = some state := by
  rw [Store.find_setShard, if_pos rfl, AList.lookup_insert]

theorem Store.find_write (store : Store) (key other : GoString) (written : Option State) :
    (store.write key written).find other = if other = key then written.or (store.find key) else store.find other := by
  cases written with
  | none =>
    split
    · rename_i same
      rw [same]
      rfl
    · rfl
  | some state =>
    change (store.setShard _ _).find other = _
    rw [Store.find_setShard]
    by_cases same : other = key
    · subst same
      rw [if_pos rfl, if_pos rfl, AList.lookup_insert]
      rfl
    · rw [if_neg same, AList.lookup_insert_ne same]
      split
      · rename_i together
        rw [Store.find, together]
      · rfl

@[simp] theorem Store.write_closed (store : Store) (key : GoString) (written : Option State) :
    (store.write key written).closed = store.closed := by
  cases written <;> rfl

/-! ## A key among others -/

/-- There is room for a key, or it is there. -/
def Store.Room (store : Store) (key : GoString) : Prop :=
  store.find key = none → (store.shards (store.shardFor key)).states.entries.length ≠
    (store.shards (store.shardFor key)).maxKeys

theorem Store.mismatched_eq (store : Store) (key : GoString) (algorithm : Algorithm) :
    (store.shards (store.shardFor key)).mismatched key algorithm = foreignState (store.find key) algorithm := rfl

section
variable {store : Store} {key : GoString} (room : store.Room key)
include room

theorem Store.Room.getOrCreate (request : Request) :
    (store.shards (store.shardFor key)).getOrCreate key request =
      .ok ((store.shards (store.shardFor key)).states, adopted (store.find key) request) := by
  unfold Shard.getOrCreate
  cases found : store.find key with
  | some current =>
    rw [show AList.lookup key (store.shards (store.shardFor key)).states = some current from found]
    rfl
  | none =>
    rw [show AList.lookup key (store.shards (store.shardFor key)).states = none from found]
    unfold Shard.makeRoom
    rw [if_neg (room found)]
    rfl

end

theorem admitHeld_alone {store : Store} {request : Request} (room : store.Room (stateKey request)) :
    store.admitHeld request = admitAlone (store.find (stateKey request)) request >>= fun result =>
      pure (store.write (stateKey request) result.1, result.2) := by
  unfold Store.admitHeld Store.admitHeldBy admitAlone
  dsimp only
  split
  · rw [pure_bind]
    rfl
  rw [bind_assoc]
  congr 1
  funext problem
  cases problem with
  | some problem =>
    rw [pure_bind]
    rfl
  | none =>
    dsimp only
    unfold Shard.admitLockedBy
    rw [Store.mismatched_eq]
    split
    · rw [pure_bind, pure_bind, Store.setShard_self]
      simp [Store.write, strictDecisionResult, validateStrictDecisionTime, Postgres.validateStrictDecisionTime]
    · rw [room.getOrCreate]
      dsimp only
      rw [adopted_clamped, bind_assoc, bind_assoc]
      congr 1
      funext outcome
      rw [pure_bind, pure_bind]
      rw [Store.find_written]
      rfl

theorem acquireHeld_alone {store : Store} {request : LeaseRequest} (room : store.Room (stateKey request.request)) :
    store.acquireHeld request = acquireAlone (store.find (stateKey request.request)) request >>= fun result =>
      pure (store.write (stateKey request.request) result.1, result.2) := by
  unfold Store.acquireHeld acquireAlone
  dsimp only
  rw [bind_assoc]
  congr 1
  funext problem
  cases problem with
  | some problem =>
    rw [pure_bind]
    rfl
  | none =>
    dsimp only
    unfold Shard.acquireLocked
    rw [Store.mismatched_eq]
    split
    · rw [pure_bind, pure_bind, Store.setShard_self]
      simp [Store.write, strictLeaseResult, validateStrictLeaseTime, Postgres.validateStrictLeaseTime,
        Postgres.validateStrictDecisionTime]
    · rw [room.getOrCreate]
      dsimp only
      rw [adopted_clamped, bind_assoc, bind_assoc]
      congr 1
      funext leased
      rw [pure_bind, pure_bind]
      rw [Store.find_written]
      rfl

section
variable {store : Store} (opened : store.closed = false) (waits : Waits)
include opened

theorem admitStrict_alone {request : Request} (room : store.Room (stateKey request)) :
    store.admitStrict waits request = admitStrictAlone (store.find (stateKey request)) waits request >>= fun result =>
      pure (store.write (stateKey request) result.1, result.2) := by
  unfold Store.admitStrict Store.admitStrictBy admitStrictAlone
  cases request.validate with
  | error problem => rfl
  | ok =>
    cases strictContext waits.entry with
    | some problem => rfl
    | none =>
      rw [if_neg (by simp [opened])]
      by_cases concurrent : request.policy.algorithm = .concurrency
      · rw [if_pos concurrent, if_pos concurrent]
        rfl
      rw [if_neg concurrent, if_neg concurrent]
      cases waits.interrupted with
      | some problem => rfl
      | none =>
        have held : store.admitHeld (truncated request) = _ := admitHeld_alone room
        rw [bind_assoc]
        change store.admitHeld (truncated request) >>= _ = _
        rw [held, bind_assoc]
        rfl

theorem acquireStrict_alone {request : LeaseRequest} (room : store.Room (stateKey request.request)) :
    store.acquireStrict waits request =
      acquireStrictAlone (store.find (stateKey request.request)) waits request >>= fun result =>
        pure (store.write (stateKey request.request) result.1, result.2) := by
  unfold Store.acquireStrict acquireStrictAlone
  cases request.validate with
  | error problem => rfl
  | ok =>
    cases strictContext waits.entry with
    | some problem => rfl
    | none =>
      rw [if_neg (by simp [opened])]
      cases waits.interrupted with
      | some problem => rfl
      | none =>
        have held : store.acquireHeld (retimed request (truncate request.request.now)) = _ := acquireHeld_alone room
        rw [bind_assoc]
        change store.acquireHeld (retimed request (truncate request.request.now)) >>= _ = _
        rw [held, bind_assoc]
        rfl

omit opened in
theorem releaseLocked_alone (store : Store) (lease : Lease) {key : GoString}
    (named : Postgres.bucketName lease.policyID lease.key = key) :
    store.setShard (store.shardFor key) ((store.shards (store.shardFor key)).releaseLocked lease).1 =
        store.write key (releaseAlone (store.find key) lease).1 ∧
      ((store.shards (store.shardFor key)).releaseLocked lease).2 = (releaseAlone (store.find key) lease).2 := by
  unfold Shard.releaseLocked releaseAlone
  dsimp only
  rw [named, show AList.lookup key (store.shards (store.shardFor key)).states = store.find key from rfl]
  cases store.find key with
  | none => exact ⟨store.setShard_self _, rfl⟩
  | some current =>
    dsimp only
    cases current.leases.lookup lease.id with
    | none => exact ⟨store.setShard_self _, rfl⟩
    | some existing =>
      dsimp only
      split
      · exact ⟨store.setShard_self _, rfl⟩
      · exact ⟨rfl, rfl⟩

theorem releaseStrict_alone (lease : Lease) {key : GoString}
    (named : Postgres.bucketName lease.policyID lease.key = key) :
    store.releaseStrict waits lease =
      (store.write key (releaseStrictAlone (store.find key) waits lease).1,
        (releaseStrictAlone (store.find key) waits lease).2) := by
  unfold Store.releaseStrict releaseStrictAlone
  split
  · rfl
  cases strictContext waits.entry with
  | some problem => rfl
  | none =>
    dsimp only
    rw [if_neg (by simp [opened])]
    cases waits.interrupted with
    | some problem => rfl
    | none =>
      obtain ⟨stored, told⟩ := releaseLocked_alone store lease named
      rw [named, stored, told]

end

/-- The pair of a policy ID and a key that a call is on. -/
def Call.pair : Call → Option (GoString × Key)
  | .admitStrict _ request _ => some (request.policy.id, request.key)
  | .acquireStrict _ request _ => some (request.request.policy.id, request.request.key)
  | .releaseStrict _ lease => some (lease.policyID, lease.key)
  | .sweep _ _ | .close => none

/-- What a pair is called in a store. -/
def pairName (pair : GoString × Key) : GoString := Postgres.bucketName pair.1 pair.2

/-- While there is room, a call does to its key what it does to it alone, and nothing else. -/
theorem step_alone {store : Store} {call : Call} (opened : store.closed = false) (onPair : call.pair = some pair)
    (room : store.Room (pairName pair)) :
    step store call = stepAlone (store.find (pairName pair)) call >>= fun result =>
      pure (store.write (pairName pair) result.1, result.2) := by
  cases call with
  | sweep | close => cases onPair
  | admitStrict waits request built =>
    cases onPair
    change store.admitStrict waits request >>= _ = (admitStrictAlone _ waits request >>= _) >>= _
    rw [admitStrict_alone opened waits room, bind_assoc, bind_assoc]
    rfl
  | acquireStrict waits request built =>
    cases onPair
    change store.acquireStrict waits request >>= _ = (acquireStrictAlone _ waits request >>= _) >>= _
    rw [acquireStrict_alone opened waits room, bind_assoc, bind_assoc]
    rfl
  | releaseStrict waits lease =>
    cases onPair
    change pure ((store.releaseStrict waits lease).1, Reply.released (store.releaseStrict waits lease).2) = _
    rw [releaseStrict_alone opened waits lease rfl]
    rfl

/-! ## Runs -/

/-- No shard holds its full quota of keys. -/
def Store.Roomy (store : Store) : Prop := ∀ index, (store.shards index).states.entries.length <
    (store.shards index).maxKeys

instance (store : Store) : Decidable store.Roomy := inferInstanceAs (Decidable (∀ _ : Fin store.count, _ < _))

theorem Store.Roomy.room {store : Store} (roomy : store.Roomy) (key : GoString) : store.Room key :=
  fun _ => (roomy _).ne

/-- A call on a pair whose key was made, or is the zero value, which no call accepts. -/
def Call.Keyed (sha256 : GoString → Postgres.Digest) (call : Call) : Prop :=
  ∃ pair, call.pair = some pair ∧ (pair.2.Built sha256 ∨ pair.2 = ⟨[], []⟩)

/-- Different pairs have different names. -/
theorem pairName_inj {sha256 : GoString → Postgres.Digest} {first second : GoString × Key}
    (one : first.2.Built sha256 ∨ first.2 = ⟨[], []⟩) (two : second.2.Built sha256 ∨ second.2 = ⟨[], []⟩)
    (same : pairName first = pairName second) : first = second := by
  have clean : ∀ key : Key, key.Built sha256 ∨ key = ⟨[], []⟩ → 0 ∉ key.value := by
    rintro key (built | rfl)
    · exact built.zero
    · simp
  obtain ⟨ids, values⟩ := Postgres.bucketName_inj (clean _ one) (clean _ two) same
  refine Prod.ext ids ?_
  rcases one with built | zero
  · rcases two with built' | zero'
    · exact built.ext built' values
    · rw [zero'] at values
      exact absurd values built.nonempty
  · rcases two with built' | zero'
    · rw [zero] at values
      exact absurd values.symm built'.nonempty
    · rw [zero, zero']

/-- Two open stores that agree on some keys. -/
structure Agree (names : GoString → Prop) (store other : Store) : Prop where
  opened : store.closed = false
  opened' : other.closed = false
  same : ∀ name, names name → store.find name = other.find name

/-- What a step on a pair returns, it returns from the key alone. -/
theorem step_returns {store : Store} {call : Call} (opened : store.closed = false) (onPair : call.pair = some pair)
    (room : store.Room (pairName pair)) (returns : (step store call).Returns result) :
    ∃ written, (stepAlone (store.find (pairName pair)) call).Returns (written, result.2) ∧
      result.1 = store.write (pairName pair) written := by
  rw [step_alone opened onPair room] at returns
  obtain ⟨⟨written, reply⟩, alone, last⟩ := returns.of_bind
  cases last.unique (returns_pure _)
  exact ⟨written, alone, rfl⟩

theorem Agree.elsewhere {store other : Store} (agree : Agree names store other) (onPair : call.pair = some pair)
    (outside : ¬ names (pairName pair)) (room : store.Room (pairName pair))
      (returns : (step store call).Returns result) :
    Agree names result.1 other := by
  obtain ⟨written, -, next⟩ := step_returns agree.opened onPair room returns
  refine ⟨by rw [next, Store.write_closed, agree.opened], agree.opened', fun name inside => ?_⟩
  have apart : name ≠ pairName pair := by
    rintro rfl
    exact outside inside
  rw [next, Store.find_write, if_neg apart]
  exact agree.same name inside

theorem Agree.step {store other : Store} (agree : Agree names store other) (onPair : call.pair = some pair)
    (inside : names (pairName pair)) (room : store.Room (pairName pair)) (room' : other.Room (pairName pair))
    (returns : (step store call).Returns first) (returns' : (step other call).Returns second) :
    second.2 = first.2 ∧ Agree names first.1 second.1 := by
  obtain ⟨written, alone, next⟩ := step_returns agree.opened onPair room returns
  obtain ⟨written', alone', next'⟩ := step_returns agree.opened' onPair room' returns'
  rw [← agree.same _ inside] at alone'
  obtain ⟨rfl, reply⟩ := Prod.ext_iff.mp (alone.unique alone')
  refine ⟨reply.symm, by rw [next, Store.write_closed, agree.opened],
    by rw [next', Store.write_closed, agree.opened'], ?_⟩
  intro name member
  rw [next, next', Store.find_write, Store.find_write, agree.same _ inside, agree.same _ member]

theorem Agree.start {store other : Store} (made : newStore options = .ok store)
    (made' : newStore options' = .ok other) :
    Agree names store other :=
  ⟨(newStore_made made).opened, (newStore_made made').opened,
    fun name _ => by rw [newStore_find made, newStore_find made']⟩

/-- A store in which one key at most was ever written. -/
structure Lone (options : Options) (name : GoString) (store : Store) : Prop where
  sized : Sized options store
  opened : store.closed = false
  others : ∀ other, other ≠ name → store.find other = none

/-- The one key always has room, as a shard has a place for one key at least. -/
theorem Lone.room {store : Store} (lone : Lone options name store) (positive : 0 < options.shards)
    (spread : options.shards ≤ options.maxKeys) : store.Room name := by
  intro missing full
  have here := lone.sized.each (store.shardFor name)
  have space : 0 < (store.shards (store.shardFor name)).maxKeys := by
    have one := Nat.div_pos (show options.shards.toNat ≤ options.maxKeys.toNat by omega) (by omega)
    rw [here.quota, quota]
    split <;> omega
  obtain ⟨⟨other, state⟩, member⟩ := List.exists_mem_of_length_pos (full ▸ space)
  have found := LeaseTable.lookup_iff_mem.mpr member
  have present : store.find other = some state := by
    rw [Store.find, here.placed other state found]
    exact found
  by_cases same : other = name
  · rw [same, missing] at present
    cases present
  · rw [lone.others other same] at present
    cases present

/-- Every run of calls returns. -/
theorem trace_sized (sized : Sized options store) (calls : List Call) :
    ∃ entries, (Runs.trace step store calls).Returns entries ∧ entries.map Entry.input = calls := by
  obtain ⟨entries, run, inputs, -⟩ := Runs.trace_returns step (fun _ store => Sized options store)
    (fun _ _ => True) calls
    (fun _ store call sized _ => by
      obtain ⟨result, returns, -, next⟩ := storeStep_disciplined sized (.strict call)
      exact ⟨result, returns, trivial, next⟩) sized
  exact ⟨entries, run, inputs⟩

/-- In a run of calls on one pair that pair always has room. -/
theorem trace_lone (made : newStore options = .ok store) (calls : List Call) (pair : GoString × Key)
    (onPair : ∀ call ∈ calls, call.pair = some pair) :
    ∃ entries, (Runs.trace step store calls).Returns entries ∧ ∀ entry ∈ entries, entry.before.Room
      (pairName pair) := by
  have shape := newStore_made made
  have roomy : ∀ {store : Store}, Lone options (pairName pair) store → store.Room (pairName pair) :=
    fun lone => lone.room shape.some_shards shape.spread
  obtain ⟨entries, run, -, kept⟩ := Runs.trace_returns step (fun _ => Lone options (pairName pair))
    (fun _ _ => True) calls
    (fun _ store call lone member => by
      obtain ⟨result, returns, -, next⟩ := storeStep_disciplined lone.sized (.strict call)
      obtain ⟨written, -, wrote⟩ := step_returns lone.opened (onPair call member) (roomy lone) returns
      refine ⟨result, returns, trivial, next, by rw [wrote, Store.write_closed, lone.opened], fun other apart => ?_⟩
      rw [wrote, Store.find_write, if_neg apart]
      exact lone.others other apart)
    ⟨Sized.start made, (newStore_made made).opened, fun other _ => newStore_find made other⟩
  refine ⟨entries, run, fun entry member => ?_⟩
  obtain ⟨earlier, later, split⟩ := List.append_of_mem member
  exact roomy (kept earlier entry later split).1

/-- Whether a call is on a pair. -/
def Call.on (pair : GoString × Key) (call : Call) : Bool := decide (call.pair = some pair)

/-- Keys do not interfere in a memory store. In a run in which no shard ever holds its full
quota, the results of the operations on a pair are those of the run of these operations
alone, with the same shards or others, and the results of all operations are those of every
other store whose quotas are never filled either. -/
theorem memory_keys_isolated (sha256 : GoString → Postgres.Digest) (options : Options) (store : Store)
    (made : newStore options = .ok store) (calls : List Call) (keyed : ∀ call ∈ calls, call.Keyed sha256) :
    ∃ entries, (Runs.trace step store calls).Returns entries ∧ entries.map Entry.input = calls ∧
      ((∀ entry ∈ entries, entry.before.Roomy) →
        (∀ pair options' store', newStore options' = .ok store' →
          ∃ others, (Runs.trace step store' (calls.filter (Call.on pair))).Returns others ∧
            others.map Entry.output = (entries.filter fun entry => entry.input.on pair).map Entry.output) ∧
        ∀ options' store' others, newStore options' = .ok store' → (Runs.trace step store' calls).Returns others →
          (∀ entry ∈ others, entry.before.Roomy) → others.map Entry.output = entries.map Entry.output) := by
  obtain ⟨entries, run, inputs⟩ := trace_sized (Sized.start made) calls
  refine ⟨entries, run, inputs, fun roomy => ⟨fun pair options' store' made' => ?_, ?_⟩⟩
  · obtain ⟨others, run', room'⟩ := trace_lone made' (calls.filter (Call.on pair)) pair fun call member =>
      of_decide_eq_true (List.mem_filter.mp member).2
    refine ⟨others, run', ?_⟩
    by_cases used : ∃ call ∈ calls, call.on pair = true
    · -- The pair is that of some call, so its key was made and its name is its own.
      obtain ⟨call, member, here⟩ := used
      obtain ⟨pair', onPair, proper⟩ := keyed call member
      obtain rfl : pair' = pair := Option.some.inj (onPair.symm.trans (of_decide_eq_true here))
      refine Runs.trace_projects step step (Agree (· = pairName pair')) Store.Roomy (Store.Room · (pairName pair'))
        (Call.on pair') calls ?_ ?_ (Agree.start made made') run run' roomy room'
      · intro state other call result agree roomy member away returns
        obtain ⟨pair, onOther, proper'⟩ := keyed call member
        have apart : pairName pair ≠ pairName pair' := by
          intro same
          rw [Call.on, onOther, pairName_inj proper' proper same] at away
          simp at away
        exact agree.elsewhere onOther apart (roomy.room _) returns
      · intro state other call first second agree roomy room' member here returns returns'
        exact agree.step (of_decide_eq_true here) rfl (roomy.room _) room' returns returns'
    · have none : calls.filter (Call.on pair) = [] := by
        rw [List.filter_eq_nil_iff]
        exact fun call member here => used ⟨call, member, here⟩
      rw [none] at run'
      cases run'.unique (returns_pure _)
      have nothing : (entries.filter fun entry => entry.input.on pair) = [] := by
        rw [List.filter_eq_nil_iff]
        exact fun entry member here => used ⟨entry.input, inputs ▸ List.mem_map_of_mem member, here⟩
      rw [nothing]
  · intro options' store' others made' run' roomy'
    have all : calls.filter (fun _ => true) = calls := List.filter_eq_self.mpr fun _ _ => rfl
    have projected := Runs.trace_projects step step (Agree fun _ => True) Store.Roomy Store.Roomy (fun _ => true) calls
      (by intro state other call result _ _ _ away; cases away)
      (fun state other call first second agree roomy roomy' member _ returns returns' => by
        obtain ⟨pair, onPair, -⟩ := keyed call member
        exact agree.step onPair trivial (roomy.room _) (roomy'.room _) returns returns')
      (Agree.start made made') run (all.symm ▸ run') roomy roomy'
    simpa using projected

/-- A request for one token by the subject of a single byte. -/
def subjectRequest (subject : UInt8) (micros : Int) : Request :=
  ⟨fivePerSecond, ⟨joined 58 ⟨[114], [49], ⟨[117], [subject]⟩, false⟩ [subject], [117]⟩, 1, .ofUnixMicro micros⟩

/-- Two subjects by turns. -/
def turns : List Call :=
  [.admitStrict {} (subjectRequest 97 0) fivePerSecond_built, .admitStrict {} (subjectRequest 98 1) fivePerSecond_built,
    .admitStrict {} (subjectRequest 97 2) fivePerSecond_built]

/-- One shard for four keys. -/
def fourKeys : Store where
  count := 1
  positive := by decide
  shards := fun _ => { maxKeys := 4, rejectOnCapacity := false }

theorem memory_keys_isolated_turns :
    ∃ entries, (Runs.trace step fourKeys turns).Returns entries ∧ (∀ entry ∈ entries, entry.before.Roomy) ∧
      ∃ others, (Runs.trace step threeKeys
          (turns.filter (Call.on (fivePerSecond.id, (subjectRequest 97 0).key)))).Returns others ∧
        others.map Entry.output =
          (entries.filter fun entry =>
          entry.input.on (fivePerSecond.id, (subjectRequest 97 0).key)).map Entry.output := by
  have made : newStore { maxKeys := 4, shards := 1 } = .ok fourKeys := rfl
  have made' : newStore { maxKeys := 3, shards := 2 } = .ok threeKeys := rfl
  -- The subjects are not hashed.
  have keyed : ∀ sha256, ∀ call ∈ turns, call.Keyed sha256 := by
    intro sha256
    simp only [turns, List.forall_mem_cons]
    exact ⟨⟨_, rfl, .inl ⟨⟨[114], [49], ⟨[117], [97]⟩, false⟩, rfl⟩⟩,
      ⟨_, rfl, .inl ⟨⟨[114], [49], ⟨[117], [98]⟩, false⟩, rfl⟩⟩,
      ⟨_, rfl, .inl ⟨⟨[114], [49], ⟨[117], [97]⟩, false⟩, rfl⟩⟩, List.forall_mem_nil _⟩
  obtain ⟨entries, run, -, isolated⟩ := memory_keys_isolated (fun _ => Postgres.bucketDigest) _ fourKeys made turns
    (keyed _)
  have roomy : ∀ entry ∈ entries, entry.before.Roomy := by
    have all : (match Runs.trace step fourKeys turns with
        | .done entries _ => entries.all fun entry => decide entry.before.Roomy
        | .panic => false) = true := by decide +kernel
    obtain ⟨_, ends⟩ := run
    rw [ends] at all
    simpa using all
  exact ⟨entries, run, roomy, (isolated roomy).1 _ _ _ made'⟩

end RateLimit.Memory
