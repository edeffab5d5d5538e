import RateLimit.LeaseStore
import RateLimit.StrictService

/-! The memory store: `memory/store.go` and `memory/strict.go`. The store is split into
shards by the hash of a bucket's name; every operation works on one shard with its lock
held, and a sweep on one shard after the other. Go maps are tables whose order carries
no meaning. The window algorithms compute with 64-bit counts of nanoseconds, which wrap. -/
namespace RateLimit.Memory

open Machine

/-! ## State -/

structure Segment where
  index : Int := 0
  used : Nat := 0
  deriving DecidableEq, Repr

structure LeaseState where
  cost : Nat
  expiresAt : Time
  deriving DecidableEq, Repr

abbrev Leases := AList (fun _ : GoString => LeaseState)

/-- `state`. A lease table that is nil is an empty one. -/
structure State where
  revision : GoString
  algorithm : Algorithm
  lastSeen : Time
  tokens : Nat
  remainder : Nat := 0
  lastRefill : Time
  windowStart : Int := 0
  windowPeriod : Duration
  used : Nat := 0
  segments : Fin 16 → Segment := fun _ => {}
  leases : Leases := ∅
  deriving DecidableEq

abbrev States := AList (fun _ : GoString => State)

structure Shard where
  maxKeys : Nat
  rejectOnCapacity : Bool
  states : States := ∅
  deriving DecidableEq

structure Options where
  maxKeys : Int
  shards : Int
  rejectOnCapacity : Bool := false
  deriving DecidableEq, Repr

def maxConfiguredKeys : Int := 1000000

def maxConfiguredShards : Int := 1024

/-- `Store`, with at least one shard. -/
structure Store where
  count : Nat
  positive : 0 < count
  shards : Fin count → Shard
  closed : Bool := false

/-- `New`. -/
def newStore (options : Options) : Except WrappedError Store :=
  let problem : WrappedError := ⟨.invalidPolicy, "positive cardinality and shard bounds are required"⟩
  if options.maxKeys < 1 then .error problem
  else if options.maxKeys > maxConfiguredKeys then .error problem
  else if positive : options.shards ≤ 0 then .error problem
  else if options.shards > maxConfiguredShards then .error problem
  else if options.shards > options.maxKeys then .error problem
  else
    let base := options.maxKeys.toNat / options.shards.toNat
    let extra := options.maxKeys.toNat % options.shards.toNat
    .ok
      { count := options.shards.toNat
        positive := by omega
        shards := fun index =>
          { maxKeys := if index.val < extra then base + 1 else base
            rejectOnCapacity := options.rejectOnCapacity } }

/-- FNV-1a in 64 bits. -/
def fnv64a (key : GoString) : UInt64 :=
  key.foldl (fun hash byte => (hash ^^^ byte.toUInt64) * 1099511628211) 14695981039346656037

def Store.shardFor (store : Store) (key : GoString) : Fin store.count :=
  ⟨(fnv64a key).toNat % store.count, Nat.mod_lt _ store.positive⟩

/-- The store with another content in one shard. -/
def Store.setShard (store : Store) (index : Fin store.count) (shard : Shard) : Store :=
  { store with shards := Function.update store.shards index shard }

/-! ## Keys -/

def hasActiveLease (leases : Leases) (now : Time) : Bool :=
  leases.entries.any fun entry => decide (now.nanos < entry.2.expiresAt.nanos)

/-- The order of `evictOldest`. -/
def older (left right : Σ _ : GoString, State) : Bool :=
  if left.2.lastSeen = right.2.lastSeen then decide (left.1 < right.1)
  else decide (left.2.lastSeen.nanos < right.2.lastSeen.nanos)

/-- `evictOldest`: `none` if every key has an active lease. -/
def evictOldest (states : States) (now : Time) : Option States :=
  let keys := states.entries.filter fun entry => !hasActiveLease entry.2.leases now
  match keys.mergeSort (fun left right => !older right left) with
  | [] => none
  | oldest :: _ => some (states.erase oldest.1)

def carryRevision (current : State) (request : Request) : State :=
  { current with
    tokens := if current.algorithm = .tokenBucket then min current.tokens request.policy.limit else current.tokens
    revision := request.policy.revision
    lastRefill := if current.lastRefill.nanos < request.now.nanos then request.now else current.lastRefill
    remainder := 0 }

/-- The state that `getOrCreate` makes. -/
def freshState (request : Request) : State where
  revision := request.policy.revision
  algorithm := request.policy.algorithm
  lastSeen := request.now
  lastRefill := request.now
  windowPeriod := request.policy.period
  tokens := request.policy.limit

/-- The states in which `getOrCreate` makes a new one, if there is room. -/
def Shard.makeRoom (target : Shard) (now : Time) : Except Sentinel States :=
  if target.states.entries.length = target.maxKeys then
    if target.rejectOnCapacity then .error .unavailable
    else match evictOldest target.states now with
      | none => .error .unavailable
      | some states => .ok states
  else .ok target.states

/-- `getOrCreate`, with the table that its state is to be written to. -/
def Shard.getOrCreate (target : Shard) (key : GoString) (request : Request) : Except Sentinel (States × State) :=
  match target.states.lookup key with
  | some current =>
    .ok (target.states, if current.revision ≠ request.policy.revision then carryRevision current request else current)
  | none =>
    match target.makeRoom request.now with
    | .error problem => .error problem
    | .ok states => .ok (states, freshState request)

/-- A state is kept for another algorithm. -/
def Shard.mismatched (target : Shard) (key : GoString) (algorithm : Algorithm) : Bool :=
  match target.states.lookup key with
  | some existing => decide (existing.algorithm ≠ algorithm)
  | none => false

/-- The request not before the last one its key has seen. -/
def clampLastSeen (current : State) (now : Time) : Time :=
  if now.nanos < current.lastSeen.nanos then current.lastSeen else now

/-! ## Token buckets -/

def refill (current : State) (request : Request) : Machine State :=
  if ¬ current.lastRefill.nanos < request.now.nanos then pure current
  else if current.tokens = request.policy.limit then
    pure { current with lastRefill := request.now, remainder := 0 }
  else do
    let elapsed ← u64 (request.now.sub current.lastRefill).microseconds
    let product := mul64 elapsed request.policy.capacity
    let low := add64 product.2 current.remainder 0
    let high := (add64 product.1 low.2 0).1
    let period ← u64 request.policy.period.microseconds
    if high ≥ period then
      pure { current with tokens := request.policy.limit, remainder := 0, lastRefill := request.now }
    else do
      let quotient ← div64 high low.1 period
      let sum ← u64 ((current.tokens : Int) + quotient.1)
      let tokens := min sum request.policy.limit
      pure { current with
        tokens := tokens
        remainder := if tokens = request.policy.limit then 0 else quotient.2
        lastRefill := request.now }

def refillDuration (tokens remainder : Nat) (policy : Policy) : Machine Duration :=
  if tokens = 0 then pure ⟨0⟩
  else do
    let period ← u64 policy.period.microseconds
    let product := mul64 tokens period
    let low := sub64 product.2 remainder 0
    let high := (sub64 product.1 0 low.2).1
    if high ≥ policy.capacity then pure ⟨maxInt64⟩
    else do
      let quotient ← div64 high low.1 policy.capacity
      let micros ← if quotient.2 ≠ 0 then u64 (quotient.1 + 1) else pure quotient.1
      if (micros : Int) > maxInt64 / Duration.microsecond then pure ⟨maxInt64⟩
      else do
        let nanos ← i64 (micros * Duration.microsecond)
        pure ⟨nanos⟩

/-- What an algorithm leaves of a state, and what it returns. -/
structure Outcome where
  state : State
  decision : Decision
  error : Option Sentinel
  deriving DecidableEq

def admitToken (current : State) (request : Request) : Machine Outcome := do
  let current ← refill current request
  let limit := request.policy.limit
  if current.tokens < request.cost then do
    let missing ← u64 ((request.cost : Int) - current.tokens)
    let retry ← refillDuration missing current.remainder request.policy
    let empty ← u64 ((limit : Int) - current.tokens)
    let reset ← refillDuration empty current.remainder request.policy
    pure
      { state := current
        decision :=
          { allowed := false, limit := limit, remaining := current.tokens
            reset := request.now.add reset, retryAfter := retry, reason := .limited }
        error := some .rejected }
  else do
    let tokens ← u64 ((current.tokens : Int) - request.cost)
    let empty ← u64 ((limit : Int) - tokens)
    let reset ← refillDuration empty current.remainder request.policy
    pure
      { state := { current with tokens := tokens }
        decision :=
          { allowed := true, limit := limit, remaining := tokens
            reset := request.now.add reset, reason := .allowed }
        error := none }

/-! ## Windows -/

def floorBoundary (value size : Int) : Machine Int := do
  let quotient ← quo value size
  let remainder ← rem value size
  if remainder = 0 then i64 (quotient * size)
  else if value < 0 then do
    let quotient ← i64 (quotient - 1)
    i64 (quotient * size)
  else i64 (quotient * size)

def consumeWindow (current : State) (request : Request) (reset : Time) : Machine Outcome := do
  let limit := request.policy.limit
  let remaining ← u64 ((limit : Int) - min current.used limit)
  if request.cost > remaining then
    pure
      { state := current
        decision :=
          { allowed := false, limit := limit, remaining := remaining, reset := reset
            retryAfter := ⟨max (reset.sub request.now).nanos 0⟩, reason := .limited }
        error := some .rejected }
  else do
    let used ← u64 ((current.used : Int) + request.cost)
    let remaining ← u64 ((limit : Int) - used)
    pure
      { state := { current with used := used }
        decision :=
          { allowed := true, limit := limit, remaining := remaining, reset := reset, reason := .allowed }
        error := none }

def admitFixed (current : State) (request : Request) : Machine Outcome := do
  let period := request.policy.period.nanos
  let now ← i64 request.now.nanos
  let start ← floorBoundary now period
  let current := if current.windowStart ≠ start then { current with windowStart := start, used := 0 } else current
  let stop ← i64 (start + period)
  consumeWindow current request ⟨stop⟩

/-- The loop of `admitSliding`: clear what expired, count what did not, and find the
earliest used index. -/
def sweepSegments (oldest : Int) : List (Fin 16) → (Fin 16 → Segment) → Nat → Int →
    Machine ((Fin 16 → Segment) × Nat × Int)
  | [], segments, used, earliest => pure (segments, used, earliest)
  | slot :: rest, segments, used, earliest =>
    if (segments slot).index ≤ oldest then
      sweepSegments oldest rest (Function.update segments slot {}) used earliest
    else do
      let total ← u64 ((used : Int) + (segments slot).used)
      sweepSegments oldest rest segments total
        (if (segments slot).used ≠ 0 then min earliest (segments slot).index else earliest)

def positiveMod (value modulus : Int) : Machine Int := do
  let result ← rem value modulus
  if result < 0 then i64 (result + modulus) else pure result

/-- The reset of `admitSliding`. -/
def slidingReset (earliest size : Int) (request : Request) : Machine Time :=
  if earliest ≠ maxInt64 then do
    let next ← i64 (earliest + 1)
    let boundary ← i64 (next * size)
    pure ((⟨boundary⟩ : Time).add request.policy.period)
  else pure (request.now.add request.policy.period)

def admitSliding (current : State) (request : Request) : Machine Outcome := do
  let padded ← i64 (request.policy.period.nanos + 16 - 1)
  let size ← quo padded 16
  let now ← i64 request.now.nanos
  let boundary ← floorBoundary now size
  let index ← quo boundary size
  let ago ← i64 (request.now.add ⟨-request.policy.period.nanos⟩).nanos
  let boundary ← floorBoundary ago size
  let oldest ← quo boundary size
  let (segments, used, earliest) ← sweepSegments oldest (List.finRange 16) current.segments 0 maxInt64
  let position ← positiveMod index 16
  let slot ← Postgres.slotAt position
  let segments := if (segments slot).index ≠ index then Function.update segments slot { index := index } else segments
  let reset ← slidingReset earliest size request
  let outcome ← consumeWindow { current with used := used, segments := segments } request reset
  if outcome.error = none then do
    let used ← u64 (((outcome.state.segments slot).used : Int) + request.cost)
    pure { outcome with
      state := { outcome.state with
        segments := Function.update outcome.state.segments slot
          { outcome.state.segments slot with used := used } } }
  else pure outcome

/-! ## Admission -/

/-- The algorithm that `admitLocked` switches to. -/
def admitState (current : State) (request : Request) : Machine Outcome :=
  match request.policy.algorithm with
  | .tokenBucket => admitToken current request
  | .fixedWindow => admitFixed current request
  | _ => admitSliding current request

/-- `admitLocked`, over the algorithm that it switches to. -/
def Shard.admitLockedBy (algorithm : State → Request → Machine Outcome) (target : Shard) (key : GoString)
    (request : Request) : Machine (Shard × Answer) :=
  if target.mismatched key request.policy.algorithm then pure (target, ⟨{}, some .corrupt⟩)
  else match target.getOrCreate key request with
    | .error problem => pure (target, ⟨{}, some problem⟩)
    | .ok (states, current) => do
      let request := { request with now := clampLastSeen current request.now }
      let outcome ← algorithm { current with lastSeen := request.now } request
      pure ({ target with states := states.insert key outcome.state }, ⟨outcome.decision, outcome.error⟩)

def Shard.admitLocked (target : Shard) (key : GoString) (request : Request) : Machine (Shard × Answer) :=
  target.admitLockedBy admitState key request

/-- What a context says at the three points at which a strict call asks it: on entry, when
the lock was given up for it, and with the lock held. -/
structure Waits where
  entry : CallerState := .live
  lock : CallerState := .live
  locked : CallerState := .live
  deriving DecidableEq, Repr

def strictContext : CallerState → Option GoError
  | .canceled => some canceledOutcome.error
  | .expired => some deadlineOutcome.error
  | .live | .foreign => none

/-- `strictError`, of what a context says. -/
def strictError : CallerState → Option GoError
  | .live => none
  | .canceled => some canceledOutcome.error
  | .expired => some deadlineOutcome.error
  | .foreign => some (.foreign 0)

/-- Why a call with the lock held, or waiting for it, goes no further. -/
def Waits.interrupted (waits : Waits) : Option GoError :=
  match strictError waits.lock with
  | some problem => some problem
  | none => strictError waits.locked

/-- `request.Now.Truncate(time.Microsecond)`. -/
def truncate (now : Time) : Time := .ofUnixMicro now.unixMicro

def stateKey (request : Request) : GoString := Postgres.bucketName request.policy.id request.key

/-- The state of a key, in its own shard. -/
def Store.find (store : Store) (key : GoString) : Option State :=
  (store.shards (store.shardFor key)).states.lookup key

/-- The time a strict call is decided at. -/
def effectiveTime (current : Option State) (now : Time) : Time :=
  match current with
  | some state => clampLastSeen state now
  | none => now

/-- A window whose state was made for another period. -/
def periodMismatch (current : Option State) (policy : Policy) : Bool :=
  match current with
  | some state => Postgres.usesWindowMetadata policy.algorithm &&
      decide (state.windowPeriod.nanos ≠ 0 ∧ state.windowPeriod ≠ policy.period)
  | none => false

def validateStrictEffectiveRange (effective : Time) (duration : Duration) : Machine (Option Sentinel) :=
  Postgres.validateServerClockRange effective duration

def validateStrictDecisionTime (decision : Decision) (effective : Time) : Option Sentinel :=
  Postgres.validateStrictDecisionTime decision effective

def strictDecisionResult (answer : Answer) (effective : Time) : Answer :=
  match validateStrictDecisionTime answer.decision effective with
  | some problem => ⟨{}, some problem⟩
  | none => answer

/-- What a strict admission returns. -/
structure Admitted where
  decision : Decision
  error : Option GoError
  deriving DecidableEq

/-- `AdmitStrict` with the lock held, over the algorithm. -/
def Store.admitHeldBy (algorithm : State → Request → Machine Outcome) (store : Store) (request : Request) :
    Machine (Store × Answer) :=
  let key := stateKey request
  if periodMismatch (store.find key) request.policy then pure (store, ⟨{}, some .corrupt⟩)
  else do
    let effective := effectiveTime (store.find key) request.now
    match ← validateStrictEffectiveRange effective request.policy.period with
    | some problem => pure (store, ⟨{}, some problem⟩)
    | none => do
      let (target, answer) ← (store.shards (store.shardFor key)).admitLockedBy algorithm key request
      let store := store.setShard (store.shardFor key) target
      let effective := match store.find key with
        | some current => current.lastSeen
        | none => effective
      pure (store, strictDecisionResult answer effective)

def Store.admitHeld (store : Store) (request : Request) : Machine (Store × Answer) :=
  store.admitHeldBy admitState request

/-- `AdmitStrict`, over the algorithm. -/
def Store.admitStrictBy (algorithm : State → Request → Machine Outcome) (store : Store) (waits : Waits)
    (request : Request) : Machine (Store × Admitted) :=
  match request.validate, strictContext waits.entry with
  | .error problem, _ => pure (store, ⟨{}, some (.wrapped problem)⟩)
  | .ok (), some problem => pure (store, ⟨{}, some problem⟩)
  | .ok (), none =>
    if store.closed then pure (store, ⟨{}, some (.sentinel .unavailable)⟩)
    else if request.policy.algorithm = .concurrency then pure (store, ⟨{}, some (.sentinel .unsupported)⟩)
    else match waits.interrupted with
      | some problem => pure (store, ⟨{}, some problem⟩)
      | none => do
        let (store, answer) ← store.admitHeldBy algorithm { request with now := truncate request.now }
        pure (store, ⟨answer.decision, answer.error.map .sentinel⟩)

def Store.admitStrict (store : Store) (waits : Waits) (request : Request) : Machine (Store × Admitted) :=
  store.admitStrictBy admitState waits request

/-! ## Leases -/

def makeLease (request : LeaseRequest) (expiresAt : Time) : Lease where
  id := request.leaseID
  key := request.request.key
  policyID := request.request.policy.id
  policyRevision := request.request.policy.revision
  cost := request.request.cost
  expiresAt := expiresAt
  backend := .ofLiteral "memory"

/-- `earliestLease`, in the order the entries come. -/
def earliestLease (leases : Leases) : Time :=
  leases.entries.foldl (fun earliest entry =>
    if earliest = Time.zero ∨ entry.2.expiresAt.nanos < earliest.nanos then entry.2.expiresAt else earliest) Time.zero

/-- The leases that are not deleted at a time. -/
def activeLeases (now : Time) (leases : Leases) : Leases :=
  LeaseTable.keep (fun lease => decide (now.nanos < lease.expiresAt.nanos)) leases

/-- The cost of the leases, added up in the order the entries come. -/
def sumCosts : List (Σ _ : GoString, LeaseState) → Nat → Machine Nat
  | [], used => pure used
  | entry :: rest, used => do
    let used ← u64 ((used : Int) + entry.2.cost)
    sumCosts rest used

/-- What a lease operation leaves of a state, and what it returns. -/
structure Leased where
  state : State
  lease : Lease := {}
  decision : Decision := {}
  error : Option Sentinel
  deriving DecidableEq

/-- `acquireLocked` on a state, at the time it is decided at. -/
def acquire (current : State) (request : LeaseRequest) : Machine Leased := do
  let now := request.request.now
  let current := { current with lastSeen := now, leases := activeLeases now current.leases }
  let used ← sumCosts current.leases.entries 0
  let limit := request.request.policy.limit
  let remaining ← u64 ((limit : Int) - min used limit)
  match current.leases.lookup request.leaseID with
  | some existing =>
    if existing.cost ≠ request.request.cost then pure { state := current, error := some .leaseNotOwned }
    else
      pure
        { state := current
          lease := makeLease request existing.expiresAt
          decision :=
            { allowed := true, limit := limit, remaining := remaining, reset := existing.expiresAt
              reason := .allowed }
          error := none }
  | none =>
    if request.request.cost > remaining then
      let reset := earliestLease current.leases
      pure
        { state := current
          decision :=
            { allowed := false, limit := limit, remaining := remaining, reset := reset
              retryAfter := ⟨max (reset.sub now).nanos 0⟩, reason := .limited }
          error := some .rejected }
    else do
      let expiresAt := now.add request.request.policy.lease
      let left ← u64 ((remaining : Int) - request.request.cost)
      pure
        { state := { current with leases := current.leases.insert request.leaseID ⟨request.request.cost, expiresAt⟩ }
          lease := makeLease request expiresAt
          decision :=
            { allowed := true, limit := limit, remaining := left, reset := expiresAt, reason := .allowed }
          error := none }

/-- What an acquisition returns before its error is one of the package. -/
structure LeaseAnswer where
  lease : Lease := {}
  decision : Decision := {}
  error : Option Sentinel
  deriving DecidableEq

def Shard.acquireLocked (target : Shard) (key : GoString) (request : LeaseRequest) : Machine (Shard × LeaseAnswer) :=
  if target.mismatched key request.request.policy.algorithm then pure (target, { error := some .corrupt })
  else match target.getOrCreate key request.request with
    | .error problem => pure (target, { error := some problem })
    | .ok (states, current) => do
      let request := { request with
        request := { request.request with now := clampLastSeen current request.request.now } }
      let leased ← acquire current request
      pure ({ target with states := states.insert key leased.state }, ⟨leased.lease, leased.decision, leased.error⟩)

def Shard.releaseLocked (target : Shard) (lease : Lease) : Shard × Option Sentinel :=
  let key := Postgres.bucketName lease.policyID lease.key
  match target.states.lookup key with
  | none => (target, some .leaseNotFound)
  | some current =>
    match current.leases.lookup lease.id with
    | none => (target, some .leaseNotFound)
    | some existing =>
      if existing.cost ≠ lease.cost ∨ existing.expiresAt ≠ lease.expiresAt then (target, some .leaseNotOwned)
      else
        ({ target with
          states := target.states.insert key { current with leases := current.leases.erase lease.id } }, none)

def validateStrictLeaseTime (lease : Lease) (decision : Decision) (effective : Time) : Option Sentinel :=
  Postgres.validateStrictLeaseTime lease decision effective

def strictLeaseResult (answer : LeaseAnswer) (effective : Time) : LeaseAnswer :=
  match validateStrictLeaseTime answer.lease answer.decision effective with
  | some problem => { error := some problem }
  | none => answer

/-- `AcquireStrict` with the lock held. -/
def Store.acquireHeld (store : Store) (request : LeaseRequest) : Machine (Store × LeaseAnswer) := do
  let key := stateKey request.request
  let effective := effectiveTime (store.find key) request.request.now
  match ← validateStrictEffectiveRange effective request.request.policy.lease with
  | some problem => pure (store, { error := some problem })
  | none => do
    let (target, answer) ← (store.shards (store.shardFor key)).acquireLocked key request
    let store := store.setShard (store.shardFor key) target
    let effective := match store.find key with
      | some current => current.lastSeen
      | none => effective
    pure (store, strictLeaseResult answer effective)

/-- What a strict acquisition returns. -/
structure Acquired where
  lease : Lease := {}
  decision : Decision := {}
  error : Option GoError
  deriving DecidableEq

def Store.acquireStrict (store : Store) (waits : Waits) (request : LeaseRequest) : Machine (Store × Acquired) :=
  match request.validate, strictContext waits.entry with
  | .error problem, _ => pure (store, { error := some (.wrapped problem) })
  | .ok (), some problem => pure (store, { error := some problem })
  | .ok (), none =>
    if store.closed then pure (store, { error := some (.sentinel .unavailable) })
    else match waits.interrupted with
      | some problem => pure (store, { error := some problem })
      | none => do
        let (store, answer) ← store.acquireHeld
          { request with request := { request.request with now := truncate request.request.now } }
        pure (store, ⟨answer.lease, answer.decision, answer.error.map .sentinel⟩)

def Store.releaseStrict (store : Store) (waits : Waits) (lease : Lease) : Store × Option GoError :=
  if lease.id = [] ∨ lease.policyID = [] ∨ lease.key.value = [] ∨ lease.cost = 0 ∨ lease.expiresAt = Time.zero then
    (store, some (.sentinel .invalidRequest))
  else match strictContext waits.entry with
    | some problem => (store, some problem)
    | none =>
      if store.closed then (store, some (.sentinel .unavailable))
      else match waits.interrupted with
        | some problem => (store, some problem)
        | none =>
          let index := store.shardFor (Postgres.bucketName lease.policyID lease.key)
          let (target, problem) := (store.shards index).releaseLocked lease
          (store.setShard index target, problem.map .sentinel)

/-! ## Calls without the strict checks -/

/-- `ctx.Err()` as it comes, which is no error of this package. -/
def contextError : CallerState → Option GoError
  | .live => none
  | .canceled => some (.foreign 1)
  | .expired => some (.foreign 2)
  | .foreign => some (.foreign 0)

/-- Why `Admit`, `Acquire` or `Release` does not begin. -/
def Store.refuses (store : Store) (context : CallerState) : Option GoError :=
  if store.closed then some (.sentinel .unavailable) else contextError context

/-- `Admit`. -/
def Store.admitPlain (store : Store) (context : CallerState) (request : Request) : Machine (Store × Admitted) :=
  match store.refuses context, request.validate with
  | some problem, _ => pure (store, ⟨{}, some problem⟩)
  | none, .error problem => pure (store, ⟨{}, some (.wrapped problem)⟩)
  | none, .ok () =>
    if request.policy.algorithm = .concurrency then pure (store, ⟨{}, some (.sentinel .unsupported)⟩)
    else do
      let request := { request with now := truncate request.now }
      let key := stateKey request
      let (target, answer) ← (store.shards (store.shardFor key)).admitLocked key request
      pure (store.setShard (store.shardFor key) target, ⟨answer.decision, answer.error.map .sentinel⟩)

/-- `Acquire`. -/
def Store.acquirePlain (store : Store) (context : CallerState) (request : LeaseRequest) : Machine (Store × Acquired) :=
  match store.refuses context, request.validate with
  | some problem, _ => pure (store, { error := some problem })
  | none, .error problem => pure (store, { error := some (.wrapped problem) })
  | none, .ok () => do
    let request := { request with request := { request.request with now := truncate request.request.now } }
    let key := stateKey request.request
    let (target, answer) ← (store.shards (store.shardFor key)).acquireLocked key request
    pure (store.setShard (store.shardFor key) target, ⟨answer.lease, answer.decision, answer.error.map .sentinel⟩)

/-- `Release`. -/
def Store.releasePlain (store : Store) (context : CallerState) (lease : Lease) : Store × Option GoError :=
  match store.refuses context with
  | some problem => (store, some problem)
  | none =>
    let index := store.shardFor (Postgres.bucketName lease.policyID lease.key)
    let (target, problem) := (store.shards index).releaseLocked lease
    (store.setShard index target, problem.map .sentinel)

def Store.len (store : Store) : Nat :=
  ((List.finRange store.count).map fun index => (store.shards index).states.entries.length).sum

/-! ## Sweeping -/

/-- A key that a sweep removes. -/
def idle (now : Time) (idleFor : Duration) (current : State) : Bool :=
  !hasActiveLease current.leases now && !decide (now.nanos < (current.lastSeen.add idleFor).nanos)

/-- What a sweep leaves of a key that stays. -/
def dropExpired (now : Time) (current : State) : State :=
  { current with leases := activeLeases now current.leases }

/-- What a sweep leaves of a shard. -/
def Shard.sweep (target : Shard) (now : Time) (idleFor : Duration) : Shard :=
  { target with
    states := LeaseTable.adjust (dropExpired now)
      (LeaseTable.keep (fun current => !idle now idleFor current) target.states) }

/-- How many keys a sweep removes from a shard. -/
def Shard.swept (target : Shard) (now : Time) (idleFor : Duration) : Nat :=
  (target.states.entries.filter fun entry => idle now idleFor entry.2).length

/-- `Sweep`. Each shard is swept under its own lock. -/
def Store.sweep (store : Store) (now : Time) (idleFor : Duration) : Store × Nat × Option Sentinel :=
  if store.closed then (store, 0, some .unavailable)
  else if now = Time.zero then (store, 0, some .invalidRequest)
  else if idleFor.nanos ≤ 0 then (store, 0, some .invalidRequest)
  else
    ({ store with shards := fun index => (store.shards index).sweep now idleFor },
      ((List.finRange store.count).map fun index => (store.shards index).swept now idleFor).sum, none)

def Store.close (store : Store) : Store := { store with closed := true }

end RateLimit.Memory
