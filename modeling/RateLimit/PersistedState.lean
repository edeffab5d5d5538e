import RateLimit.Policy
import Mathlib.Data.List.AList
import Mathlib.Data.Fintype.Pi

/-! The PostgreSQL state machine of `postgres/state.go`, as the code computes it:
64-bit arithmetic runs in `Machine`, so a wrapped operation or a panic would show
in the result, and a state passed by pointer is passed explicitly, so a call also
says what its argument holds when it returns. -/
namespace RateLimit.Postgres

open Machine

def stateSchema : Int := 1

def maxExactMicros : Int := 9007199254740991

structure PersistedSegment where
  index : Int := 0
  used : Nat := 0
  deriving DecidableEq, Repr

structure PersistedLease where
  cost : Nat
  expiresMicros : Int
  deriving DecidableEq, Repr

/-- The sixteen slots of a sliding window. -/
abbrev Segments := Fin 16 → PersistedSegment

/-- `persistedState`. A lease map has one entry a digest; its order carries no
meaning, as the iteration order of a Go map does not. -/
structure PersistedState where
  schema : Int := stateSchema
  policyID : GoString
  revision : GoString
  algorithm : Algorithm
  tokens : Nat := 0
  remainder : Nat := 0
  lastMicros : Int := 0
  observedMicros : Int := 0
  window : Int := 0
  used : Nat := 0
  periodMicros : Int := 0
  carried : Bool := false
  segments : Segments := fun _ => {}
  leases : AList (fun _ : GoString => PersistedLease) := ∅
  deriving DecidableEq

/-! ## Arithmetic helpers -/

/-- `floor`. The source reads the sign as `value>>63 == -1`. -/
def floor (value size : Int) : Machine Int := do
  let quotient ← quo value size
  let remainder ← rem value size
  if remainder = 0 then
    i64 (quotient * size)
  else if value < 0 then do
    let quotient ← i64 (quotient - 1)
    i64 (quotient * size)
  else
    i64 (quotient * size)

def positiveRemainder (value modulus : Int) : Machine Int := do
  let result ← rem value modulus
  if result < 0 then i64 (result + modulus) else pure result

/-- `(period + stateSegments - 1) / stateSegments`. -/
def segmentWidth (period : Int) : Machine Int := do
  let padded ← i64 (period + 16)
  let padded ← i64 (padded - 1)
  quo padded 16

/-- `floor(micros, width) / width`. -/
def segmentIndex (micros width : Int) : Machine Int := do
  let boundary ← floor micros width
  quo boundary width

/-- The instant whose segment is the newest one no longer counted:
`request.Now.Add(-request.Policy.Period())`. -/
def periodAgo (request : Request) : Time :=
  request.now.add ⟨-request.policy.period.nanos⟩

/-- A slot number used as an array index; outside the array Go panics. -/
def slotAt (position : Int) : Machine (Fin 16) :=
  if inside : 0 ≤ position ∧ position < 16 then pure ⟨position.toNat, by omega⟩ else .panic

def validPersistedMicros (value : Int) : Bool :=
  decide (-maxExactMicros ≤ value ∧ value ≤ maxExactMicros)

def usageExceedsLimit (used limit : Nat) : Bool := decide (limit < used)

def usesWindowMetadata : Algorithm → Bool
  | .fixedWindow | .slidingWindow => true
  | _ => false

def recordWindowPeriod (state : PersistedState) (policy : Policy) : PersistedState :=
  match policy.algorithm with
  | .fixedWindow | .slidingWindow => { state with periodMicros := policy.period.microseconds }
  | _ => state

def validateServerClockRange (now : Time) (duration : Duration) : Machine (Option Sentinel) := do
  let last ← i64 (maxExactMicros - duration.microseconds)
  if now.unixMicro < -maxExactMicros ∨ duration.microseconds ≤ 0 ∨ now.unixMicro > last then
    pure (some .overflow)
  else pure none

/-! ## Token bucket -/

/-- `tokenDuration`. The borrow that `bits.Sub64` returns for the high word is
discarded by the source, so it counts as a wrapped subtraction here. -/
def tokenDuration (tokens remainder : Nat) (policy : Policy) : Machine Duration := do
  if tokens = 0 then pure ⟨0⟩
  else do
    let period ← u64 policy.period.microseconds
    let product := mul64 tokens period
    let low := sub64 product.2 remainder 0
    let high ← u64 ((product.1 : Int) - low.2)
    if policy.capacity ≤ high then pure ⟨maxInt64⟩
    else do
      let quotient ← div64 high low.1 policy.capacity
      let micros ← if quotient.2 ≠ 0 then u64 (quotient.1 + 1) else pure quotient.1
      if (micros : Int) > maxInt64 / Duration.microsecond then pure ⟨maxInt64⟩
      else do
        let nanos ← u64 (micros * Duration.microsecond)
        let nanos ← i64 nanos
        pure ⟨nanos⟩

/-- The refill of `mutateToken`, up to the comparison with the cost. -/
def refillToken (current : PersistedState) (request : Request) : Machine PersistedState := do
  let now := request.now.unixMicro
  let period ← u64 request.policy.period.microseconds
  let elapsedDuration := (Time.ofUnixMicro now).sub (Time.ofUnixMicro current.lastMicros)
  if elapsedDuration.nanos ≥ Duration.microsecond then do
    if current.tokens < request.policy.limit then do
      let elapsed ← u64 elapsedDuration.microseconds
      let product := mul64 elapsed request.policy.capacity
      let low := add64 product.2 current.remainder 0
      let high ← u64 ((product.1 : Int) + low.2)
      if period ≤ high then
        pure { current with tokens := request.policy.limit, remainder := 0, lastMicros := now }
      else do
        let quotient ← div64 high low.1 period
        let gap ← u64 ((request.policy.limit : Int) - current.tokens)
        if gap ≤ quotient.1 then
          pure { current with tokens := request.policy.limit, remainder := 0, lastMicros := now }
        else do
          let tokens ← u64 ((current.tokens : Int) + quotient.1)
          pure { current with tokens := tokens, remainder := quotient.2, lastMicros := now }
    else pure { current with lastMicros := now }
  else pure current

/-- What a mutation leaves behind: the state it was working on, the decision and
the error returned beside it. -/
structure Applied where
  state : PersistedState
  decision : Decision
  error : Option Sentinel
  deriving DecidableEq

/-- What the caller is told of it. -/
abbrev Applied.answer (applied : Applied) : Answer := ⟨applied.decision, applied.error⟩

def mutateToken (current : PersistedState) (request : Request) : Machine Applied := do
  let current ← refillToken current request
  let limit := request.policy.limit
  if current.tokens < request.cost then do
    let missing ← u64 ((request.cost : Int) - current.tokens)
    let retry ← tokenDuration missing current.remainder request.policy
    let empty ← u64 ((limit : Int) - current.tokens)
    let reset ← tokenDuration empty current.remainder request.policy
    pure
      { state := current
        decision :=
          { allowed := false, limit := limit, remaining := current.tokens
            reset := request.now.add reset, retryAfter := retry, reason := .limited }
        error := some .rejected }
  else do
    let tokens ← u64 ((current.tokens : Int) - request.cost)
    let current := { current with tokens := tokens }
    let empty ← u64 ((limit : Int) - current.tokens)
    let reset ← tokenDuration empty current.remainder request.policy
    pure
      { state := current
        decision :=
          { allowed := true, limit := limit, remaining := current.tokens
            reset := request.now.add reset, reason := .allowed }
        error := none }

/-! ## Windows -/

def consume (current : PersistedState) (request : Request) (reset : Time) : Machine Applied := do
  let limit := request.policy.limit
  let remaining ← u64 ((limit : Int) - min current.used limit)
  if request.cost > remaining then
    pure
      { state := current
        decision :=
          { allowed := false, limit := limit, remaining := remaining, reset := reset
            retryAfter := ⟨max (reset.sub request.now).nanos 0⟩, reason := .limited }
        error := some .rejected }
  else do
    let used ← u64 ((current.used : Int) + request.cost)
    let current := { current with used := used }
    let remaining ← u64 ((limit : Int) - current.used)
    pure
      { state := current
        decision :=
          { allowed := true, limit := limit, remaining := remaining, reset := reset
            reason := .allowed }
        error := none }

def mutateFixed (current : PersistedState) (request : Request) : Machine Applied := do
  let period := request.policy.period.microseconds
  let window ← floor request.now.unixMicro period
  let current := if current.window ≠ window then { current with window := window, used := 0 }
    else current
  let stop ← i64 (window + period)
  let applied ← consume current request (Time.ofUnixMicro stop)
  pure { applied with
    state := { applied.state with
      carried := usageExceedsLimit applied.state.used request.policy.limit } }

/-- The first loop of `mutateSliding`: the usage still counted and the earliest
index that holds any of it, `MaxInt64` when there is none. -/
def collectUsage (oldest : Int) : List PersistedSegment → Nat → Int → Machine (Nat × Int)
  | [], used, earliest => pure (used, earliest)
  | segment :: rest, used, earliest =>
    if segment.index > oldest then do
      let used ← u64 ((used : Int) + segment.used)
      collectUsage oldest rest used
        (if segment.used ≠ 0 then min earliest segment.index else earliest)
    else collectUsage oldest rest used earliest

/-- The second loop of `mutateSliding`; every iteration touches its own slot only. -/
def dropExpired (segments : Segments) (oldest : Int) : Segments :=
  fun slot => if (segments slot).index ≤ oldest then {} else segments slot

/-- When the earliest counted segment is a full period old. -/
def segmentReset (earliest width : Int) (request : Request) : Machine Time :=
  if earliest ≠ maxInt64 then do
    let next ← i64 (earliest + 1)
    let boundary ← i64 (next * width)
    pure ((Time.ofUnixMicro boundary).add request.policy.period)
  else pure (request.now.add request.policy.period)

/-- The end of `mutateSliding` and of `mutateSlidingLegacy`, once the usage in the
period is known: take over the slot of the current segment and consume. -/
def consumeSegment (current : PersistedState) (request : Request) (index width earliest : Int) :
    Machine Applied := do
  let position ← positiveRemainder index 16
  let slot ← slotAt position
  let current := if (current.segments slot).index ≠ index then
      { current with segments := Function.update current.segments slot { index := index } }
    else current
  let reset ← segmentReset earliest width request
  let applied ← consume current request reset
  if applied.error = none then do
    let used ← u64 (((applied.state.segments slot).used : Int) + request.cost)
    pure { applied with
      state := { applied.state with
        segments := Function.update applied.state.segments slot
          { applied.state.segments slot with used := used } } }
  else pure applied

def mutateSliding (current : PersistedState) (request : Request) : Machine Applied := do
  let width ← segmentWidth request.policy.period.microseconds
  let index ← segmentIndex request.now.unixMicro width
  let oldest ← segmentIndex (periodAgo request).unixMicro width
  let usage ← collectUsage oldest (List.ofFn current.segments) 0 maxInt64
  let current := { current with
    segments := dropExpired current.segments oldest
    used := usage.1
    carried := usageExceedsLimit usage.1 request.policy.limit }
  consumeSegment current request index width usage.2

/-- The one loop of `mutateSlidingLegacy`, which clears and counts in one pass and
counts in the state itself. -/
def sweepLegacy (oldest : Int) : List (Fin 16) → PersistedState → Int →
    Machine (PersistedState × Int)
  | [], current, earliest => pure (current, earliest)
  | slot :: rest, current, earliest =>
    if (current.segments slot).index ≤ oldest then
      sweepLegacy oldest rest
        { current with segments := Function.update current.segments slot {} } earliest
    else do
      let used ← u64 ((current.used : Int) + (current.segments slot).used)
      sweepLegacy oldest rest { current with used := used }
        (if (current.segments slot).used ≠ 0 then min earliest (current.segments slot).index
          else earliest)

def mutateSlidingLegacy (current : PersistedState) (request : Request) : Machine Applied := do
  let width ← segmentWidth request.policy.period.microseconds
  let index ← segmentIndex request.now.unixMicro width
  let oldest ← segmentIndex (periodAgo request).unixMicro width
  let swept ← sweepLegacy oldest (List.finRange 16) { current with used := 0 } maxInt64
  consumeSegment swept.1 request index width swept.2

/-! ## Strict validation -/

/-- The loop of `strictSlidingUsage`: the usage counted, and whether it exceeds
the exact range. -/
def slidingUsage (oldest : Int) : List PersistedSegment → Nat → Machine (Nat × Bool)
  | [], used => pure (used, false)
  | segment :: rest, used =>
    if segment.index ≤ oldest then slidingUsage oldest rest used
    else do
      let room ← u64 (maxExactMicros - used)
      if segment.used > room then pure (0, true)
      else do
        let used ← u64 ((used : Int) + segment.used)
        slidingUsage oldest rest used

def strictSlidingUsage (current : PersistedState) (request : Request) : Machine (Nat × Bool) := do
  let width ← segmentWidth request.policy.period.microseconds
  let oldest ← segmentIndex (periodAgo request).unixMicro width
  slidingUsage oldest (List.ofFn current.segments) 0

/-- The loop of `validateSlidingPositions`. -/
def slidingPositions (segments : Segments) (currentIndex oldest : Int) :
    List (Fin 16) → Machine (Option Sentinel)
  | [] => pure none
  | slot :: rest =>
    if (segments slot).used = 0 ∨ (segments slot).index ≤ oldest then
      slidingPositions segments currentIndex oldest rest
    else if (segments slot).index > currentIndex then pure (some .corrupt)
    else do
      let position ← positiveRemainder (segments slot).index 16
      if position ≠ slot.val then pure (some .corrupt)
      else slidingPositions segments currentIndex oldest rest

def validateSlidingPositions (current : PersistedState) (request : Request) :
    Machine (Option Sentinel) := do
  let width ← segmentWidth request.policy.period.microseconds
  let currentIndex ← segmentIndex request.now.unixMicro width
  let oldest ← segmentIndex (periodAgo request).unixMicro width
  slidingPositions current.segments currentIndex oldest (List.finRange 16)

/-- The integrity tests of `mutateStateMode` on a stored state, by algorithm. -/
def checkIntegrity (current : PersistedState) (request : Request) : Machine (Option Sentinel) := do
  if validPersistedMicros current.observedMicros = false then pure (some .corrupt)
  else match current.algorithm with
    | .tokenBucket => do
      let period ← u64 request.policy.period.microseconds
      if validPersistedMicros current.lastMicros = false ∨
          (current.remainder : Int) > maxExactMicros ∨
          (current.revision = request.policy.revision ∧ current.remainder ≥ period) then
        pure (some .corrupt)
      else if current.revision = request.policy.revision ∧
          current.tokens > request.policy.limit then
        pure (some .corrupt)
      else pure none
    | .fixedWindow =>
      if validPersistedMicros current.window = false ∨ (current.used : Int) > maxExactMicros ∨
          (current.revision = request.policy.revision ∧ current.used > request.policy.limit ∧
            current.carried = false) then
        pure (some .corrupt)
      else pure none
    | .slidingWindow =>
      if (List.ofFn current.segments).any (fun segment =>
          !validPersistedMicros segment.index || decide ((segment.used : Int) > maxExactMicros)) then
        pure (some .corrupt)
      else pure none
    | _ => pure none

/-- The identity tests of `mutateStateMode`, followed by the strict ones. -/
def checkStored (current : PersistedState) (request : Request) (strict : Bool) :
    Machine (Option Sentinel) :=
  if current.schema ≠ stateSchema then pure (some .corrupt)
  else if current.policyID ≠ request.policy.id then pure (some .corrupt)
  else if current.algorithm ≠ request.policy.algorithm then pure (some .corrupt)
  else if strict then checkIntegrity current request
  else pure none

/-- The strict tests of `mutateStateMode` that need the effective time. -/
def checkEffective (current : PersistedState) (request : Request) : Machine (Option Sentinel) := do
  match ← validateServerClockRange request.now request.policy.period with
  | some problem => pure (some problem)
  | none =>
    if usesWindowMetadata request.policy.algorithm = true ∧ current.periodMicros ≠ 0 ∧
        current.periodMicros ≠ request.policy.period.microseconds then
      pure (some .corrupt)
    else if request.policy.algorithm = .slidingWindow then do
      match ← validateSlidingPositions current request with
      | some problem => pure (some problem)
      | none => do
        let usage ← strictSlidingUsage current request
        if usage.2 = true ∨ (current.revision = request.policy.revision ∧
            usageExceedsLimit usage.1 request.policy.limit = true ∧ current.carried = false) then
          pure (some .corrupt)
        else pure none
    else pure none

/-! ## `mutateState` -/

/-- What `mutateStateMode` returns, and what its argument holds then: a caller
keeps the pointer it passed in. -/
structure Mutation where
  argument : Option PersistedState
  next : Option PersistedState
  decision : Decision
  error : Option Sentinel
  deriving DecidableEq

/-- An early return before anything was written. -/
def Mutation.failed (argument : Option PersistedState) (problem : Sentinel) : Mutation :=
  { argument := argument, next := none, decision := {}, error := some problem }

/-- A return of the state worked on. A `nil` argument stays `nil`. -/
def Mutation.finished (argument : Option PersistedState) (applied : Applied) : Mutation :=
  { argument := argument.map fun _ => applied.state
    next := some applied.state
    decision := applied.decision
    error := applied.error }

/-- The state that `mutateStateMode` allocates for a `nil` argument. -/
def freshState (request : Request) (strict : Bool) : PersistedState :=
  let state : PersistedState :=
    { policyID := request.policy.id
      revision := request.policy.revision
      algorithm := request.policy.algorithm
      tokens := request.policy.limit
      lastMicros := request.now.unixMicro
      observedMicros := request.now.unixMicro }
  if strict then recordWindowPeriod state request.policy else state

/-- The carry of a token balance into another revision. -/
def carryToken (current : PersistedState) (request : Request) : PersistedState :=
  if request.policy.algorithm = .tokenBucket ∧ current.revision ≠ request.policy.revision then
    { current with
      tokens := min current.tokens request.policy.limit
      remainder := 0
      lastMicros := max current.lastMicros request.now.unixMicro }
  else current

/-- The last part of `mutateStateMode`: record time and revision, then dispatch. -/
def dispatch (current : PersistedState) (request : Request) (strict : Bool) : Machine Applied :=
  let current := { current with
    observedMicros := request.now.unixMicro
    revision := request.policy.revision }
  match request.policy.algorithm with
  | .tokenBucket => mutateToken current request
  | .fixedWindow => mutateFixed current request
  | _ => if strict then mutateSliding current request else mutateSlidingLegacy current request

/-- A request whose clock is behind the stored observation is moved up to it. -/
def clampRequest (current : PersistedState) (request : Request) : Request :=
  let observed := max request.now.unixMicro current.observedMicros
  if observed ≠ request.now.unixMicro then { request with now := Time.ofUnixMicro observed }
  else request

/-- `mutateStateMode` at the effective time. -/
def mutateEffective (argument : Option PersistedState) (current : PersistedState)
    (request : Request) (strict : Bool) : Machine Mutation :=
  if strict then do
    match ← checkEffective current request with
    | some problem => pure (.failed argument problem)
    | none => do
      let applied ← dispatch (recordWindowPeriod (carryToken current request) request.policy)
        request strict
      pure (.finished argument applied)
  else do
    let applied ← dispatch current request strict
    pure (.finished argument applied)

/-- `mutateStateMode` from the point where there is a state to work on. -/
def mutateLoaded (argument : Option PersistedState) (current : PersistedState)
    (request : Request) (strict : Bool) : Machine Mutation :=
  mutateEffective argument current (clampRequest current request) strict

/-- The first test of `mutateStateMode`. -/
def windowOverflows (request : Request) (strict : Bool) : Machine Bool :=
  if strict = true ∧ request.policy.algorithm = .fixedWindow then do
    let window ← floor request.now.unixMicro request.policy.period.microseconds
    pure (!validPersistedMicros window)
  else pure false

/-- `mutateStateMode` after its first test: allocate a state or check the one given. -/
def mutateStored (current : Option PersistedState) (request : Request) (strict : Bool) :
    Machine Mutation :=
  match current with
  | none => mutateLoaded none (freshState request strict) request strict
  | some state => do
    match ← checkStored state request strict with
    | some problem => pure (.failed current problem)
    | none => mutateLoaded current state request strict

def mutateStateMode (current : Option PersistedState) (request : Request) (strict : Bool) :
    Machine Mutation := do
  if ← windowOverflows request strict then pure (.failed current .overflow)
  else mutateStored current request strict

def mutateState (current : Option PersistedState) (request : Request) : Machine Mutation :=
  mutateStateMode current request true

def mutateStateLegacy (current : Option PersistedState) (request : Request) : Machine Mutation :=
  mutateStateMode current request false

end RateLimit.Postgres
