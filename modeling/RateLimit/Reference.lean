import RateLimit.PersistedState
import Mathlib.Data.Rat.Floor

/-! The reference model of `ratelimittest`: the test oracle that the backends are
compared with. Token balances are rationals (`big.Rat`), windows are counted in
nanoseconds. The states map is looked up under one policy ID and key throughout, so
a model state is the entry under that key, if there is one yet; the lease table of
an entry belongs to the lease operations and is left out. -/
namespace RateLimit.Reference

open Machine

structure ReferenceSegment where
  index : Int := 0
  used : Nat := 0
  deriving DecidableEq, Repr

structure ReferenceState where
  algorithm : Algorithm
  revision : GoString
  observed : Time
  tokens : ℚ
  last : Time
  window : Int := 0
  period : Duration
  used : Nat := 0
  segments : Fin 16 → ReferenceSegment := fun _ => {}
  deriving DecidableEq

/-- `floorRat`: `big.Int.Quo` truncates, and `Uint64` keeps one word. -/
def floorRat (value : ℚ) : Machine Nat := u64 (value.num.tdiv value.den)

def clampTime (now observed : Time) : Time :=
  if now.nanos < observed.nanos then observed else now

def floorBoundary (value size : Int) : Machine Int := do
  let quotient ← quo value size
  if value < 0 then do
    let remainder ← rem value size
    if remainder ≠ 0 then do
      let quotient ← i64 (quotient - 1)
      i64 (quotient * size)
    else i64 (quotient * size)
  else i64 (quotient * size)

def referenceRefillDuration (tokens : ℚ) (policy : Policy) : Machine Duration :=
  if tokens ≤ 0 then pure ⟨0⟩
  else do
    let value := tokens * policy.period.microseconds / policy.capacity
    let quotient := value.num.tdiv value.den
    let micros ← i64 (if value.num % value.den ≠ 0 then quotient + 1 else quotient)
    let nanos ← i64 (micros * Duration.microsecond)
    pure ⟨nanos⟩

/-- What a reference operation leaves in the map and returns. -/
structure Answered where
  state : ReferenceState
  decision : Decision
  error : Option Sentinel
  deriving DecidableEq

/-- The refill of `referenceToken`. -/
def refillReference (current : ReferenceState) (request : Request) : ReferenceState :=
  if current.last.nanos < request.now.nanos then
    let elapsed : ℚ := (request.now.sub current.last).microseconds / request.policy.period.microseconds
    let tokens := current.tokens + elapsed * request.policy.capacity
    { current with
      tokens := if tokens > request.policy.limit then (request.policy.limit : ℚ) else tokens
      last := request.now }
  else current

def referenceToken (current : ReferenceState) (request : Request) : Machine Answered := do
  let current := refillReference current request
  let limit := request.policy.limit
  if (request.cost : ℚ) ≤ current.tokens then do
    let current := { current with tokens := current.tokens - request.cost }
    let remaining ← floorRat current.tokens
    let reset ← referenceRefillDuration (limit - current.tokens) request.policy
    pure
      { state := current
        decision :=
          { allowed := true, limit := limit, remaining := remaining
            reset := request.now.add reset, reason := .allowed }
        error := none }
  else do
    let remaining ← floorRat current.tokens
    let reset ← referenceRefillDuration (limit - current.tokens) request.policy
    let retry ← referenceRefillDuration (request.cost - current.tokens) request.policy
    pure
      { state := current
        decision :=
          { allowed := false, limit := limit, remaining := remaining
            reset := request.now.add reset, retryAfter := retry, reason := .limited }
        error := some .rejected }

def referenceConsume (current : ReferenceState) (request : Request) (reset : Time) :
    Machine Answered := do
  let limit := request.policy.limit
  let remaining ← u64 ((limit : Int) - min current.used limit)
  if request.cost > remaining then
    pure
      { state := current
        decision :=
          { allowed := false, limit := limit, remaining := remaining, reset := reset
            retryAfter := ⟨max (reset.sub request.now).nanos 0⟩, reason := .limited }
        error := some .rejected }
  else do
    let used ← u64 ((current.used : Int) + request.cost)
    let remaining ← u64 ((limit : Int) - used)
    pure
      { state := { current with used := used }
        decision :=
          { allowed := true, limit := limit, remaining := remaining, reset := reset
            reason := .allowed }
        error := none }

def referenceFixed (current : ReferenceState) (request : Request) : Machine Answered := do
  let period := request.policy.period.nanos
  let now ← i64 request.now.nanos
  let window ← floorBoundary now period
  let current := if current.window ≠ window then { current with window := window, used := 0 }
    else current
  let stop ← i64 (window + period)
  referenceConsume current request ⟨stop⟩

/-- The loop of `referenceSliding`: clear what expired, count what did not, and
find the earliest used index, where zero means none. -/
def sweepReference (oldest : Int) : List (Fin 16) → ReferenceState → Int →
    Machine (ReferenceState × Int)
  | [], current, earliest => pure (current, earliest)
  | slot :: rest, current, earliest =>
    if (current.segments slot).index ≤ oldest then
      sweepReference oldest rest
        { current with segments := Function.update current.segments slot {} } earliest
    else do
      let used ← u64 ((current.used : Int) + (current.segments slot).used)
      sweepReference oldest rest { current with used := used }
        (if (current.segments slot).used > 0 ∧
            (earliest = 0 ∨ (current.segments slot).index < earliest) then
          (current.segments slot).index else earliest)

/-- The reset of `referenceSliding`. -/
def referenceReset (earliest width : Int) (request : Request) : Machine Time :=
  if earliest ≠ 0 then do
    let next ← i64 (earliest + 1)
    let boundary ← i64 (next * width)
    pure ((⟨boundary⟩ : Time).add request.policy.period)
  else pure (request.now.add request.policy.period)

def referenceSliding (current : ReferenceState) (request : Request) : Machine Answered := do
  let padded ← i64 (request.policy.period.nanos + 15)
  let width ← quo padded 16
  let now ← i64 request.now.nanos
  let boundary ← floorBoundary now width
  let index ← quo boundary width
  let ago ← i64 (request.now.add ⟨-request.policy.period.nanos⟩).nanos
  let boundary ← floorBoundary ago width
  let oldest ← quo boundary width
  let swept ← sweepReference oldest (List.finRange 16) { current with used := 0 } 0
  let current := swept.1
  let position ← rem index 16
  let position ← if position < 0 then i64 (position + 16) else pure position
  let slot ← Postgres.slotAt position
  let current := if (current.segments slot).index ≠ index then
      { current with segments := Function.update current.segments slot { index := index } }
    else current
  let reset ← referenceReset swept.2 width request
  let answered ← referenceConsume current request reset
  if answered.error = none then do
    let used ← u64 (((answered.state.segments slot).used : Int) + request.cost)
    pure { answered with
      state := { answered.state with
        segments := Function.update answered.state.segments slot
          { answered.state.segments slot with used := used } } }
  else pure answered

/-- `Reference.state`: the entry under the key, made on first use. -/
def stateFor (current : Option ReferenceState) (request : Request) : ReferenceState :=
  current.getD
    { algorithm := request.policy.algorithm
      revision := request.policy.revision
      observed := request.now
      tokens := request.policy.limit
      last := request.now
      period := request.policy.period }

/-- The carry of a balance into another revision: capped, then rounded down. -/
def carryReference (current : ReferenceState) (request : Request) : Machine ReferenceState :=
  if current.revision ≠ request.policy.revision then do
    let tokens ← floorRat (if current.tokens > request.policy.limit then (request.policy.limit : ℚ)
      else current.tokens)
    pure { current with tokens := tokens, last := clampTime request.now current.last }
  else pure current

/-- `Reference.admitLocked` once its tests have passed. -/
def admitCurrent (current : ReferenceState) (request : Request) : Machine Answered :=
  let request := { request with now := clampTime request.now current.observed }
  let current := { current with observed := request.now }
  match request.policy.algorithm with
  | .tokenBucket => referenceToken current request
  | .fixedWindow => referenceFixed current request
  | .slidingWindow => referenceSliding current request
  | _ => pure { state := current, decision := {}, error := some .unsupported }

/-- `Reference.admitLocked`. -/
def admitLocked (entry : Option ReferenceState) (request : Request) (strict : Bool) :
    Machine Answered := do
  let current := stateFor entry request
  if strict = true ∧ current.algorithm ≠ request.policy.algorithm then
    pure { state := current, decision := {}, error := some .corrupt }
  else if strict = true ∧ current.algorithm = .tokenBucket then do
    if current.tokens < 0 ∨
        (current.revision = request.policy.revision ∧ current.tokens > request.policy.limit) then
      pure { state := current, decision := {}, error := some .corrupt }
    else do
      let current ← carryReference current request
      admitCurrent { current with revision := request.policy.revision } request
  else if strict = true then
    admitCurrent { current with revision := request.policy.revision } request
  else admitCurrent current request

/-- `validateStrictEffectiveRange`, the same test as PostgreSQL's. -/
def validateStrictEffectiveRange (effective : Time) (duration : Duration) : Machine (Option Sentinel) :=
  Postgres.validateServerClockRange effective duration

def validateStrictDecisionTime (decision : Decision) (effective : Time) : Option Sentinel :=
  if decision.reset ≠ Time.zero ∧ decision.reset.nanos < effective.nanos then some .corrupt else none

def strictDecisionResult (decision : Decision) (error : Option Sentinel) (effective : Time) :
    Answer :=
  match validateStrictDecisionTime decision effective with
  | some problem => ⟨{}, some problem⟩
  | none => ⟨decision, error⟩

/-- The time a strict call is decided at. -/
def effectiveTime (entry : Option ReferenceState) (now : Time) : Time :=
  match entry with
  | some current => if now.nanos < current.observed.nanos then current.observed else now
  | none => now

/-- A window whose entry was made for another period. -/
def periodMismatch (entry : Option ReferenceState) (policy : Policy) : Bool :=
  match entry with
  | some current => Postgres.usesWindowMetadata policy.algorithm &&
      decide (current.period.nanos ≠ 0 ∧ current.period ≠ policy.period)
  | none => false

/-- `Reference.AdmitStrict` on a valid rate request, with the lock held. -/
def admitStrict (entry : Option ReferenceState) (request : Request) :
    Machine (Option ReferenceState × Answer) := do
  let request := { request with now := Time.ofUnixMicro request.now.unixMicro }
  if periodMismatch entry request.policy then pure (entry, ⟨{}, some .corrupt⟩)
  else do
    match ← validateStrictEffectiveRange (effectiveTime entry request.now) request.policy.period with
    | some problem => pure (entry, ⟨{}, some problem⟩)
    | none => do
      let answered ← admitLocked entry request true
      pure (some answered.state,
        strictDecisionResult answered.decision answered.error answered.state.observed)

end RateLimit.Reference
