import RateLimit.GoRuntime

/-! Policies, requests and decisions: `policy.go`, `request.go`, `decision.go`,
`errors.go`, and the two completeness tests the strict service applies to a
decision. A `Policy` only exists through `newPolicy` and a request only reaches a
backend after `Request.validate`; `ValidRequest` carries both facts, and
`ValidRequest.Bounds` states once what the two checks guarantee in plain
integers. Everything that follows takes its bounds from there. -/
namespace RateLimit

/-- The error values of `errors.go`. -/
inductive Sentinel where
  | rejected | invalidPolicy | invalidKey | invalidRequest | unavailable | deadline
  | overflow | corrupt | unsupported | leaseNotFound | leaseNotOwned
  deriving DecidableEq, Repr

/-- `fmt.Errorf("%w: detail", sentinel)`. -/
structure WrappedError where
  sentinel : Sentinel
  detail : String
  deriving DecidableEq, Repr

/-- `Algorithm` is a string in Go; stored state can hold any other one. -/
inductive Algorithm where
  | tokenBucket | fixedWindow | slidingWindow | concurrency
  | other (name : GoString)
  deriving DecidableEq, Repr

inductive FailureMode where
  | failClosed | failOpen
  | other (code : UInt8)
  deriving DecidableEq, Repr

inductive Consistency where
  | unset | processLocal | strong
  | other (name : GoString)
  deriving DecidableEq, Repr

/-- The largest integer that Lua's numbers hold exactly, `2 ^ 53 - 1`. -/
def maxExactInteger : Nat := 9007199254740991

def maxConcurrencyLeases : Nat := 1024

/-- The inputs of `NewPolicy`. The two durations are Go `int64` values: that bound
is part of the type, and for a lease no later check repeats it. -/
structure PolicySpec where
  id : GoString
  revision : GoString
  algorithm : Algorithm
  capacity : Nat
  period : Duration
  burst : Nat := 0
  maxCost : Nat := 0
  failureMode : FailureMode := .failClosed
  consistency : Consistency := .unset
  lease : Duration := ⟨0⟩
  period_int64 : period.nanos ≤ Machine.maxInt64 := by decide
  lease_int64 : lease.nanos ≤ Machine.maxInt64 := by decide
  deriving DecidableEq, Repr

/-- A built policy has the fields of its specification, with the defaults for
`maxCost` and `consistency` filled in. -/
structure Policy extends PolicySpec
  deriving DecidableEq, Repr

/-- `Policy.Limit`. `NewPolicy` has refused a sum that carries. -/
def Policy.limit (p : Policy) : Nat := p.capacity + p.burst

/-- The alphabet of identifiers: letters, digits and `-_.:`. The source ranges
over runes; a byte outside ASCII is part of no rune in this set. -/
def identifierByte (byte : UInt8) : Bool :=
  (97 ≤ byte && byte ≤ 122) || (65 ≤ byte && byte ≤ 90) || (48 ≤ byte && byte ≤ 57) ||
    byte == 45 || byte == 95 || byte == 46 || byte == 58

def validPolicyIdentifier (value : GoString) (limit : Nat) : Bool :=
  !value.isEmpty && decide (value.length ≤ limit) && value.all identifierByte

/-- The duration check of `NewPolicy`, by algorithm. -/
def durationProblem (spec : PolicySpec) : Option WrappedError :=
  match spec.algorithm with
  | .tokenBucket | .fixedWindow | .slidingWindow =>
    if spec.period.nanos < Duration.microsecond ∨ spec.period.nanos.tmod Duration.microsecond ≠ 0 then
      some ⟨.invalidPolicy, "period must use positive microsecond precision"⟩
    else none
  | .concurrency =>
    if spec.lease.nanos < Duration.microsecond ∨ spec.lease.nanos.tmod Duration.microsecond ≠ 0 then
      some ⟨.invalidPolicy, "concurrency lease must use positive microsecond precision"⟩
    else none
  | .other _ => some ⟨.invalidPolicy, "unknown algorithm"⟩

/-- The checks of `NewPolicy` after the durations, given the exact limit. -/
def limitProblem (spec : PolicySpec) (limit : Nat) : Option WrappedError :=
  -- For a concurrency policy the conversion may wrap; its value is then not used.
  let periodMicros := (spec.period.microseconds % 18446744073709551616).toNat
  let maxCost := if spec.maxCost = 0 then limit else spec.maxCost
  if spec.algorithm ≠ .concurrency ∧ limit > maxExactInteger / periodMicros then
    some ⟨.invalidPolicy, "limit and period exceed exact arithmetic bounds"⟩
  else if spec.algorithm = .concurrency ∧ limit > maxConcurrencyLeases then
    some ⟨.invalidPolicy, "concurrency limit exceeds lease budget"⟩
  else if maxCost > limit then
    some ⟨.invalidPolicy, "maximum cost exceeds limit"⟩
  else if spec.failureMode ≠ .failClosed ∧ spec.failureMode ≠ .failOpen then
    some ⟨.invalidPolicy, "unknown failure mode"⟩
  else if spec.algorithm = .concurrency ∧ spec.failureMode = .failOpen then
    some ⟨.invalidPolicy, "concurrency leases cannot fail open"⟩
  else if spec.consistency ≠ .unset ∧ spec.consistency ≠ .processLocal ∧
      spec.consistency ≠ .strong then
    some ⟨.invalidPolicy, "unknown consistency"⟩
  else none

def newPolicy (spec : PolicySpec) : Except WrappedError Policy :=
  if !validPolicyIdentifier spec.id 64 || !validPolicyIdentifier spec.revision 64 ||
      spec.capacity == 0 then
    .error ⟨.invalidPolicy, "identity and capacity are required"⟩
  else
    let limit := (Machine.add64 spec.capacity spec.burst 0).1
    let carry := (Machine.add64 spec.capacity spec.burst 0).2
    if carry ≠ 0 then
      .error ⟨.invalidPolicy, "capacity plus burst exceeds exact arithmetic"⟩
    else if limit > maxExactInteger then
      .error ⟨.invalidPolicy, "capacity plus burst exceeds exact arithmetic"⟩
    else match durationProblem spec with
      | some problem => .error problem
      | none => match limitProblem spec limit with
        | some problem => .error problem
        | none => .ok
          { spec with
            maxCost := if spec.maxCost = 0 then limit else spec.maxCost
            consistency := if spec.consistency = .unset then .processLocal else spec.consistency }

/-- The duration a request must leave room for: the lease of a concurrency policy
and the period of any other. -/
def Policy.duration (p : Policy) : Duration :=
  if p.algorithm = .concurrency then p.lease else p.period

/-- A key as the backends see it. -/
structure Key where
  value : GoString
  subjectKind : GoString
  deriving DecidableEq, Repr

/-- A weighted admission attempt at an explicit time. -/
structure Request where
  policy : Policy
  key : Key
  cost : Nat
  now : Time
  deriving DecidableEq, Repr

def Request.validate (r : Request) : Except WrappedError Unit :=
  let incomplete := ⟨.invalidRequest, "policy, key, time, and bounded cost are required"⟩
  if r.policy.id = [] then .error incomplete
  else if r.key.value = [] then .error incomplete
  else if r.now = Time.zero then .error incomplete
  else if r.cost = 0 then .error incomplete
  else if r.cost > r.policy.maxCost then .error incomplete
  else if r.now.unixMicro < -maxExactInteger then
    .error ⟨.invalidRequest, "time exceeds exact backend range"⟩
  else if r.now.unixMicro > maxExactInteger - r.policy.duration.microseconds then
    .error ⟨.invalidRequest, "reset exceeds exact backend range"⟩
  else .ok ()

/-- `Reason`; the zero value is the empty string. -/
inductive Reason where
  | allowed | limited | failOpen | backendUnavailable | atomicRejected
  | other (text : GoString)
  deriving DecidableEq, Repr

structure Decision where
  allowed : Bool := false
  remaining : Nat := 0
  limit : Nat := 0
  reset : Time := Time.zero
  retryAfter : Duration := ⟨0⟩
  reason : Reason := .other []
  backend : GoString := []
  policyRevision : GoString := []
  deriving DecidableEq, Repr

/-- What an admission call returns. -/
structure Answer where
  decision : Decision
  error : Option Sentinel
  deriving DecidableEq, Repr

/-- The cost an answer admits. -/
def Answer.admitted (answer : Answer) (request : Request) : Nat :=
  if answer.error = none then request.cost else 0

/-- `completeAllowed` of the strict service. -/
def completeAllowed (decision : Decision) (request : Request) : Prop :=
  decision.allowed = true ∧ decision.reason = .allowed ∧
    decision.limit = request.policy.limit ∧
    decision.remaining ≤ request.policy.limit - request.cost ∧
    decision.reset ≠ Time.zero ∧ decision.retryAfter.nanos = 0

/-- `completeRejected` of the strict service. -/
def completeRejected (decision : Decision) (request : Request) : Prop :=
  decision.allowed = false ∧ decision.reason = .limited ∧
    decision.limit = request.policy.limit ∧ decision.remaining < request.cost ∧
    decision.reset ≠ Time.zero ∧ 0 ≤ decision.retryAfter.nanos

/-! ## What construction and validation guarantee -/

/-- A rate algorithm keeps no leases. -/
def Algorithm.IsRate (a : Algorithm) : Prop :=
  a = .tokenBucket ∨ a = .fixedWindow ∨ a = .slidingWindow

instance (a : Algorithm) : Decidable a.IsRate := inferInstanceAs (Decidable (_ ∨ _ ∨ _))

/-- A policy that `NewPolicy` returned. -/
def Policy.Built (p : Policy) : Prop := ∃ spec, newPolicy spec = .ok p

/-- The integers behind a built policy. `micros` is the period of a rate policy
and the lease of a concurrency policy. -/
structure Policy.Sound (p : Policy) : Prop where
  id_valid : validPolicyIdentifier p.id 64 = true
  revision_valid : validPolicyIdentifier p.revision 64 = true
  capacity_pos : 0 < p.capacity
  limit_le : p.limit ≤ maxExactInteger
  maxCost_pos : 0 < p.maxCost
  maxCost_le : p.maxCost ≤ p.limit
  period : p.algorithm.IsRate →
    ∃ micros : Nat, 0 < micros ∧ p.period = .ofMicros micros ∧ p.limit * micros ≤ maxExactInteger
  lease : p.algorithm = .concurrency →
    p.limit ≤ maxConcurrencyLeases ∧ ∃ micros : Nat, 0 < micros ∧ p.lease = .ofMicros micros
  known : p.algorithm.IsRate ∨ p.algorithm = .concurrency

private theorem whole_micros {d : Duration}
    (checked : ¬ (d.nanos < Duration.microsecond ∨ d.nanos.tmod Duration.microsecond ≠ 0)) :
    ∃ micros : Nat, 0 < micros ∧ d = .ofMicros micros := by
  simp only [Duration.microsecond, not_or, not_lt, ne_eq, not_not] at checked
  refine ⟨(d.nanos / 1000).toNat, by omega, ?_⟩
  have whole : d.nanos % 1000 = 0 := by
    rw [← Int.tmod_eq_emod_of_nonneg (by omega)]
    exact checked.2
  cases d with
  | mk nanos =>
    simp only [Duration.ofMicros, Duration.mk.injEq] at *
    omega

private theorem duration_checked {spec : PolicySpec} (clear : durationProblem spec = none) :
    (spec.algorithm.IsRate ∧ ∃ micros : Nat, 0 < micros ∧ spec.period = .ofMicros micros) ∨
      (spec.algorithm = .concurrency ∧ ∃ micros : Nat, 0 < micros ∧ spec.lease = .ofMicros micros) := by
  unfold durationProblem at clear
  cases kind : spec.algorithm <;> simp only [kind] at clear
  case other name => cases clear
  case concurrency =>
    split at clear
    · cases clear
    · exact Or.inr ⟨rfl, whole_micros ‹_›⟩
  all_goals
    split at clear
    · cases clear
    · exact Or.inl ⟨by simp [Algorithm.IsRate], whole_micros ‹_›⟩

private theorem guard_clear {c : Prop} [Decidable c] {problem : ε} {rest : Option ε}
    (clear : (if c then some problem else rest) = none) : ¬ c ∧ rest = none := by
  by_cases holds : c
  · rw [if_pos holds] at clear
    cases clear
  · rw [if_neg holds] at clear
    exact ⟨holds, clear⟩

private theorem limit_checked {spec : PolicySpec} (clear : limitProblem spec limit = none) :
    (spec.algorithm ≠ .concurrency →
      limit ≤ maxExactInteger / (spec.period.microseconds % 18446744073709551616).toNat) ∧
    (spec.algorithm = .concurrency → limit ≤ maxConcurrencyLeases) ∧
    (if spec.maxCost = 0 then limit else spec.maxCost) ≤ limit := by
  obtain ⟨rate, clear⟩ := guard_clear clear
  obtain ⟨lease, clear⟩ := guard_clear clear
  obtain ⟨cost, -⟩ := guard_clear clear
  simp only [not_and, gt_iff_lt, not_lt] at rate lease cost
  exact ⟨rate, lease, cost⟩

/-- Every policy `NewPolicy` returns has all its arithmetic in the exact range. -/
theorem Policy.Built.sound {p : Policy} (built : p.Built) : p.Sound := by
  obtain ⟨spec, made⟩ := built
  unfold newPolicy at made
  split at made
  · cases made
  rename_i identity
  simp only [Bool.or_eq_true, Bool.not_eq_true', beq_iff_eq, not_or, Bool.not_eq_false] at identity
  dsimp only at made
  split at made
  · cases made
  rename_i noCarry
  split at made
  · cases made
  rename_i exact
  have limit : (Machine.add64 spec.capacity spec.burst 0).1 = spec.capacity + spec.burst := by
    simp only [Machine.add64] at noCarry ⊢
    omega
  rw [limit] at exact
  simp only [limit] at made
  split at made
  · cases made
  rename_i durations
  split at made
  · cases made
  rename_i limits
  have checked := duration_checked durations
  obtain ⟨rate, lease, cost⟩ := limit_checked limits
  cases made
  have capacity : 0 < spec.capacity := Nat.pos_of_ne_zero identity.2
  refine ⟨identity.1.1, identity.1.2, capacity, by simpa [Policy.limit] using exact, ?_, ?_, ?_, ?_, ?_⟩
  · dsimp only
    split <;> omega
  · exact cost
  · intro isRate
    rcases checked with ⟨_, micros, positive, period⟩ | ⟨concurrent, _⟩
    · refine ⟨micros, positive, period, ?_⟩
      have notConcurrent : spec.algorithm ≠ .concurrency := by
        rintro same
        rw [same] at isRate
        simp [Algorithm.IsRate] at isRate
      have bound : spec.capacity + spec.burst ≤ maxExactInteger / micros := by
        have small := spec.period_int64
        simp only [period, Duration.ofMicros, Machine.maxInt64] at small
        rw [period, Duration.microseconds_ofMicros] at rate
        have residue : ((micros : Int) % 18446744073709551616).toNat = micros := by omega
        rw [residue] at rate
        exact rate notConcurrent
      exact (Nat.le_div_iff_mul_le positive).mp bound
    · rw [concurrent] at isRate
      simp [Algorithm.IsRate] at isRate
  · intro concurrent
    rcases checked with ⟨isRate, _⟩ | ⟨_, leased⟩
    · rw [show spec.algorithm = .concurrency from concurrent] at isRate
      simp [Algorithm.IsRate] at isRate
    · exact ⟨lease concurrent, leased⟩
  · rcases checked with ⟨isRate, _⟩ | ⟨concurrent, _⟩
    · exact Or.inl isRate
    · exact Or.inr concurrent

/-- A request as a backend receives it: the policy was built and the request
passed its validation. -/
structure ValidRequest extends Request where
  built : policy.Built
  accepted : toRequest.validate = .ok ()

/-- One call of a store: a request, and what the clock of its server shows then. -/
structure ClockedRequest where
  request : ValidRequest
  serverNow : Int

/-- The integers behind a valid rate request whose period is `period` microseconds. -/
structure Request.Bounds (r : Request) (period : Nat) : Prop where
  period_pos : 0 < period
  period_eq : r.policy.period = .ofMicros period
  product : r.policy.limit * period ≤ 9007199254740991
  capacity_pos : 0 < r.policy.capacity
  capacity_le : r.policy.capacity ≤ r.policy.limit
  limit_le : r.policy.limit ≤ 9007199254740991
  cost_pos : 0 < r.cost
  cost_le : r.cost ≤ r.policy.limit
  not_before : -9007199254740991 ≤ r.now.unixMicro
  room : r.now.unixMicro + period ≤ 9007199254740991

theorem Request.Bounds.period_le {r : Request} (bounds : r.Bounds period) :
    period ≤ 9007199254740991 := by
  have positive : 0 < r.policy.limit := Nat.lt_of_lt_of_le bounds.cost_pos bounds.cost_le
  exact Nat.le_trans (Nat.le_mul_of_pos_left period positive) bounds.product

/-- Only the time of a request may change on its way. -/
theorem Request.Bounds.retimed {r s : Request} (bounds : r.Bounds period) (policy : s.policy = r.policy)
    (cost : s.cost = r.cost) (early : -9007199254740991 ≤ s.now.unixMicro)
    (room : s.now.unixMicro + period ≤ 9007199254740991) : s.Bounds period where
  period_pos := bounds.period_pos
  period_eq := by rw [policy]; exact bounds.period_eq
  product := by rw [policy]; exact bounds.product
  capacity_pos := by rw [policy]; exact bounds.capacity_pos
  capacity_le := by rw [policy]; exact bounds.capacity_le
  limit_le := by rw [policy]; exact bounds.limit_le
  cost_pos := by rw [cost]; exact bounds.cost_pos
  cost_le := by rw [cost, policy]; exact bounds.cost_le
  not_before := early
  room := room

/-- What `Request.Validate` accepts. -/
theorem validate_iff (r : Request) : r.validate = .ok () ↔
    r.policy.id ≠ [] ∧ r.key.value ≠ [] ∧ r.now ≠ Time.zero ∧ 0 < r.cost ∧ r.cost ≤ r.policy.maxCost ∧
      -9007199254740991 ≤ r.now.unixMicro ∧
      r.now.unixMicro ≤ 9007199254740991 - r.policy.duration.microseconds := by
  unfold Request.validate
  dsimp only
  have most : (maxExactInteger : Int) = 9007199254740991 := rfl
  constructor
  · intro accepted
    iterate 7
      split at accepted
      · cases accepted
    rename_i named keyed dated costed bounded early late
    exact ⟨named, keyed, dated, by omega, by omega, by omega, by omega⟩
  · rintro ⟨named, keyed, dated, costed, bounded, early, late⟩
    rw [if_neg named, if_neg keyed, if_neg dated, if_neg (by omega), if_neg (by omega), if_neg (by omega),
      if_neg (by omega)]

theorem validate_keyed {r : Request} (accepted : r.validate = .ok ()) : r.key.value ≠ [] :=
  ((validate_iff r).mp accepted).2.1

/-- A valid request under a rate policy has these bounds for its own period. -/
theorem ValidRequest.bounds (r : ValidRequest) (rate : r.policy.algorithm.IsRate) :
    ∃ period, r.toRequest.Bounds period := by
  have sound := r.built.sound
  obtain ⟨period, positive, same, product⟩ := sound.period rate
  obtain ⟨-, -, -, costed, bounded, early, late⟩ := (validate_iff _).mp r.accepted
  have notConcurrent : r.policy.algorithm ≠ .concurrency := by
    intro concurrent
    rw [concurrent] at rate
    simp [Algorithm.IsRate] at rate
  rw [Policy.duration, if_neg notConcurrent, same, Duration.microseconds_ofMicros] at late
  exact ⟨period, positive, same, product, sound.capacity_pos, by simp [Policy.limit], sound.limit_le,
    costed, Nat.le_trans bounded sound.maxCost_le, early, by omega⟩

/-- A valid request at another time that leaves room for its duration. -/
def ValidRequest.moved (r : ValidRequest) (micros : Int) (early : -9007199254740991 ≤ micros)
    (late : micros ≤ 9007199254740991 - r.policy.duration.microseconds) : ValidRequest where
  policy := r.policy
  key := r.key
  cost := r.cost
  now := .ofUnixMicro micros
  built := r.built
  accepted := by
    have dated : Time.ofUnixMicro micros ≠ Time.zero := by
      intro same
      simp only [Time.ofUnixMicro, Time.zero, Time.mk.injEq] at same
      omega
    obtain ⟨named, keyed, -, costed, bounded, -, -⟩ := (validate_iff _).mp r.accepted
    exact (validate_iff _).mpr ⟨named, keyed, dated, costed, bounded, by simpa using early, by simpa using late⟩

/-! ## Concrete requests -/

/-- A rate policy under one fixed ID whose costs may go up to its limit. -/
def ratePolicy (algorithm : Algorithm) (revision : UInt8) (capacity burst period : Nat)
    (fits : (Duration.ofMicros period).nanos ≤ Machine.maxInt64) : Policy where
  id := [112]
  revision := [revision]
  algorithm := algorithm
  capacity := capacity
  burst := burst
  period := .ofMicros period
  maxCost := capacity + burst
  consistency := .processLocal
  period_int64 := fits

-- The durations that concrete policies of several modules share.
theorem zero_fits : (⟨0⟩ : Duration).nanos ≤ Machine.maxInt64 := by decide

theorem micro_fits : (Duration.ofMicros (1 : Nat)).nanos ≤ Machine.maxInt64 := by decide

theorem pane_fits : (Duration.ofMicros (16 : Nat)).nanos ≤ Machine.maxInt64 := by decide

theorem second_fits : (Duration.ofMicros (1000000 : Nat)).nanos ≤ Machine.maxInt64 := by decide

theorem minute_fits : (Duration.ofMicros (60000000 : Nat)).nanos ≤ Machine.maxInt64 := by decide

theorem hour_fits : (Duration.ofMicros (3600000000 : Nat)).nanos ≤ Machine.maxInt64 := by decide

theorem exact_fits : (Duration.ofMicros (9007199254740991 : Nat)).nanos ≤ Machine.maxInt64 := by decide

/-- A request under a policy that `NewPolicy` returns unchanged. -/
def Policy.request (policy : Policy) (built : newPolicy policy.toPolicySpec = .ok policy) (cost : Nat)
    (micros : Int)
    (accepted : Request.validate ⟨policy, ⟨[107], [117]⟩, cost, .ofUnixMicro micros⟩ = .ok ()) :
    ValidRequest where
  policy := policy
  key := ⟨[107], [117]⟩
  cost := cost
  now := .ofUnixMicro micros
  built := ⟨_, built⟩
  accepted := accepted

end RateLimit
