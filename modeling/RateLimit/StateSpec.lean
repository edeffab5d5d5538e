import RateLimit.PersistedState
import RateLimit.SegmentRing
import RateLimit.TokenBucket
import Mathlib.Algebra.BigOperators.Fin

/-! What the machine-level functions of `PersistedState` compute, in integers. Each
function has one equation: inside the bounds of a valid request it is `pure` of the
expression on its right, so nothing wraps and nothing panics there. The hostile part
of a state never reaches arithmetic before a test has bounded it, and the equations
of the tests say exactly what they accept. -/
namespace RateLimit.Postgres

open Machine

/-! ## Arithmetic helpers -/

theorem quotient_bounds {value size bound : Int} (positive : 0 < size)
    (low : -bound ≤ value) (high : value ≤ bound) (_ : 0 ≤ bound) :
    -bound ≤ value / size ∧ value / size ≤ bound := by
  constructor
  · rw [Int.le_ediv_iff_mul_le positive]
    nlinarith
  · refine Int.ediv_le_of_le_mul positive ?_
    nlinarith

theorem multiple_bounds (value : Int) {size : Int} (positive : 0 < size) :
    value / size * size ≤ value ∧ value < value / size * size + size :=
  ⟨Int.ediv_mul_le value (Int.ne_of_gt positive), Int.lt_ediv_add_one_mul_self value positive |>.trans_eq
    (by ring)⟩

theorem floor_exact {value size : Int} (positive : 0 < size) (small : size ≤ 9007199254740991)
    (low : -18014398509481982 ≤ value) (high : value ≤ 18014398509481982) :
    floor value size = pure (value / size * size) := by
  have quotient := quotient_bounds positive low high (by decide)
  have multiple := multiple_bounds value positive
  have residueLow := Int.emod_nonneg value (Int.ne_of_gt positive)
  have residueHigh := Int.emod_lt_of_pos value positive
  have truncated := Int.tdiv_eq_ediv (a := value) (b := size)
  have leftover := Int.tmod_eq_emod (a := value) (b := size)
  rw [Int.sign_eq_one_of_pos positive] at truncated
  have result : i64 (value / size * size) = pure (value / size * size) := i64_exact (by omega) (by omega)
  unfold floor
  by_cases same : 0 ≤ value ∨ size ∣ value
  · rw [if_pos same, add_zero] at truncated
    rw [if_pos same, Nat.cast_zero, sub_zero] at leftover
    have notDown : ¬ (value % size ≠ 0 ∧ value < 0) := by
      rintro ⟨left, negative⟩
      rcases same with nonneg | divides
      · omega
      · exact left (Int.emod_eq_zero_of_dvd divides)
    rw [quo_exact (Int.ne_of_gt positive) (by omega) (by omega),
      rem_exact (Int.ne_of_gt positive) (by omega) (by omega)]
    simp only [pure_bind, truncated, leftover, result]
    split
    · rfl
    · rename_i nonzero
      rw [if_neg (fun negative => notDown ⟨nonzero, negative⟩)]
  · rw [if_neg same] at truncated leftover
    have negative : value < 0 := by omega
    rw [quo_exact (Int.ne_of_gt positive) (by omega) (by omega),
      rem_exact (Int.ne_of_gt positive) (by omega) (by omega)]
    have nonzero : value.tmod size ≠ 0 := by omega
    simp only [pure_bind, nonzero, if_false, negative, if_true]
    rw [i64_exact (by omega) (by omega), pure_bind, truncated, add_sub_cancel_right, result]

theorem positiveRemainder_exact (value : Int) : positiveRemainder value 16 = pure (value % 16) := by
  have leftover : value.tmod 16 = value % 16 ∨ value.tmod 16 = value % 16 - 16 ∧ value % 16 ≠ 0 := by
    rw [Int.tmod_eq_emod]
    split
    · simp
    · rename_i apart
      exact Or.inr ⟨rfl, fun zero => apart (Or.inr (Int.dvd_of_emod_eq_zero zero))⟩
  unfold positiveRemainder
  rw [rem_exact (by decide) (by omega) (by omega), pure_bind]
  split
  · rw [i64_exact (by omega) (by omega)]
    congr 1
    omega
  · congr 1
    omega

theorem segmentWidth_exact (positive : 0 < period) (small : period ≤ 9007199254740991) :
    segmentWidth period = pure ((period + 15) / 16) := by
  have truncated : (period + 16 - 1).tdiv 16 = (period + 15) / 16 := by
    rw [Int.tdiv_eq_ediv_of_nonneg (by omega)]
    omega
  unfold segmentWidth
  rw [i64_exact (by omega) (by omega), pure_bind, i64_exact (by omega) (by omega), pure_bind,
    quo_exact (by decide) (by omega) (by omega), truncated]

theorem segmentIndex_exact {micros width : Int} (positive : 0 < width)
    (small : width ≤ 9007199254740991) (low : -18014398509481982 ≤ micros)
    (high : micros ≤ 18014398509481982) : segmentIndex micros width = pure (micros / width) := by
  have quotient := quotient_bounds positive low high (by decide)
  unfold segmentIndex
  rw [floor_exact positive small low high, pure_bind, quo_exact (Int.ne_of_gt positive)]
  · rw [Int.mul_tdiv_cancel _ (Int.ne_of_gt positive)]
  · rw [Int.mul_tdiv_cancel _ (Int.ne_of_gt positive)]
    omega
  · rw [Int.mul_tdiv_cancel _ (Int.ne_of_gt positive)]
    omega

theorem periodAgo_unixMicro {request : Request} (same : request.policy.period = .ofMicros period) :
    (periodAgo request).unixMicro = request.now.unixMicro - period := by
  simp only [periodAgo, Time.add, Time.unixMicro, same, Duration.ofMicros]
  omega

/-! ## Token bucket -/

/-- The three numbers of a request's policy that the algorithms compute with. -/
def rateOf {request : Request} (bounds : request.Bounds period) : TokenRate :=
  ⟨request.policy.limit, request.policy.capacity, period, bounds.capacity_pos, bounds.period_pos⟩

/-- A stored balance that has been refilled to `now`. -/
def refilled (rate : TokenRate) (state : PersistedState) (now : Int) : PersistedState :=
  let level := rate.refill ⟨state.tokens, state.remainder⟩ (now - state.lastMicros).toNat
  { state with
    tokens := level.tokens, remainder := level.remainder, lastMicros := max state.lastMicros now }

/-- Spend the cost from a refilled balance, or say how long it takes to earn it. -/
def spendToken (rate : TokenRate) (state : PersistedState) (request : Request) : Applied :=
  if state.tokens < request.cost then
    { state := state
      decision :=
        { allowed := false, limit := rate.limit, remaining := state.tokens
          reset := request.now.add (.ofMicros (rate.wait (rate.limit - state.tokens) state.remainder))
          retryAfter := .ofMicros (rate.wait (request.cost - state.tokens) state.remainder)
          reason := .limited }
      error := some .rejected }
  else
    { state := { state with tokens := state.tokens - request.cost }
      decision :=
        { allowed := true, limit := rate.limit, remaining := state.tokens - request.cost
          reset := request.now.add (.ofMicros
            (rate.wait (rate.limit - (state.tokens - request.cost)) state.remainder))
          reason := .allowed }
      error := none }

theorem spendToken_short (rate : TokenRate) (short : state.tokens < request.cost) :
    (spendToken rate state request).error = some .rejected ∧
      (spendToken rate state request).state = state := by
  rw [spendToken, if_pos short]
  exact ⟨rfl, rfl⟩

theorem spendToken_room (rate : TokenRate) (room : ¬ state.tokens < request.cost) :
    (spendToken rate state request).error = none ∧
      (spendToken rate state request).state = { state with tokens := state.tokens - request.cost } := by
  rw [spendToken, if_neg room]
  exact ⟨rfl, rfl⟩

/-- `tokenDuration` returns whatever it is given: a dividend that does not fit is
answered before the division. -/
theorem tokenDuration_returns (tokens remainder : Nat) (policy : Policy) :
    ∃ duration, (tokenDuration tokens remainder policy).Returns duration := by
  unfold tokenDuration
  split
  · exact ⟨_, returns_pure _⟩
  refine returns_bind ⟨_, u64_returns _⟩ fun period => returns_bind ⟨_, u64_returns _⟩ fun high => ?_
  split
  · exact ⟨_, returns_pure _⟩
  rename_i inside
  have ends (micros : Nat) : ∃ duration, (if (micros : Int) > maxInt64 / Duration.microsecond then
        (pure ⟨maxInt64⟩ : Machine Duration)
      else u64 (micros * Duration.microsecond) >>= fun nanos => i64 nanos >>= fun nanos =>
        pure ⟨nanos⟩).Returns duration := by
    split
    · exact ⟨_, returns_pure _⟩
    · exact returns_bind ⟨_, u64_returns _⟩ fun nanos => returns_bind ⟨_, i64_returns _⟩ fun nanos =>
        ⟨_, returns_pure _⟩
  refine returns_bind ?_ fun quotient => ?_
  · unfold div64
    rw [if_neg inside]
    exact ⟨_, returns_pure _⟩
  · split
    · exact returns_bind ⟨_, u64_returns _⟩ ends
    · exact returns_bind ⟨_, returns_pure _⟩ ends

section
variable {request : Request} (bounds : request.Bounds period)
include bounds

theorem period_exact : u64 request.policy.period.microseconds = pure period := by
  have small := bounds.period_le
  rw [bounds.period_eq, Duration.microseconds_ofMicros, u64_exact (by omega) (by omega)]
  rfl

/-- `tokenDuration` is the waiting time, rounded up to a microsecond. -/
theorem tokenDuration_exact (within : tokens ≤ request.policy.limit) (fraction : remainder < period) :
    tokenDuration tokens remainder request.policy =
      pure (.ofMicros ((rateOf bounds).wait tokens remainder)) := by
  have capacity := bounds.capacity_pos
  unfold tokenDuration
  by_cases none : tokens = 0
  · have zero : (rateOf bounds).wait 0 remainder = 0 := by
      simp only [TokenRate.wait, rateOf, Nat.zero_mul, Nat.zero_sub]
      exact Nat.div_eq_of_lt (by omega)
    rw [if_pos none, none, zero]
    rfl
  have product : tokens * period ≤ 9007199254740991 :=
    (Nat.mul_le_mul_right period within).trans bounds.product
  have least : remainder ≤ tokens * period :=
    fraction.le.trans (Nat.le_mul_of_pos_left period (Nat.pos_of_ne_zero none))
  obtain ⟨borrow, words⟩ := mul_sub_words least (by omega) (by omega)
  have high : (mul64 tokens period).1 = 0 := Nat.div_eq_of_lt (by omega)
  have word : u64 (((mul64 tokens period).1 : Int) - (sub64 (mul64 tokens period).2 remainder 0).2) =
      pure 0 := by
    rw [u64_sub_exact borrow (by omega)]
    congr 1
    omega
  rw [high] at borrow words
  rw [Nat.le_zero.mp borrow, Nat.sub_zero, Nat.zero_mul, Nat.zero_add] at words
  have bound : (rateOf bounds).wait tokens remainder ≤ tokens * period - remainder :=
    (rateOf bounds).wait_le tokens remainder
  have exact : (rateOf bounds).wait tokens remainder =
      (tokens * period - remainder) / request.policy.capacity +
        if (tokens * period - remainder) % request.policy.capacity ≠ 0 then 1 else 0 :=
    (rateOf bounds).wait_eq tokens remainder
  generalize (rateOf bounds).wait tokens remainder = wait at bound exact ⊢
  rw [if_neg none, period_exact bounds, pure_bind]
  dsimp only
  rw [word, pure_bind, if_neg (by omega), div64_exact capacity, pure_bind, words, Nat.zero_mul,
    Nat.zero_add]
  generalize (tokens * period - remainder) / request.policy.capacity = quotient at exact ⊢
  have finish : (if (wait : Int) > maxInt64 / Duration.microsecond then pure ⟨maxInt64⟩
      else do
        let nanos ← u64 (wait * Duration.microsecond)
        let nanos ← i64 nanos
        pure ⟨nanos⟩ : Machine Duration) = pure (.ofMicros wait) := by
    have limit : maxInt64 / Duration.microsecond = 9223372036854775 := by decide
    have unit : Duration.microsecond = 1000 := rfl
    rw [if_neg (by rw [limit]; omega), unit, u64_exact (by omega) (by omega), pure_bind,
      i64_exact (by omega) (by omega), pure_bind]
    rfl
  by_cases inexact : (tokens * period - remainder) % request.policy.capacity ≠ 0
  · rw [if_pos inexact] at exact ⊢
    rw [u64_exact (by omega) (by omega), pure_bind, ← finish, exact]
    rfl
  · rw [if_neg inexact] at exact ⊢
    rw [pure_bind, ← finish, exact]
    rfl

/-- The refill of `mutateToken`, at any time. `Time.Sub` saturates after 292 years, and
that much time fills every bucket, so the saturation does not show. -/
theorem refillToken_at (fraction : current.remainder < period) (time : Time) :
    refillToken current { request with now := time } = pure (refilled (rateOf bounds) current time.unixMicro) := by
  have capacity := bounds.capacity_le
  have limit := bounds.limit_le
  have small := bounds.period_le
  unfold refillToken refilled
  generalize time.unixMicro = now
  rw [period_exact bounds, pure_bind]
  dsimp only
  by_cases past : current.lastMicros < now
  · have moved : ((Time.ofUnixMicro now).sub (.ofUnixMicro current.lastMicros)).nanos ≥
        Duration.microsecond := by
      simp only [Time.sub, Time.ofUnixMicro, Duration.microsecond, maxInt64]
      omega
    rw [if_pos moved, Time.sub_microseconds past.le, max_eq_right past.le]
    have enough : (rateOf bounds).limit * (rateOf bounds).period ≤
        9223372036854775 * (rateOf bounds).capacity :=
      bounds.product.trans (le_trans (by decide) (Nat.le_mul_of_pos_right _ bounds.capacity_pos))
    rw [← (rateOf bounds).refill_min _ (now - current.lastMicros).toNat enough]
    have whole : min (now - current.lastMicros) 9223372036854775 =
        (min (now - current.lastMicros).toNat 9223372036854775 : Nat) := by omega
    have positive : 0 < min (now - current.lastMicros).toNat 9223372036854775 := by omega
    have most := Nat.min_le_right (now - current.lastMicros).toNat 9223372036854775
    rw [whole]
    generalize min (now - current.lastMicros).toNat 9223372036854775 = elapsed at positive most ⊢
    by_cases below : current.tokens < request.policy.limit
    · have bound : elapsed * request.policy.capacity + current.remainder <
          18446744073709551616 * 18446744073709551616 := by
        have := Nat.mul_le_mul most (capacity.trans limit)
        omega
      obtain ⟨word, words⟩ := mul_add_words rfl bound
      rw [if_pos below, u64_exact (by omega) (by omega), pure_bind, Int.toNat_natCast,
        u64_add_exact word, pure_bind]
      generalize (mul64 elapsed request.policy.capacity).1 +
        (add64 (mul64 elapsed request.policy.capacity).2 current.remainder 0).2 = high at word words ⊢
      generalize (add64 (mul64 elapsed request.policy.capacity).2 current.remainder 0).1 = low at words ⊢
      have gap : u64 ((request.policy.limit : Int) - current.tokens) =
          pure (request.policy.limit - current.tokens) := u64_sub_exact below.le (by omega)
      by_cases filled : request.policy.limit - current.tokens ≤
          (elapsed * request.policy.capacity + current.remainder) / period
      · rw [(rateOf bounds).refill_filled ⟨current.tokens, current.remainder⟩ positive below filled]
        split
        · rfl
        · rw [div64_exact (by omega), pure_bind, words, gap, pure_bind, if_pos filled]
          rfl
      · -- One high word of periods would be more than any limit.
        have dry : ¬ period ≤ high := by
          intro flooded
          refine filled ((Nat.le_div_iff_mul_le bounds.period_pos).mpr ?_)
          rw [← words]
          nlinarith [bounds.limit_le, bounds.period_pos, Nat.sub_le request.policy.limit current.tokens]
        rw [(rateOf bounds).refill_unfilled ⟨current.tokens, current.remainder⟩ positive
            (not_le.mp filled), if_neg dry,
          div64_exact (by omega), pure_bind, words, gap, pure_bind, if_neg filled,
          u64_add_exact (by omega), pure_bind]
        rfl
    · have full : (rateOf bounds).limit ≤ current.tokens := not_lt.mp below
      simp only [if_neg below, TokenRate.refill, full, or_true, if_true]
  · have still : ((Time.ofUnixMicro now).sub (.ofUnixMicro current.lastMicros)).nanos <
        Duration.microsecond := by
      simp only [Time.sub, Time.ofUnixMicro, Duration.microsecond, maxInt64]
      omega
    have zero : (now - current.lastMicros).toNat = 0 := by omega
    rw [if_neg (by omega), zero, max_eq_left (by omega)]
    simp [TokenRate.refill]

theorem refillToken_exact (fraction : current.remainder < period) :
    refillToken current request = pure (refilled (rateOf bounds) current request.now.unixMicro) :=
  refillToken_at bounds fraction request.now

theorem mutateToken_at (within : current.tokens ≤ request.policy.limit) (fraction : current.remainder < period)
    (time : Time) :
    mutateToken current { request with now := time } = pure (spendToken (rateOf bounds)
      (refilled (rateOf bounds) current time.unixMicro) { request with now := time }) := by
  have limit := bounds.limit_le
  have held : (refilled (rateOf bounds) current time.unixMicro).tokens ≤ request.policy.limit :=
    (rateOf bounds).refill_tokens_le within
  have part : (refilled (rateOf bounds) current time.unixMicro).remainder < period :=
    (rateOf bounds).refill_remainder_lt fraction
  unfold mutateToken
  rw [refillToken_at bounds fraction, pure_bind]
  generalize refilled (rateOf bounds) current time.unixMicro = state at held part ⊢
  unfold spendToken
  dsimp only
  split
  · rename_i short
    have cost := bounds.cost_le
    rw [u64_sub_exact short.le (by omega), pure_bind, tokenDuration_exact bounds (by omega) part,
      pure_bind, u64_sub_exact held (by omega), pure_bind, tokenDuration_exact bounds (by omega) part]
    rfl
  · rename_i enough
    rw [u64_sub_exact (by omega) (by omega), pure_bind, u64_sub_exact (by omega) (by omega),
      pure_bind, tokenDuration_exact bounds (by omega) part]
    rfl

theorem mutateToken_exact (within : current.tokens ≤ request.policy.limit)
    (fraction : current.remainder < period) :
    mutateToken current request = pure (spendToken (rateOf bounds)
      (refilled (rateOf bounds) current request.now.unixMicro) request) :=
  mutateToken_at bounds within fraction request.now

end

/-! ## Windows -/

/-- The exact `consume`: usage beyond the limit leaves no room and is not cut. -/
def spendUsage (state : PersistedState) (request : Request) (reset : Time) : Applied :=
  if request.policy.limit - state.used < request.cost then
    { state := state
      decision :=
        { allowed := false, limit := request.policy.limit
          remaining := request.policy.limit - state.used, reset := reset
          retryAfter := ⟨max (reset.sub request.now).nanos 0⟩, reason := .limited }
      error := some .rejected }
  else
    { state := { state with used := state.used + request.cost }
      decision :=
        { allowed := true, limit := request.policy.limit
          remaining := request.policy.limit - (state.used + request.cost), reset := reset
          reason := .allowed }
      error := none }

@[simp] theorem spendUsage_reset (state : PersistedState) (request : Request) (reset : Time) :
    (spendUsage state request reset).decision.reset = reset := by
  unfold spendUsage
  split <;> rfl

/-- Usage with no room for the cost is left as it is. -/
theorem spendUsage_short (state : PersistedState) (reset : Time)
    (short : request.policy.limit - state.used < request.cost) :
    spendUsage state request reset =
      { state := state
        decision :=
          { allowed := false, limit := request.policy.limit
            remaining := request.policy.limit - state.used, reset := reset
            retryAfter := ⟨max (reset.sub request.now).nanos 0⟩, reason := .limited }
        error := some .rejected } :=
  if_pos short

/-- Usage with room for the cost takes it up. -/
theorem spendUsage_room (state : PersistedState) (reset : Time)
    (room : ¬ request.policy.limit - state.used < request.cost) :
    spendUsage state request reset =
      { state := { state with used := state.used + request.cost }
        decision :=
          { allowed := true, limit := request.policy.limit
            remaining := request.policy.limit - (state.used + request.cost), reset := reset
            reason := .allowed }
        error := none } :=
  if_neg room

/-- The start of the fixed window that holds an instant. -/
def windowStart (now : Int) (period : Nat) : Int := now / period * period

/-- The exact `mutateFixed`. -/
def spendFixed (period : Nat) (state : PersistedState) (request : Request) : Applied :=
  let window := windowStart request.now.unixMicro period
  let state := { state with
    window := window, used := if state.window = window then state.used else 0 }
  let applied := spendUsage state request (.ofUnixMicro (window + period))
  { applied with
    state := { applied.state with
      carried := usageExceedsLimit applied.state.used request.policy.limit } }

/-- What the current window has used before a request. -/
def windowUsed (period : Nat) (state : PersistedState) (now : Int) : Nat :=
  if state.window = windowStart now period then state.used else 0

/-- A fixed window moves to the window of the request and takes up the cost if there
is room for it. -/
theorem spendFixed_cases (period : Nat) (state : PersistedState) (request : Request) :
    (spendFixed period state request).state.window = windowStart request.now.unixMicro period ∧
    (((spendFixed period state request).error = some .rejected ∧
        (spendFixed period state request).state.used = windowUsed period state request.now.unixMicro) ∨
      ((spendFixed period state request).error = none ∧
        request.cost ≤ request.policy.limit - windowUsed period state request.now.unixMicro ∧
        (spendFixed period state request).state.used =
          windowUsed period state request.now.unixMicro + request.cost)) := by
  unfold spendFixed
  dsimp only
  by_cases short : request.policy.limit - windowUsed period state request.now.unixMicro < request.cost
  · rw [spendUsage_short _ _ short]
    exact ⟨rfl, Or.inl ⟨rfl, rfl⟩⟩
  · rw [spendUsage_room _ _ short]
    exact ⟨rfl, Or.inr ⟨rfl, not_lt.mp short, rfl⟩⟩

/-- The width of a segment: a sixteenth of the period, rounded up. -/
def widthOf (period : Nat) : Int := ((period : Int) + 15) / 16

/-- The segment that holds an instant. -/
def segmentAt (now : Int) (period : Nat) : Int := now / widthOf period

/-- The newest segment that no longer counts. -/
def oldestAt (now : Int) (period : Nat) : Int := (now - period) / widthOf period

/-- The slots of a state as a ring. -/
def ringOf (segments : Segments) : Ring 16 :=
  ⟨fun slot => (segments slot).index, fun slot => (segments slot).used⟩

/-- The earliest index with usage newer than `oldest`, `MaxInt64` without any. -/
def earliestUsed (oldest : Int) : List PersistedSegment → Int → Int
  | [], earliest => earliest
  | segment :: rest, earliest =>
    earliestUsed oldest rest
      (if oldest < segment.index ∧ segment.used ≠ 0 then min earliest segment.index else earliest)

/-- The reset of a sliding window: a period after its earliest used segment ends. -/
def slidingReset (width earliest : Int) (request : Request) : Time :=
  if earliest ≠ maxInt64 then
    (Time.ofUnixMicro ((earliest + 1) * width)).add request.policy.period
  else request.now.add request.policy.period

instance slots_ne_zero : NeZero 16 := ⟨by decide⟩

/-- Clear a slot for an index it does not hold yet. -/
def claimSlot (segments : Segments) (index : Int) : Segments :=
  if (segments (Ring.slot 16 index)).index ≠ index then
    Function.update segments (Ring.slot 16 index) { index := index }
  else segments

/-- Add to the slot of an index. -/
def creditSlot (segments : Segments) (index : Int) (cost : Nat) : Segments :=
  Function.update segments (Ring.slot 16 index)
    { segments (Ring.slot 16 index) with used := (segments (Ring.slot 16 index)).used + cost }

/-- The exact `consumeSegment`. -/
def spendSegment (state : PersistedState) (request : Request) (index width earliest : Int) : Applied :=
  let state := { state with segments := claimSlot state.segments index }
  let applied := spendUsage state request (slidingReset width earliest request)
  if applied.error = none then
    { applied with
      state := { applied.state with
        segments := creditSlot applied.state.segments index request.cost } }
  else applied

/-- A sliding window once what expired is cleared and the usage is counted. -/
def swept (period : Nat) (state : PersistedState) (request : Request) : PersistedState :=
  let oldest := oldestAt request.now.unixMicro period
  let used := (ringOf state.segments).total oldest
  { state with
    segments := dropExpired state.segments oldest
    used := used
    carried := usageExceedsLimit used request.policy.limit }

/-- The exact `mutateSliding`. -/
def spendSliding (period : Nat) (state : PersistedState) (request : Request) : Applied :=
  spendSegment (swept period state request) request (segmentAt request.now.unixMicro period)
    (widthOf period) (earliestUsed (oldestAt request.now.unixMicro period)
      (List.ofFn state.segments) maxInt64)

theorem spendSegment_reset (state : PersistedState) (request : Request) (index width earliest : Int) :
    (spendSegment state request index width earliest).decision.reset = slidingReset width earliest request := by
  unfold spendSegment
  dsimp only
  split <;> exact spendUsage_reset _ _ _

theorem spendSegment_short (index width earliest : Int)
    (short : request.policy.limit - state.used < request.cost) :
    (spendSegment state request index width earliest).error = some .rejected ∧
      (spendSegment state request index width earliest).state =
        { state with segments := claimSlot state.segments index } := by
  unfold spendSegment
  dsimp only
  rw [spendUsage_short { state with segments := claimSlot state.segments index } _ short,
    if_neg (by simp)]
  exact ⟨rfl, rfl⟩

theorem spendSegment_room (index width earliest : Int)
    (room : ¬ request.policy.limit - state.used < request.cost) :
    (spendSegment state request index width earliest).error = none ∧
      (spendSegment state request index width earliest).state =
        { state with
          used := state.used + request.cost
          segments := creditSlot (claimSlot state.segments index) index request.cost } := by
  unfold spendSegment
  dsimp only
  rw [spendUsage_room { state with segments := claimSlot state.segments index } _ room, if_pos rfl]
  exact ⟨rfl, rfl⟩

/-- A sliding window clears what expired, takes over the current slot and adds the
cost there if there is room for it. -/
theorem spendSliding_cases (period : Nat) (state : PersistedState) (request : Request) :
    ((spendSliding period state request).error = some .rejected ∧
        (spendSliding period state request).state.segments =
          claimSlot (dropExpired state.segments (oldestAt request.now.unixMicro period))
            (segmentAt request.now.unixMicro period)) ∨
      ((spendSliding period state request).error = none ∧
        request.cost ≤ request.policy.limit -
          (ringOf state.segments).total (oldestAt request.now.unixMicro period) ∧
        (spendSliding period state request).state.segments =
          creditSlot (claimSlot (dropExpired state.segments (oldestAt request.now.unixMicro period))
            (segmentAt request.now.unixMicro period)) (segmentAt request.now.unixMicro period)
            request.cost) := by
  unfold spendSliding
  by_cases short : request.policy.limit - (swept period state request).used < request.cost
  · obtain ⟨error, same⟩ := spendSegment_short (segmentAt request.now.unixMicro period) (widthOf period)
      (earliestUsed (oldestAt request.now.unixMicro period) (List.ofFn state.segments) maxInt64) short
    exact Or.inl ⟨error, by rw [same]; rfl⟩
  · obtain ⟨error, same⟩ := spendSegment_room (segmentAt request.now.unixMicro period) (widthOf period)
      (earliestUsed (oldestAt request.now.unixMicro period) (List.ofFn state.segments) maxInt64) short
    exact Or.inr ⟨error, not_lt.mp short, by rw [same]; rfl⟩

section
variable {request : Request} (bounds : request.Bounds period)
include bounds

omit bounds in
@[simp] theorem spendUsage_segments (state : PersistedState) (request : Request) (reset : Time) :
    (spendUsage state request reset).state.segments = state.segments := by
  unfold spendUsage
  split <;> rfl

theorem consume_exact (state : PersistedState) (reset : Time) :
    consume state request reset = pure (spendUsage state request reset) := by
  have limit := bounds.limit_le
  have cost := bounds.cost_pos
  have room : u64 ((request.policy.limit : Int) - (min state.used request.policy.limit : Nat)) =
      pure (request.policy.limit - state.used) := by
    rw [u64_sub_exact (by omega) (by omega)]
    congr 1
    omega
  unfold consume spendUsage
  dsimp only
  rw [room, pure_bind]
  split
  · rfl
  · rename_i enough
    rw [u64_add_exact (by omega), pure_bind, u64_sub_exact (by omega) (by omega)]
    rfl

theorem floor_now : floor request.now.unixMicro request.policy.period.microseconds =
    pure (windowStart request.now.unixMicro period) := by
  have positive := bounds.period_pos
  have small := bounds.period_le
  have early := bounds.not_before
  have late := bounds.room
  rw [bounds.period_eq, Duration.microseconds_ofMicros,
    floor_exact (by omega) (by omega) (by omega) (by omega)]
  rfl

theorem windowStart_bounds : windowStart request.now.unixMicro period ≤ request.now.unixMicro ∧
    request.now.unixMicro < windowStart request.now.unixMicro period + period := by
  have positive := bounds.period_pos
  exact multiple_bounds _ (by omega)

theorem mutateFixed_exact (state : PersistedState) :
    mutateFixed state request = pure (spendFixed period state request) := by
  have window := windowStart_bounds bounds
  have early := bounds.not_before
  have late := bounds.room
  have stop : i64 (windowStart request.now.unixMicro period + request.policy.period.microseconds) =
      pure (windowStart request.now.unixMicro period + period) := by
    rw [bounds.period_eq, Duration.microseconds_ofMicros, i64_exact (by omega) (by omega)]
  unfold mutateFixed spendFixed
  dsimp only
  rw [floor_now bounds, pure_bind, stop, pure_bind, consume_exact bounds, pure_bind]
  by_cases same : state.window = windowStart request.now.unixMicro period
  · rw [if_neg (not_not.mpr same), if_pos same, ← same]
  · rw [if_pos same, if_neg same]

omit bounds in
theorem windowStart_mono (positive : 0 < period) (later : now ≤ now') :
    windowStart now period ≤ windowStart now' period :=
  Int.mul_le_mul_of_nonneg_right (Int.ediv_le_ediv (by omega) later) (by omega)

omit bounds in
theorem segment_mono (positive : 0 < period) (later : now ≤ now') :
    oldestAt now period ≤ oldestAt now' period ∧ segmentAt now period ≤ segmentAt now' period := by
  have width : 0 < widthOf period := by
    unfold widthOf
    omega
  exact ⟨Int.ediv_le_ediv width (by omega), Int.ediv_le_ediv width later⟩

theorem widthOf_bounds : 0 < widthOf period ∧ widthOf period ≤ period ∧ period ≤ 16 * widthOf period := by
  have positive := bounds.period_pos
  unfold widthOf
  omega

/-- At least one segment counts, and no more than there are slots. -/
theorem segment_span (now : Int) : oldestAt now period < segmentAt now period ∧
    segmentAt now period - oldestAt now period ≤ 16 := by
  obtain ⟨positive, short, long⟩ := widthOf_bounds bounds
  have next : (now - period + 1 * widthOf period) / widthOf period = oldestAt now period + 1 :=
    Int.add_mul_ediv_right _ _ (Int.ne_of_gt positive)
  have last : (now - period + 16 * widthOf period) / widthOf period = oldestAt now period + 16 :=
    Int.add_mul_ediv_right _ _ (Int.ne_of_gt positive)
  have least := Int.ediv_le_ediv positive (show now - period + 1 * widthOf period ≤ now by omega)
  have most := Int.ediv_le_ediv positive (show now ≤ now - period + 16 * widthOf period by omega)
  rw [next] at least
  rw [last] at most
  unfold segmentAt
  omega

/-- A segment that counts begins within the last period. -/
theorem segment_bounds {index : Int} (newer : oldestAt request.now.unixMicro period < index)
    (past : index ≤ segmentAt request.now.unixMicro period) :
    request.now.unixMicro - period < index * widthOf period ∧
      index * widthOf period ≤ request.now.unixMicro ∧
      -18014398509481982 ≤ index ∧ index ≤ 9007199254740991 := by
  obtain ⟨positive, short, -⟩ := widthOf_bounds bounds
  have small := bounds.period_le
  have early := bounds.not_before
  have late := bounds.room
  have start := multiple_bounds (request.now.unixMicro - period) positive
  have stop := multiple_bounds request.now.unixMicro positive
  have first : -18014398509481982 ≤ (request.now.unixMicro - period) / widthOf period :=
    (quotient_bounds positive (by omega) (by omega) (by decide)).1
  have last : request.now.unixMicro / widthOf period ≤ 9007199254740991 :=
    (quotient_bounds positive (by omega) (by omega) (by decide)).2
  unfold oldestAt at newer
  unfold segmentAt at past
  refine ⟨?_, ?_, by omega, by omega⟩ <;> nlinarith

theorem segmentWidth_period : segmentWidth request.policy.period.microseconds = pure (widthOf period) := by
  have positive := bounds.period_pos
  have small := bounds.period_le
  rw [bounds.period_eq, Duration.microseconds_ofMicros, segmentWidth_exact (by omega) (by omega)]
  rfl

theorem segmentIndex_now :
    segmentIndex request.now.unixMicro (widthOf period) = pure (segmentAt request.now.unixMicro period) := by
  have width := widthOf_bounds bounds
  have small := bounds.period_le
  have early := bounds.not_before
  have late := bounds.room
  exact segmentIndex_exact width.1 (by omega) (by omega) (by omega)

theorem segmentIndex_periodAgo : segmentIndex (periodAgo request).unixMicro (widthOf period) =
    pure (oldestAt request.now.unixMicro period) := by
  have width := widthOf_bounds bounds
  have small := bounds.period_le
  have early := bounds.not_before
  have late := bounds.room
  rw [periodAgo_unixMicro bounds.period_eq]
  exact segmentIndex_exact width.1 (by omega) (by omega) (by omega)

end

theorem slotAt_exact (index : Int) : slotAt (index % 16) = pure (Ring.slot 16 index) := by
  have low := Int.emod_nonneg index (show (16 : Int) ≠ 0 by decide)
  have high := Int.emod_lt_of_pos index (show (0 : Int) < 16 by decide)
  rw [slotAt, dif_pos ⟨low, high⟩]
  rfl

/-- The usage that a list of segments holds newer than `oldest`. -/
def liveUsage (oldest : Int) (segments : List PersistedSegment) : Nat :=
  (segments.map fun segment => if oldest < segment.index then segment.used else 0).sum

theorem liveUsage_cons (oldest : Int) (segment : PersistedSegment) (rest : List PersistedSegment) :
    liveUsage oldest (segment :: rest) =
      (if oldest < segment.index then segment.used else 0) + liveUsage oldest rest := by
  simp [liveUsage]

theorem liveUsage_ofFn (segments : Segments) (oldest : Int) :
    liveUsage oldest (List.ofFn segments) = (ringOf segments).total oldest := by
  simp only [liveUsage, List.map_ofFn, List.sum_ofFn, Ring.total]
  rfl

theorem collectUsage_exact (fits : used + liveUsage oldest segments < 18446744073709551616) :
    collectUsage oldest segments used earliest =
      pure (used + liveUsage oldest segments, earliestUsed oldest segments earliest) := by
  induction segments generalizing used earliest with
  | nil => rfl
  | cons segment rest ih =>
    rw [liveUsage_cons] at fits ⊢
    unfold collectUsage earliestUsed
    by_cases live : oldest < segment.index
    · simp only [live, if_true, true_and] at fits ⊢
      rw [u64_add_exact (by omega), pure_bind, ih (by omega), Nat.add_assoc]
    · simp only [live, if_false, false_and, Nat.zero_add] at fits ⊢
      exact ih fits

/-- Where nothing is found the search returns what it started from; otherwise the
index of a segment that counts. -/
theorem earliestUsed_cases (oldest : Int) (segments : List PersistedSegment) (earliest : Int) :
    earliestUsed oldest segments earliest = earliest ∨
      ∃ segment ∈ segments, oldest < segment.index ∧ segment.used ≠ 0 ∧
        earliestUsed oldest segments earliest = segment.index := by
  induction segments generalizing earliest with
  | nil => exact Or.inl rfl
  | cons segment rest ih =>
    unfold earliestUsed
    rcases ih (if oldest < segment.index ∧ segment.used ≠ 0 then min earliest segment.index
      else earliest) with same | ⟨found, member, newer, used, same⟩
    · rw [same]
      split
      · rename_i counted
        rcases min_choice earliest segment.index with first | second
        · exact Or.inl first
        · exact Or.inr ⟨segment, by simp, counted.1, counted.2, second⟩
      · exact Or.inl rfl
    · exact Or.inr ⟨found, List.mem_cons_of_mem _ member, newer, used, same⟩

/-- The search returns no more than it started from, nor than any index that counts. -/
theorem earliestUsed_le (oldest : Int) (segments : List PersistedSegment) (earliest : Int) :
    earliestUsed oldest segments earliest ≤ earliest ∧
      ∀ segment ∈ segments, oldest < segment.index → segment.used ≠ 0 →
        earliestUsed oldest segments earliest ≤ segment.index := by
  induction segments generalizing earliest with
  | nil => simp [earliestUsed]
  | cons segment rest ih =>
    obtain ⟨least, others⟩ := ih (if oldest < segment.index ∧
      segment.used ≠ 0 then min earliest segment.index else earliest)
    rw [List.forall_mem_cons]
    refine ⟨least.trans ?_, fun newer used => least.trans ?_, others⟩
    · split
      · exact min_le_left _ _
      · exact le_rfl
    · rw [if_pos ⟨newer, used⟩]
      exact min_le_right _ _

theorem ringOf_dropExpired (segments : Segments) (oldest : Int) :
    ringOf (dropExpired segments oldest) = (ringOf segments).drop oldest := by
  unfold ringOf dropExpired Ring.drop
  congr 1 <;> funext slot <;> dsimp only <;> split <;> rfl

theorem ringOf_claimSlot (segments : Segments) (index : Int) :
    ringOf (claimSlot segments index) = (ringOf segments).claim index := by
  unfold claimSlot Ring.claim
  by_cases held : (ringOf segments).index (Ring.slot 16 index) = index
  · rw [if_pos held]
    exact congrArg ringOf (if_neg (not_not.mpr held))
  · rw [if_neg held]
    refine (congrArg ringOf (if_pos held)).trans ?_
    unfold ringOf
    congr 1 <;> funext slot <;> by_cases here : slot = Ring.slot 16 index <;>
      simp [here]

theorem ringOf_creditSlot (segments : Segments) (index : Int) (cost : Nat) :
    ringOf (creditSlot segments index cost) = (ringOf segments).credit (Ring.slot 16 index) cost := by
  unfold creditSlot Ring.credit ringOf
  congr 1 <;> funext slot <;> by_cases here : slot = Ring.slot 16 index <;>
    simp [here]

section
variable {request : Request} (bounds : request.Bounds period)
include bounds

theorem segmentReset_exact (counted : earliest ≠ maxInt64 →
      oldestAt request.now.unixMicro period < earliest ∧
        earliest ≤ segmentAt request.now.unixMicro period) :
    segmentReset earliest (widthOf period) request =
      pure (slidingReset (widthOf period) earliest request) := by
  unfold segmentReset slidingReset
  split
  · rename_i found
    obtain ⟨newer, past⟩ := counted found
    obtain ⟨start, stop, low, high⟩ := segment_bounds bounds newer past
    have width := widthOf_bounds bounds
    have early := bounds.not_before
    have late := bounds.room
    rw [i64_exact (by omega) (by omega), pure_bind, add_mul,
      i64_exact (by omega) (by omega), pure_bind]
  · rfl

theorem consumeSegment_exact (small : ∀ slot, (state.segments slot).used ≤ 9007199254740991)
    (counted : earliest ≠ maxInt64 → oldestAt request.now.unixMicro period < earliest ∧
      earliest ≤ segmentAt request.now.unixMicro period) :
    consumeSegment state request (segmentAt request.now.unixMicro period) (widthOf period) earliest =
      pure (spendSegment state request (segmentAt request.now.unixMicro period) (widthOf period)
        earliest) := by
  have reset := segmentReset_exact bounds counted
  generalize segmentAt request.now.unixMicro period = index at reset ⊢
  have claimed : (if (state.segments (Ring.slot 16 index)).index ≠ index then
        { state with
          segments := Function.update state.segments (Ring.slot 16 index) { index := index } }
      else state) = { state with segments := claimSlot state.segments index } := by
    unfold claimSlot
    split <;> rfl
  have used : (claimSlot state.segments index (Ring.slot 16 index)).used ≤ 9007199254740991 := by
    unfold claimSlot
    split
    · simp
    · exact small _
  unfold consumeSegment spendSegment
  rw [positiveRemainder_exact, pure_bind, slotAt_exact, pure_bind]
  dsimp only
  rw [claimed, reset, pure_bind, consume_exact bounds, pure_bind]
  split
  · have limit := bounds.limit_le
    have cost := bounds.cost_le
    rw [spendUsage_segments, u64_add_exact (by dsimp only; omega)]
    rfl
  · rfl

theorem mutateSliding_exact
    (small : ∀ slot, (state.segments slot).used ≤ 9007199254740991)
    (placed : (ringOf state.segments).Placed (oldestAt request.now.unixMicro period)
      (segmentAt request.now.unixMicro period))
    (fits : (ringOf state.segments).total (oldestAt request.now.unixMicro period) ≤ 9007199254740991) :
    mutateSliding state request = pure (spendSliding period state request) := by
  unfold mutateSliding spendSliding swept
  rw [segmentWidth_period bounds, pure_bind, segmentIndex_now bounds, pure_bind,
    segmentIndex_periodAgo bounds, pure_bind]
  dsimp only
  rw [← liveUsage_ofFn] at fits ⊢
  rw [collectUsage_exact (by omega), pure_bind, Nat.zero_add]
  refine consumeSegment_exact bounds ?_ ?_
  · intro slot
    simp only [dropExpired]
    split
    · exact Nat.zero_le _
    · exact small slot
  · intro found
    rcases earliestUsed_cases (oldestAt request.now.unixMicro period) (List.ofFn state.segments)
      maxInt64 with missing | ⟨segment, member, newer, used, same⟩
    · exact absurd missing found
    · obtain ⟨slot, rfl⟩ := List.mem_ofFn.mp member
      rw [same]
      exact ⟨newer, (placed slot newer used).1⟩

end

end RateLimit.Postgres
