import RateLimit.MemoryKeys

/-! The window algorithms of the memory store over unbounded integers, and what the 64-bit
counts of nanoseconds make of them. A fixed window may begin before the range of a count; its
start then wraps, but still tells it from every other window, and its end is exact. A sliding
window computes with the same integers where the segment that is one period old begins in the
range of a count. -/
namespace RateLimit.Memory

open Machine

/-! ## The algorithms -/

namespace Unbounded

def floorBoundary (value size : Int) : Int :=
  let quotient := value.tdiv size
  if value.tmod size = 0 then quotient * size
  else if value < 0 then (quotient - 1) * size
  else quotient * size

def consumeWindow (current : State) (request : Request) (reset : Time) : Outcome :=
  let limit := request.policy.limit
  let remaining := limit - min current.used limit
  if request.cost > remaining then
    { state := current
      decision :=
        { allowed := false, limit := limit, remaining := remaining, reset := reset
          retryAfter := ⟨max (reset.nanos - request.now.nanos) 0⟩, reason := .limited }
      error := some .rejected }
  else
    { state := { current with used := current.used + request.cost }
      decision :=
        { allowed := true, limit := limit, remaining := limit - (current.used + request.cost), reset := reset
          reason := .allowed }
      error := none }

/-- The window that begins at a time. -/
def openWindow (current : State) (start : Int) : State :=
  if current.windowStart ≠ start then { current with windowStart := start, used := 0 } else current

def admitFixed (current : State) (request : Request) : Outcome :=
  let period := request.policy.period.nanos
  let start := floorBoundary request.now.nanos period
  consumeWindow (openWindow current start) request ⟨start + period⟩

def sweepSegments (oldest : Int) : List (Fin 16) → (Fin 16 → Segment) → Nat → Int → (Fin 16 → Segment) × Nat × Int
  | [], segments, used, earliest => (segments, used, earliest)
  | slot :: rest, segments, used, earliest =>
    if (segments slot).index ≤ oldest then
      sweepSegments oldest rest (Function.update segments slot {}) used earliest
    else
      sweepSegments oldest rest segments (used + (segments slot).used)
        (if (segments slot).used ≠ 0 then min earliest (segments slot).index else earliest)

def slidingReset (earliest size : Int) (request : Request) : Time :=
  if earliest ≠ maxInt64 then (⟨(earliest + 1) * size⟩ : Time).add request.policy.period
  else request.now.add request.policy.period

/-- `admitSliding` from the width of a segment, the current index and the last expired one on. -/
def slide (current : State) (request : Request) (size index oldest : Int) : Outcome :=
  let (segments, used, earliest) := sweepSegments oldest (List.finRange 16) current.segments 0 maxInt64
  let slot := Ring.slot 16 index
  let segments := if (segments slot).index ≠ index then Function.update segments slot { index := index } else segments
  let outcome := consumeWindow { current with used := used, segments := segments } request
    (slidingReset earliest size request)
  if outcome.error = none then
    { outcome with
      state := { outcome.state with
        segments := Function.update outcome.state.segments slot
          { outcome.state.segments slot with used := (outcome.state.segments slot).used + request.cost } } }
  else outcome

def admitSliding (current : State) (request : Request) : Outcome :=
  let size := (request.policy.period.nanos + 16 - 1).tdiv 16
  let index := (floorBoundary request.now.nanos size).tdiv size
  let oldest := (floorBoundary (request.now.add ⟨-request.policy.period.nanos⟩).nanos size).tdiv size
  slide current request size index oldest

/-- The algorithm of a policy, with windows over unbounded integers. -/
def admitState (current : State) (request : Request) : Machine Outcome :=
  match request.policy.algorithm with
  | .tokenBucket => admitToken current request
  | .fixedWindow => pure (admitFixed current request)
  | _ => pure (admitSliding current request)

/-- Truncated division and a step down are a floor. -/
theorem floorBoundary_eq (positive : 0 < size) (value : Int) : floorBoundary value size = value / size * size := by
  have truncated := Int.tdiv_eq_ediv (a := value) (b := size)
  have leftover := Int.tmod_eq_emod (a := value) (b := size)
  rw [Int.sign_eq_one_of_pos positive] at truncated
  unfold floorBoundary
  by_cases same : 0 ≤ value ∨ size ∣ value
  · rw [if_pos same, add_zero] at truncated
    rw [if_pos same, Nat.cast_zero, sub_zero] at leftover
    rw [truncated, leftover]
    split
    · rfl
    · rename_i nonzero
      have nonneg : ¬ value < 0 := by
        rcases same with nonneg | divides
        · omega
        · exact absurd (Int.emod_eq_zero_of_dvd divides) nonzero
      rw [if_neg nonneg]
  · have residue := Int.emod_lt_of_pos value positive
    rw [if_neg same] at truncated leftover
    have nonzero : value.tmod size ≠ 0 := by omega
    rw [if_neg nonzero, if_pos (by omega), truncated, add_sub_cancel_right]

theorem floorBoundary_index (positive : 0 < size) (value : Int) : (floorBoundary value size).tdiv size =
    value / size := by
  rw [floorBoundary_eq positive, Int.mul_tdiv_cancel _ (by omega)]

end Unbounded

/-! ## Floors of counts -/

/-- The boundary below a count, which may wrap. -/
theorem floorBoundary_eq (large : 1 < size) (small : size < 9223372036854775808) (low : -9223372036854775808 ≤ value)
    (high : value < 9223372036854775808) : floorBoundary value size = i64 (value / size * size) := by
  have quotient : (value.tdiv size).natAbs ≤ value.natAbs / 2 := by
    rw [Int.natAbs_tdiv]
    exact Nat.div_le_div_left (by omega) (by decide)
  have above : -size < value.tmod size := Int.lt_tmod_of_pos value (by omega)
  have below : value.tmod size < size := Int.tmod_lt_of_pos value (by omega)
  have nonzero : size ≠ 0 := by omega
  rw [← Unbounded.floorBoundary_eq (by omega)]
  unfold floorBoundary Unbounded.floorBoundary
  rw [quo_exact nonzero (by omega) (by omega), pure_bind]
  by_cases divides : value.tmod size = 0
  · rw [rem_exact nonzero (by omega) (by omega), pure_bind, if_pos divides, if_pos divides]
  · rw [rem_exact nonzero (by omega) (by omega), pure_bind, if_neg divides, if_neg divides]
    split
    · rw [i64_exact (by omega) (by omega), pure_bind]
    · rfl

theorem floorBoundary_exact (large : 1 < size) (small : size < 9223372036854775808)
    (low : -9223372036854775808 ≤ value / size * size) (high : value < 9223372036854775808) :
    floorBoundary value size = pure (value / size * size) := by
  have below := Int.ediv_mul_le value (show size ≠ 0 by omega)
  rw [floorBoundary_eq large small (by omega) high, i64_exact low (by omega)]

/-- Two counts that are less than a word apart are told apart after they wrap. -/
theorem bmod_inj {first second : Int} (near : |first - second| < 18446744073709551616) :
    first.bmod 18446744073709551616 = second.bmod 18446744073709551616 ↔ first = second := by
  constructor
  · intro same
    rw [Int.bmod_eq_bmod_iff_bmod_sub_eq_zero] at same
    have divides : (18446744073709551616 : Int) ∣ first - second := Int.dvd_of_bmod_eq_zero same
    have zero := Int.eq_zero_of_abs_lt_dvd divides near
    omega
  · rintro rfl
    rfl

/-- The index of the segment of a time, as 64-bit counts give it. -/
def countedIndex (nanos size : Int) : Int :=
  ((nanos.bmod 18446744073709551616 / size * size).bmod 18446744073709551616).tdiv size

theorem bmod_bounds (value : Int) :
    -9223372036854775808 ≤ value.bmod 18446744073709551616 ∧ value.bmod 18446744073709551616 < 9223372036854775808 :=
  ⟨Int.le_bmod (by decide), Int.bmod_lt (by decide)⟩

theorem quo_returns (large : 1 < size) (low : -9223372036854775808 ≤ value) (high : value < 9223372036854775808) :
    (quo value size).Returns (value.tdiv size) := by
  have quotient : (value.tdiv size).natAbs ≤ value.natAbs / 2 := by
    rw [Int.natAbs_tdiv]
    exact Nat.div_le_div_left (by omega) (by decide)
  exact returns_of_eq (quo_exact (by omega) (by omega) (by omega))

/-- The index that the store computes from a time. -/
theorem countedIndex_returns (nanos : Int) (large : 1 < size) (small : size < 9223372036854775808)
    {rest : Int → Machine α} (next : (rest (countedIndex nanos size)).Returns result) :
    (i64 nanos >>= fun value => floorBoundary value size >>= fun boundary =>
      quo boundary size >>= rest).Returns result := by
  have ⟨low, high⟩ := bmod_bounds nanos
  have ⟨low', high'⟩ := bmod_bounds (nanos.bmod 18446744073709551616 / size * size)
  refine (i64_returns nanos).bind ?_
  rw [floorBoundary_eq large small low high]
  exact (i64_returns _).bind ((quo_returns large low' high').bind next)

theorem countedIndex_yields (nanos : Int) (large : 1 < size) (small : size < 9223372036854775808)
    {rest : Int → Machine α} {Post : α → Prop} (next : (rest (countedIndex nanos size)).Yields Post) :
    (i64 nanos >>= fun value => floorBoundary value size >>= fun boundary =>
      quo boundary size >>= rest).Yields Post := by
  obtain ⟨result, returns, holds⟩ := next
  exact ⟨result, countedIndex_returns nanos large small returns, holds⟩

theorem bmod_exact (low : -9223372036854775808 ≤ value) (high : value < 9223372036854775808) :
    value.bmod 18446744073709551616 = value :=
  Int.bmod_eq_of_le (by norm_num; omega) (by norm_num; omega)

/-- A count below the range wraps to one word above. -/
theorem bmod_low (low : -18446744073709551616 ≤ value) (below : value < -9223372036854775808) :
    value.bmod 18446744073709551616 = value + 18446744073709551616 := by
  have wraps : (value + (18446744073709551616 : Nat)).bmod 18446744073709551616 = value.bmod 18446744073709551616 :=
    Int.add_bmod_right _ _
  rw [← wraps]
  exact bmod_exact (by omega) (by omega)

theorem countedIndex_exact (positive : 0 < size) (low : -9223372036854775808 ≤ nanos / size * size)
    (high : nanos < 9223372036854775808) : countedIndex nanos size = nanos / size := by
  have below := Int.ediv_mul_le nanos (show size ≠ 0 by omega)
  have same : ∀ value : Int, -9223372036854775808 ≤ value → value < 9223372036854775808 →
      value.bmod 18446744073709551616 = value :=
    fun value low high => Int.bmod_eq_of_le (by norm_num; omega) (by norm_num; omega)
  rw [countedIndex, same nanos (by omega) high, same _ low (by omega), Int.mul_tdiv_cancel _ (by omega)]

/-- The segment of an index begins in the range of a count. -/
theorem countedIndex_bounds (nanos : Int) (positive : 0 < size) :
    -9223372036854775808 ≤ countedIndex nanos size * size ∧ countedIndex nanos size * size < 9223372036854775808 := by
  have ⟨low, high⟩ := bmod_bounds (nanos.bmod 18446744073709551616 / size * size)
  unfold countedIndex
  generalize (nanos.bmod 18446744073709551616 / size * size).bmod 18446744073709551616 = boundary at low high ⊢
  have less : (boundary.tdiv size * size).natAbs ≤ boundary.natAbs := by
    rw [Int.natAbs_mul, Int.natAbs_tdiv]
    exact Nat.div_mul_le_self _ _
  by_cases sign : 0 ≤ boundary
  · omega
  · have opposite : 0 ≤ (-boundary).tdiv size * size :=
      mul_nonneg (Int.tdiv_nonneg (by omega) positive.le) positive.le
    rw [Int.neg_tdiv, neg_mul] at opposite
    omega

/-- Wrapping takes no index down: one before the range of a count comes out after it. -/
theorem le_countedIndex (positive : 0 < size) (small : size < 9223372036854775808) (low : -18446744073709551616 ≤ nanos)
    (high : nanos < 9223372036854775808) : nanos / size ≤ countedIndex nanos size := by
  have upward : ∀ count, -9223372036854775808 ≤ count → count < 9223372036854775808 →
      count / size ≤ ((count / size * size).bmod 18446744073709551616).tdiv size := by
    intro count low high
    have bounds := Postgres.multiple_bounds count positive
    by_cases fits : -9223372036854775808 ≤ count / size * size
    · rw [bmod_exact fits (by omega), Int.mul_tdiv_cancel _ (by omega)]
    · rw [bmod_low (by omega) (not_le.mp fits)]
      have below : count / size ≤ 0 := Int.ediv_nonpos_of_nonpos_of_neg (by omega) (by omega)
      exact below.trans (Int.tdiv_nonneg (by omega) positive.le)
  unfold countedIndex
  by_cases fits : -9223372036854775808 ≤ nanos
  · rw [bmod_exact fits high]
    exact upward nanos fits high
  · rw [bmod_low low (not_le.mp fits)]
    exact (Int.ediv_le_ediv positive (by omega)).trans (upward _ (by omega) (by omega))

theorem boundary_returns (index size : Int) (rest : Int → Machine α)
    (next : (rest (((index + 1) * size).bmod 18446744073709551616)).Returns result) :
    (i64 (index + 1) >>= fun next => i64 (next * size) >>= rest).Returns result := by
  refine (i64_returns _).bind ((i64_returns _).bind ?_)
  rwa [Int.bmod_mul_bmod]

/-! ## Windows -/

section
variable {current : State} {request : Request} {period : Nat} (limits : Limits request period)
include limits

/-- A window's outcome, if the wait does not saturate. -/
theorem consumeWindow_exact (current : State) {reset : Time} (near : reset.nanos - request.now.nanos ≤ maxInt64) :
    consumeWindow current request reset = pure (Unbounded.consumeWindow current request reset) := by
  have limit := limits.limit_le
  have wait : max (reset.sub request.now).nanos 0 = max (reset.nanos - request.now.nanos) 0 := by
    simp only [Time.sub, maxInt64] at near ⊢
    omega
  unfold consumeWindow Unbounded.consumeWindow
  dsimp only
  rw [u64_sub_exact (min_le_right _ _) (by omega), pure_bind]
  split
  · rw [wait]
  · rename_i enough
    have room : current.used + request.cost ≤ request.policy.limit := by
      have := limits.cost_pos
      omega
    rw [u64_add_exact (by omega), pure_bind, u64_sub_exact room (by omega), pure_bind]

/-- What a window admits fits its limit. -/
theorem Unbounded.consumeWindow_room (current : State) (reset : Time)
    (allowed : (Unbounded.consumeWindow current request reset).error = none) :
    current.used + request.cost ≤ request.policy.limit := by
  have cost := limits.cost_pos
  unfold Unbounded.consumeWindow at allowed
  dsimp only at allowed
  split at allowed
  · cases allowed
  · omega

omit limits in
/-- What a window's outcome keeps of the state. -/
theorem Unbounded.consumeWindow_charged (current : State) (request : Request) (reset : Time) :
    let next := (Unbounded.consumeWindow current request reset).state
    Charged current next ∧ next.windowStart = current.windowStart ∧ next.windowPeriod = current.windowPeriod ∧
      next.segments = current.segments := by
  unfold Unbounded.consumeWindow
  dsimp only
  split <;> exact ⟨⟨rfl, rfl, rfl, rfl⟩, rfl, rfl, rfl⟩

end

/-! ## Fixed windows -/

/-- The start of the window, as a count of nanoseconds. -/
def wrapStart (state : State) : State := { state with windowStart := state.windowStart.bmod 18446744073709551616 }

/-- A window that begins less than one period before the exact range, and ends in it. -/
structure FixedSound (state : State) : Prop where
  period_pos : 0 < state.windowPeriod.nanos
  period_le : state.windowPeriod.nanos ≤ 9007199254740991000
  low : -9007199254740991000 - state.windowPeriod.nanos < state.windowStart
  high : state.windowStart + state.windowPeriod.nanos < 9007199254740992000

/-- The effective time of a request, in nanoseconds. -/
theorem now_bounds {request : Request} (limits : Limits request period) (range : InRange request.now period) :
    -9007199254740991000 ≤ request.now.nanos ∧
      request.now.nanos + request.policy.period.nanos < 9007199254740992000 := by
  obtain ⟨low, high⟩ := range
  obtain ⟨nanos, -, -⟩ := period_nanos limits
  simp only [Time.unixMicro] at low high
  omega

theorem Unbounded.openWindow_start (current : State) (start : Int) : (openWindow current start).windowStart =
    start := by
  unfold openWindow
  split
  · rfl
  · rename_i same
    exact not_not.mp same

theorem Unbounded.openWindow_charged (current : State) (start : Int) :
    Charged current (openWindow current start) ∧ (openWindow current start).windowPeriod = current.windowPeriod := by
  unfold openWindow
  split <;> exact ⟨⟨rfl, rfl, rfl, rfl⟩, rfl⟩

theorem Unbounded.admitFixed_charged (current : State) (request : Request) :
    Charged current (Unbounded.admitFixed current request).state := by
  unfold Unbounded.admitFixed
  dsimp only
  generalize floorBoundary request.now.nanos request.policy.period.nanos = start
  have ⟨opened, _⟩ := openWindow_charged current start
  have ⟨charged, _⟩ := consumeWindow_charged (openWindow current start) request ⟨start + request.policy.period.nanos⟩
  exact ⟨charged.revision.trans opened.revision, charged.algorithm.trans opened.algorithm,
    charged.lastSeen.trans opened.lastSeen, charged.leases.trans opened.leases⟩

/-- A window is opened the same way if its start has wrapped. -/
theorem openWindow_wraps {current : State} {start : Int} (near : |current.windowStart - start| < 18446744073709551616) :
    (if (wrapStart current).windowStart ≠ start.bmod 18446744073709551616 then
        { wrapStart current with windowStart := start.bmod 18446744073709551616, used := 0 }
      else wrapStart current) = wrapStart (Unbounded.openWindow current start) := by
  have same : (wrapStart current).windowStart = start.bmod 18446744073709551616 ↔ current.windowStart = start :=
    bmod_inj near
  unfold Unbounded.openWindow
  by_cases here : current.windowStart = start
  · rw [if_neg (not_not.mpr (same.mpr here)), if_neg (not_not.mpr here)]
  · rw [if_pos (mt same.mp here), if_pos here]
    rfl

theorem consumeWindow_wraps (current : State) (request : Request) (reset : Time) :
    Unbounded.consumeWindow (wrapStart current) request reset =
      { Unbounded.consumeWindow current request reset with
        state := wrapStart (Unbounded.consumeWindow current request reset).state } := by
  unfold Unbounded.consumeWindow
  dsimp only [wrapStart]
  split <;> rfl

/-- A window that ends in the range of a count ends there even if its start has wrapped. -/
theorem stop_returns {start period : Int} (low : -9223372036854775808 ≤ start + period)
    (high : start + period < 9223372036854775808) :
    (i64 (start.bmod 18446744073709551616 + period)).Returns (start + period) := by
  have same : (start.bmod 18446744073709551616 + period).bmod 18446744073709551616 = start + period := by
    rw [Int.bmod_add_bmod]
    exact Int.bmod_eq_of_le (by norm_num; omega) (by norm_num; omega)
  have returns := i64_returns (start.bmod 18446744073709551616 + period)
  rwa [same] at returns

section
variable {current : State} {request : Request} {period : Nat} (limits : Limits request period)
  (range : InRange request.now period) (sound : FixedSound current)
  (samePeriod : current.windowPeriod = request.policy.period)
include limits range sound samePeriod

/-- A fixed window keeps its bounds. -/
theorem Unbounded.admitFixed_sound : FixedSound (Unbounded.admitFixed current request).state := by
  obtain ⟨low, high⟩ := now_bounds limits range
  have positive := sound.period_pos
  rw [samePeriod] at positive
  have within := Postgres.multiple_bounds request.now.nanos positive
  unfold Unbounded.admitFixed
  dsimp only
  rw [Unbounded.floorBoundary_eq positive]
  generalize request.now.nanos / request.policy.period.nanos * request.policy.period.nanos = start at within ⊢
  obtain ⟨-, began, lasts, -⟩ := Unbounded.consumeWindow_charged (openWindow current start) request
    ⟨start + request.policy.period.nanos⟩
  rw [openWindow_start] at began
  rw [(openWindow_charged current start).2] at lasts
  constructor
  all_goals rw [lasts]
  · exact sound.period_pos
  · exact sound.period_le
  · rw [began, samePeriod]
    omega
  · rw [began, samePeriod]
    omega

/-- The outcome of a fixed window is the unbounded one, with its start wrapped. -/
theorem admitFixed_wraps :
    (admitFixed (wrapStart current) request).Returns
      { Unbounded.admitFixed current request with
        state := wrapStart (Unbounded.admitFixed current request).state } := by
  obtain ⟨low, high⟩ := now_bounds limits range
  have ⟨positive, small, lower, upper⟩ := sound
  obtain ⟨nanos, -, -⟩ := period_nanos limits
  rw [samePeriod] at positive small lower upper
  have within := Postgres.multiple_bounds request.now.nanos positive
  unfold admitFixed Unbounded.admitFixed
  dsimp only
  rw [i64_exact (by omega) (by omega), pure_bind, floorBoundary_eq (by omega) (by omega) (by omega) (by omega),
    Unbounded.floorBoundary_eq positive]
  generalize request.now.nanos / request.policy.period.nanos * request.policy.period.nanos = start at within ⊢
  refine (i64_returns start).bind ?_
  have near : |current.windowStart - start| < 18446744073709551616 := by
    rw [abs_lt]
    omega
  -- The end of the window is in range again, so that it comes out exact.
  refine (stop_returns (by omega) (by omega)).bind ?_
  rw [openWindow_wraps near, consumeWindow_exact limits _ (by simp only [maxInt64]; omega), consumeWindow_wraps]
  exact returns_pure _

end

/-! ## Sliding windows -/

/-- The width of a segment, in nanoseconds. -/
def segmentSize (period : Duration) : Int := (period.nanos + 16 - 1) / 16

/-- What the segments of some slots hold. -/
def held (segments : Fin 16 → Segment) (slots : List (Fin 16)) : Nat := (slots.map fun slot => (segments slot).used).sum

theorem held_cons (segments : Fin 16 → Segment) (slot : Fin 16) (rest : List (Fin 16)) :
    held segments (slot :: rest) = (segments slot).used + held segments rest := rfl

theorem held_congr {segments others : Fin 16 → Segment} (same : ∀ slot ∈ slots, segments slot = others slot) :
    held segments slots = held others slots := by
  unfold held
  rw [List.map_congr_left fun slot member => by rw [same slot member]]

/-- Used segments are not ahead of the last request, and their usage fits. -/
structure SlidingSound (state : State) : Prop where
  period_pos : 0 < state.windowPeriod.nanos
  timely : ∀ slot, (state.segments slot).used ≠ 0 →
    (state.segments slot).index ≤ state.lastSeen.nanos / segmentSize state.windowPeriod
  fits : held state.segments (List.finRange 16) ≤ 9007199254740991

/-- The counts of a sliding window are in range: the segment that is one period old begins
there, and the wait for the current one to run out is a duration. -/
def SlidingFits (now : Time) (period : Duration) : Prop :=
  -9223372036854775808 ≤ (now.nanos - period.nanos) / segmentSize period * segmentSize period ∧
    (now.nanos / segmentSize period + 1) * segmentSize period + period.nanos - now.nanos ≤ maxInt64

instance (now : Time) (period : Duration) : Decidable (SlidingFits now period) := inferInstanceAs (Decidable (_ ∧ _))

/-- What a sweep over some slots gives: the segments that are left, what they hold, and the
earliest used one. -/
structure Sweeps (oldest : Int) (slots : List (Fin 16)) (segments : Fin 16 → Segment) (used : Nat) (earliest : Int)
    (swept : (Fin 16 → Segment) × Nat × Int) : Prop where
  left : ∀ slot, swept.1 slot = if slot ∈ slots ∧ (segments slot).index ≤ oldest then {} else segments slot
  total : swept.2.1 = used + held swept.1 slots
  first : swept.2.2 = earliest ∨
    ∃ slot ∈ slots, oldest < (segments slot).index ∧ (segments slot).used ≠ 0 ∧ swept.2.2 = (segments slot).index

theorem Unbounded.sweepSegments_sweeps (oldest : Int) (slots : List (Fin 16)) (distinct : slots.Nodup)
    (segments : Fin 16 → Segment) (used : Nat) (earliest : Int) :
    Sweeps oldest slots segments used earliest (sweepSegments oldest slots segments used earliest) := by
  induction slots generalizing segments used earliest with
  | nil => exact ⟨by simp [sweepSegments], rfl, Or.inl rfl⟩
  | cons slot rest ih =>
    obtain ⟨fresh, later⟩ := List.nodup_cons.mp distinct
    have apart : ∀ other ∈ rest, other ≠ slot := by
      rintro other member rfl
      exact fresh member
    unfold sweepSegments
    split
    · rename_i expired
      have ⟨left, total, first⟩ := ih later (Function.update segments slot {}) used earliest
      have here := left slot
      rw [if_neg fun both => fresh both.1, Function.update_self] at here
      refine ⟨fun other => ?_, ?_, ?_⟩
      · rw [left other]
        by_cases same : other = slot
        · subst same
          simp [fresh, expired]
        · simp [same]
      · rw [total, held_cons, here, Nat.zero_add]
      · rcases first with same | ⟨other, member, live, some, same⟩
        · exact Or.inl same
        · rw [Function.update_of_ne (apart other member)] at live some same
          exact Or.inr ⟨other, List.mem_cons_of_mem _ member, live, some, same⟩
    · rename_i live
      have ⟨left, total, first⟩ := ih later segments (used + (segments slot).used)
        (if (segments slot).used ≠ 0 then min earliest (segments slot).index else earliest)
      have here : _ = segments slot := (left slot).trans (if_neg fun both => fresh both.1)
      refine ⟨fun other => ?_, ?_, ?_⟩
      · rw [left other]
        by_cases same : other = slot
        · subst same
          simp [fresh, live]
        · simp [same]
      · rw [total, held_cons, here, Nat.add_assoc]
      · rcases first with same | ⟨other, member, newer, some, same⟩
        · rw [same]
          split
          · rename_i some
            rcases min_choice earliest (segments slot).index with older | newest
            · exact Or.inl older
            · exact Or.inr ⟨slot, List.mem_cons_self, not_le.mp live, some, newest⟩
          · exact Or.inl rfl
        · exact Or.inr ⟨other, List.mem_cons_of_mem _ member, newer, some, same⟩

/-- The sums of a sweep stay in range where the usage does. -/
theorem sweepSegments_exact (oldest : Int) (slots : List (Fin 16)) (segments : Fin 16 → Segment)
    (used : Nat) (earliest : Int)
    (fits : used + held segments slots < 18446744073709551616) :
    sweepSegments oldest slots segments used earliest =
      pure (Unbounded.sweepSegments oldest slots segments used earliest) := by
  induction slots generalizing segments used earliest with
  | nil => rfl
  | cons slot rest ih =>
    rw [held_cons] at fits
    unfold sweepSegments Unbounded.sweepSegments
    split
    · refine ih _ _ _ (lt_of_le_of_lt ?_ fits)
      have less : held (Function.update segments slot {}) rest ≤ held segments rest := by
        refine List.sum_le_sum fun other _ => ?_
        by_cases same : other = slot
        · rw [same, Function.update_self]
          exact Nat.zero_le _
        · rw [Function.update_of_ne same]
      omega
    · rw [u64_add_exact (by omega), pure_bind]
      exact ih _ _ _ (by omega)

theorem held_update (segments : Fin 16 → Segment) (distinct : slots.Nodup) (member : slot ∈ slots) (value : Segment) :
    held (Function.update segments slot value) slots + (segments slot).used = held segments slots + value.used := by
  induction slots with
  | nil => cases member
  | cons first rest ih =>
    obtain ⟨fresh, later⟩ := List.nodup_cons.mp distinct
    rw [held_cons, held_cons]
    rcases List.mem_cons.mp member with rfl | inside
    · rw [Function.update_self, held_congr fun other inside => Function.update_of_ne
        (by rintro rfl; exact fresh inside) _ _]
      omega
    · rw [Function.update_of_ne (by rintro rfl; exact fresh inside)]
      have := ih later inside
      omega

theorem used_le_held (segments : Fin 16 → Segment) (slot : Fin 16) :
    (segments slot).used ≤ held segments (List.finRange 16) :=
  List.single_le_sum (fun _ _ => Nat.zero_le _) _ (List.mem_map_of_mem (List.mem_finRange slot))

theorem positiveMod_exact (index : Int) : positiveMod index 16 = pure (index % 16) :=
  Postgres.positiveRemainder_exact index

theorem quo_multiple (positive : 0 < size) (low : -9223372036854775808 ≤ index * size)
    (high : index * size < 9223372036854775808) : quo (index * size) size = pure index := by
  have same : (index * size).tdiv size = index := Int.mul_tdiv_cancel _ (by omega)
  rw [quo_exact (by omega) (by rw [same]; nlinarith) (by rw [same]; nlinarith), same]

/-- The slot of an index, taken over if it is another one's. -/
theorem claimed_segments {segments claimed : Fin 16 → Segment} {index : Int}
    (claims : claimed = if (segments (Ring.slot 16 index)).index ≠ index then
      Function.update segments (Ring.slot 16 index) { index := index } else segments)
    (timely : ∀ slot, (segments slot).used ≠ 0 → (segments slot).index ≤ index) :
    (claimed (Ring.slot 16 index)).index = index ∧ (∀ slot, (claimed slot).used ≠ 0 → (claimed slot).index ≤ index) ∧
      held claimed (List.finRange 16) ≤ held segments (List.finRange 16) := by
  subst claims
  split
  · refine ⟨by rw [Function.update_self], fun slot => ?_, ?_⟩
    · by_cases same : slot = Ring.slot 16 index
      · rw [same, Function.update_self]
        simp
      · rw [Function.update_of_ne same]
        exact timely slot
    · have moved := held_update segments (List.nodup_finRange 16) (List.mem_finRange (Ring.slot 16 index))
        { index := index }
      simp only at moved
      omega
  · rename_i same
    exact ⟨not_not.mp same, timely, le_rfl⟩

section
variable {current : State} {request : Request} {period : Nat} (limits : Limits request period)
  (range : InRange request.now period) (sound : SlidingSound current) (seen : current.lastSeen = request.now)
  (samePeriod : current.windowPeriod = request.policy.period)
include limits

theorem segmentSize_bounds :
    (request.policy.period.nanos + 16 - 1).tdiv 16 = segmentSize request.policy.period ∧
      1 < segmentSize request.policy.period ∧
      segmentSize request.policy.period ≤ request.policy.period.nanos ∧ request.policy.period.nanos ≤
        9007199254740991000 := by
  obtain ⟨nanos, positive, small⟩ := period_nanos limits
  refine ⟨Int.tdiv_eq_ediv_of_nonneg (by omega), ?_⟩
  unfold segmentSize
  omega

theorem Unbounded.admitSliding_eq :
    Unbounded.admitSliding current request = slide current request (segmentSize request.policy.period)
      (request.now.nanos / segmentSize request.policy.period)
      ((request.now.nanos - request.policy.period.nanos) / segmentSize request.policy.period) := by
  obtain ⟨size, large, -, -⟩ := segmentSize_bounds limits
  unfold Unbounded.admitSliding
  dsimp only
  rw [size, floorBoundary_index (by omega), floorBoundary_index (by omega)]
  rfl

end

theorem Unbounded.slide_charged (current : State) (request : Request) (size index oldest : Int) :
    Charged current (slide current request size index oldest).state := by
  unfold slide
  obtain ⟨segments, used, earliest⟩ := sweepSegments oldest (List.finRange 16) current.segments 0 maxInt64
  dsimp only
  generalize (if (segments (Ring.slot 16 index)).index ≠ index then
    Function.update segments (Ring.slot 16 index) { index := index } else segments) = claimed
  have ⟨charged, _⟩ := consumeWindow_charged { current with used := used, segments := claimed } request
    (slidingReset earliest size request)
  split <;> exact ⟨charged.revision, charged.algorithm, charged.lastSeen, charged.leases⟩

/-- The earliest used segment is that of a request of the last period. -/
theorem SlidingSound.earliest {current : State} (sound : SlidingSound current) (oldest earliest : Int)
    (first : earliest = maxInt64 ∨ ∃ slot ∈ List.finRange 16, oldest < (current.segments slot).index ∧
      (current.segments slot).used ≠ 0 ∧ earliest = (current.segments slot).index) (some : earliest ≠ maxInt64) :
    oldest < earliest ∧ earliest ≤ current.lastSeen.nanos / segmentSize current.windowPeriod := by
  rcases first with none | ⟨slot, -, newer, used, rfl⟩
  · exact absurd none some
  · exact ⟨newer, sound.timely slot used⟩

theorem slidingReset_exact {oldest earliest index size : Int} {request : Request}
    (known : earliest ≠ maxInt64 → oldest < earliest ∧ earliest ≤ index) (positive : 0 < size)
    (low : -9223372036854775808 ≤ oldest * size) (high : (index + 1) * size < 9223372036854775808) :
    slidingReset earliest size request = pure (Unbounded.slidingReset earliest size request) := by
  unfold slidingReset Unbounded.slidingReset
  split
  · rename_i some
    obtain ⟨newer, last⟩ := known some
    have above : oldest * size ≤ (earliest + 1) * size := by nlinarith
    have below : (earliest + 1) * size ≤ (index + 1) * size := by nlinarith
    rw [i64_exact (by nlinarith) (by nlinarith), pure_bind, i64_exact (by omega) (by omega), pure_bind]
  · rfl

/-- The wait for the earliest used segment is at most that for the current one. -/
theorem Unbounded.slidingReset_near {oldest earliest index size : Int} {request : Request}
    (known : earliest ≠ maxInt64 → oldest < earliest ∧ earliest ≤ index) (positive : 0 < size)
    (ahead : request.now.nanos ≤ (index + 1) * size) :
    (slidingReset earliest size request).nanos ≤ (index + 1) * size + request.policy.period.nanos := by
  unfold slidingReset
  split
  · rename_i some
    have last := (known some).2
    simp only [Time.add]
    nlinarith
  · simp only [Time.add]
    omega

section
variable {current : State} {request : Request} {period : Nat} (limits : Limits request period)
  (range : InRange request.now period) (sound : SlidingSound current) (seen : current.lastSeen = request.now)
  (samePeriod : current.windowPeriod = request.policy.period)
include limits range sound seen samePeriod

/-- A sliding window whose counts are in range computes with the same integers. -/
theorem admitSliding_exact (fits : SlidingFits request.now request.policy.period) :
    admitSliding current request = pure (Unbounded.admitSliding current request) := by
  obtain ⟨low, high⟩ := now_bounds limits range
  obtain ⟨nanos, positive, -⟩ := period_nanos limits
  obtain ⟨size_eq, large, small, most⟩ := segmentSize_bounds limits
  obtain ⟨fitsLow, fitsHigh⟩ := fits
  have last := Postgres.multiple_bounds request.now.nanos (show 0 < segmentSize request.policy.period by omega)
  have first := Postgres.multiple_bounds (request.now.nanos - request.policy.period.nanos)
    (show 0 < segmentSize request.policy.period by omega)
  have timely := sound.earliest
  rw [Unbounded.admitSliding_eq limits]
  unfold admitSliding
  rw [i64_exact (by omega) (by omega), pure_bind, quo_exact (by decide) (by omega) (by omega), pure_bind, size_eq,
    i64_exact (by omega) (by omega), pure_bind]
  rw [seen, samePeriod] at timely
  generalize segmentSize request.policy.period = size at *
  generalize indexed : request.now.nanos / size = index at *
  generalize expired : (request.now.nanos - request.policy.period.nanos) / size = oldest at *
  have next : (index + 1) * size = index * size + size := by ring
  have ago : (request.now.add ⟨-request.policy.period.nanos⟩).nanos =
    request.now.nanos - request.policy.period.nanos := rfl
  rw [floorBoundary_exact large (by omega) (by rw [indexed]; omega) (by omega), pure_bind, indexed,
    quo_multiple (by omega) (by omega) (by omega), pure_bind, ago, i64_exact (by omega) (by omega), pure_bind,
    floorBoundary_exact large (by omega) (by rw [expired]; omega) (by omega), pure_bind, expired,
    quo_multiple (by omega) (by omega) (by omega), pure_bind]
  have fits := sound.fits
  rw [sweepSegments_exact _ _ _ _ _ (by omega), pure_bind]
  obtain ⟨left, -, cases⟩ := Unbounded.sweepSegments_sweeps oldest _
    (List.nodup_finRange 16) current.segments 0 maxInt64
  have known := timely _ _ cases
  unfold Unbounded.slide
  generalize Unbounded.sweepSegments oldest (List.finRange 16) current.segments 0 maxInt64 = swept at left known ⊢
  obtain ⟨segments, used, earliest⟩ := swept
  dsimp only at left known ⊢
  have sum : ∀ slot, (segments slot).used ≤ 9007199254740991 := by
    intro slot
    have whole := used_le_held current.segments slot
    rw [left slot]
    split
    · exact Nat.zero_le _
    · omega
  rw [positiveMod_exact, pure_bind, Postgres.slotAt_exact, pure_bind, slidingReset_exact known (by omega) (by omega)
    (by omega),
    pure_bind, consumeWindow_exact limits _ ?near, pure_bind]
  case near =>
    have near : (Unbounded.slidingReset earliest size request).nanos ≤
      (index + 1) * size + request.policy.period.nanos :=
      Unbounded.slidingReset_near known (by omega) (by omega)
    omega
  have kept := (Unbounded.consumeWindow_charged
    { current with
      used := used
      segments := if (segments (Ring.slot 16 index)).index ≠ index then
        Function.update segments (Ring.slot 16 index) { index := index } else segments }
    request (Unbounded.slidingReset earliest size request)).2.2.2
  generalize Unbounded.consumeWindow _ request _ = outcome at kept ⊢
  split
  · have bounded : (outcome.state.segments (Ring.slot 16 index)).used ≤ 9007199254740991 := by
      rw [kept]
      dsimp only
      split
      · rw [Function.update_self]
        exact Nat.zero_le _
      · exact sum _
    have cost := limits.cost_le
    have limit := limits.limit_le
    rw [u64_add_exact (by omega), pure_bind]
  · rfl

omit range in
/-- A sliding window keeps its segments in order. -/
theorem Unbounded.admitSliding_sound : SlidingSound (Unbounded.admitSliding current request).state := by
  obtain ⟨positive, timely, fits⟩ := sound
  rw [Unbounded.admitSliding_eq limits]
  rw [seen, samePeriod] at timely
  generalize sized : segmentSize request.policy.period = size at timely ⊢
  generalize indexed : request.now.nanos / size = index at timely ⊢
  generalize (request.now.nanos - request.policy.period.nanos) / size = oldest
  obtain ⟨left, total, -⟩ := sweepSegments_sweeps oldest _ (List.nodup_finRange 16) current.segments 0 maxInt64
  unfold slide
  generalize sweepSegments oldest (List.finRange 16) current.segments 0 maxInt64 = swept at left total ⊢
  obtain ⟨segments, used, earliest⟩ := swept
  dsimp only at left total ⊢
  have swept_timely : ∀ slot, (segments slot).used ≠ 0 → (segments slot).index ≤ index := by
    intro slot
    rw [left slot]
    split
    · simp
    · exact timely slot
  have swept_held : held segments (List.finRange 16) ≤ held current.segments (List.finRange 16) := by
    refine List.sum_le_sum fun slot _ => ?_
    rw [left slot]
    split
    · exact Nat.zero_le _
    · exact le_rfl
  generalize claims : (if (segments (Ring.slot 16 index)).index ≠ index then
    Function.update segments (Ring.slot 16 index) { index := index } else segments) = claimed
  obtain ⟨named, claimed_timely, claimed_held⟩ := claimed_segments claims.symm swept_timely
  generalize slidingReset earliest size request = reset
  obtain ⟨charged, -, lasts, kept⟩ := consumeWindow_charged { current with used := used, segments := claimed }
    request reset
  have room := consumeWindow_room limits { current with used := used, segments := claimed } reset
  generalize consumeWindow { current with used := used, segments := claimed } request reset =
    outcome at charged lasts kept room ⊢
  have now : outcome.state.lastSeen.nanos / segmentSize outcome.state.windowPeriod = index := by
    rw [charged.lastSeen, lasts, ← indexed, ← sized, ← samePeriod, ← seen]
  have limit := limits.limit_le
  split
  · rename_i allowed
    have fitting := room allowed
    refine ⟨by rw [lasts]; exact positive, fun slot some => ?_, ?_⟩
    · rw [now]
      revert some
      dsimp only
      by_cases same : slot = Ring.slot 16 index
      · rw [same, Function.update_self, kept]
        exact fun _ => named.le
      · rw [Function.update_of_ne same, kept]
        exact claimed_timely slot
    · have added := held_update outcome.state.segments (List.nodup_finRange 16)
        (List.mem_finRange (Ring.slot 16 index))
        { outcome.state.segments (Ring.slot 16 index) with
          used := (outcome.state.segments (Ring.slot 16 index)).used + request.cost }
      dsimp only at added fitting ⊢
      rw [kept] at added ⊢
      dsimp only at added ⊢
      omega
  · refine ⟨by rw [lasts]; exact positive, fun slot some => ?_, ?_⟩
    · rw [now, kept]
      rw [kept] at some
      exact claimed_timely slot some
    · rw [kept]
      dsimp only
      omega

end

end RateLimit.Memory
