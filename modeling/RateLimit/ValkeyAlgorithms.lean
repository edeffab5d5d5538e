import RateLimit.ValkeyMirror

/-! The three algorithms of the strict admit script beside those of `mutateState`. From a
hash that mirrors a state each of them passes its tests, and leaves the counts and the
answer that its counterpart leaves. -/
namespace RateLimit.Valkey

open Machine
open Postgres

/-! ## Token bucket -/

/-- The ceiling of the script is that of the wait. -/
theorem ceiling_eq (rate : TokenRate) (missing remainder : Nat) :
    max 0 (ceiling (missing * rate.period - remainder) rate.capacity) = rate.wait missing remainder := by
  have positive : (0 : Int) < rate.capacity := by exact_mod_cast rate.capacity_pos
  have up : ceiling (missing * rate.period - remainder) rate.capacity =
      (missing * rate.period - remainder - 1 + 1 * rate.capacity) / rate.capacity :=
    (Int.add_mul_ediv_right _ _ positive.ne').symm
  unfold TokenRate.wait
  rw [up]
  by_cases ahead : remainder < missing * rate.period
  · have whole : ((missing * rate.period - remainder + (rate.capacity - 1) : Nat) : Int) =
        missing * rate.period - remainder - 1 + 1 * rate.capacity := by
      have pos := rate.capacity_pos
      push_cast [Nat.cast_sub ahead.le, Nat.cast_sub pos]
      ring
    rw [← whole, max_eq_right (Int.ediv_nonneg (Int.natCast_nonneg _) positive.le), Int.natCast_div]
  · have none : missing * rate.period - remainder = 0 := Nat.sub_eq_zero_of_le (not_lt.mp ahead)
    have low : (missing * rate.period : Int) - remainder - 1 + 1 * rate.capacity < rate.capacity := by
      have := not_lt.mp ahead
      zify at this
      omega
    have small := Int.ediv_lt_of_lt_mul positive (lt_of_lt_of_eq low (one_mul _).symm)
    rw [none, Nat.zero_add, Nat.div_eq_of_lt (Nat.sub_lt rate.capacity_pos Nat.one_pos)]
    omega

/-- The refill of the script is the exact one: where it does not compute the product the
bucket is full. -/
theorem refill_exact {call : Admission} {rate : TokenRate} (capacity : call.capacity = rate.capacity)
    (limit : call.limit = rate.limit) (period : call.period = rate.period)
    (product : rate.limit * rate.period ≤ 9007199254740991) (level : TokenLevel) (elapsed : Nat) :
    refill call level.tokens level.remainder elapsed =
      (((rate.refill level elapsed).tokens : Int), ((rate.refill level elapsed).remainder : Int)) := by
  rw [refill, capacity, limit, period]
  by_cases idle : elapsed = 0 ∨ rate.limit ≤ level.tokens
  · rw [if_neg (by omega), TokenRate.refill, if_pos idle]
  obtain ⟨moved, below⟩ := not_or.mp idle
  replace moved : 0 < elapsed := Nat.pos_of_ne_zero moved
  replace below : level.tokens < rate.limit := not_le.mp below
  rw [if_pos ⟨by exact_mod_cast moved, by exact_mod_cast below⟩]
  by_cases far : (elapsed : Int) > (maxExact - level.remainder) / rate.capacity
  · have past : maxExact - level.remainder < elapsed * rate.capacity :=
      Int.lt_mul_of_ediv_lt (by exact_mod_cast rate.capacity_pos) far
    have full : rate.limit ≤ (elapsed * rate.capacity + level.remainder) / rate.period := by
      rw [Nat.le_div_iff_mul_le rate.period_pos]
      unfold maxExact at past
      zify at product ⊢
      omega
    rw [if_pos far, rate.refill_filled level moved below ((Nat.sub_le _ _).trans full)]
    rfl
  · have sum : (elapsed * rate.capacity + level.remainder : Int) =
      (elapsed * rate.capacity + level.remainder : Nat) := by
      push_cast
      rfl
    rw [if_neg far, sum]
    dsimp only
    rw [← Int.natCast_div, ← Int.natCast_emod]
    by_cases filled : rate.limit - level.tokens ≤ (elapsed * rate.capacity + level.remainder) / rate.period
    · rw [rate.refill_filled level moved below filled, min_eq_left (by omega)]
      simp
    · rw [rate.refill_unfilled level moved (not_le.mp filled), min_eq_right (by omega), if_neg (by omega)]
      push_cast
      rfl

/-- The hash of a token bucket after a call. -/
theorem Counts.tokens {state next : PersistedState} {hash : Hash} (counts : Counts state hash)
    (id : next.policyID = state.policyID)
    (algorithm : next.algorithm = state.algorithm) (kind : next.algorithm = .tokenBucket)
    (tokens : next.tokens ≤ 9007199254740991) (remainder : next.remainder ≤ 9007199254740991)
    (last : next.lastMicros = next.observedMicros) (observed : ExactMicros next.observedMicros) :
    Counts next (((hash.insert .tokens (integer next.tokens)).insert .remainder (integer next.remainder)).insert
      .last (integer next.observedMicros)) where
  schema := by simp [AList.lookup_insert_ne, counts.schema]
  policyID := by simp [AList.lookup_insert_ne, counts.policyID, id]
  algorithm := by simp [AList.lookup_insert_ne, counts.algorithm, algorithm]
  token _ := by simp [AList.lookup_insert_ne, tokens, last]
  fixed other := by simp [kind] at other
  sliding other := by simp [kind] at other
  shape := by
    rw [algorithm]
    refine shape_insert (shape_insert (shape_insert counts.shape ?_) ?_) ?_
    · exact ⟨rfl, (length_integer ⟨by omega, by omega⟩).trans (by decide)⟩
    · exact ⟨rfl, (length_integer ⟨by omega, by omega⟩).trans (by decide)⟩
    · exact ⟨rfl, (length_integer observed).trans (by decide)⟩

section
variable {request : Request} {period : Nat} {state : PersistedState} {hash : Hash} (bounds : request.Bounds period)
  (mirrors : Mirrors state hash) (same : state.algorithm = request.policy.algorithm)
include bounds mirrors same

theorem spendToken_eq (kind : request.policy.algorithm = .tokenBucket)
    (ok : TokenOk state request.policy period) (later : state.observedMicros ≤ request.now.unixMicro) (ttl : Int) :
    spendToken (callOf request period ttl) hash state.carried =
      .ok (takeTokens (callOf request period ttl) hash state.carried
        (refilled (rateOf bounds) (prepared state request) request.now.unixMicro).tokens
        (refilled (rateOf bounds) (prepared state request) request.now.unixMicro).remainder) := by
  obtain ⟨tokens, remainder, small, recent⟩ := mirrors.token (same.trans kind)
  obtain ⟨low, high⟩ := ok.last
  have part := ok.remainder
  have reads : readSigned (hash.lookup .last) = some state.lastMicros := by
    rw [mirrors.last, ← recent, readSigned_integer ok.last]
  have kept : (hash.lookup .revision = some request.policy.revision) = (state.revision = request.policy.revision) := by
    rw [mirrors.revision, Option.some_inj]
  have filled := refill_exact (show (callOf request period ttl).capacity =
    (rateOf bounds).capacity from rfl) (limit_admissionOf _ _ _ _) rfl bounds.product
  simp only [spendToken, tokens, remainder, reads, readUnsigned_integer small, readUnsigned_integer part, maxExact]
  simp only [show (callOf request period ttl).revision = request.policy.revision from rfl,
    show (callOf request period ttl).period = period from rfl,
    show (callOf request period ttl).now = request.now.unixMicro from rfl, kept, limit_admissionOf]
  by_cases revision : state.revision = request.policy.revision
  · have within := ok.within revision
    have fraction := ok.fraction revision
    have elapsed : max 0 (request.now.unixMicro - state.lastMicros) =
      ((request.now.unixMicro - state.lastMicros).toNat : Int) := by
      omega
    have unchanged : carryToken state request = state := if_neg fun carried => carried.2 revision
    simp only [revision, if_true, true_and]
    rw [if_neg (by omega), elapsed, filled ⟨state.tokens, state.remainder⟩, prepared_token kind, unchanged]
    rfl
  · have carry : carryToken state request = { state with
        tokens := min state.tokens request.policy.limit, remainder := 0, lastMicros := request.now.unixMicro } := by
      rw [carryToken, if_pos ⟨kind, revision⟩, recent, max_eq_right later]
    have tokens : (min (state.tokens : Int) request.policy.limit) =
      ((min state.tokens request.policy.limit : Nat) : Int) := by
      omega
    simp only [revision, if_false, false_and, false_or, or_false]
    rw [if_neg (by omega), sub_self, max_self, tokens]
    have idle := filled ⟨min state.tokens request.policy.limit, 0⟩ 0
    rw [Nat.cast_zero] at idle
    rw [idle, prepared_token kind, carry]
    simp [refilled]

omit mirrors same in
theorem wait_le_exact (missing remainder : Nat) (within : missing ≤ request.policy.limit) :
    (rateOf bounds).wait missing remainder ≤ 9007199254740991 :=
  ((rateOf bounds).wait_le missing remainder).trans
    ((Nat.sub_le _ _).trans ((Nat.mul_le_mul_right period within).trans bounds.product))

/-- What is taken from a refilled balance on both sides. -/
theorem takeTokens_answers (kind : request.policy.algorithm = .tokenBucket) {next : PersistedState}
    (id : next.policyID = state.policyID) (algorithm : next.algorithm = state.algorithm)
    (within : next.tokens ≤ request.policy.limit) (fraction : next.remainder < period)
    (last : next.lastMicros = request.now.unixMicro) (observed : next.observedMicros = request.now.unixMicro)
    (whole : request.now = .ofUnixMicro request.now.unixMicro) (ttl : Int) :
    Answers request (takeTokens (callOf request period ttl) hash next.carried next.tokens next.remainder)
      (Postgres.spendToken (rateOf bounds) next request) := by
  have limit := bounds.limit_le
  have early := bounds.not_before
  have late := bounds.room
  have size := bounds.period_le
  have cost := bounds.cost_le
  have full (held : Nat) (fits : held ≤ request.policy.limit) :
      max 0 (ceiling ((request.policy.limit - held) * period - next.remainder) request.policy.capacity) =
        (rateOf bounds).wait (request.policy.limit - held) next.remainder := by
    rw [← Nat.cast_sub fits]
    exact ceiling_eq (rateOf bounds) _ _
  have stamp : ExactMicros request.now.unixMicro := ⟨early, by omega⟩
  have add (micros : Int) : request.now.add (.ofMicros micros) = .ofUnixMicro (request.now.unixMicro + micros) := by
    rw [whole]
    simp [Time.add, Time.ofUnixMicro, Duration.ofMicros, Time.unixMicro, Int.add_mul]
  by_cases enough : request.cost ≤ next.tokens
  · have left : (next.tokens : Int) - request.cost = ((next.tokens - request.cost : Nat) : Int) := by omega
    have fits : next.tokens - request.cost ≤ request.policy.limit := by omega
    have longest := wait_le_exact bounds (request.policy.limit - (next.tokens - request.cost)) next.remainder (by omega)
    have taken : takeTokens (callOf request period ttl) hash next.carried next.tokens next.remainder =
        { hash := ((hash.insert .tokens (integer (next.tokens - request.cost : Nat))).insert .remainder
            (integer next.remainder)).insert .last (integer request.now.unixMicro)
          allowed := true
          remaining := (next.tokens - request.cost : Nat)
          reset := request.now.unixMicro +
            (rateOf bounds).wait (request.policy.limit - (next.tokens - request.cost)) next.remainder
          carried := next.carried } := by
      simp only [takeTokens, limit_admissionOf]
      simp only [admissionOf, ge_iff_le, Nat.cast_le, enough, if_true, decide_true, left, full _ fits]
    rw [taken, Postgres.spendToken, if_neg (not_lt.mpr enough)]
    refine ⟨?_, rfl, ?_, rfl, ⟨by simp, ?_⟩, ?_, ⟨by simp, by simp⟩, fun _ => by simp, Or.inl (by simp), fun _ => rfl⟩
    · rw [← observed]
      exact mirrors.toCounts.tokens id algorithm ((algorithm.trans same).trans kind)
        (fits.trans limit) (fraction.le.trans size) (last.trans observed.symm) (by rw [observed]; exact stamp)
    · simp [add, maxInt64, rateOf]
    · simp only [Nat.cast_le, fits]
    · dsimp only
      omega
  · have missing : (request.cost : Int) - next.tokens = ((request.cost - next.tokens : Nat) : Int) := by omega
    have longest := wait_le_exact bounds (request.policy.limit - next.tokens) next.remainder (by omega)
    have earned := wait_le_exact bounds (request.cost - next.tokens) next.remainder (by omega)
    have short : ceiling ((request.cost - next.tokens) * period - next.remainder) request.policy.capacity =
        (rateOf bounds).wait (request.cost - next.tokens) next.remainder := by
      have positive : (0 : Int) < request.policy.capacity := by exact_mod_cast bounds.capacity_pos
      have ahead : (0 : Int) ≤ ((request.cost - next.tokens : Nat) : Int) * period - next.remainder - 1 := by
        have := Nat.le_mul_of_pos_left period (show 0 < request.cost - next.tokens by omega)
        zify at this
        omega
      have nonneg : 0 ≤ ceiling (((request.cost - next.tokens : Nat) : Int) * period - next.remainder)
        request.policy.capacity :=
        Int.add_nonneg (Int.ediv_nonneg ahead positive.le) (by decide)
      rw [missing, ← ceiling_eq (rateOf bounds)]
      exact (max_eq_right nonneg).symm
    have taken : takeTokens (callOf request period ttl) hash next.carried next.tokens next.remainder =
        { hash := ((hash.insert .tokens (integer next.tokens)).insert .remainder
            (integer next.remainder)).insert .last (integer request.now.unixMicro)
          allowed := false
          remaining := next.tokens
          reset := request.now.unixMicro + (rateOf bounds).wait (request.policy.limit - next.tokens) next.remainder
          retry := (rateOf bounds).wait (request.cost - next.tokens) next.remainder
          carried := next.carried } := by
      simp only [takeTokens, limit_admissionOf]
      simp only [admissionOf, ge_iff_le, Nat.cast_le, enough, if_false, decide_false, full _ within, short]
    rw [taken, Postgres.spendToken, if_pos (not_le.mp enough)]
    refine ⟨?_, rfl, ?_, rfl, ⟨by simp, by simpa using within⟩, ?_, ⟨by simp, ?_⟩, fun _ => ?_, Or.inl ?_, by simp⟩
    · rw [← observed]
      exact mirrors.toCounts.tokens id algorithm ((algorithm.trans same).trans kind)
        (within.trans limit) (fraction.le.trans size) (last.trans observed.symm) (by rw [observed]; exact stamp)
    · have fits : (((rateOf bounds).wait (request.cost - next.tokens) next.remainder : Nat) : Int) * 1000 ≤
          9223372036854775807 := by omega
      rw [add]
      simp only [maxInt64, min_eq_right fits, Duration.ofMicros, Int.toNat_natCast]
      rfl
    all_goals
      dsimp only
      omega

end

/-! ## Fixed window -/

/-- The hash of a fixed window after a call. -/
theorem Counts.window {state next : PersistedState} {hash : Hash} (counts : Counts state hash)
    (id : next.policyID = state.policyID)
    (algorithm : next.algorithm = state.algorithm) (kind : next.algorithm = .fixedWindow)
    (window : ExactMicros next.window) (used : next.used ≤ 9007199254740991) :
    Counts next ((hash.insert .window (integer next.window)).insert .used (integer next.used)) where
  schema := by simp [AList.lookup_insert_ne, counts.schema]
  policyID := by simp [AList.lookup_insert_ne, counts.policyID, id]
  algorithm := by simp [AList.lookup_insert_ne, counts.algorithm, algorithm]
  token other := by simp [kind] at other
  fixed _ := by simp [AList.lookup_insert_ne]
  sliding other := by simp [kind] at other
  shape := by
    rw [algorithm]
    refine shape_insert (shape_insert counts.shape ?_) ?_
    · exact ⟨rfl, (length_integer window).trans (by decide)⟩
    · exact ⟨rfl, (length_integer ⟨by omega, by omega⟩).trans (by decide)⟩

/-- The wait of a window is the difference of two instants, which saturates. -/
theorem sub_saturates (reset now : Int) :
    max ((Time.ofUnixMicro reset).sub (.ofUnixMicro now)).nanos 0 = min maxInt64 (max 0 (reset - now) * 1000) := by
  simp only [Time.sub, Time.ofUnixMicro, maxInt64]
  omega

section
variable {request : Request} {period : Nat} {state : PersistedState} {hash : Hash} (bounds : request.Bounds period)
  (mirrors : Mirrors state hash) (same : state.algorithm = request.policy.algorithm)
include mirrors

theorem spendFixed_eq (kind : state.algorithm = .fixedWindow) (ok : FixedOk state request.policy) (ttl : Int) :
    ∃ carried, spendFixed (callOf request period ttl) hash state.carried =
        .ok (takeUsed (callOf request period ttl) hash carried
          (windowUsed period state request.now.unixMicro)) ∧
      (request.policy.limit < windowUsed period state request.now.unixMicro → carried = true) := by
  obtain ⟨window, used⟩ := mirrors.fixed kind
  obtain ⟨low, high⟩ := ok.window
  have small := ok.used
  have start : (callOf request period ttl).fixedWindow =
      windowStart request.now.unixMicro period := rfl
  have revised : (hash.lookup .revision = some (callOf request period ttl).revision) =
      (state.revision = request.policy.revision) := by
    rw [mirrors.revision, Option.some_inj]
    rfl
  have clear : ¬ (state.revision = request.policy.revision ∧ (state.used : Int) > request.policy.limit ∧
    state.carried = false) := by
    rintro ⟨revision, excess, plain⟩
    rw [ok.carried revision (by exact_mod_cast excess)] at plain
    cases plain
  refine ⟨if state.window = windowStart request.now.unixMicro period then
      if state.revision = request.policy.revision then state.carried else decide
        ((state.used : Int) > request.policy.limit)
    else false, ?_, ?_⟩
  · simp only [spendFixed, window, used, readSigned_integer ok.window, readUnsigned_integer small, maxExact,
      revised, start,
      limit_admissionOf]
    rw [if_neg (by rintro (h | h | h | h | h) <;> first | omega | exact clear h), windowUsed]
    split_ifs <;> rfl
  · intro excess
    unfold windowUsed at excess
    split_ifs at excess ⊢ with here revision
    · exact ok.carried revision excess
    · simpa using excess
    · omega

include bounds same in
/-- What is added to the usage of a window on both sides. -/
theorem takeUsed_answers (kind : request.policy.algorithm = .fixedWindow)
    (window : ExactMicros (windowStart request.now.unixMicro period))
    (small : state.used ≤ 9007199254740991)
    (whole : request.now = .ofUnixMicro request.now.unixMicro) {next : PersistedState}
    (id : next.policyID = state.policyID) (algorithm : next.algorithm = state.algorithm)
    (counted : next.window = state.window ∧ next.used = state.used)
    (flag : request.policy.limit < windowUsed period state request.now.unixMicro → carried = true) (ttl : Int) :
    Answers request (takeUsed (callOf request period ttl) hash carried
      (windowUsed period state request.now.unixMicro)) (Postgres.spendFixed period next request) := by
  have limit := bounds.limit_le
  have late := bounds.room
  have positive := bounds.cost_pos
  have size := bounds.period_le
  have start : (callOf request period ttl).fixedWindow =
      windowStart request.now.unixMicro period := rfl
  have within : windowUsed period state request.now.unixMicro ≤ 9007199254740991 := by
    unfold windowUsed
    split <;> omega
  have reset : windowStart request.now.unixMicro period ≤ request.now.unixMicro :=
    (windowStart_bounds bounds).1
  have moved : { next with
      window := windowStart request.now.unixMicro period
      used := if next.window = windowStart request.now.unixMicro period then next.used else 0 } =
      { next with
        window := windowStart request.now.unixMicro period
        used := windowUsed period state request.now.unixMicro } := by
    rw [counted.1, counted.2]
    rfl
  have known : next.algorithm = .fixedWindow := (algorithm.trans same).trans kind
  simp only [Postgres.spendFixed, moved]
  generalize windowUsed period state request.now.unixMicro = used at within flag ⊢
  by_cases room : request.cost ≤ request.policy.limit - used
  · have wide : (callOf request period ttl).cost ≤ max 0 ((request.policy.limit : Int) - used) := by
      dsimp only [callOf, admissionOf]
      omega
    have below : (used : Int) + request.cost ≤ request.policy.limit := by omega
    have taken : takeUsed (callOf request period ttl) hash carried used =
        { hash := (hash.insert .window (integer (windowStart request.now.unixMicro period))).insert
            .used (integer (used + request.cost : Nat))
          allowed := true
          remaining := request.policy.limit - (used + request.cost)
          reset := windowStart request.now.unixMicro period + period
          carried := false } := by
      simp only [takeUsed, limit_admissionOf, start, wide, if_true, decide_true]
      simp [admissionOf, below]
    rw [taken, spendUsage_room _ _ (not_lt.mpr room)]
    refine ⟨?_, ?_, ?_, rfl, ⟨?_, ?_⟩, ?_, ⟨le_rfl, by simp⟩, fun _ => by simp, Or.inl (by simp), fun _ => rfl⟩
    · exact mirrors.toCounts.window id algorithm known window (by dsimp only; omega)
    · simp only [usageExceedsLimit]
      exact (decide_eq_false (by omega)).symm
    · simp only [maxInt64]
      congr 1
      omega
    all_goals
      dsimp only
      omega
  · have narrow : ¬ (callOf request period ttl).cost ≤ max 0 ((request.policy.limit : Int) - used) := by
      dsimp only [callOf, admissionOf]
      omega
    have taken : takeUsed (callOf request period ttl) hash carried used =
        { hash := (hash.insert .window (integer (windowStart request.now.unixMicro period))).insert .used (integer used)
          allowed := false
          remaining := max 0 (request.policy.limit - used)
          reset := windowStart request.now.unixMicro period + period
          retry := max 0 (windowStart request.now.unixMicro period + period - request.now.unixMicro)
          carried := if (used : Int) ≤ request.policy.limit then false else carried } := by
      simp only [takeUsed, limit_admissionOf, start, narrow, if_false, decide_false]
      rfl
    rw [taken, spendUsage_short _ _ (not_le.mp room)]
    refine ⟨?_, ?_, ?_, rfl, ⟨?_, ?_⟩, ?_, ⟨le_max_left _ _, ?_⟩, fun _ => ?_, Or.inr rfl, by simp⟩
    · exact mirrors.toCounts.window id algorithm known window within
    · simp only [usageExceedsLimit]
      split_ifs with fits
      · exact (decide_eq_false (by omega)).symm
      · rw [flag (by omega)]
        exact (decide_eq_true (by omega)).symm
    · rw [whole]
      simp only [Time.unixMicro_ofUnixMicro, sub_saturates]
      congr 1
      omega
    all_goals
      dsimp only
      omega

end

/-! ## Sliding window -/

section
variable {segments : Segments} {hash : Hash} {oldest current : Int}
  (mirrored : ∀ slot, hash.lookup (.slot slot) = slotText (segments slot)) (valid : SegmentsOk segments)
  (placed : (ringOf segments).Placed oldest current)
include mirrored valid placed

omit valid placed in
theorem tallySlots_empty (empty : (segments slot).used = 0) (rest : List (Fin 16)) (tally : Tally) :
    tallySlots hash oldest current (slot :: rest) tally = tallySlots hash oldest current rest tally := by
  rw [tallySlots, mirrored, slotText, if_pos empty]

omit placed in
theorem tallySlots_expired (used : (segments slot).used ≠ 0) (old : (segments slot).index ≤ oldest)
    (rest : List (Fin 16)) (tally : Tally) :
    tallySlots hash oldest current (slot :: rest) tally =
      tallySlots hash oldest current rest { tally with expired := tally.expired ++ [slot] } := by
  obtain ⟨⟨low, high⟩, small⟩ := valid slot
  rw [tallySlots, mirrored, slotText, if_neg used]
  simp only [cut_slot, readSigned_integer (valid slot).1, readUnsigned_integer small]
  rw [if_neg (by unfold maxExact; omega), if_neg (by omega), if_pos old, if_neg (by omega)]

theorem tallySlots_live (used : (segments slot).used ≠ 0) (live : oldest < (segments slot).index)
    {tally : Tally} (unseen : (segments slot).index ∉ tally.seen) (fits : tally.used + (segments slot).used ≤ maxExact)
    (rest : List (Fin 16)) :
    tallySlots hash oldest current (slot :: rest) tally =
      tallySlots hash oldest current rest { tally with
        used := tally.used + (segments slot).used
        earliest := if tally.earliest.all (fun earliest => (segments slot).index < earliest) = true then
          some (segments slot).index else tally.earliest
        seen := (segments slot).index :: tally.seen } := by
  obtain ⟨⟨low, high⟩, small⟩ := valid slot
  obtain ⟨past, here⟩ := placed slot live used
  have position : (segments slot).index % 16 = slot := by
    have := congrArg Fin.val here
    simp only [Ring.slot, ringOf] at this
    omega
  have counts : 0 < ((segments slot).used : Int) := by omega
  have inPlace : ¬ ((segments slot).index > current ∨ (segments slot).index % 16 ≠ slot ∨
    (segments slot).index ∈ tally.seen) := by
    rintro (future | moved | again)
    · exact absurd past (not_le.mpr future)
    · exact moved position
    · exact unseen again
  rw [tallySlots, mirrored, slotText, if_neg used]
  simp only [cut_slot, readSigned_integer (valid slot).1, readUnsigned_integer small]
  rw [if_neg (by unfold maxExact; omega), if_neg (fun both => inPlace both.2.2), if_neg (by omega), if_neg (by omega)]
  simp only [gt_iff_lt, counts, live, true_and, and_self, if_true]

/-- The loop over the slots counts what `collectUsage` counts, and finds no slot out of its
place: an index that it has seen would belong to a slot before. -/
theorem tallySlots_exact {slots : List (Fin 16)} {tally : Tally} (distinct : slots.Nodup)
    (seen : ∀ index ∈ tally.seen, slotOf index ∉ slots)
    (fits : tally.used + liveUsage oldest (slots.map segments) ≤ maxExact)
    (known : ∀ index ∈ tally.earliest, index < maxInt64) :
    ∃ final, tallySlots hash oldest current slots tally = .ok final ∧
      final.used = tally.used + liveUsage oldest (slots.map segments) ∧
      final.earliest.getD maxInt64 = earliestUsed oldest (slots.map segments) (tally.earliest.getD maxInt64) ∧
      (∀ index ∈ final.earliest, index < maxInt64) ∧
      final.expired = tally.expired ++
        slots.filter fun slot => (segments slot).used ≠ 0 ∧ (segments slot).index ≤ oldest := by
  induction slots generalizing tally with
  | nil => exact ⟨tally, rfl, by simp [liveUsage], rfl, known, by simp⟩
  | cons slot rest ih =>
    obtain ⟨fresh, distinct⟩ := List.nodup_cons.mp distinct
    have keep : ∀ index ∈ tally.seen, slotOf index ∉ rest := fun index member inside =>
      seen index member (List.mem_cons_of_mem _ inside)
    rw [List.map_cons, liveUsage_cons] at fits ⊢
    rw [earliestUsed]
    by_cases empty : (segments slot).used = 0
    · simp only [empty, ite_self, Nat.zero_add] at fits ⊢
      obtain ⟨final, run, used, earliest, bounded, expired⟩ := ih distinct keep fits known
      rw [tallySlots_empty mirrored empty]
      exact ⟨final, run, used, by simpa using earliest, bounded, by simpa [List.filter_cons, empty] using expired⟩
    by_cases live : oldest < (segments slot).index
    · have here : slotOf (segments slot).index = slot := (placed slot live empty).2
      have small : (segments slot).index < maxInt64 := lt_of_le_of_lt (valid slot).1.2 (by decide)
      rw [if_pos live] at fits ⊢
      push_cast at fits
      rw [tallySlots_live mirrored valid placed empty live (fun member => seen _ member (by simp [here])) (by omega)]
      have first : ((if tally.earliest.all (fun earliest => (segments slot).index < earliest) = true then
          some (segments slot).index else tally.earliest).getD maxInt64) =
          min (tally.earliest.getD maxInt64) (segments slot).index := by
        cases tally.earliest with
        | none => simp [small.le]
        | some earliest =>
          by_cases before : (segments slot).index < earliest
          · simp [before, before.le]
          · simp [before, not_lt.mp before]
      have unseen : ∀ index ∈ (segments slot).index :: tally.seen, slotOf index ∉ rest := by
        rw [List.forall_mem_cons, here]
        exact ⟨fresh, keep⟩
      have bound : ∀ index ∈ if tally.earliest.all (fun earliest => (segments slot).index < earliest) = true then
          some (segments slot).index else tally.earliest, index < maxInt64 := by
        intro index member
        split_ifs at member
        · cases Option.mem_some.mp member
          exact small
        · exact known index member
      obtain ⟨final, run, used, earliest, bounded, expired⟩ := @ih { tally with
        used := tally.used + (segments slot).used
        earliest := if tally.earliest.all (fun earliest => (segments slot).index < earliest) = true then
          some (segments slot).index else tally.earliest
        seen := (segments slot).index :: tally.seen } distinct unseen (by dsimp only; omega) bound
      refine ⟨final, run, ?_, ?_, bounded, ?_⟩
      · rw [used]
        push_cast
        ring
      · rw [earliest, first, if_pos ⟨live, empty⟩]
      · simpa [List.filter_cons, live] using expired
    · have old := not_lt.mp live
      rw [if_neg live, Nat.zero_add] at fits ⊢
      rw [tallySlots_expired mirrored valid empty old]
      obtain ⟨final, run, used, earliest, bounded, expired⟩ :=
        @ih { tally with expired := tally.expired ++ [slot] } distinct keep fits known
      exact ⟨final, run, used, by simpa [live] using earliest, bounded, by simpa
        [List.filter_cons, empty, old] using expired⟩

end

theorem lookup_eraseSlots (slots : List (Fin 16)) (hash : Hash) (slot : Fin 16) :
    (slots.foldl (fun hash slot => hash.erase (.slot slot)) hash).lookup (.slot slot) =
      if slot ∈ slots then none else hash.lookup (.slot slot) := by
  induction slots generalizing hash with
  | nil => simp
  | cons first rest ih =>
    rw [List.foldl_cons, ih]
    by_cases here : slot = first
    · subst here
      simp [AList.lookup_erase]
    · rw [AList.lookup_erase_ne (by simpa using here)]
      simp [here]

/-- Deleting slots keeps every other field. -/
theorem lookup_eraseSlots_ne (slots : List (Fin 16)) (hash : Hash) (other : ∀ slot, field ≠ .slot slot) :
    (slots.foldl (fun hash slot => hash.erase (.slot slot)) hash).lookup field = hash.lookup field := by
  induction slots generalizing hash with
  | nil => rfl
  | cons first rest ih => rw [List.foldl_cons, ih, AList.lookup_erase_ne (other first)]

theorem shape_eraseSlots {hash : Hash} {Fits : Field → GoString → Prop}
    (shape : ∀ field value, hash.lookup field = some value → Fits field value) (slots : List (Fin 16)) :
    ∀ field value, (slots.foldl (fun hash slot => hash.erase (.slot slot)) hash).lookup field = some value →
      Fits field value := by
  induction slots generalizing hash with
  | nil => exact shape
  | cons first rest ih => exact ih (shape_erase shape _)

/-- A hash without the slots that expired. -/
theorem Counts.sweep {state next : PersistedState} {hash : Hash} (counts : Counts state hash)
    (id : next.policyID = state.policyID)
    (algorithm : next.algorithm = state.algorithm) (kind : next.algorithm = .slidingWindow)
    (segments : next.segments = dropExpired state.segments oldest) :
    Counts next (((List.finRange 16).filter fun slot =>
      (state.segments slot).used ≠ 0 ∧ (state.segments slot).index ≤ oldest).foldl
        (fun hash slot => hash.erase (.slot slot)) hash) where
  schema := by rw [lookup_eraseSlots_ne _ _ (by simp), counts.schema]
  policyID := by rw [lookup_eraseSlots_ne _ _ (by simp), counts.policyID, id]
  algorithm := by rw [lookup_eraseSlots_ne _ _ (by simp), counts.algorithm, algorithm]
  token other := by simp [kind] at other
  fixed other := by simp [kind] at other
  sliding _ slot := by
    rw [lookup_eraseSlots, counts.sliding (algorithm ▸ kind), segments, dropExpired]
    by_cases used : (state.segments slot).used = 0 <;> by_cases old : (state.segments slot).index ≤ oldest <;>
      simp [slotText, used, old]
  shape := by
    rw [algorithm]
    exact shape_eraseSlots counts.shape _

/-- A hash with the text of one slot. -/
theorem Counts.credit {state next : PersistedState} {hash : Hash} (counts : Counts state hash)
    (id : next.policyID = state.policyID)
    (algorithm : next.algorithm = state.algorithm) (kind : next.algorithm = .slidingWindow)
    (others : ∀ other, other ≠ slot → slotText (next.segments other) = slotText (state.segments other))
    (here : slotText (next.segments slot) = some text) (short : text.length ≤ 128) :
    Counts next (hash.insert (.slot slot) text) where
  schema := by simp [AList.lookup_insert_ne, counts.schema]
  policyID := by simp [AList.lookup_insert_ne, counts.policyID, id]
  algorithm := by simp [AList.lookup_insert_ne, counts.algorithm, algorithm]
  token other := by simp [kind] at other
  fixed other := by simp [kind] at other
  sliding _ other := by
    by_cases same : other = slot
    · subst same
      rw [AList.lookup_insert, here]
    · rw [AList.lookup_insert_ne (by simpa using same), counts.sliding (algorithm ▸ kind), others other same]
  shape := by
    rw [algorithm]
    refine shape_insert counts.shape ⟨?_, short⟩
    rw [← algorithm, kind]
    exact beq_self_eq_true _

theorem slotValue_eq {hash : Hash} {segment : PersistedSegment} (text : hash.lookup (.slot slot) = slotText segment)
    (current : Int) :
    slotValue hash slot current = if segment.index = current then segment.used else 0 := by
  rw [slotValue, text, slotText]
  by_cases empty : segment.used = 0
  · simp [empty]
  · rw [if_neg empty]
    simp only [(takeWhile_colon (colon_notMem segment.index) _).1, takeWhile_reverse, tonumber_integer,
      Option.getD_some,
      Option.some_inj, Nat.cast_ite, Nat.cast_zero]

/-- Clearing the slot of an index for it loses no text: what is still there is of that index. -/
theorem slotText_claim {segments : Segments} (placed : (ringOf segments).Placed oldest current)
    (span : current - oldest ≤ 16) (slot : Fin 16) :
    slotText (claimSlot (dropExpired segments oldest) current slot) =
      slotText (dropExpired segments oldest slot) := by
  unfold claimSlot
  split_ifs with moved
  · by_cases here : slot = Ring.slot 16 current
    · subst here
      have empty : (dropExpired segments oldest (Ring.slot 16 current)).used = 0 := by
        unfold dropExpired at moved ⊢
        split_ifs at moved ⊢ with old
        · rfl
        · by_contra used
          obtain ⟨past, same⟩ := placed _ (not_le.mp old) used
          refine moved (Ring.eq_of_slot_eq same ?_)
          rw [abs_lt]
          simp only [ringOf] at past ⊢
          constructor <;> omega
      simp [slotText, empty]
    · rw [Function.update_of_ne here]
  · rfl

theorem claimSlot_self (segments : Segments) (index : Int) :
    claimSlot segments index (Ring.slot 16 index) =
      ⟨index, if (segments (Ring.slot 16 index)).index = index then (segments (Ring.slot 16 index)).used else 0⟩ := by
  unfold claimSlot
  by_cases here : (segments (Ring.slot 16 index)).index = index
  · rw [if_neg (not_not.mpr here), if_pos here]
    exact congrArg₂ PersistedSegment.mk here rfl
  · rw [if_pos here, if_neg here, Function.update_self]

theorem length_slotText {index : Int} (exact : ExactMicros index) {used : Nat} (small : used ≤ 18014398509481982) :
    (integer index ++ 58 :: integer used).length ≤ 128 := by
  have first := length_integer exact
  have second : (Decimal.ofNat used).length ≤ 16 + 1 := Decimal.length_ofNat_le (by omega)
  rw [List.length_append, List.length_cons, integer_natCast]
  omega

section
variable {request : Request} {period : Nat} (bounds : request.Bounds period)
include bounds

/-- What is added to the current segment on both sides, once the window is swept. -/
theorem takeSegment_answers (carried : Bool) {hash : Hash} {swept : PersistedState} (counts : Counts swept hash)
    (kind : swept.algorithm = .slidingWindow) (exact : ExactMicros index)
    (small : ∀ slot, (swept.segments slot).used ≤ 9007199254740991)
    (text : ∀ slot, slotText (claimSlot swept.segments index slot) = slotText (swept.segments slot))
    (excess : swept.carried = usageExceedsLimit swept.used request.policy.limit)
    (flag : request.policy.limit < swept.used → carried = true)
    (whole : request.now = .ofUnixMicro request.now.unixMicro)
    (ends : Postgres.slidingReset (widthOf period) earliest request = .ofUnixMicro reset)
    (near : reset ≤ request.now.unixMicro + widthOf period + period)
    (sliding : request.policy.algorithm = .slidingWindow) (ttl : Int) :
    Answers request (takeSegment (callOf request period ttl) hash carried index swept.used reset)
      (spendSegment swept request index (widthOf period) earliest) := by
  have limit := bounds.limit_le
  have late := bounds.room
  have positive := bounds.cost_pos
  have size := bounds.period_le
  have width := widthOf_bounds bounds
  unfold spendSegment
  by_cases room : request.cost ≤ request.policy.limit - swept.used
  · have wide : (callOf request period ttl).cost ≤ max 0 ((request.policy.limit : Int) - swept.used) := by
      dsimp only [callOf, admissionOf]
      omega
    have below : (swept.used : Int) ≤ request.policy.limit := by omega
    have value := slotValue_eq (counts.sliding kind (slotOf index)) index
    have own : creditSlot (claimSlot swept.segments index) index request.cost (slotOf index) =
        ⟨index, (if (swept.segments (slotOf index)).index = index then (swept.segments (slotOf index)).used else 0) +
          request.cost⟩ := by
      rw [creditSlot, claimSlot_self]
      exact Function.update_self _ _ _
    have held := small (slotOf index)
    dsimp only
    rw [spendUsage_room { swept with segments := claimSlot swept.segments index } _ (not_lt.mpr room),
      if_pos rfl, ends, takeSegment, limit_admissionOf, if_pos wide, if_pos below]
    refine ⟨?_, ?_, ?_, rfl, ⟨?_, ?_⟩, ?_, ⟨le_rfl, by simp⟩, fun _ => by simp, Or.inl (by simp), fun _ => rfl⟩
    · refine counts.credit rfl rfl kind (fun other away => ?_) ?_ ?_
      · rw [← text other]
        exact congrArg slotText (Function.update_of_ne away _ _)
      · dsimp only
        rw [own, value, slotText, if_neg (by dsimp only; omega)]
        simp [admissionOf]
      · rw [value]
        exact_mod_cast length_slotText exact (by split_ifs <;> omega)
    · rw [excess]
      exact (decide_eq_false (by omega)).symm
    · simp only [maxInt64, callOf, admissionOf] at wide ⊢
      congr 1
      omega
    all_goals
      dsimp only [callOf, admissionOf] at wide ⊢
      omega
  · have narrow : ¬ (callOf request period ttl).cost ≤ max 0 ((request.policy.limit : Int) - swept.used) := by
      dsimp only [callOf, admissionOf]
      omega
    have now : (callOf request period ttl).now = request.now.unixMicro := rfl
    dsimp only
    rw [spendUsage_short { swept with segments := claimSlot swept.segments index } _ (not_le.mp room),
      if_neg (by simp), ends, takeSegment, limit_admissionOf, if_neg narrow, now]
    refine ⟨?_, ?_, ?_, rfl, ⟨?_, ?_⟩, ?_, ⟨le_max_left _ _, ?_⟩, fun fits => ?_, Or.inr rfl, by simp⟩
    · exact { counts with sliding := fun known slot => (counts.sliding kind slot).trans (text slot).symm }
    · rw [excess, usageExceedsLimit]
      split_ifs with fits
      · exact (decide_eq_false (by omega)).symm
      · rw [flag (by omega)]
        exact (decide_eq_true (by omega)).symm
    · rw [whole]
      simp only [Time.unixMicro_ofUnixMicro, sub_saturates]
      congr 1
      omega
    rotate_right
    · have wait := fits sliding
      rw [bounds.period_eq, Duration.microseconds_ofMicros] at wait
      dsimp only [widthOf] at near ⊢
      omega
    all_goals
      dsimp only
      omega

/-- The reset of the script is the one of `mutateSliding`. -/
theorem reset_exact {segments : Segments} {found : Option Int}
    (placed : (ringOf segments).Placed (oldestAt request.now.unixMicro period)
      (segmentAt request.now.unixMicro period))
    (first : found.getD maxInt64 =
      earliestUsed (oldestAt request.now.unixMicro period) (List.ofFn segments) maxInt64)
    (known : ∀ index ∈ found, index < maxInt64) (whole : request.now = .ofUnixMicro request.now.unixMicro) (ttl : Int) :
    Postgres.slidingReset (widthOf period)
        (earliestUsed (oldestAt request.now.unixMicro period) (List.ofFn segments) maxInt64) request =
          .ofUnixMicro (slidingReset (callOf request period ttl) (widthOf period) found) ∧
      slidingReset (callOf request period ttl) (widthOf period) found ≤
        request.now.unixMicro + widthOf period + period := by
  have width := widthOf_bounds bounds
  rw [Postgres.slidingReset, ← first, bounds.period_eq]
  cases found with
  | none =>
    rw [Option.getD_none, if_neg (not_not.mpr rfl)]
    refine ⟨?_, by simp only [slidingReset, admissionOf]; omega⟩
    rw [whole]
    simp [slidingReset, admissionOf, Time.add, Time.ofUnixMicro, Duration.ofMicros, Time.unixMicro, Int.add_mul]
  | some earliest =>
    have small := known earliest rfl
    rw [Option.getD_some, if_pos small.ne]
    refine ⟨by simp [slidingReset, admissionOf, Time.add, Time.ofUnixMicro, Duration.ofMicros, Int.add_mul], ?_⟩
    rw [Option.getD_some] at first
    rcases earliestUsed_cases (oldestAt request.now.unixMicro period) (List.ofFn segments) maxInt64 with
      missing | ⟨segment, member, newer, used, here⟩
    · exact absurd (first.trans missing) small.ne
    · obtain ⟨slot, rfl⟩ := (List.mem_ofFn' _ _).mp member
      have past := (placed slot newer used).1
      obtain ⟨-, start, -, -⟩ := segment_bounds bounds newer past
      rw [first, here]
      simp only [slidingReset, admissionOf]
      linarith

theorem spendSliding_answers {state : PersistedState} {hash : Hash} (mirrors : Mirrors state hash)
    (same : state.algorithm = request.policy.algorithm) (kind : request.policy.algorithm = .slidingWindow)
    (valid : SegmentsOk state.segments) (timely : EffectiveOk state request period)
    (whole : request.now = .ofUnixMicro request.now.unixMicro) (ttl : Int) :
    ∃ spent, spendSliding (callOf request period ttl) hash state.carried = .ok spent ∧
      Answers request spent (Postgres.spendSliding period (prepared state request) request) := by
  have known : state.algorithm = .slidingWindow := same.trans kind
  have placed := timely.placed kind
  have total := timely.total kind
  have usage : liveUsage (oldestAt request.now.unixMicro period) ((List.finRange 16).map state.segments) =
      (ringOf state.segments).total (oldestAt request.now.unixMicro period) := by
    rw [← List.ofFn_eq_map, liveUsage_ofFn]
  obtain ⟨final, run, used, first, bounded, expired⟩ := tallySlots_exact (mirrors.sliding known) valid placed
    (List.nodup_finRange 16) (show ∀ index ∈ ({} : Tally).seen, _ by simp)
    (by rw [usage]; simp only [maxExact]; omega) (by simp)
  rw [usage, zero_add] at used
  rw [← List.ofFn_eq_map, Option.getD_none] at first
  rw [List.nil_append] at expired
  obtain ⟨ends, near⟩ := reset_exact bounds placed first bounded whole ttl
  have revised : (hash.lookup .revision = some (callOf request period ttl).revision) =
      (state.revision = request.policy.revision) := by
    rw [mirrors.revision, Option.some_inj]
    rfl
  have clear : ¬ (state.revision = request.policy.revision ∧
      ((ringOf state.segments).total (oldestAt request.now.unixMicro period) : Int) > request.policy.limit ∧
      state.carried = false) := by
    rintro ⟨revision, excess, plain⟩
    rw [timely.carried kind revision (by exact_mod_cast excess)] at plain
    cases plain
  have ring : (prepared state request).segments = state.segments := by
    rw [prepared_window (by simp [kind, usesWindowMetadata])]
  obtain ⟨-, id, algorithm, -, -⟩ := prepared_header state request
  have segments : (swept period (prepared state request) request).segments =
      dropExpired state.segments (oldestAt request.now.unixMicro period) :=
    congrArg (dropExpired · _) ring
  have counted : (swept period (prepared state request) request).used =
      (ringOf state.segments).total (oldestAt request.now.unixMicro period) :=
    congrArg (fun segments => (ringOf segments).total _) ring
  have counts := mirrors.toCounts.sweep (show (swept period (prepared state request) request).policyID = _ from id)
    algorithm (algorithm.trans known) segments
  rw [Postgres.spendSliding, ring]
  refine ⟨_, ?_, takeSegment_answers bounds (if state.revision = request.policy.revision then state.carried
      else decide (((ringOf state.segments).total (oldestAt request.now.unixMicro period) : Int) >
        request.policy.limit)) counts (algorithm.trans known) (segmentAt_exact bounds) ?_ ?_ ?_ ?_
      whole ends near kind ttl⟩
  · have width : (((callOf request period ttl).period + 15) / 16) = widthOf period := rfl
    have current : (callOf request period ttl).now / widthOf period =
      segmentAt request.now.unixMicro period := rfl
    have oldest : ((callOf request period ttl).now -
      (callOf request period ttl).period) / widthOf period =
        oldestAt request.now.unixMicro period := rfl
    simp only [spendSliding, width, current, oldest, run, revised, used, limit_admissionOf, counted, expired]
    rw [if_neg clear]
  · intro slot
    rw [segments, dropExpired]
    split
    · exact Nat.zero_le _
    · exact (valid slot).2
  · rw [segments]
    exact slotText_claim placed (segment_span bounds _).2
  · rfl
  · intro excess
    rw [counted] at excess
    split_ifs with revision
    · exact timely.carried kind revision excess
    · exact decide_eq_true (by exact_mod_cast excess)

end

end RateLimit.Valkey
