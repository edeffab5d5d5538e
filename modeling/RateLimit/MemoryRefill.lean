import RateLimit.MemoryStore

/-! The refill of the memory store is exact unless the balance and what it earns pass one
word together: the sum is taken before it is cut to the limit. -/
namespace RateLimit.Memory

open Machine

/-- What a state has earned after so many microseconds, in units of a token per period. -/
def earnings (current : State) (policy : Policy) (elapsed : Nat) : Nat :=
  elapsed * policy.capacity + current.remainder

/-- The state that so many microseconds refill exactly. -/
def refilled (current : State) (request : Request) (elapsed : Nat) : State :=
  let period := request.policy.period.microseconds.toNat
  let tokens := min request.policy.limit (current.tokens + earnings current request.policy elapsed / period)
  { current with
    tokens := tokens
    remainder := if tokens = request.policy.limit then 0 else earnings current request.policy elapsed % period
    lastRefill := request.now }

/-- The microseconds since the last refill. -/
def elapsedMicros (current : State) (request : Request) : Nat :=
  ((request.now.nanos - current.lastRefill.nanos) / 1000).toNat

/-- The balance is full, or it stays in one word together with what it has earned, or what
it has earned is taken for a full bucket at once. Go caps the elapsed time at 292 years. -/
def FitsWord (current : State) (request : Request) : Prop :=
  let period := request.policy.period.microseconds.toNat
  let earned := earnings current request.policy (min (elapsedMicros current request) 9223372036854775)
  current.tokens = request.policy.limit ∨ earned < (18446744073709551616 - current.tokens) * period ∨
    18446744073709551616 * period ≤ earned

theorem sub_microseconds_elapsed {current : State} {request : Request}
    (later : current.lastRefill.nanos < request.now.nanos) :
    (request.now.sub current.lastRefill).microseconds =
      (min (elapsedMicros current request) 9223372036854775 : Nat) := by
  have nonneg : 0 ≤ (request.now.sub current.lastRefill).nanos := by
    simp only [Time.sub, maxInt64]
    omega
  rw [Duration.microseconds_eq_div nonneg]
  simp only [Time.sub, maxInt64, elapsedMicros]
  omega

/-- A sum that leaves the word is told from one that does not. -/
theorem u64_bind_ne {value : Int} (leaves : 18446744073709551616 ≤ value) (rest : Nat → α) (result : α) :
    (u64 value >>= fun sum => pure (rest sum)) ≠ pure result := by
  intro same
  have wrapped := (Machine.done.inj same).2
  change (decide _ || false) = false at wrapped
  simp [leaves] at wrapped

section
variable {current : State} {request : Request} {period : Nat} (positive : 0 < period)
  (period_eq : request.policy.period = .ofMicros period) (capacity : 0 < request.policy.capacity)
  (product : request.policy.limit * period ≤ 9007199254740991)

include period_eq in
theorem period_micros : request.policy.period.microseconds = period := by
  rw [period_eq, Duration.microseconds_ofMicros]

/-- A balance that earns its limit or more is refilled to it. -/
theorem refilled_full (enough : request.policy.limit ≤
      current.tokens + earnings current request.policy elapsed / request.policy.period.microseconds.toNat) :
    refilled current request elapsed =
      { current with tokens := request.policy.limit, remainder := 0, lastRefill := request.now } := by
  unfold refilled
  dsimp only
  rw [min_eq_left enough, if_pos rfl]

include positive period_eq capacity product in
/-- The cap on the elapsed time does not show: so much time fills every bucket. -/
theorem refilled_capped : refilled current request (min elapsed 9223372036854775) =
    refilled current request elapsed := by
  rcases Nat.le_total elapsed 9223372036854775 with short | long
  · rw [Nat.min_eq_left short]
  have filled : ∀ micros, 9223372036854775 ≤ micros → request.policy.limit ≤
      current.tokens + earnings current request.policy micros / request.policy.period.microseconds.toNat := by
    intro micros enough
    have worth := Nat.mul_le_mul enough capacity
    rw [period_micros period_eq, Int.toNat_natCast]
    refine le_trans ?_ (Nat.le_add_left _ _)
    rw [Nat.le_div_iff_mul_le positive, earnings]
    omega
  rw [Nat.min_eq_right long, refilled_full (filled _ le_rfl), refilled_full (filled _ long)]

include positive period_eq in
/-- The refill of a bucket that is not full, by the elapsed time as Go caps it. -/
theorem refill_capped_iff (most : current.tokens ≤ 9007199254740991) (room : request.policy.limit ≤ 9007199254740991)
    (small : period ≤ 9007199254740991) (part : current.remainder ≤ 9007199254740991)
    (later : current.lastRefill.nanos < request.now.nanos) (unfilled : current.tokens ≠ request.policy.limit) :
    refill current request =
        pure (refilled current request (min (elapsedMicros current request) 9223372036854775)) ↔
      FitsWord current request := by
  have capped := Nat.min_le_right (elapsedMicros current request) 9223372036854775
  have capacity : request.policy.capacity ≤ 9007199254740991 := (Nat.le_add_right _ _).trans room
  unfold refill FitsWord refilled
  rw [if_neg (not_not.mpr later), if_neg unfilled, sub_microseconds_elapsed later, period_micros period_eq,
    u64_exact (by omega) (by omega), pure_bind, u64_exact (by omega) (by omega), pure_bind]
  simp only [Int.toNat_natCast, unfilled, false_or]
  generalize min (elapsedMicros current request) 9223372036854775 = elapsed at capped ⊢
  have bound : earnings current request.policy elapsed < 18446744073709551616 * 18446744073709551616 := by
    have := Nat.mul_le_mul capped capacity
    rw [earnings]
    omega
  obtain ⟨word, words⟩ := mul_add_words rfl bound
  have low_word : (add64 (mul64 elapsed request.policy.capacity).2 current.remainder 0).1 < 18446744073709551616 :=
    Nat.mod_lt _ (by decide)
  have carried : (add64 (mul64 elapsed request.policy.capacity).1
      (add64 (mul64 elapsed request.policy.capacity).2 current.remainder 0).2 0).1 =
      (mul64 elapsed request.policy.capacity).1 +
        (add64 (mul64 elapsed request.policy.capacity).2 current.remainder 0).2 := by
    rw [add64]
    exact Nat.mod_eq_of_lt word
  rw [carried]
  change _ = earnings current request.policy elapsed at words
  generalize (mul64 elapsed request.policy.capacity).1 +
    (add64 (mul64 elapsed request.policy.capacity).2 current.remainder 0).2 = high at word words ⊢
  generalize (add64 (mul64 elapsed request.policy.capacity).2 current.remainder 0).1 = low at low_word words ⊢
  by_cases flooded : high ≥ period
  · have full : 18446744073709551616 * period ≤ earnings current request.policy elapsed := by omega
    have enough : request.policy.limit ≤ current.tokens + earnings current request.policy elapsed / period := by
      refine le_trans ?_ (Nat.le_add_left _ _)
      rw [Nat.le_div_iff_mul_le positive]
      have := Nat.mul_le_mul_right period room
      omega
    simp only [if_pos flooded, min_eq_left enough, if_true, full, or_true]
  · have dry : ¬ 18446744073709551616 * period ≤ earnings current request.policy elapsed := by omega
    rw [if_neg flooded, div64_exact (not_le.mp flooded), pure_bind, words, or_iff_left dry,
      ← Nat.div_lt_iff_lt_mul positive]
    dsimp only
    by_cases stays : current.tokens + earnings current request.policy elapsed / period < 18446744073709551616
    · rw [u64_add_exact stays, pure_bind, min_comm]
      exact iff_of_true rfl (by omega)
    · exact iff_of_false (u64_bind_ne (by omega) _ _) (by omega)

end

/-- The refill of a token bucket is exact and loses no tokens, at every later time and from
every state within the limit of its policy, exactly if the balance and what it has earned
fit one word. -/
theorem refill_exact_iff (request : Request) (built : request.policy.Built)
    (token : request.policy.algorithm = .tokenBucket)
    (current : State) (most : current.tokens ≤ request.policy.limit)
    (part : current.remainder < request.policy.period.microseconds.toNat)
    (later : current.lastRefill.nanos < request.now.nanos) :
    refill current request = pure (refilled current request (elapsedMicros current request)) ∧
        current.tokens ≤ (refilled current request (elapsedMicros current request)).tokens ↔
      FitsWord current request := by
  have sound := built.sound
  obtain ⟨period, positive, period_eq, product⟩ := sound.period (by rw [token]; trivial)
  have room := sound.limit_le
  have grows : current.tokens ≤ (refilled current request (elapsedMicros current request)).tokens :=
    le_min most (Nat.le_add_right _ _)
  rw [and_iff_left grows]
  by_cases full : current.tokens = request.policy.limit
  · unfold refill
    rw [if_neg (not_not.mpr later), if_pos full, refilled_full (full.ge.trans (Nat.le_add_right _ _)), ← full]
    exact iff_of_true rfl (Or.inl full)
  · have capacity := sound.capacity_pos
    have small : period ≤ 9007199254740991 := by
      have := Nat.mul_le_mul_right period (show 1 ≤ request.policy.limit by simp only [Policy.limit]; omega)
      simp only [maxExactInteger] at product
      omega
    rw [← refilled_capped positive period_eq capacity product]
    rw [period_micros period_eq, Int.toNat_natCast] at part
    exact refill_capped_iff positive period_eq (most.trans room) room small (by omega) later full

/-- As many tokens each microsecond as a policy may give. -/
def fastPolicy : Policy := ratePolicy .tokenBucket 97 9007199254740991 0 1 micro_fits

/-- A bucket of that policy with some tokens at the epoch. -/
def fastBucket (tokens : Nat) : State where
  revision := [97]
  algorithm := .tokenBucket
  lastSeen := .ofUnixMicro 0
  tokens := tokens
  lastRefill := .ofUnixMicro 0
  windowPeriod := .ofMicros 1

def fastRequest (micros : Int) : Request := ⟨fastPolicy, ⟨[107], [117]⟩, 1, .ofUnixMicro micros⟩

/-- One microsecond fills the bucket. -/
theorem refill_exact_iff_filled :
    FitsWord (fastBucket 5000) (fastRequest 1) ∧
      refill (fastBucket 5000) (fastRequest 1) = pure (refilled (fastBucket 5000) (fastRequest 1) 1) ∧
      5000 ≤ (refilled (fastBucket 5000) (fastRequest 1) 1).tokens := by
  have built : newPolicy fastPolicy.toPolicySpec = .ok fastPolicy := rfl
  have fits : FitsWord (fastBucket 5000) (fastRequest 1) := Or.inr (Or.inl (by decide))
  exact ⟨fits, (refill_exact_iff (fastRequest 1) ⟨_, built⟩ rfl (fastBucket 5000) (by decide) (by decide)
    (by decide)).mpr fits⟩

/-- After 2048 microseconds the sum of 5000 tokens and what they earned leaves the word,
and 2952 tokens are left of a bucket that should be full. -/
theorem refill_loses_tokens :
    newPolicy fastPolicy.toPolicySpec = .ok fastPolicy ∧ (fastRequest 2048).validate = .ok () ∧
      5000 ≤ fastPolicy.limit ∧ (fastBucket 5000).remainder < fastPolicy.period.microseconds.toNat ∧
      State.tokens <$> refill (fastBucket 5000) (fastRequest 2048) = .done 2952 true ∧
      (refilled (fastBucket 5000) (fastRequest 2048) 2048).tokens = 9007199254740991 := by
  exact ⟨rfl, rfl, by decide, by decide, by decide +kernel, by decide⟩

end RateLimit.Memory
