import Mathlib.Data.Nat.Cast.Order.Field
import Mathlib.Data.Rat.Floor
import Mathlib.Tactic.FieldSimp
import Mathlib.Tactic.Linarith
import Mathlib.Tactic.Positivity
import Mathlib.Tactic.Ring

/-! A token bucket in whole tokens with a carried remainder. The level stands for
the rational balance `tokens + remainder / period`, its `credit`. Refilling is
integer division, and yet loses nothing: on a level kept in range it adds exactly
`elapsed * capacity / period` to the credit, up to the limit (`credit_refill`).
Waiting times are the matching ceilings. -/
namespace RateLimit

/-- `capacity` tokens every `period`, never more than `limit` held. -/
structure TokenRate where
  limit : Nat
  capacity : Nat
  period : Nat
  capacity_pos : 0 < capacity
  period_pos : 0 < period

/-- Whole tokens, and what has been earned toward the next one in units of
`1 / period`. -/
structure TokenLevel where
  tokens : Nat
  remainder : Nat
  deriving DecidableEq, Repr

namespace TokenRate

variable {rate : TokenRate} {level : TokenLevel} {elapsed : Nat}

/-- The level after `elapsed` time units. A full bucket earns nothing, and
filling up forgets the remainder. -/
def refill (rate : TokenRate) (level : TokenLevel) (elapsed : Nat) : TokenLevel :=
  if elapsed = 0 ∨ rate.limit ≤ level.tokens then level
  else if rate.limit - level.tokens ≤
      (elapsed * rate.capacity + level.remainder) / rate.period then ⟨rate.limit, 0⟩
  else
    ⟨level.tokens + (elapsed * rate.capacity + level.remainder) / rate.period,
      (elapsed * rate.capacity + level.remainder) % rate.period⟩

@[simp] theorem refill_zero (rate : TokenRate) (level : TokenLevel) : rate.refill level 0 = level := by
  simp [refill]

/-- A balance at or above the limit earns nothing. -/
theorem refill_over (rate : TokenRate) (above : rate.limit ≤ level.tokens) : rate.refill level elapsed = level := by
  unfold refill
  exact if_pos (Or.inr above)

/-- The time until `missing` more tokens are there. -/
def wait (rate : TokenRate) (missing remainder : Nat) : Nat :=
  (missing * rate.period - remainder + (rate.capacity - 1)) / rate.capacity

/-- A wait is a quotient rounded up. -/
theorem wait_eq (rate : TokenRate) (missing remainder : Nat) :
    rate.wait missing remainder = (missing * rate.period - remainder) / rate.capacity +
      if (missing * rate.period - remainder) % rate.capacity ≠ 0 then 1 else 0 := by
  have positive := rate.capacity_pos
  have below : rate.capacity - 1 < rate.capacity := by omega
  unfold wait
  rw [Nat.add_div positive, Nat.div_eq_of_lt below, Nat.mod_eq_of_lt below, Nat.add_zero]
  congr 1
  refine if_congr ?_ rfl rfl
  omega

theorem wait_le (rate : TokenRate) (missing remainder : Nat) :
    rate.wait missing remainder ≤ missing * rate.period - remainder := by
  rw [wait_eq]
  have split := Nat.div_add_mod (missing * rate.period - remainder) rate.capacity
  have quotient := Nat.le_mul_of_pos_left ((missing * rate.period - remainder) / rate.capacity)
    rate.capacity_pos
  split <;> omega

/-- A wait is long enough. -/
theorem le_wait_mul (rate : TokenRate) (missing remainder : Nat) :
    missing * rate.period - remainder ≤ rate.wait missing remainder * rate.capacity := by
  have split := Nat.div_add_mod (missing * rate.period - remainder) rate.capacity
  have part := Nat.mod_lt (missing * rate.period - remainder) rate.capacity_pos
  rw [wait_eq, Nat.add_mul, Nat.mul_comm (_ / _)]
  split <;> omega

/-- The rational balance of a level. -/
def credit (rate : TokenRate) (level : TokenLevel) : ℚ :=
  level.tokens + level.remainder / rate.period

/-- A level in range: less than a token in the remainder, no more than the limit
in all. -/
structure InRange (rate : TokenRate) (level : TokenLevel) : Prop where
  remainder_lt : level.remainder < rate.period
  tokens_le : level.tokens ≤ rate.limit
  full : level.tokens = rate.limit → level.remainder = 0

theorem refill_tokens_le (rate : TokenRate) {level : TokenLevel} (held : level.tokens ≤ rate.limit) :
    (rate.refill level elapsed).tokens ≤ rate.limit := by
  unfold refill
  split
  · exact held
  · split
    · exact Nat.le_refl _
    · rename_i low
      dsimp only
      omega

theorem refill_remainder_lt (rate : TokenRate) {level : TokenLevel} (held : level.remainder < rate.period) :
    (rate.refill level elapsed).remainder < rate.period := by
  unfold refill
  split
  · exact held
  · split
    · exact rate.period_pos
    · exact Nat.mod_lt _ rate.period_pos

theorem InRange.refill (held : rate.InRange level) (elapsed : Nat) :
    rate.InRange (rate.refill level elapsed) := by
  refine ⟨rate.refill_remainder_lt held.remainder_lt, rate.refill_tokens_le held.tokens_le, ?_⟩
  unfold TokenRate.refill
  split
  · exact held.full
  · split
    · intro _
      rfl
    · rename_i below gap
      intro full
      dsimp only at full
      omega

theorem refill_filled (rate : TokenRate) (level : TokenLevel) (moved : 0 < elapsed) (below : level.tokens < rate.limit)
    (filled : rate.limit - level.tokens ≤ (elapsed * rate.capacity + level.remainder) / rate.period) :
    rate.refill level elapsed = ⟨rate.limit, 0⟩ := by
  rw [refill, if_neg (by omega), if_pos filled]

theorem refill_unfilled (rate : TokenRate) (level : TokenLevel) (moved : 0 < elapsed)
    (unfilled : (elapsed * rate.capacity + level.remainder) / rate.period < rate.limit - level.tokens) :
    rate.refill level elapsed =
      ⟨level.tokens + (elapsed * rate.capacity + level.remainder) / rate.period,
        (elapsed * rate.capacity + level.remainder) % rate.period⟩ := by
  have below : level.tokens < rate.limit := Nat.lt_of_sub_pos (Nat.zero_lt_of_lt unfilled)
  rw [refill, if_neg (by omega), if_neg (not_le.mpr unfilled)]

/-- Enough time fills any bucket: this long even an empty one. -/
theorem refill_full (below : level.tokens < rate.limit)
    (long : rate.limit * rate.period ≤ elapsed * rate.capacity) :
    rate.refill level elapsed = ⟨rate.limit, 0⟩ := by
  have product : 0 < rate.limit * rate.period :=
    Nat.mul_pos (Nat.lt_of_le_of_lt (Nat.zero_le _) below) rate.period_pos
  have moved : 0 < elapsed := by
    rcases Nat.eq_zero_or_pos elapsed with rfl | positive
    · omega
    · exact positive
  have earned : rate.limit ≤ (elapsed * rate.capacity + level.remainder) / rate.period := by
    rw [Nat.le_div_iff_mul_le rate.period_pos]
    omega
  exact rate.refill_filled level moved below (by omega)

/-- A level in range is full after the time an empty bucket takes. -/
theorem InRange.refill_full (held : rate.InRange level)
    (long : rate.limit * rate.period ≤ elapsed * rate.capacity) :
    rate.refill level elapsed = ⟨rate.limit, 0⟩ := by
  rcases Nat.lt_or_ge level.tokens rate.limit with below | full
  · exact TokenRate.refill_full below long
  · have same : level.tokens = rate.limit := Nat.le_antisymm held.tokens_le full
    rw [TokenRate.refill, if_pos (by omega)]
    cases level with
    | mk tokens remainder =>
      have empty : remainder = 0 := held.full same
      rw [empty]
      exact congrArg (TokenLevel.mk · 0) same

/-- Time beyond what fills an empty bucket may be cut off. -/
theorem refill_min (rate : TokenRate) (level : TokenLevel) (elapsed : Nat)
    (enough : rate.limit * rate.period ≤ most * rate.capacity) :
    rate.refill level (min elapsed most) = rate.refill level elapsed := by
  rcases Nat.le_total elapsed most with short | long
  · rw [Nat.min_eq_left short]
  rw [Nat.min_eq_right long]
  by_cases full : rate.limit ≤ level.tokens
  · simp [refill, full]
  · have longer := enough.trans (Nat.mul_le_mul_right rate.capacity long)
    rw [refill_full (not_le.mp full) enough, refill_full (not_le.mp full) longer]

/-! ## Waiting -/

theorem wait_le_iff (rate : TokenRate) (missing remainder elapsed : Nat) :
    rate.wait missing remainder ≤ elapsed ↔ missing ≤ (elapsed * rate.capacity + remainder) / rate.period := by
  have positive := rate.capacity_pos
  unfold wait
  rw [Nat.div_le_iff_le_mul_add_pred positive, Nat.le_div_iff_mul_le rate.period_pos, Nat.mul_comm rate.capacity]
  omega

/-- Nothing takes longer than to earn as much from scratch. -/
theorem wait_le_scratch (rate : TokenRate) (less : missing ≤ other) (remainder : Nat) :
    rate.wait missing remainder ≤ rate.wait other 0 := by
  have product := Nat.mul_le_mul_right rate.period less
  unfold wait
  exact Nat.div_le_div_right (by omega)

/-- A token that is missing takes time. -/
theorem wait_pos (rate : TokenRate) (fraction : remainder < rate.period) (short : 0 < missing) :
    0 < rate.wait missing remainder := by
  have product := Nat.le_mul_of_pos_left rate.period short
  have positive := rate.capacity_pos
  unfold wait
  exact Nat.div_pos (by omega) positive

/-- A wait is exact: the bucket holds so many tokens when it is over, and not before. -/
theorem le_refill_iff (fraction : level.remainder < rate.period) (within : target ≤ rate.limit) :
    target ≤ (rate.refill level elapsed).tokens ↔ rate.wait (target - level.tokens) level.remainder ≤ elapsed := by
  have nothing : elapsed = 0 → (elapsed * rate.capacity + level.remainder) / rate.period = 0 := by
    rintro rfl
    rw [Nat.zero_mul, Nat.zero_add]
    exact Nat.div_eq_of_lt fraction
  rw [wait_le_iff]
  unfold refill
  generalize (elapsed * rate.capacity + level.remainder) / rate.period = gained at nothing ⊢
  split
  · rename_i still
    rcases still with zero | full
    · rw [nothing zero]
      omega
    · omega
  · split
    · dsimp only
      omega
    · dsimp only
      omega

/-! ## Credit -/

private theorem quotient_remainder (rate : TokenRate) (n : Nat) :
    ((n / rate.period : Nat) : ℚ) + ((n % rate.period : Nat) : ℚ) / rate.period = n / rate.period := by
  have positive : (rate.period : ℚ) ≠ 0 := by exact_mod_cast rate.period_pos.ne'
  have split : (n : ℚ) = rate.period * (n / rate.period : Nat) + (n % rate.period : Nat) := by
    exact_mod_cast (Nat.div_add_mod n rate.period).symm
  rw [eq_div_iff positive, add_mul, div_mul_cancel₀ _ positive]
  linarith

/-- What an elapsed time is worth. -/
def earned (rate : TokenRate) (elapsed : Nat) : ℚ := elapsed * (rate.capacity / rate.period)

theorem earned_nonneg (rate : TokenRate) (elapsed : Nat) : 0 ≤ rate.earned elapsed := by
  unfold earned
  positivity

private theorem credit_add_earned (rate : TokenRate) (level : TokenLevel) (elapsed : Nat) :
    rate.credit level + rate.earned elapsed =
      level.tokens + ((elapsed * rate.capacity + level.remainder : Nat) : ℚ) / rate.period := by
  unfold credit earned
  push_cast
  ring

/-- Refilling never credits more than the elapsed time is worth. -/
theorem credit_refill_le (rate : TokenRate) (level : TokenLevel) (elapsed : Nat) :
    rate.credit (rate.refill level elapsed) ≤ rate.credit level + rate.earned elapsed := by
  unfold refill
  split
  · linarith [earned_nonneg rate elapsed]
  rw [credit_add_earned]
  split
  · rename_i below enough
    have floor := @Nat.cast_div_le ℚ _ _ _ (elapsed * rate.capacity + level.remainder) rate.period
    have whole : (rate.limit : ℚ) ≤ level.tokens +
        ((elapsed * rate.capacity + level.remainder) / rate.period : Nat) := by
      exact_mod_cast (by omega : rate.limit ≤ level.tokens +
        (elapsed * rate.capacity + level.remainder) / rate.period)
    simp only [credit, Nat.cast_zero, zero_div, add_zero]
    linarith
  · have exact := quotient_remainder rate (elapsed * rate.capacity + level.remainder)
    simp only [credit]
    push_cast at exact ⊢
    linarith

private theorem fraction_lt_one (held : level.remainder < rate.period) :
    ((level.remainder : ℚ) / rate.period) < 1 := by
  have positive : (0 : ℚ) < rate.period := by exact_mod_cast rate.period_pos
  rw [div_lt_one positive]
  exact_mod_cast held

theorem InRange.credit_le (held : rate.InRange level) : rate.credit level ≤ rate.limit := by
  unfold credit
  rcases Nat.lt_or_eq_of_le held.tokens_le with below | full
  · have fraction := fraction_lt_one held.remainder_lt
    have whole : (level.tokens : ℚ) + 1 ≤ rate.limit := by exact_mod_cast below
    linarith
  · simp [held.full full, full]

/-- Refilling a level in range credits the exact worth of the elapsed time, up to
the limit. -/
theorem InRange.credit_refill (held : rate.InRange level) (elapsed : Nat) :
    rate.credit (rate.refill level elapsed) =
      min (rate.limit : ℚ) (rate.credit level + rate.earned elapsed) := by
  have upper := credit_refill_le rate level elapsed
  have limit := (held.refill elapsed).credit_le
  refine le_antisymm (le_min limit upper) ?_
  unfold TokenRate.refill
  split
  · rename_i still
    rcases still with rfl | full
    · refine (min_le_right _ _).trans ?_
      simp [earned]
    · have same : level.tokens = rate.limit := Nat.le_antisymm held.tokens_le full
      refine (min_le_left _ _).trans ?_
      simp [credit, held.full same, same]
  · split
    · refine (min_le_left _ _).trans ?_
      simp [credit]
    · refine (min_le_right _ _).trans ?_
      rw [credit_add_earned]
      have exact := quotient_remainder rate (elapsed * rate.capacity + level.remainder)
      simp only [credit]
      push_cast at exact ⊢
      linarith

/-- Whole tokens are what the credit is worth rounded down. -/
theorem floor_credit (held : level.remainder < rate.period) : ⌊rate.credit level⌋ = level.tokens := by
  rw [Int.floor_eq_iff]
  have fraction := fraction_lt_one held
  have nonneg : (0 : ℚ) ≤ (level.remainder : ℚ) / rate.period := by positivity
  unfold credit
  push_cast
  constructor <;> linarith

/-- A level in range is told by its credit. -/
theorem eq_of_credit {first second : TokenLevel} (left : first.remainder < rate.period)
    (right : second.remainder < rate.period) (same : rate.credit first = rate.credit second) : first = second := by
  have tokens : first.tokens = second.tokens := by
    have whole := floor_credit left
    rw [same, floor_credit right] at whole
    exact_mod_cast whole.symm
  have period : (rate.period : ℚ) ≠ 0 := by exact_mod_cast rate.period_pos.ne'
  have remainder : first.remainder = second.remainder := by
    unfold credit at same
    rw [tokens] at same
    have parts := add_left_cancel same
    rw [div_left_inj' period] at parts
    exact_mod_cast parts
  cases first
  cases second
  simp_all

/-- Refilling is additive. -/
theorem InRange.refill_refill (held : rate.InRange level) (first second : Nat) :
    rate.refill (rate.refill level first) second = rate.refill level (first + second) := by
  have between := held.refill first
  refine eq_of_credit (between.refill second).remainder_lt (held.refill _).remainder_lt ?_
  rw [between.credit_refill, held.credit_refill, held.credit_refill]
  have earned : rate.earned (first + second) = rate.earned first + rate.earned second := by
    unfold TokenRate.earned
    push_cast
    ring
  have nonneg := rate.earned_nonneg second
  have capped : (rate.limit : ℚ) ≤ rate.limit + rate.earned second := le_add_of_nonneg_right nonneg
  rw [earned, ← add_assoc, ← min_add_add_right, ← min_assoc, min_eq_left capped]

/-- A wait is the time in which the missing credit is earned, rounded up. -/
theorem wait_eq_ceil (rate : TokenRate) (least : remainder ≤ missing * rate.period) :
    (rate.wait missing remainder : Int) =
      ⌈((missing : ℚ) - remainder / rate.period) * rate.period / rate.capacity⌉ := by
  have period : (0 : ℚ) < rate.period := by exact_mod_cast rate.period_pos
  have capacity : (0 : ℚ) < rate.capacity := by exact_mod_cast rate.capacity_pos
  have value : ((missing : ℚ) - remainder / rate.period) * rate.period / rate.capacity =
      ((missing * rate.period - remainder : Nat) : ℚ) / rate.capacity := by
    rw [Nat.cast_sub least, sub_mul, div_mul_cancel₀ _ period.ne']
    push_cast
    ring
  have split := Nat.div_add_mod (missing * rate.period - remainder) rate.capacity
  have residue := Nat.mod_lt (missing * rate.period - remainder) rate.capacity_pos
  rw [value, eq_comm, Int.ceil_eq_iff, lt_div_iff₀ capacity, div_le_iff₀ capacity, wait_eq]
  generalize missing * rate.period - remainder = total at split residue ⊢
  generalize total / rate.capacity = quotient at split ⊢
  have exact : (rate.capacity : ℚ) * quotient + (total % rate.capacity : Nat) = total := by
    exact_mod_cast split
  by_cases inexact : total % rate.capacity ≠ 0
  · have above : (1 : ℚ) ≤ (total % rate.capacity : Nat) := by
      exact_mod_cast Nat.pos_of_ne_zero inexact
    have below : ((total % rate.capacity : Nat) : ℚ) ≤ rate.capacity := by exact_mod_cast residue.le
    rw [if_pos inexact]
    push_cast
    constructor <;> linarith
  · rw [if_neg inexact]
    rw [not_not.mp inexact] at exact
    push_cast at exact ⊢
    constructor <;> linarith

theorem credit_gap (rate : TokenRate) (remainder : Nat) {tokens most : Nat} (least : tokens ≤ most) :
    (most : ℚ) - rate.credit ⟨tokens, remainder⟩ = ((most - tokens : Nat) : ℚ) - remainder / rate.period := by
  rw [Nat.cast_sub least]
  simp only [credit]
  ring

/-- Taking whole tokens takes exactly that from the credit. -/
theorem credit_sub (enough : cost ≤ level.tokens) :
    rate.credit ⟨level.tokens - cost, level.remainder⟩ = rate.credit level - cost := by
  unfold credit
  push_cast [enough]
  ring

end TokenRate

end RateLimit
