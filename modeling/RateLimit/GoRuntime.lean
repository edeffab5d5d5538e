import Mathlib.Tactic.Ring
import Mathlib.Tactic.NormNum
import Mathlib.Tactic.Linarith

/-! The part of the Go run time that the rate limiter computes with.

Sixty-four-bit arithmetic keeps its faults visible. A computation yields its
wrapped value together with a flag that says whether any operation on the way
left its type's range, or it panics. A program written here runs exactly as the
machine does, and `x = pure v` says more than the value: nothing wrapped and
nothing panicked. The two-word operations of `math/bits` are included with the
identities that let a 128-bit product be read as one number.

Instants and durations are counted in nanoseconds, with the saturation of
`Time.Sub` and the two roundings the package `time` has: `UnixMicro` rounds
down, `Microseconds` toward zero. -/
namespace RateLimit

/-- One run of machine arithmetic: a value with the fact whether some operation
wrapped, or a run-time panic. -/
inductive Machine (α : Type) where
  | done (value : α) (wrapped : Bool)
  | panic
  deriving DecidableEq, Repr

namespace Machine

instance : Monad Machine where
  pure value := .done value false
  bind first rest := match first with
    | .panic => .panic
    | .done value wrapped => match rest value with
      | .panic => .panic
      | .done result wrapped' => .done result (wrapped || wrapped')

instance : LawfulMonad Machine := LawfulMonad.mk' Machine
  (by intro α x; cases x <;> simp [Functor.map])
  (by
    intro α β value rest
    simp only [pure, bind]
    cases rest value <;> simp)
  (by
    intro α β γ first next last
    cases first with
    | panic => rfl
    | done value wrapped =>
      simp only [bind]
      cases next value with
      | panic => rfl
      | done middle wrapped' =>
        simp only
        cases last middle with
        | panic => rfl
        | done result wrapped'' => simp [Bool.or_assoc])

theorem pure_injective {a b : α} (same : (pure a : Machine α) = pure b) : a = b := by
  injection same

/-- A computation that does not panic, with the value it returns. -/
def Returns (computation : Machine α) (value : α) : Prop :=
  ∃ wrapped, computation = .done value wrapped

theorem returns_pure (value : α) : (pure value : Machine α).Returns value := ⟨false, rfl⟩

theorem returns_of_eq {computation : Machine α} (exact : computation = pure value) : computation.Returns value :=
  ⟨false, exact⟩

theorem Returns.bind {first : Machine α} {rest : α → Machine β} (here : first.Returns a)
    (next : (rest a).Returns b) : (first >>= rest).Returns b := by
  obtain ⟨wrapped, rfl⟩ := here
  obtain ⟨wrapped', same⟩ := next
  exact ⟨wrapped || wrapped', by simp only [Bind.bind, same]⟩

theorem returns_bind {first : Machine α} {rest : α → Machine β} (here : ∃ a, first.Returns a)
    (next : ∀ a, ∃ b, (rest a).Returns b) : ∃ b, (first >>= rest).Returns b := by
  obtain ⟨a, here⟩ := here
  obtain ⟨b, next⟩ := next a
  exact ⟨b, here.bind next⟩

/-- What a sequence returns, its rest returns from what its start returns. -/
theorem Returns.of_bind {first : Machine α} {rest : α → Machine β} (both : (first >>= rest).Returns b) :
    ∃ a, first.Returns a ∧ (rest a).Returns b := by
  obtain ⟨wrapped, same⟩ := both
  cases first with
  | panic => cases same
  | done a wrapped' =>
    refine ⟨a, ⟨wrapped', rfl⟩, ?_⟩
    simp only [Bind.bind] at same
    cases later : rest a with
    | panic =>
      rw [later] at same
      cases same
    | done b' wrapped'' =>
      rw [later] at same
      cases same
      exact ⟨wrapped'', rfl⟩

theorem Returns.unique {computation : Machine α} (one : computation.Returns a) (two : computation.Returns b) :
    a = b := by
  obtain ⟨_, rfl⟩ := one
  obtain ⟨_, same⟩ := two
  cases same
  rfl

/-- A computation that does not panic and returns a value in `Post`. -/
def Yields (computation : Machine α) (Post : α → Prop) : Prop :=
  ∃ value, computation.Returns value ∧ Post value

theorem yields_pure {Post : α → Prop} (holds : Post value) : (pure value : Machine α).Yields Post :=
  ⟨value, returns_pure value, holds⟩

theorem Yields.bind {first : Machine α} {rest : α → Machine β} {Mid : α → Prop} {Post : β → Prop}
    (here : first.Yields Mid) (next : ∀ a, Mid a → (rest a).Yields Post) : (first >>= rest).Yields Post := by
  obtain ⟨a, returns, holds⟩ := here
  obtain ⟨b, later, ends⟩ := next a holds
  exact ⟨b, returns.bind later, ends⟩

/-! ## Operations -/

/-- `math.MaxInt64`. -/
def maxInt64 : Int := 9223372036854775807

/-- An unsigned 64-bit result: the residue, flagged when it is not the value. -/
def u64 (value : Int) : Machine Nat :=
  .done (value % 18446744073709551616).toNat
    (decide (value < 0 ∨ 18446744073709551616 ≤ value))

/-- A signed 64-bit result: the two's-complement residue, flagged likewise. -/
def i64 (value : Int) : Machine Int :=
  .done (value.bmod 18446744073709551616)
    (decide (value < -9223372036854775808 ∨ 9223372036854775808 ≤ value))

/-- Signed division, which truncates toward zero and panics on zero. -/
def quo (value divisor : Int) : Machine Int :=
  if divisor = 0 then .panic else i64 (value.tdiv divisor)

/-- The remainder that belongs to `quo`; its sign is that of the dividend. -/
def rem (value divisor : Int) : Machine Int :=
  if divisor = 0 then .panic else i64 (value.tmod divisor)

/-- `bits.Mul64`: the high and the low word of a product. -/
def mul64 (x y : Nat) : Nat × Nat :=
  (x * y / 18446744073709551616, x * y % 18446744073709551616)

/-- `bits.Add64`: the sum word and the carry out. -/
def add64 (x y carry : Nat) : Nat × Nat :=
  ((x + y + carry) % 18446744073709551616, (x + y + carry) / 18446744073709551616)

/-- `bits.Sub64`: the difference word and the borrow out. -/
def sub64 (x y borrow : Nat) : Nat × Nat :=
  ((((x : Int) - y - borrow) % 18446744073709551616).toNat, if x < y + borrow then 1 else 0)

/-- `bits.Div64`: quotient and remainder of a two-word dividend. The quotient
must fit one word, so a divisor not above the high word panics, zero included. -/
def div64 (high low divisor : Nat) : Machine (Nat × Nat) :=
  if divisor ≤ high then .panic
  else pure ((high * 18446744073709551616 + low) / divisor,
    (high * 18446744073709551616 + low) % divisor)

theorem u64_returns (value : Int) : (u64 value).Returns (value % 18446744073709551616).toNat := ⟨_, rfl⟩

theorem i64_returns (value : Int) : (i64 value).Returns (value.bmod 18446744073709551616) := ⟨_, rfl⟩

theorem u64_yields (value : Int) : (u64 value).Yields fun _ => True := ⟨_, u64_returns value, trivial⟩

theorem i64_yields (value : Int) : (i64 value).Yields fun _ => True := ⟨_, i64_returns value, trivial⟩

/-! ## In range, an operation is the operation on integers -/

theorem u64_exact (low : 0 ≤ value) (high : value < 18446744073709551616) :
    u64 value = pure value.toNat := by
  have inside : ¬ (value < 0 ∨ 18446744073709551616 ≤ value) := by omega
  have same : value % 18446744073709551616 = value := by omega
  simp only [u64, same, inside, decide_false]
  rfl

theorem i64_exact (low : -9223372036854775808 ≤ value) (high : value < 9223372036854775808) :
    i64 value = pure value := by
  have inside : ¬ (value < -9223372036854775808 ∨ 9223372036854775808 ≤ value) := by omega
  have same : value.bmod 18446744073709551616 = value :=
    Int.bmod_eq_of_le (by norm_num; omega) (by norm_num; omega)
  simp only [i64, same, inside, decide_false]
  rfl

theorem u64_add_exact {a b : Nat} (fits : a + b < 18446744073709551616) :
    u64 ((a : Int) + (b : Int)) = pure (a + b : Nat) := by
  rw [u64_exact (by omega) (by omega)]
  congr 1

theorem u64_sub_exact {a b : Nat} (least : b ≤ a) (fits : a < 18446744073709551616) :
    u64 ((a : Int) - (b : Int)) = pure (a - b) := by
  rw [u64_exact (by omega) (by omega)]
  congr 1
  omega

theorem quo_exact (nonzero : divisor ≠ 0) (low : -9223372036854775808 ≤ value.tdiv divisor)
    (high : value.tdiv divisor < 9223372036854775808) :
    quo value divisor = pure (value.tdiv divisor) := by
  rw [quo, if_neg nonzero, i64_exact low high]

theorem rem_exact (nonzero : divisor ≠ 0) (low : -9223372036854775808 ≤ value.tmod divisor)
    (high : value.tmod divisor < 9223372036854775808) :
    rem value divisor = pure (value.tmod divisor) := by
  rw [rem, if_neg nonzero, i64_exact low high]

theorem div64_exact (fits : high < divisor) :
    div64 high low divisor = pure ((high * 18446744073709551616 + low) / divisor,
      (high * 18446744073709551616 + low) % divisor) := by
  rw [div64, if_neg (by omega)]

/-! ## Two words read as one number -/

/-- Multiply, then add one word with its carry: the two words are the exact sum
as long as it fits two words. -/
theorem mul_add_words (sum : x * y + r = total)
    (fits : total < 18446744073709551616 * 18446744073709551616) :
    (mul64 x y).1 + (add64 (mul64 x y).2 r 0).2 < 18446744073709551616 ∧
      ((mul64 x y).1 + (add64 (mul64 x y).2 r 0).2) * 18446744073709551616 +
        (add64 (mul64 x y).2 r 0).1 = total := by
  simp only [mul64, add64]
  generalize x * y = product at sum ⊢
  omega

/-- Multiply, then subtract one word with its borrow: the two words are the exact
difference as long as it is not negative. -/
theorem mul_sub_words (least : r ≤ x * y) (word : r < 18446744073709551616)
    (fits : x * y < 18446744073709551616 * 18446744073709551616) :
    (sub64 (mul64 x y).2 r 0).2 ≤ (mul64 x y).1 ∧
      ((mul64 x y).1 - (sub64 (mul64 x y).2 r 0).2) * 18446744073709551616 +
        (sub64 (mul64 x y).2 r 0).1 = x * y - r := by
  simp only [mul64]
  generalize x * y = product at least fits ⊢
  by_cases borrows : product % 18446744073709551616 < r + 0
  · simp only [sub64, if_pos borrows]
    omega
  · simp only [sub64, if_neg borrows]
    omega

end Machine

/-! ## Strings, durations and instants -/

/-- A Go string is its bytes. -/
abbrev GoString := List UInt8

instance GoString.lawful : LawfulBEq GoString := inferInstance

/-- The bytes of a literal. -/
def GoString.ofLiteral (text : String) : GoString := text.toUTF8.toList

/-- `time.Duration`, a signed 64-bit count of nanoseconds. -/
structure Duration where
  nanos : Int
  deriving DecidableEq, Repr

/-- `time.Time` as an instant: nanoseconds from the Unix epoch. Its own range is
far wider than any value used here, and the location only affects printing. -/
structure Time where
  nanos : Int
  deriving DecidableEq, Repr

namespace Duration

/-- `time.Microsecond` in nanoseconds. -/
def microsecond : Int := 1000

/-- `time.Second` in nanoseconds. -/
def second : Int := 1000000000

/-- `Duration.Microseconds`. -/
def microseconds (d : Duration) : Int := d.nanos.tdiv 1000

/-- `Duration.Milliseconds`. -/
def milliseconds (d : Duration) : Int := d.nanos.tdiv 1000000

/-- A whole number of microseconds. -/
def ofMicros (micros : Int) : Duration := ⟨micros * 1000⟩

@[simp] theorem microseconds_ofMicros (micros : Int) : (ofMicros micros).microseconds = micros :=
  Int.mul_tdiv_cancel _ (by decide)

theorem microseconds_eq_div {d : Duration} (nonneg : 0 ≤ d.nanos) :
    d.microseconds = d.nanos / 1000 :=
  Int.tdiv_eq_ediv_of_nonneg nonneg

end Duration

namespace Time

/-- The zero `time.Time`, the start of year one. -/
def zero : Time := ⟨-62135596800000000000⟩

/-- `Time.UnixMicro`, of an instant whose microseconds are a 64-bit count. Go wraps the count of
any other one, which may then pass a range check of the limiter; here it keeps its exact count
and fails them all. -/
def unixMicro (t : Time) : Int := t.nanos / 1000

/-- The instants whose microseconds are a 64-bit count. -/
def HasMicros (t : Time) : Prop := -9223372036854775808 ≤ t.unixMicro ∧ t.unixMicro ≤ Machine.maxInt64

instance decidableHasMicros (t : Time) : Decidable t.HasMicros := inferInstanceAs (Decidable (_ ∧ _))

/-- `time.UnixMicro`. -/
def ofUnixMicro (micros : Int) : Time := ⟨micros * 1000⟩

/-- `Time.Add`. -/
def add (t : Time) (d : Duration) : Time := ⟨t.nanos + d.nanos⟩

/-- `Time.Sub`, which saturates. -/
def sub (t u : Time) : Duration :=
  ⟨max (-9223372036854775808) (min Machine.maxInt64 (t.nanos - u.nanos))⟩

@[simp] theorem unixMicro_ofUnixMicro (micros : Int) : unixMicro (ofUnixMicro micros) = micros :=
  Int.mul_ediv_cancel _ (by decide)

theorem ofUnixMicro_unixMicro_le (t : Time) : (ofUnixMicro t.unixMicro).nanos ≤ t.nanos := by
  simp only [ofUnixMicro, unixMicro]
  omega

theorem le_add_ofMicros (t : Time) (micros : Nat) : t.nanos ≤ (t.add (.ofMicros micros)).nanos := by
  simp only [add, Duration.ofMicros]
  omega

/-- An instant before the next microsecond boundary is before every later one. -/
theorem nanos_le_ofUnixMicro {t : Time} (later : t.unixMicro < micros) :
    t.nanos ≤ (ofUnixMicro micros).nanos := by
  simp only [unixMicro, ofUnixMicro] at *
  omega

/-- Whole microseconds between two instants are exact up to the saturation of
`Time.Sub`, 9223372036854775 of them. -/
theorem sub_microseconds {a b : Int} (ordered : b ≤ a) :
    ((ofUnixMicro a).sub (ofUnixMicro b)).microseconds = min (a - b) 9223372036854775 := by
  have nonneg : 0 ≤ ((ofUnixMicro a).sub (ofUnixMicro b)).nanos := by
    simp only [sub, ofUnixMicro, Machine.maxInt64]
    omega
  rw [Duration.microseconds_eq_div nonneg]
  simp only [sub, ofUnixMicro, Machine.maxInt64]
  omega

end Time

end RateLimit
