import Mathlib.Computability.RegularExpressions

/-! Regular expressions over bytes, with the two forms that a written pattern has beyond
those of Kleene: a class of bytes, and one or more times. A scanner reads a text from the
left; what it may read next follows from the rules for the first byte of a word. -/
namespace RateLimit.BytePattern
open scoped Computability

/-- The bytes from `first` to `last`, as in `[a-z]`. -/
def bytesFrom (first last : UInt8) : List UInt8 :=
  (List.range' first.toNat (last.toNat + 1 - first.toNat)).map UInt8.ofNat

/-- One byte of a class. -/
def oneOf (bytes : List UInt8) : RegularExpression UInt8 := (bytes.map .char).sum

/-- The `+` of written patterns. -/
def oneOrMore (pattern : RegularExpression UInt8) : RegularExpression UInt8 := pattern * pattern.star

@[simp] theorem mem_bytesFrom : byte ∈ bytesFrom first last ↔ first ≤ byte ∧ byte ≤ last := by
  simp only [bytesFrom, List.mem_map, List.mem_range'_1, UInt8.le_iff_toNat_le]
  constructor
  · rintro ⟨code, ⟨above, below⟩, rfl⟩
    have small := last.toNat_lt
    rw [UInt8.toNat_ofNat', Nat.mod_eq_of_lt (by omega)]
    omega
  · rintro ⟨above, below⟩
    exact ⟨byte.toNat, by omega, UInt8.ofNat_toNat⟩

@[simp] theorem mem_oneOf : word ∈ (oneOf bytes).matches' ↔ ∃ byte ∈ bytes, word = [byte] := by
  induction bytes with
  | nil => simp [oneOf]
  | cons byte rest ih =>
    have split : oneOf (byte :: rest) = .char byte + oneOf rest := by simp [oneOf]
    rw [split, RegularExpression.matches'_add, Language.mem_add, ih]
    simp only [List.mem_cons, exists_eq_or_imp]
    exact Iff.rfl

/-! ## The first byte of a word -/

theorem nil_notMem_oneOf_mul : [] ∉ (oneOf bytes).matches' * rest := by
  rintro ⟨word, class', tail, -, empty⟩
  obtain ⟨byte, -, rfl⟩ := mem_oneOf.mp class'
  cases empty

theorem cons_mem_oneOf_mul {rest : Language UInt8} :
    byte :: tail ∈ (oneOf bytes).matches' * rest ↔ byte ∈ bytes ∧ tail ∈ rest := by
  constructor
  · rintro ⟨word, class', tail', later, same⟩
    obtain ⟨byte', member, rfl⟩ := mem_oneOf.mp class'
    cases same
    exact ⟨member, later⟩
  · rintro ⟨member, later⟩
    exact ⟨[byte], mem_oneOf.mpr ⟨byte, member, rfl⟩, tail, later, rfl⟩

/-- Any number of bytes of a class, and then something else. -/
theorem kstar_mul_eq (here rest : Language UInt8) : here∗ * rest = rest + here * (here∗ * rest) := by
  rw [← mul_assoc, ← one_add_mul, Language.one_add_self_mul_kstar_eq_kstar]

theorem cons_mem_kstar_oneOf_mul {rest : Language UInt8} :
    byte :: tail ∈ (oneOf bytes).matches'∗ * rest ↔
      byte :: tail ∈ rest ∨ byte ∈ bytes ∧ tail ∈ (oneOf bytes).matches'∗ * rest := by
  conv_lhs => rw [kstar_mul_eq, Language.mem_add, cons_mem_oneOf_mul]

theorem nil_mem_kstar_mul {here rest : Language UInt8} (empty : [] ∈ rest) : [] ∈ here∗ * rest :=
  ⟨[], Language.nil_mem_kstar _, [], empty, rfl⟩

/-- Any number of groups that each start with a byte of a class. -/
theorem cons_mem_kstar_group {rest : Language UInt8} :
    byte :: tail ∈ ((oneOf bytes).matches' * rest)∗ ↔
      byte ∈ bytes ∧ tail ∈ rest * ((oneOf bytes).matches' * rest)∗ := by
  conv_lhs => rw [← Language.one_add_self_mul_kstar_eq_kstar, Language.mem_add, mul_assoc, cons_mem_oneOf_mul]
  simp

end RateLimit.BytePattern
