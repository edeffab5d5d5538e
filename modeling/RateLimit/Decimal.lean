import RateLimit.GoRuntime
import Mathlib.Data.Nat.Digits.Defs
import Mathlib.Data.Nat.Digits.Lemmas

/-! Integers as decimal text, the way Go and Lua print them: no leading zeros, a minus
sign before a negative number. -/
namespace RateLimit.Decimal

/-- The text of a natural number. -/
def ofNat (value : Nat) : GoString :=
  if value = 0 then [48] else ((Nat.digits 10 value).map fun digit => 48 + UInt8.ofNat digit).reverse

/-- The text of an integer. -/
def ofInt (value : Int) : GoString :=
  if value < 0 then 45 :: ofNat value.natAbs else ofNat value.natAbs

example : ofInt (-120) = [45, 49, 50, 48] := by decide

/-! ## Reading the text back -/

def isDigit (byte : UInt8) : Bool := 48 ≤ byte && byte ≤ 57

/-- The number that a text of digits stands for. -/
def value (text : GoString) : Nat := Nat.ofDigits 10 (text.reverse.map fun byte => byte.toNat - 48)

private theorem digit_toNat (small : digit < 10) : (48 + UInt8.ofNat digit).toNat = 48 + digit := by
  rw [UInt8.toNat_add, UInt8.toNat_ofNat']
  have : (48 : UInt8).toNat = 48 := rfl
  omega

theorem isDigit_of_mem_ofNat (member : byte ∈ ofNat number) : isDigit byte = true := by
  unfold ofNat at member
  split at member
  · cases List.mem_singleton.mp member
    rfl
  · obtain ⟨digit, inside, rfl⟩ := List.mem_map.mp (List.mem_reverse.mp member)
    have small := Nat.digits_lt_base (by decide) inside
    simp only [isDigit, Bool.and_eq_true, decide_eq_true_eq, UInt8.le_iff_toNat_le, digit_toNat small]
    refine ⟨?_, ?_⟩
    · exact Nat.le_add_right 48 digit
    · exact Nat.add_le_add_left (Nat.le_of_lt_succ small) 48

theorem ofNat_ne_nil (number : Nat) : ofNat number ≠ [] := by
  unfold ofNat
  split
  · exact List.cons_ne_nil _ _
  · rename_i positive
    simpa [Nat.digits_eq_nil_iff_eq_zero] using positive

@[simp] theorem value_ofNat (number : Nat) : value (ofNat number) = number := by
  unfold ofNat
  split
  · rename_i zero
    rw [zero]
    rfl
  · have digits : (Nat.digits 10 number).map ((fun byte : UInt8 => byte.toNat - 48) ∘ fun digit =>
      48 + UInt8.ofNat digit) =
        Nat.digits 10 number := by
      refine (List.map_congr_left fun digit inside => ?_).trans (List.map_id _)
      rw [Function.comp_apply, digit_toNat (Nat.digits_lt_base (by decide) inside), Nat.add_sub_cancel_left, id]
    rw [value, List.reverse_reverse, List.map_map, digits, Nat.ofDigits_digits]

theorem ofNat_injective (same : ofNat number = ofNat other) : number = other := by
  rw [← value_ofNat number, same, value_ofNat]

theorem length_ofNat_le (small : number < 10 ^ (width + 1)) : (ofNat number).length ≤ width + 1 := by
  unfold ofNat
  split
  · exact Nat.le_add_left 1 width
  · rw [List.length_reverse, List.length_map]
    exact (Nat.digits_length_le_iff (by decide) number).mpr small

theorem notMem_ofNat (plain : isDigit byte = false) : byte ∉ ofNat number := by
  intro member
  rw [isDigit_of_mem_ofNat member] at plain
  cases plain

theorem ofInt_injective {number other : Int} (same : ofInt number = ofInt other) : number = other := by
  have minus : ∀ n : Nat, (45 : UInt8) ∉ ofNat n := fun n => notMem_ofNat rfl
  unfold ofInt at same
  split at same <;> split at same
  · have digits := ofNat_injective (List.cons.inj same).2
    omega
  · exact absurd (same ▸ List.mem_cons_self) (minus _)
  · exact absurd (same.symm ▸ List.mem_cons_self) (minus _)
  · have digits := ofNat_injective same
    omega

@[simp] theorem ofInt_natCast (number : Nat) : ofInt number = ofNat number := by
  simp [ofInt]

/-- The integer a text of digits stands for, with a minus sign before them or without. -/
def parse (text : GoString) : Option Int :=
  let digits := if text.head? = some 45 then text.tail else text
  if digits ≠ [] ∧ digits.all isDigit = true then
    some (if text.head? = some 45 then -(value digits : Int) else value digits)
  else none

/-- Digits that do not begin with a zero. -/
def isNumeral (text : GoString) : Bool :=
  (text.head?.any fun byte => 49 ≤ byte && byte ≤ 57) && text.all isDigit

private theorem head_ofNat (number : Nat) : (ofNat number).head? ≠ some 45 := by
  intro same
  have none : (45 : UInt8) ∉ ofNat number := notMem_ofNat rfl
  exact none (List.mem_of_mem_head? same)

theorem all_isDigit_ofNat (number : Nat) : (ofNat number).all isDigit = true :=
  List.all_eq_true.mpr fun _ => isDigit_of_mem_ofNat

@[simp] theorem parse_ofInt (number : Int) : parse (ofInt number) = some number := by
  unfold ofInt
  split
  · simp only [parse, List.head?_cons, if_true, List.tail_cons, all_isDigit_ofNat, ofNat_ne_nil, value_ofNat, ne_eq,
      not_false_eq_true, and_self]
    congr 1
    omega
  · simp only [parse, head_ofNat, if_false, all_isDigit_ofNat, ofNat_ne_nil, value_ofNat, ne_eq, not_false_eq_true,
      and_self, if_true]
    congr 1
    omega

@[simp] theorem parse_ofNat (number : Nat) : parse (ofNat number) = some (number : Int) := by
  rw [← ofInt_natCast, parse_ofInt]

theorem isNumeral_ofNat (positive : number ≠ 0) : isNumeral (ofNat number) = true := by
  rw [isNumeral, all_isDigit_ofNat, Bool.and_true]
  have last := Nat.getLast_digit_ne_zero 10 positive
  have some : Nat.digits 10 number ≠ [] := by simpa [Nat.digits_eq_nil_iff_eq_zero] using positive
  have small := Nat.digits_lt_base (by decide) (List.getLast_mem some)
  rw [ofNat, if_neg positive, List.head?_reverse, List.getLast?_map, List.getLast?_eq_getLast_of_ne_nil some]
  simp only [Option.map_some, Option.any_some, Bool.and_eq_true, decide_eq_true_eq, UInt8.le_iff_toNat_le,
    digit_toNat small]
  have low : (49 : UInt8).toNat = 49 := rfl
  have high : (57 : UInt8).toNat = 57 := rfl
  omega

end RateLimit.Decimal
