import RateLimit.Decimal

/-! The compact JSON text of objects whose strings need no escaping, and the padded
base64 in which JSON carries byte strings. Such a text can be taken apart again: a string
ends at its quote, a number before the next comma or bracket, and an object or an array is
closed. -/
namespace RateLimit

/-! ## Separators -/

/-- What comes before the first separator, and after it. -/
theorem separated_first {separator : α} {before before' after after' : List α} (clean : separator ∉ before)
    (clean' : separator ∉ before') (same : before ++ separator :: after = before' ++ separator :: after') :
    before = before' ∧ after = after' := by
  induction before generalizing before' with
  | nil =>
    cases before' with
    | nil => exact ⟨rfl, (List.cons.inj same).2⟩
    | cons first rest => exact absurd (List.cons.inj same).1 fun here => clean' (by simp [here])
  | cons first rest ih =>
    cases before' with
    | nil => exact absurd (List.cons.inj same).1 fun here => clean (by simp [here])
    | cons first' rest' =>
      obtain ⟨rfl, later⟩ := List.cons.inj same
      obtain ⟨rfl, rfl⟩ := ih (fun member => clean (List.mem_cons_of_mem _ member))
        (fun member => clean' (List.mem_cons_of_mem _ member)) later
      exact ⟨rfl, rfl⟩

/-- What comes before the last separator, and after it. -/
theorem separated_last {separator : α} {before before' after after' : List α} (clean : separator ∉ after)
    (clean' : separator ∉ after') (same : before ++ separator :: after = before' ++ separator :: after') :
    before = before' ∧ after = after' := by
  have turned := congrArg List.reverse same
  simp only [List.reverse_append, List.reverse_cons, List.append_assoc, List.singleton_append] at turned
  obtain ⟨left, right⟩ := separated_first (by simpa using clean) (by simpa using clean') turned
  exact ⟨List.reverse_inj.mp right, List.reverse_inj.mp left⟩

end RateLimit

namespace RateLimit.Json

/-- A string of bytes that JSON writes as they are. -/
def quoted (text : GoString) : GoString := 34 :: text ++ [34]

/-- Values with commas between them. -/
def joined : List GoString → GoString
  | [] => []
  | [value] => value
  | value :: rest => value ++ 44 :: joined rest

def array (values : List GoString) : GoString := 91 :: joined values ++ [93]

def object (members : List GoString) : GoString := 123 :: joined members ++ [125]

def member (name : String) (value : GoString) : GoString := quoted (.ofLiteral name) ++ 58 :: value

/-- A digit of the standard base64 alphabet. -/
def base64Digit (value : Nat) : UInt8 :=
  if value < 26 then 65 + UInt8.ofNat value
  else if value < 52 then 71 + UInt8.ofNat value
  else if value < 62 then UInt8.ofNat (value - 4)
  else if value = 62 then 43
  else 47

/-- Standard base64: three bytes in four digits, the last group padded. -/
def base64 : GoString → GoString
  | [] => []
  | [a] => [base64Digit (a.toNat / 4), base64Digit (a.toNat % 4 * 16), 61, 61]
  | [a, b] =>
    [base64Digit (a.toNat / 4), base64Digit (a.toNat % 4 * 16 + b.toNat / 16),
      base64Digit (b.toNat % 16 * 4), 61]
  | a :: b :: c :: rest =>
    base64Digit (a.toNat / 4) :: base64Digit (a.toNat % 4 * 16 + b.toNat / 16) ::
      base64Digit (b.toNat % 16 * 4 + c.toNat / 64) :: base64Digit (c.toNat % 64) :: base64 rest

example : base64 [107, 58, 49, 255] = [97, 122, 111, 120, 47, 119, 61, 61] := by decide

/-! ## Taking a text apart -/

/-- What may follow a value: a comma or a closing bracket. -/
def Closes (rest : GoString) : Prop := ∃ byte tail, rest = byte :: tail ∧ (byte = 44 ∨ byte = 93 ∨ byte = 125)

/-- Neither of two values runs on into what follows it. -/
def Splits (value value' : GoString) : Prop :=
  ∀ rest rest', Closes rest → Closes rest' → value ++ rest = value' ++ rest' → value = value' ∧ rest = rest'

theorem closes_comma (tail : GoString) : Closes (44 :: tail) := ⟨44, tail, rfl, Or.inl rfl⟩

theorem closes_bracket (tail : GoString) : Closes (93 :: tail) := ⟨93, tail, rfl, Or.inr (Or.inl rfl)⟩

theorem closes_brace (tail : GoString) : Closes (125 :: tail) := ⟨125, tail, rfl, Or.inr (Or.inr rfl)⟩

/-- A value over an alphabet without commas and brackets ends before the next of them. -/
theorem splits_of_all (alphabet : UInt8 → Bool)
    (plain : ∀ byte, byte = 44 ∨ byte = 93 ∨ byte = 125 → alphabet byte = false)
    (inside : ∀ byte ∈ value, alphabet byte = true) (inside' : ∀ byte ∈ value', alphabet byte = true) :
    Splits value value' := by
  have reads : ∀ text rest : GoString, (∀ byte ∈ text, alphabet byte = true) → Closes rest →
      (text ++ rest).takeWhile alphabet = text := by
    rintro text rest all ⟨byte, tail, rfl, closing⟩
    rw [List.takeWhile_append_of_pos all, List.takeWhile_cons_of_neg (by rw [plain byte closing]; decide),
      List.append_nil]
  intro rest rest' closes closes' same
  have first : value = value' := by
    rw [← reads value rest inside closes, same, reads value' rest' inside' closes']
  exact ⟨first, List.append_cancel_left (first ▸ same)⟩

theorem quoted_splits (clean : 34 ∉ text) (clean' : 34 ∉ text') : Splits (quoted text) (quoted text') := by
  intro rest rest' _ _ same
  simp only [quoted, List.cons_append, List.append_assoc, List.nil_append] at same ⊢
  obtain ⟨rfl, rfl⟩ := separated_first clean clean' (List.cons.inj same).2
  exact ⟨rfl, rfl⟩

theorem quoted_injective (same : quoted text = quoted text') : text = text' :=
  List.append_cancel_right (List.cons.inj same).2

theorem ofNat_splits (number number' : Nat) : Splits (Decimal.ofNat number) (Decimal.ofNat number') := by
  refine splits_of_all Decimal.isDigit ?_ (fun _ => Decimal.isDigit_of_mem_ofNat)
    (fun _ => Decimal.isDigit_of_mem_ofNat)
  rintro byte (rfl | rfl | rfl) <;> rfl

theorem ofInt_splits (number number' : Int) : Splits (Decimal.ofInt number) (Decimal.ofInt number') := by
  have inside : ∀ number : Int, ∀ byte ∈ Decimal.ofInt number, (byte == 45 || Decimal.isDigit byte) = true := by
    intro number byte member
    unfold Decimal.ofInt at member
    split at member
    · rcases List.mem_cons.mp member with rfl | later
      · rfl
      · rw [Decimal.isDigit_of_mem_ofNat later, Bool.or_true]
    · rw [Decimal.isDigit_of_mem_ofNat member, Bool.or_true]
  refine splits_of_all (fun byte => byte == 45 || Decimal.isDigit byte) ?_ (inside number) (inside number')
  rintro byte (rfl | rfl | rfl) <;> rfl

theorem member_splits (name : String) (apart : Splits value value') : Splits (member name value)
    (member name value') := by
  intro rest rest' closes closes' same
  simp only [member, List.append_assoc, List.cons_append] at same ⊢
  obtain ⟨rfl, rfl⟩ := apart rest rest' closes closes' (List.cons.inj (List.append_cancel_left same)).2
  exact ⟨rfl, rfl⟩

theorem member_injective (same : member name value = member name value') : value = value' :=
  (List.cons.inj (List.append_cancel_left same)).2

/-- Lists of values of the same length, with commas between them. -/
theorem joined_splits {values values' : List GoString} (apart : List.Forall₂ Splits values values') :
    ∀ rest rest', Closes rest → Closes rest' → joined values ++ rest = joined values' ++ rest' →
      values = values' ∧ rest = rest' := by
  induction apart with
  | nil => exact fun rest rest' _ _ same => ⟨rfl, same⟩
  | @cons value value' later later' here there ih =>
    intro rest rest' closes closes' same
    cases there with
    | nil =>
      obtain ⟨rfl, rfl⟩ := here rest rest' closes closes' same
      exact ⟨rfl, rfl⟩
    | cons next others =>
      simp only [joined, List.append_assoc, List.cons_append] at same
      obtain ⟨rfl, tail⟩ := here _ _ (closes_comma _) (closes_comma _) same
      obtain ⟨rest_eq, rfl⟩ := ih rest rest' closes closes' (List.cons.inj tail).2
      exact ⟨by rw [rest_eq], rfl⟩

theorem object_splits {members members' : List GoString} (apart : List.Forall₂ Splits members members') :
    Splits (object members) (object members') := by
  intro rest rest' _ _ same
  simp only [object, List.cons_append, List.append_assoc, List.nil_append] at same
  obtain ⟨rfl, tail⟩ := joined_splits apart _ _ (closes_brace rest) (closes_brace rest') (List.cons.inj same).2
  exact ⟨rfl, (List.cons.inj tail).2⟩

theorem object_injective {members members' : List GoString} (apart : List.Forall₂ Splits members members')
    (same : object members = object members') : members = members' :=
  (joined_splits apart [125] [125] (closes_brace []) (closes_brace []) (List.cons.inj same).2).1

/-- Lists of objects of any two lengths, up to the bracket that closes them. -/
theorem joined_objects {objects objects' : List (List GoString)}
    (apart : ∀ one ∈ objects, ∀ two ∈ objects', Splits (object one) (object two)) {rest rest' : GoString}
    (same : joined (objects.map object) ++ 93 :: rest = joined (objects'.map object) ++ 93 :: rest') :
    objects.map object = objects'.map object ∧ rest = rest' := by
  induction objects generalizing objects' with
  | nil =>
    cases objects' with
    | nil => exact ⟨rfl, (List.cons.inj same).2⟩
    | cons two later' => cases later' <;> cases same
  | cons one later ih =>
    cases objects' with
    | nil => cases later <;> cases same
    | cons two later' =>
      have here := apart one List.mem_cons_self two List.mem_cons_self
      -- The text behind the first object is a comma or the end of the array.
      cases later with
      | nil =>
        cases later' with
        | nil =>
          obtain ⟨first, tail⟩ := here _ _ (closes_bracket rest) (closes_bracket rest') same
          exact ⟨by rw [List.map_singleton, List.map_singleton, first], (List.cons.inj tail).2⟩
        | cons two' more' =>
          simp only [List.map_cons, List.map_nil, joined, List.append_assoc, List.cons_append] at same
          cases (here _ _ (closes_bracket rest) (closes_comma _) same).2
      | cons one' more =>
        cases later' with
        | nil =>
          simp only [List.map_cons, List.map_nil, joined, List.append_assoc, List.cons_append] at same
          cases (here _ _ (closes_comma _) (closes_bracket rest') same).2
        | cons two' more' =>
          simp only [List.map_cons, joined, List.append_assoc, List.cons_append] at same
          obtain ⟨first, tail⟩ := here _ _ (closes_comma _) (closes_comma _) same
          obtain ⟨others, ends⟩ := ih (fun a inside b inside' => apart a (.tail _ inside) b (.tail _ inside'))
            (List.cons.inj tail).2
          exact ⟨congrArg₂ List.cons first others, ends⟩

theorem array_splits {objects objects' : List (List GoString)}
    (apart : ∀ one ∈ objects, ∀ two ∈ objects', Splits (object one) (object two)) :
    Splits (array (objects.map object)) (array (objects'.map object)) := by
  intro rest rest' _ _ same
  simp only [array, List.cons_append, List.append_assoc, List.nil_append] at same
  obtain ⟨entries, ends⟩ := joined_objects apart (List.cons.inj same).2
  exact ⟨by rw [entries], ends⟩

theorem array_injective {objects objects' : List (List GoString)}
    (apart : ∀ one ∈ objects, ∀ two ∈ objects', Splits (object one) (object two))
    (same : array (objects.map object) = array (objects'.map object)) : objects.map object = objects'.map object :=
  (joined_objects apart (List.cons.inj same).2).1

/-! ## Base64 -/

/-- What a digit of the alphabet stands for. -/
def base64Value (digit : UInt8) : Nat :=
  if digit = 43 then 62
  else if digit = 47 then 63
  else if digit ≤ 57 then digit.toNat + 4
  else if digit ≤ 90 then digit.toNat - 65
  else digit.toNat - 71

theorem base64Value_digit : ∀ value < 64, base64Value (base64Digit value) = value := by decide

theorem base64Digit_plain : ∀ value < 64, base64Digit value ≠ 61 ∧ base64Digit value ≠ 34 := by decide

theorem base64_plain (text : GoString) : 34 ∉ base64 text := by
  have digit : ∀ {value}, value < 64 → (34 : UInt8) ≠ base64Digit value :=
    fun small same => (base64Digit_plain _ small).2 same.symm
  induction text using base64.induct with
  | case1 => simp [base64]
  | case2 a =>
    have := a.toNat_lt
    simp [base64, digit (show a.toNat / 4 < 64 by omega), digit (show a.toNat % 4 * 16 < 64 by omega)]
  | case3 a b =>
    have := a.toNat_lt
    have := b.toNat_lt
    simp [base64, digit (show a.toNat / 4 < 64 by omega), digit (show a.toNat % 4 * 16 + b.toNat / 16 < 64 by omega),
      digit (show b.toNat % 16 * 4 < 64 by omega)]
  | case4 a b c rest ih =>
    have := a.toNat_lt
    have := b.toNat_lt
    have := c.toNat_lt
    simp [base64, ih, digit (show a.toNat / 4 < 64 by omega),
      digit (show a.toNat % 4 * 16 + b.toNat / 16 < 64 by omega),
      digit (show b.toNat % 16 * 4 + c.toNat / 64 < 64 by omega), digit (show c.toNat % 64 < 64 by omega)]

/-- The bytes behind a group of digits. -/
def base64Bytes (first second third fourth : UInt8) : GoString :=
  let value := ((base64Value first * 64 + base64Value second) * 64 + base64Value third) * 64 + base64Value fourth
  [UInt8.ofNat (value / 65536), UInt8.ofNat (value / 256), UInt8.ofNat value]

/-- Reading base64 back; a pad stands for zero bits. -/
def unbase64 : GoString → GoString
  | first :: second :: third :: fourth :: rest =>
    if third = 61 then (base64Bytes first second 65 65).take 1
    else if fourth = 61 then (base64Bytes first second third 65).take 2
    else base64Bytes first second third fourth ++ unbase64 rest
  | _ => []

/-- The four digits of three bytes. -/
theorem base64Bytes_digits (a b c : UInt8) :
    base64Bytes (base64Digit (a.toNat / 4)) (base64Digit (a.toNat % 4 * 16 + b.toNat / 16))
      (base64Digit (b.toNat % 16 * 4 + c.toNat / 64)) (base64Digit (c.toNat % 64)) = [a, b, c] := by
  have first := a.toNat_lt
  have second := b.toNat_lt
  have third := c.toNat_lt
  have whole : ((a.toNat / 4 * 64 + (a.toNat % 4 * 16 + b.toNat / 16)) * 64 + (b.toNat % 16 * 4 + c.toNat / 64)) * 64 +
      c.toNat % 64 = a.toNat * 65536 + b.toNat * 256 + c.toNat := by omega
  simp only [base64Bytes]
  rw [base64Value_digit _ (by omega), base64Value_digit _ (by omega), base64Value_digit _ (by omega),
    base64Value_digit _ (by omega), whole]
  have byte : ∀ (value : Nat) (byte : UInt8), value % 256 = byte.toNat → UInt8.ofNat value = byte := by
    intro value byte same
    apply UInt8.toNat_inj.mp
    rw [UInt8.toNat_ofNat', same]
  rw [byte _ a (by omega), byte _ b (by omega), byte _ c (by omega)]

theorem unbase64_base64 (text : GoString) : unbase64 (base64 text) = text := by
  have pad : ∀ {value}, value < 64 → base64Digit value ≠ 61 := fun small => (base64Digit_plain _ small).1
  induction text using base64.induct with
  | case1 => rfl
  | case2 a =>
    have bytes := base64Bytes_digits a 0 0
    rw [base64, unbase64, if_pos rfl]
    exact congrArg (List.take 1) bytes
  | case3 a b =>
    have := b.toNat_lt
    have bytes := base64Bytes_digits a b 0
    rw [base64, unbase64, if_neg (pad (by omega)), if_pos rfl]
    exact congrArg (List.take 2) bytes
  | case4 a b c rest ih =>
    have := b.toNat_lt
    have := c.toNat_lt
    rw [base64, unbase64, if_neg (pad (by omega)), if_neg (pad (by omega)), base64Bytes_digits, ih]
    rfl

theorem base64_injective (same : base64 text = base64 text') : text = text' := by
  rw [← unbase64_base64 text, same, unbase64_base64]

end RateLimit.Json
