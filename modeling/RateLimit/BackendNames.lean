import RateLimit.BytePattern
import RateLimit.StrictService

/-! Names of backends. The strict service keeps a name only if `validBackendName` takes
it; the migration guide gives the grammar as a pattern. The scanner goes over the name
once and remembers only whether the last byte was a hyphen. With that flag down it is
somewhere in the pattern after the first letter, with the flag up just behind a hyphen,
where a letter or a digit has to follow. -/
namespace RateLimit
open BytePattern
open scoped Computability

/-- `[a-z]`. -/
def nameLetters : List UInt8 := bytesFrom 97 122

/-- `[a-z0-9]`. -/
def nameBytes : List UInt8 := bytesFrom 97 122 ++ bytesFrom 48 57

/-- `(?:-[a-z0-9]+)*`. -/
def nameGroups : RegularExpression UInt8 := (oneOf [45] * oneOrMore (oneOf nameBytes)).star

/-- `^[a-z][a-z0-9]*(?:-[a-z0-9]+)*$`, anchored at both ends. -/
def backendNamePattern : RegularExpression UInt8 :=
  oneOf nameLetters * ((oneOf nameBytes).star * nameGroups)

/-- What may follow once the first letter is read. -/
abbrev nameTail : Language UInt8 := (oneOf nameBytes).matches'∗ * nameGroups.matches'

private theorem notHyphen (inside : byte ∈ nameBytes) : byte ≠ 45 := by
  rintro rfl
  revert inside
  decide

private theorem mem_nameBytes (byte : UInt8) :
    ((byte < 97 || byte > 122) && (byte < 48 || byte > 57)) = true ↔ byte ∉ nameBytes := by
  simp only [nameBytes, List.mem_append, mem_bytesFrom, Bool.and_eq_true, Bool.or_eq_true, decide_eq_true_eq,
    UInt8.lt_iff_toNat_lt, UInt8.le_iff_toNat_le, gt_iff_lt]
  omega

/-- A hyphen starts a group: a letter or digit, and then any tail. -/
private theorem cons_mem_nameGroups : byte :: tail ∈ nameGroups.matches' ↔
    byte = 45 ∧ tail ∈ (oneOf nameBytes).matches' * nameTail := by
  have groups : nameGroups.matches' =
      ((oneOf [45]).matches' * ((oneOf nameBytes).matches' * (oneOf nameBytes).matches'∗))∗ := rfl
  rw [groups, cons_mem_kstar_group, List.mem_singleton, mul_assoc, ← groups]

private theorem cons_mem_nameTail : byte :: tail ∈ nameTail ↔
    (byte = 45 ∧ tail ∈ (oneOf nameBytes).matches' * nameTail) ∨ byte ∈ nameBytes ∧ tail ∈ nameTail := by
  rw [cons_mem_kstar_oneOf_mul, cons_mem_nameGroups]

/-- The loop of the scanner, for both values of its flag. -/
theorem backendNameBytes_iff (name : GoString) :
    (backendNameBytes name false = true ↔ name ∈ nameTail) ∧
      (backendNameBytes name true = true ↔ name ∈ (oneOf nameBytes).matches' * nameTail) := by
  induction name with
  | nil =>
    refine ⟨iff_of_true rfl (nil_mem_kstar_mul (Language.nil_mem_kstar _)), ?_⟩
    exact iff_of_false Bool.false_ne_true nil_notMem_oneOf_mul
  | cons byte rest ih =>
    obtain ⟨plain, behind⟩ := ih
    rw [cons_mem_nameTail, cons_mem_oneOf_mul]
    by_cases hyphen : byte = 45
    · have outside : byte ∉ nameBytes := fun inside => notHyphen inside hyphen
      simp [backendNameBytes, hyphen, behind, hyphen ▸ outside]
    · by_cases inside : byte ∈ nameBytes
      · have stays : ((byte < 97 || byte > 122) && (byte < 48 || byte > 57)) ≠ true :=
          fun leaves => (mem_nameBytes byte).mp leaves inside
        simp only [backendNameBytes, if_neg stays, inside, hyphen, if_false, plain, true_and, false_and, false_or,
          and_self]
      · have leaves := (mem_nameBytes byte).mpr inside
        simp only [backendNameBytes, if_pos leaves, inside, hyphen, if_false, false_and, or_self,
          Bool.false_eq_true, and_self]

/-- The scanner accepts exactly the names of the documented grammar. -/
theorem validBackendName_grammar (name : GoString) :
    validBackendName name = true ↔ name.length ≤ maxBackendNameBytes ∧ name ∈ backendNamePattern.matches' := by
  have pattern : backendNamePattern.matches' = (oneOf nameLetters).matches' * nameTail := rfl
  rw [pattern]
  cases name with
  | nil => exact iff_of_false Bool.false_ne_true fun accepted => nil_notMem_oneOf_mul accepted.2
  | cons first rest =>
    rw [cons_mem_oneOf_mul, nameLetters, mem_bytesFrom]
    rw [validBackendName]
    split
    · rename_i refused
      refine iff_of_false Bool.false_ne_true ?_
      simp only [Bool.or_eq_true, decide_eq_true_eq, UInt8.lt_iff_toNat_lt, gt_iff_lt] at refused
      simp only [UInt8.le_iff_toNat_le]
      omega
    · rename_i taken
      simp only [Bool.or_eq_true, decide_eq_true_eq, not_or, UInt8.not_lt, gt_iff_lt, Nat.not_lt] at taken
      obtain ⟨⟨short, above⟩, below⟩ := taken
      rw [(backendNameBytes_iff _).1, cons_mem_nameTail]
      have letter : first ∈ nameBytes := List.mem_append_left _ (mem_bytesFrom.mpr ⟨above, below⟩)
      simp only [short, above, below, letter, notHyphen letter, false_and, false_or, true_and]

end RateLimit
