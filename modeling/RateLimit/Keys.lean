import RateLimit.JsonText
import RateLimit.LeaseStore

/-! Admission keys: `key.go`. A key is four components joined by colons, of which only the
last may hold a colon, and it never holds a zero byte. So it can be told from a bucket's
name, whatever the policy ID is, and its value alone tells the whole key. -/
namespace RateLimit

open Postgres (Digest hexString)

/-! ## Keys -/

structure Subject where
  kind : GoString
  value : GoString
  deriving DecidableEq, Repr

structure KeySpec where
  nameSpace : GoString
  version : GoString
  subject : Subject
  hash : Bool := false
  deriving DecidableEq, Repr

def maxSubjectBytes : Nat := 256

def maxKeyPartBytes : Nat := 48

/-- The alphabet of `validKeyPart`; a byte outside ASCII is part of no rune in it. -/
def keyPartByte (byte : UInt8) : Bool :=
  (97 ≤ byte && byte ≤ 122) || (48 ≤ byte && byte ≤ 57) || byte == 45 || byte == 95

def validKeyPart (value : GoString) : Bool :=
  !value.isEmpty && decide (value.length ≤ maxKeyPartBytes) && value.all keyPartByte

/-- The bytes that an unhashed value may not contain: braces, NUL, CR and LF. -/
def hazardousByte (byte : UInt8) : Bool := byte == 123 || byte == 125 || byte == 0 || byte == 13 || byte == 10

/-- The components of a key joined by one byte. -/
def joined (separator : UInt8) (spec : KeySpec) (value : GoString) : GoString :=
  spec.nameSpace ++ separator :: (spec.version ++ separator :: (spec.subject.kind ++ separator :: value))

def newKey (sha256 : GoString → Digest) (spec : KeySpec) : Except WrappedError Key :=
  if !validKeyPart spec.nameSpace || !validKeyPart spec.version || !validKeyPart spec.subject.kind ||
      spec.subject.value.isEmpty || decide (spec.subject.value.length > maxSubjectBytes) then
    .error ⟨.invalidKey, "invalid or oversized component"⟩
  else if spec.hash then
    .ok ⟨joined 58 spec (hexString (sha256 (joined 0 spec spec.subject.value))), spec.subject.kind⟩
  else if spec.subject.value.any hazardousByte then .error ⟨.invalidKey, "unsafe subject characters"⟩
  else .ok ⟨joined 58 spec spec.subject.value, spec.subject.kind⟩

/-- A key that `NewKey` made. -/
def Key.Built (sha256 : GoString → Digest) (key : Key) : Prop := ∃ spec, newKey sha256 spec = .ok key

/-- What a made key looks like. -/
theorem Key.Built.shape {sha256 : GoString → Digest} {key : Key} (built : key.Built sha256) :
    ∃ spec value, key = ⟨joined 58 spec value, spec.subject.kind⟩ ∧ validKeyPart spec.nameSpace = true ∧
      validKeyPart spec.version = true ∧ validKeyPart spec.subject.kind = true ∧ 0 ∉ value := by
  obtain ⟨spec, made⟩ := built
  unfold newKey at made
  split at made
  · cases made
  rename_i parts
  simp only [Bool.or_eq_true, not_or, Bool.not_eq_true', Bool.not_eq_false] at parts
  obtain ⟨⟨⟨⟨nameSpace, version⟩, kind⟩, -⟩, -⟩ := parts
  split at made
  · cases made
    refine ⟨spec, _, rfl, nameSpace, version, kind, fun zero => ?_⟩
    have digits := Postgres.hexString_valid (sha256 (joined 0 spec spec.subject.value))
    unfold Postgres.validLeaseDigest at digits
    rw [Bool.and_eq_true, List.all_eq_true] at digits
    cases digits.2 0 zero
  · split at made
    · cases made
    · rename_i safe
      cases made
      refine ⟨spec, _, rfl, nameSpace, version, kind, fun zero => safe ?_⟩
      exact List.any_eq_true.mpr ⟨0, zero, rfl⟩

theorem notMem_of_validKeyPart {value : GoString} {byte : UInt8} (valid : validKeyPart value = true)
    (outside : keyPartByte byte = false) : byte ∉ value := by
  intro member
  unfold validKeyPart at valid
  rw [Bool.and_eq_true, List.all_eq_true] at valid
  cases outside.symm.trans (valid.2 byte member)

/-- A key has no zero byte. -/
theorem Key.Built.zero {sha256 : GoString → Digest} {key : Key} (built : key.Built sha256) : 0 ∉ key.value := by
  obtain ⟨spec, value, rfl, nameSpace, version, kind, clean⟩ := built.shape
  have parts : ∀ part, validKeyPart part = true → 0 ∉ part := fun part valid => notMem_of_validKeyPart valid rfl
  simp [joined, parts _ nameSpace, parts _ version, parts _ kind, clean]

theorem Key.Built.nonempty {sha256 : GoString → Digest} {key : Key} (built : key.Built sha256) : key.value ≠ [] := by
  obtain ⟨spec, value, rfl, -⟩ := built.shape
  simp [joined]

/-- A made key is told by its text. -/
theorem Key.Built.ext {sha256 : GoString → Digest} {key other : Key} (built : key.Built sha256)
    (built' : other.Built sha256) (same : key.value = other.value) : key = other := by
  obtain ⟨spec, value, rfl, nameSpace, version, kind, -⟩ := built.shape
  obtain ⟨spec', value', rfl, nameSpace', version', kind', -⟩ := built'.shape
  have clean : ∀ part, validKeyPart part = true → 58 ∉ part := fun part valid => notMem_of_validKeyPart valid rfl
  obtain ⟨-, rest⟩ := separated_first (clean _ nameSpace) (clean _ nameSpace') same
  obtain ⟨-, rest⟩ := separated_first (clean _ version) (clean _ version') rest
  obtain ⟨sameKind, -⟩ := separated_first (clean _ kind) (clean _ kind') rest
  rw [Key.mk.injEq]
  exact ⟨same, sameKind⟩

/-- The name of a bucket tells its policy ID and its key apart, if the key has no zero byte. -/
theorem Postgres.bucketName_inj {first second : GoString} {key other : Key} (clean : 0 ∉ key.value)
    (clean' : 0 ∉ other.value)
    (same : bucketName first key = bucketName second other) : first = second ∧ key.value = other.value :=
  separated_last clean clean' same

end RateLimit
