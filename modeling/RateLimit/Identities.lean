import RateLimit.Decimal
import RateLimit.Keys

/-! Who shares a bucket. The state of a subject is kept under the policy ID, a zero byte
and the key; the key is four components with colons between them, or three and a digest
over all four with zero bytes between them. Each layer can be taken apart again: only the
last component may hold the separator. The queue adapter puts two names into one subject
and writes the length of the first before them. -/
namespace RateLimit

open Postgres (Digest hexString bucketName)

/-! ## Keys -/

/-- The components before the value hold neither separator. -/
theorem joined_inj {separator : UInt8} (outside : keyPartByte separator = false) {spec spec' : KeySpec}
    {value value' : GoString}
    (parts : ∀ part ∈ [spec.nameSpace, spec.version, spec.subject.kind], validKeyPart part = true)
    (parts' : ∀ part ∈ [spec'.nameSpace, spec'.version, spec'.subject.kind], validKeyPart part = true)
    (same : joined separator spec value = joined separator spec' value') :
    spec.nameSpace = spec'.nameSpace ∧ spec.version = spec'.version ∧ spec.subject.kind = spec'.subject.kind ∧
      value = value' := by
  have clean : ∀ part, validKeyPart part = true → separator ∉ part :=
    fun part valid => notMem_of_validKeyPart valid outside
  obtain ⟨nameSpace, rest⟩ := separated_first (clean _ (parts _ (by simp))) (clean _ (parts' _ (by simp))) same
  obtain ⟨version, rest⟩ := separated_first (clean _ (parts _ (by simp))) (clean _ (parts' _ (by simp))) rest
  obtain ⟨kind, rest⟩ := separated_first (clean _ (parts _ (by simp))) (clean _ (parts' _ (by simp))) rest
  exact ⟨nameSpace, version, kind, rest⟩

/-- The last component of a key. -/
def keyTail (sha256 : GoString → Digest) (spec : KeySpec) : GoString :=
  if spec.hash then hexString (sha256 (joined 0 spec spec.subject.value)) else spec.subject.value

/-- What `NewKey` makes of the components it accepts. -/
theorem newKey_ok {sha256 : GoString → Digest} {spec : KeySpec} {key : Key} (made : newKey sha256 spec = .ok key) :
    (∀ part ∈ [spec.nameSpace, spec.version, spec.subject.kind], validKeyPart part = true) ∧
      key.value = joined 58 spec (keyTail sha256 spec) := by
  unfold newKey at made
  split at made
  · cases made
  rename_i parts
  simp only [Bool.or_eq_true, not_or, Bool.not_eq_true', Bool.not_eq_false] at parts
  obtain ⟨⟨⟨⟨nameSpace, version⟩, kind⟩, -⟩, -⟩ := parts
  refine ⟨by simp [nameSpace, version, kind], ?_⟩
  split at made
  · rename_i hashed
    cases made
    rw [keyTail, if_pos hashed]
  · rename_i plain
    split at made
    · cases made
    · cases made
      rw [keyTail, if_neg plain]

/-- A key tells its components apart, if the digests do. -/
theorem newKey_inj {sha256 : GoString → Digest} {spec spec' : KeySpec} {key key' : Key}
    (made : newKey sha256 spec = .ok key) (made' : newKey sha256 spec' = .ok key') (flag : spec.hash = spec'.hash)
    (apart : sha256 (joined 0 spec spec.subject.value) = sha256 (joined 0 spec' spec'.subject.value) →
      joined 0 spec spec.subject.value = joined 0 spec' spec'.subject.value)
    (same : key.value = key'.value) :
    spec.nameSpace = spec'.nameSpace ∧ spec.version = spec'.version ∧ spec.subject.kind = spec'.subject.kind ∧
      spec.subject.value = spec'.subject.value := by
  obtain ⟨parts, shape⟩ := newKey_ok made
  obtain ⟨parts', shape'⟩ := newKey_ok made'
  rw [shape, shape'] at same
  obtain ⟨nameSpace, version, kind, tail⟩ := joined_inj rfl parts parts' same
  cases hashed : spec.hash with
  | false =>
    rw [keyTail, keyTail, ← flag, hashed] at tail
    exact ⟨nameSpace, version, kind, tail⟩
  | true =>
    rw [keyTail, keyTail, ← flag, hashed] at tail
    exact joined_inj rfl parts parts' (apart (Postgres.hexString_injective tail))

/-! ## Subjects of the queue adapter -/

namespace Queue

/-- The fields of `Message` that name a subject. -/
structure Message where
  queue : GoString
  tenant : GoString
  deriving DecidableEq, Repr

def byQueueAndTenant (message : Message) : Except WrappedError Subject :=
  if message.queue = [] ∨ message.tenant = [] then .error ⟨.invalidKey, "queue and tenant are required"⟩
  else .ok ⟨.ofLiteral "queue-tenant",
    Decimal.ofNat message.queue.length ++ 58 :: (message.queue ++ message.tenant)⟩

/-- The length before the colon says where the queue ends. -/
theorem byQueueAndTenant_inj {message message' : Message} {subject subject' : Subject}
    (made : byQueueAndTenant message = .ok subject) (made' : byQueueAndTenant message' = .ok subject')
    (same : subject.value = subject'.value) : message = message' := by
  have value : ∀ {message : Message} {subject : Subject}, byQueueAndTenant message = .ok subject →
      subject.value = Decimal.ofNat message.queue.length ++ 58 :: (message.queue ++ message.tenant) := by
    intro message subject made
    unfold byQueueAndTenant at made
    split at made
    · cases made
    · cases made
      rfl
  rw [value made, value made'] at same
  obtain ⟨length, rest⟩ := separated_first (Decimal.notMem_ofNat rfl) (Decimal.notMem_ofNat rfl) same
  obtain ⟨queue, tenant⟩ := List.append_inj rest (Decimal.ofNat_injective length)
  cases message
  cases message'
  rw [Message.mk.injEq]
  exact ⟨queue, tenant⟩

end Queue

/-! ## State identities -/

/-- Distinct subjects never share a bucket: a state identity tells the policy ID and all
components of the key, and a queue subject tells the queue and the tenant. -/
theorem subjects_never_share (sha256 : GoString → Digest) (policyID policyID' : GoString) (spec spec' : KeySpec)
    (key key' : Key) (made : newKey sha256 spec = .ok key) (made' : newKey sha256 spec' = .ok key')
    (flag : spec.hash = spec'.hash)
    (apart : sha256 (joined 0 spec spec.subject.value) = sha256 (joined 0 spec' spec'.subject.value) →
      joined 0 spec spec.subject.value = joined 0 spec' spec'.subject.value) :
    (bucketName policyID key = bucketName policyID' key' →
      policyID = policyID' ∧ spec.nameSpace = spec'.nameSpace ∧ spec.version = spec'.version ∧
        spec.subject.kind = spec'.subject.kind ∧ spec.subject.value = spec'.subject.value) ∧
    (∀ message message' subject subject', Queue.byQueueAndTenant message = .ok subject →
      Queue.byQueueAndTenant message' = .ok subject' → subject.value = subject'.value →
      message.queue = message'.queue ∧ message.tenant = message'.tenant) := by
  constructor
  · intro same
    have clean : 0 ∉ key.value := Key.Built.zero ⟨spec, made⟩
    have clean' : 0 ∉ key'.value := Key.Built.zero ⟨spec', made'⟩
    obtain ⟨policy, value⟩ := Postgres.bucketName_inj clean clean' same
    exact ⟨policy, newKey_inj made made' flag apart value⟩
  · intro message message' subject subject' first second same
    cases Queue.byQueueAndTenant_inj first second same
    exact ⟨rfl, rfl⟩

/-- The keys of two subjects whose queues and tenants run together alike. -/
def tenantKey (length : UInt8) : KeySpec :=
  ⟨.ofLiteral "queue", .ofLiteral "v1", ⟨.ofLiteral "queue-tenant", [length, 58, 97, 98, 99]⟩, true⟩

/-- Their SHA-256 digests. -/
def tenantDigest (text : GoString) : Digest := fun byte =>
  if text = joined 0 (tenantKey 49) [49, 58, 97, 98, 99] then
    ([104, 56, 104, 222, 30, 76, 149, 140, 151, 94, 247, 85, 155, 61, 189, 128,
      11, 111, 79, 178, 55, 44, 241, 207, 182, 97, 250, 88, 15, 131, 121, 164] : List UInt8).getD byte 0
  else
    ([19, 72, 252, 241, 220, 162, 171, 205, 135, 184, 79, 220, 113, 98, 65, 183,
      168, 86, 56, 77, 41, 174, 43, 60, 18, 22, 70, 162, 154, 72, 41, 21] : List UInt8).getD byte 0

/-- Queue `a` of tenant `bc` and queue `ab` of tenant `c` have buckets of their own. -/
theorem subjects_never_share_tenants : ∃ key key',
    newKey tenantDigest (tenantKey 49) = .ok key ∧ newKey tenantDigest (tenantKey 50) = .ok key' ∧
      Queue.byQueueAndTenant ⟨[97], [98, 99]⟩ = .ok (tenantKey 49).subject ∧
      Queue.byQueueAndTenant ⟨[97, 98], [99]⟩ = .ok (tenantKey 50).subject ∧
      bucketName [112] key ≠ bucketName [112] key' := by
  have first : (newKey tenantDigest (tenantKey 49)).isOk = true := by decide +kernel
  have second : (newKey tenantDigest (tenantKey 50)).isOk = true := by decide +kernel
  cases made : newKey tenantDigest (tenantKey 49) with
  | error problem =>
    rw [made] at first
    cases first
  | ok key =>
    cases made' : newKey tenantDigest (tenantKey 50) with
    | error problem =>
      rw [made'] at second
      cases second
    | ok key' =>
      refine ⟨key, key', rfl, rfl, by decide +kernel, by decide +kernel, fun same => ?_⟩
      have apart : tenantDigest (joined 0 (tenantKey 49) (tenantKey 49).subject.value) =
          tenantDigest (joined 0 (tenantKey 50) (tenantKey 50).subject.value) →
          joined 0 (tenantKey 49) (tenantKey 49).subject.value =
            joined 0 (tenantKey 50) (tenantKey 50).subject.value :=
        fun collision => absurd (congrFun collision 0) (by decide +kernel)
      obtain ⟨distinct, -⟩ := subjects_never_share tenantDigest [112] [112] (tenantKey 49) (tenantKey 50) key key'
        made made' rfl apart
      exact absurd (distinct same).2.2.2.2 (by decide)

end RateLimit
