import RateLimit.AtomicStore
import RateLimit.Keys

/-! What a command is bound to. Its digest is taken over a JSON text of the clock policy
and, for every request in order, of the policy, the key, the subject kind and the cost. For
valid batches the text tells all of these, and nothing else goes into it: identifiers and
kinds have no quote to end them early, and the key, which may hold any byte, is in base64. -/
namespace RateLimit.Postgres
open Json (Splits)

/-- A valid batch with keys as `NewKey` makes them; nothing else makes a key. -/
structure KeyedBatch (sha256 : GoString → Digest) extends ValidBatch where
  keys : ∀ request ∈ requests, request.key.Built sha256

/-! ## Entries -/

/-- A policy whose text can be read back. -/
structure ReadablePolicy (policy : PolicySpec) : Prop where
  id : 34 ∉ policy.id
  revision : 34 ∉ policy.revision
  algorithm : policy.algorithm = .tokenBucket
  consistency : policy.consistency = .strong
  failureMode : policy.failureMode = .failClosed

structure ReadableEntry (entry : AtomicIntentEntry) : Prop where
  policy : ReadablePolicy entry.policy
  kind : 34 ∉ entry.kind

theorem notMem_of_validPolicyIdentifier {value : GoString} (valid : validPolicyIdentifier value limit = true) :
    34 ∉ value := by
  intro member
  unfold validPolicyIdentifier at valid
  rw [Bool.and_eq_true, List.all_eq_true] at valid
  cases valid.2 34 member

theorem KeyedBatch.readable {sha256 : GoString → Digest} (batch : KeyedBatch sha256) :
    ∀ request ∈ batch.requests, ReadableEntry (Request.intent request) := by
  intro request member
  have sound := (batch.built request member).sound
  obtain ⟨_, _, -, each, -⟩ := batch.checked
  obtain ⟨-, -, algorithm, consistency, failureMode⟩ := each request member
  obtain ⟨spec, value, shape, -, -, kind, -⟩ := (batch.keys request member).shape
  refine ⟨⟨notMem_of_validPolicyIdentifier sound.id_valid, notMem_of_validPolicyIdentifier sound.revision_valid,
    algorithm, consistency, failureMode⟩, ?_⟩
  show 34 ∉ request.key.subjectKind
  rw [shape]
  exact notMem_of_validKeyPart kind rfl

theorem policyMembers_split {policy policy' : PolicySpec} (readable : ReadablePolicy policy)
    (readable' : ReadablePolicy policy') : List.Forall₂ Splits (policyMembers policy) (policyMembers policy') := by
  unfold policyMembers
  rw [readable.algorithm, readable'.algorithm, readable.consistency, readable'.consistency, readable.failureMode,
    readable'.failureMode]
  refine .cons (Json.member_splits _ (Json.quoted_splits readable.id readable'.id)) ?_
  refine .cons (Json.member_splits _ (Json.quoted_splits readable.revision readable'.revision)) ?_
  refine .cons (Json.member_splits _ (Json.quoted_splits (by decide +kernel) (by decide +kernel))) ?_
  refine .cons (Json.member_splits _ (Json.ofNat_splits _ _)) ?_
  refine .cons (Json.member_splits _ (Json.ofInt_splits _ _)) ?_
  refine .cons (Json.member_splits _ (Json.ofNat_splits _ _)) ?_
  refine .cons (Json.member_splits _ (Json.ofNat_splits _ _)) ?_
  refine .cons (Json.member_splits _ (Json.ofNat_splits _ _)) ?_
  refine .cons (Json.member_splits _ (Json.quoted_splits (by decide +kernel) (by decide +kernel))) ?_
  exact .cons (Json.member_splits _ (Json.ofInt_splits _ _)) .nil

theorem policyText_injective {policy policy' : PolicySpec} (readable : ReadablePolicy policy)
    (readable' : ReadablePolicy policy') (same : policyText policy = policyText policy') : policy = policy' := by
  have members : policyMembers policy = policyMembers policy' :=
    Json.object_injective (policyMembers_split readable readable') same
  obtain ⟨-, -, algorithm, consistency, failureMode⟩ := readable
  obtain ⟨-, -, algorithm', consistency', failureMode'⟩ := readable'
  rcases policy with ⟨id, revision, _, capacity, ⟨period⟩, burst, maxCost, _, _, ⟨lease⟩⟩
  rcases policy' with ⟨id', revision', _, capacity', ⟨period'⟩, burst', maxCost', _, _, ⟨lease'⟩⟩
  subst algorithm algorithm' consistency consistency' failureMode failureMode'
  simp only [policyMembers, List.cons.injEq, and_true, true_and] at members
  obtain ⟨sameID, sameRevision, sameCapacity, samePeriod, sameBurst, sameMaxCost, sameLease⟩ := members
  cases Json.quoted_injective (Json.member_injective sameID)
  cases Json.quoted_injective (Json.member_injective sameRevision)
  cases Decimal.ofNat_injective (Json.member_injective sameCapacity)
  cases Decimal.ofInt_injective (Json.member_injective samePeriod)
  cases Decimal.ofNat_injective (Json.member_injective sameBurst)
  cases Decimal.ofNat_injective (Json.member_injective sameMaxCost)
  cases Decimal.ofInt_injective (Json.member_injective sameLease)
  rfl

variable {entry entry' : AtomicIntentEntry}

theorem members_split (readable : ReadableEntry entry) (readable' : ReadableEntry entry') :
    List.Forall₂ Splits entry.members entry'.members := by
  have policy : Splits (policyText entry.policy) (policyText entry'.policy) :=
    Json.object_splits (policyMembers_split readable.policy readable'.policy)
  refine .cons (Json.member_splits _ policy) ?_
  refine .cons (Json.member_splits _ (Json.quoted_splits (Json.base64_plain _) (Json.base64_plain _))) ?_
  refine .cons (Json.member_splits _ (Json.quoted_splits readable.kind readable'.kind)) ?_
  exact .cons (Json.member_splits _ (Json.ofNat_splits _ _)) .nil

theorem text_injective (readable : ReadableEntry entry) (readable' : ReadableEntry entry')
    (same : entry.text = entry'.text) : entry = entry' := by
  have members : entry.members = entry'.members := Json.object_injective (members_split readable readable') same
  simp only [AtomicIntentEntry.members, List.cons.injEq, and_true] at members
  obtain ⟨policy, key, kind, cost⟩ := members
  rw [AtomicIntentEntry.mk.injEq]
  exact ⟨policyText_injective readable.policy readable'.policy (Json.member_injective policy),
    Json.base64_injective (Json.quoted_injective (Json.member_injective key)),
    Json.quoted_injective (Json.member_injective kind), Decimal.ofNat_injective (Json.member_injective cost)⟩

/-! ## Intents -/

/-- Lists of readable entries with equal texts are equal. -/
theorem texts_injective {entries entries' : List AtomicIntentEntry} (readable : ∀ entry ∈ entries, ReadableEntry entry)
    (readable' : ∀ entry ∈ entries', ReadableEntry entry)
    (same : entries.map AtomicIntentEntry.text = entries'.map AtomicIntentEntry.text) : entries = entries' := by
  induction entries generalizing entries' with
  | nil => exact (List.map_eq_nil_iff.mp same.symm).symm
  | cons entry rest ih =>
    cases entries' with
    | nil => cases same
    | cons entry' rest' =>
      obtain ⟨here, later⟩ := List.cons.inj same
      cases text_injective (readable entry List.mem_cons_self) (readable' entry' List.mem_cons_self) here
      rw [ih (fun other member => readable other (.tail _ member))
        (fun other member => readable' other (.tail _ member))
        later]

theorem clockText_splits (clock clock' : ClockPolicy) : Splits (clockText clock) (clockText clock') := by
  cases clock <;> cases clock' <;> exact Json.ofNat_splits _ _

theorem clockText_injective (same : clockText clock = clockText clock') : clock = clock' := by
  cases clock <;> cases clock' <;> first | rfl | cases Decimal.ofNat_injective same

/-- The text of an intent tells the intent. -/
theorem intentText_injective {intent intent' : AtomicIntent} (readable : ∀ entry ∈ intent.entries, ReadableEntry entry)
    (readable' : ∀ entry ∈ intent'.entries, ReadableEntry entry) (same : intent.text = intent'.text) :
    intent = intent' := by
  have apart : ∀ one ∈ intent.entries.map AtomicIntentEntry.members,
      ∀ two ∈ intent'.entries.map AtomicIntentEntry.members, Splits (Json.object one) (Json.object two) := by
    intro one member two member'
    obtain ⟨entry, inside, rfl⟩ := List.mem_map.mp member
    obtain ⟨entry', inside', rfl⟩ := List.mem_map.mp member'
    exact Json.object_splits (members_split (readable entry inside) (readable' entry' inside'))
  have texts : ∀ entries : List AtomicIntentEntry,
      entries.map AtomicIntentEntry.text = (entries.map AtomicIntentEntry.members).map Json.object := by
    intro entries
    rw [List.map_map]
    rfl
  unfold AtomicIntent.text at same
  rw [texts, texts] at same
  have members := Json.object_injective (.cons (Json.member_splits _ (Json.ofNat_splits _ _))
    (.cons (Json.member_splits _ (clockText_splits _ _)) (.cons (Json.member_splits _ (Json.array_splits apart)) .nil)))
    same
  simp only [List.cons.injEq, and_true, true_and] at members
  obtain ⟨clock, entries⟩ := members
  have entries := Json.array_injective apart (Json.member_injective entries)
  rw [← texts, ← texts] at entries
  rw [AtomicIntent.mk.injEq]
  exact ⟨clockText_injective (Json.member_injective clock), texts_injective readable readable' entries⟩

/-- The ten policy fields, the key bytes, the subject kind and the cost of two requests agree. -/
structure SameDebit (request request' : Request) : Prop where
  policy : request.policy.toPolicySpec = request'.policy.toPolicySpec
  key : request.key.value = request'.key.value
  kind : request.key.subjectKind = request'.key.subjectKind
  cost : request.cost = request'.cost

theorem sameDebit_iff {request request' : Request} :
    SameDebit request request' ↔ Request.intent request = Request.intent request' := by
  rw [Request.intent, Request.intent, AtomicIntentEntry.mk.injEq]
  exact ⟨fun ⟨policy, key, kind, cost⟩ => ⟨policy, key, kind, cost⟩,
    fun ⟨policy, key, kind, cost⟩ => ⟨policy, key, kind, cost⟩⟩

/-- The digest of a command binds the clock policy and every debit in order, and nothing
else: neither the command ID nor the time. -/
theorem intent_binds_debits (sha256 : GoString → Digest) (batch batch' : KeyedBatch sha256) (clock clock' : ClockPolicy)
    (apart : sha256 (AtomicBatchRequest.intent batch.toAtomicBatchRequest clock).text =
        sha256 (AtomicBatchRequest.intent batch'.toAtomicBatchRequest clock').text →
      (AtomicBatchRequest.intent batch.toAtomicBatchRequest clock).text =
        (AtomicBatchRequest.intent batch'.toAtomicBatchRequest clock').text) :
    (atomicIntent sha256 batch.toAtomicBatchRequest clock = atomicIntent sha256 batch'.toAtomicBatchRequest clock' ↔
      clock = clock' ∧ List.Forall₂ SameDebit batch.requests batch'.requests) ∧
    ∀ commandID now, atomicIntent sha256
        ⟨commandID, batch.requests.map fun request => { request with now := now }⟩ clock =
      atomicIntent sha256 batch.toAtomicBatchRequest clock := by
  have same : List.Forall₂ SameDebit batch.requests batch'.requests ↔
      batch.requests.map Request.intent = batch'.requests.map Request.intent := by
    rw [← List.forall₂_eq_eq_eq, List.forall₂_map_left_iff, List.forall₂_map_right_iff]
    exact ⟨fun debits => debits.imp fun _ _ => sameDebit_iff.mp, fun intents => intents.imp fun _ _ =>
      sameDebit_iff.mpr⟩
  constructor
  · rw [same]
    constructor
    · intro digests
      have intents := intentText_injective (List.forall_mem_map.mpr batch.readable)
        (List.forall_mem_map.mpr batch'.readable) (apart digests)
      simpa only [AtomicBatchRequest.intent, AtomicIntent.mk.injEq] using intents
    · rintro ⟨rfl, entries⟩
      rw [atomicIntent, atomicIntent, AtomicBatchRequest.intent, AtomicBatchRequest.intent, entries]
  · intro commandID now
    have intents : (batch.requests.map fun request => { request with now := now }).map Request.intent =
        batch.requests.map Request.intent := by
      rw [List.map_map]
      rfl
    rw [atomicIntent, atomicIntent, AtomicBatchRequest.intent, AtomicBatchRequest.intent, intents]

/-! Keys that differ in a byte which is no text. -/

/-- Five tokens a second. -/
def rawPolicy : Policy := { ratePolicy .tokenBucket 49 5 0 1000000 second_fits with consistency := .strong }

/-- A token for the key `n:v:k:` and one more byte. -/
def rawRequest (byte : UInt8) : Request where
  policy := rawPolicy
  key := ⟨[110, 58, 118, 58, 107, 58, byte], [107]⟩
  cost := 1
  now := .ofUnixMicro 0

/-- The SHA-256 digests of the intents for the bytes 255 and 254. -/
def rawDigest (text : GoString) : Digest := fun byte =>
  (if text = (AtomicBatchRequest.intent ⟨[99], [rawRequest 255]⟩ .clientClock).text then
    ([28, 143, 58, 232, 44, 34, 77, 42, 143, 6, 219, 13, 197, 133, 13, 147,
      134, 75, 154, 197, 104, 106, 182, 154, 141, 5, 126, 215, 238, 69, 108, 80] : List UInt8)
  else
    [211, 168, 179, 12, 139, 207, 206, 101, 243, 27, 114, 22, 160, 189, 70, 185,
      215, 142, 136, 210, 17, 196, 238, 202, 238, 88, 54, 142, 76, 218, 169, 44]).getD byte 0

/-- The command `c` for one such key. -/
def rawBatch (sha256 : GoString → Digest) (byte : UInt8)
    (valid : AtomicBatchRequest.validate ⟨[99], [rawRequest byte]⟩ = none) (safe : hazardousByte byte = false) :
    KeyedBatch sha256 where
  commandID := [99]
  requests := [rawRequest byte]
  built := by
    intro request member
    rw [List.mem_singleton.mp member]
    have made : newPolicy rawPolicy.toPolicySpec = .ok rawPolicy := by rfl
    exact ⟨_, made⟩
  accepted := valid
  keys := by
    intro request member
    rw [List.mem_singleton.mp member]
    refine ⟨⟨[110], [118], ⟨[107], [byte]⟩, false⟩, ?_⟩
    simp [newKey, safe, rawRequest, joined, validKeyPart, keyPartByte, maxKeyPartBytes, maxSubjectBytes]

/-- Two keys that JSON strings would not tell apart are bound apart. -/
theorem intent_binds_debits_raw :
    atomicIntent rawDigest (rawBatch rawDigest 255 (by decide) rfl).toAtomicBatchRequest .clientClock ≠
      atomicIntent rawDigest (rawBatch rawDigest 254 (by decide) rfl).toAtomicBatchRequest .clientClock := by
  have apart : rawDigest (AtomicBatchRequest.intent ⟨[99], [rawRequest 255]⟩ .clientClock).text ≠
      rawDigest (AtomicBatchRequest.intent ⟨[99], [rawRequest 254]⟩ .clientClock).text :=
    fun collision => absurd (congrFun collision 0) (by decide +kernel)
  intro same
  obtain ⟨iff, -⟩ := intent_binds_debits rawDigest (rawBatch rawDigest 255 (by decide) rfl)
    (rawBatch rawDigest 254 (by decide) rfl)
    .clientClock .clientClock fun collision => absurd collision apart
  obtain ⟨-, debits⟩ := iff.mp same
  cases debits with
  | cons debit _ => exact absurd debit.key (by decide)

end RateLimit.Postgres
