import RateLimit.JsonText
import RateLimit.PostgresStore

/-! Atomic batches: `atomic_batch.go` up to the service, and `atomic.go`. A batch debits
all its token buckets or none, in one transaction under the lock of its command and
the locks of its buckets in ascending order. What it decided stays behind as a receipt
under the digest of the command, bound to the digest of the whole intent; a retry gets
the receipt. -/
namespace RateLimit

structure AtomicBatchRequest where
  commandID : GoString
  requests : List Request
  deriving DecidableEq, Repr

def maxAtomicBatchSize : Nat := 16

/-- A byte of an HTTP token. -/
def tokenByte (byte : UInt8) : Bool :=
  (97 ≤ byte && byte ≤ 122) || (65 ≤ byte && byte ≤ 90) || (48 ≤ byte && byte ≤ 57) ||
    byte == 33 || byte == 35 || byte == 36 || byte == 37 || byte == 38 || byte == 39 || byte == 42 ||
    byte == 43 || byte == 45 || byte == 46 || byte == 94 || byte == 95 || byte == 96 || byte == 124 ||
    byte == 126

def atomicCommandID (id : GoString) : Bool :=
  decide (1 ≤ id.length) && decide (id.length ≤ 128) && id.all tokenByte

/-- The bucket that a request goes to. -/
abbrev Request.bucketName (request : Request) : GoString := Postgres.bucketName request.policy.id request.key

/-- The loop of `AtomicBatchRequest.Validate`, with the buckets it has seen. -/
def validateEntries (now : Time) : List Request → List GoString → Option Sentinel
  | [], _ => none
  | request :: rest, seen =>
    if request.validate ≠ .ok () ∨ request.now ≠ now then some .invalidRequest
    else if request.policy.algorithm ≠ .tokenBucket ∨ request.policy.consistency ≠ .strong ∨
        request.policy.failureMode ≠ .failClosed then some .unsupported
    else if request.bucketName ∈ seen then some .invalidRequest
    else validateEntries now rest (request.bucketName :: seen)

def AtomicBatchRequest.validate (batch : AtomicBatchRequest) : Option Sentinel :=
  match batch.requests with
  | [] => some .invalidRequest
  | first :: rest =>
    if atomicCommandID batch.commandID = false ∨ (first :: rest).length > maxAtomicBatchSize then
      some .invalidRequest
    else validateEntries first.now (first :: rest) []

/-- A batch as a backend receives it. -/
structure ValidBatch extends AtomicBatchRequest where
  built : ∀ request ∈ requests, request.policy.Built
  accepted : toAtomicBatchRequest.validate = none

theorem validateEntries_accepts {requests : List Request} {seen : List GoString}
    (accepted : validateEntries now requests seen = none) :
    (∀ request ∈ requests, (request.validate = .ok () ∧ request.now = now ∧ request.policy.algorithm = .tokenBucket ∧
        request.policy.consistency = .strong ∧ request.policy.failureMode = .failClosed) ∧ request.bucketName ∉ seen) ∧
      (requests.map Request.bucketName).Nodup := by
  induction requests generalizing seen with
  | nil => exact ⟨by simp, List.nodup_nil⟩
  | cons request rest ih =>
    unfold validateEntries at accepted
    split at accepted
    · cases accepted
    split at accepted
    · cases accepted
    split at accepted
    · cases accepted
    rename_i valid supported unseen
    simp only [not_or, ne_eq, not_not] at valid supported
    obtain ⟨each, distinct⟩ := ih accepted
    constructor
    · intro other member
      rcases List.mem_cons.mp member with rfl | later
      · exact ⟨⟨valid.1, valid.2, supported⟩, unseen⟩
      · obtain ⟨checked, apart⟩ := each other later
        exact ⟨checked, fun present => apart (List.mem_cons_of_mem _ present)⟩
    · rw [List.map_cons, List.nodup_cons]
      refine ⟨fun repeated => ?_, distinct⟩
      obtain ⟨other, member, same⟩ := List.mem_map.mp repeated
      exact (each other member).2 (by rw [same]; exact List.mem_cons_self)

/-- What `Validate` says of a batch. -/
theorem ValidBatch.checked (batch : ValidBatch) : ∃ first rest, batch.requests = first :: rest ∧
    (∀ request ∈ batch.requests, request.validate = .ok () ∧ request.now = first.now ∧
      request.policy.algorithm = .tokenBucket ∧ request.policy.consistency = .strong ∧
      request.policy.failureMode = .failClosed) ∧
    (batch.requests.map Request.bucketName).Nodup := by
  have accepted := batch.accepted
  unfold AtomicBatchRequest.validate at accepted
  split at accepted
  · cases accepted
  · rename_i first rest requests
    split at accepted
    · cases accepted
    · obtain ⟨each, distinct⟩ := validateEntries_accepts accepted
      refine ⟨first, rest, requests, fun request member => ?_, by rw [requests]; exact distinct⟩
      exact (each request (by rw [← requests]; exact member)).1

end RateLimit

namespace RateLimit.Postgres

open Machine

/-! ## The intent of a command -/

structure AtomicIntentEntry where
  policy : PolicySpec
  key : GoString
  kind : GoString
  cost : Nat
  deriving DecidableEq

/-- What a command is bound to. -/
structure AtomicIntent where
  clock : ClockPolicy
  entries : List AtomicIntentEntry
  deriving DecidableEq

def Request.intent (request : Request) : AtomicIntentEntry :=
  ⟨request.policy.toPolicySpec, request.key.value, request.key.subjectKind, request.cost⟩

def AtomicBatchRequest.intent (batch : AtomicBatchRequest) (clock : ClockPolicy) : AtomicIntent :=
  ⟨clock, batch.requests.map Request.intent⟩

def algorithmText : Algorithm → GoString
  | .tokenBucket => .ofLiteral "token_bucket"
  | .fixedWindow => .ofLiteral "fixed_window"
  | .slidingWindow => .ofLiteral "sliding_window"
  | .concurrency => .ofLiteral "concurrency"
  | .other name => name

def failureModeText : FailureMode → GoString
  | .failClosed => Decimal.ofNat 0
  | .failOpen => Decimal.ofNat 1
  | .other code => Decimal.ofNat code.toNat

def consistencyText : Consistency → GoString
  | .unset => []
  | .processLocal => .ofLiteral "process_local"
  | .strong => .ofLiteral "strong"
  | .other name => name

def clockText : ClockPolicy → GoString
  | .clientClock => Decimal.ofNat 0
  | .serverClock => Decimal.ofNat 1

def policyMembers (policy : PolicySpec) : List GoString :=
  [Json.member "ID" (Json.quoted policy.id),
    Json.member "Revision" (Json.quoted policy.revision),
    Json.member "Algorithm" (Json.quoted (algorithmText policy.algorithm)),
    Json.member "Capacity" (Decimal.ofNat policy.capacity),
    Json.member "Period" (Decimal.ofInt policy.period.nanos),
    Json.member "Burst" (Decimal.ofNat policy.burst),
    Json.member "MaxCost" (Decimal.ofNat policy.maxCost),
    Json.member "FailureMode" (failureModeText policy.failureMode),
    Json.member "Consistency" (Json.quoted (consistencyText policy.consistency)),
    Json.member "Lease" (Decimal.ofInt policy.lease.nanos)]

def policyText (policy : PolicySpec) : GoString := Json.object (policyMembers policy)

def AtomicIntentEntry.members (entry : AtomicIntentEntry) : List GoString :=
  [Json.member "Policy" (policyText entry.policy),
    Json.member "Key" (Json.quoted (Json.base64 entry.key)),
    Json.member "Kind" (Json.quoted entry.kind),
    Json.member "Cost" (Decimal.ofNat entry.cost)]

def AtomicIntentEntry.text (entry : AtomicIntentEntry) : GoString := Json.object entry.members

/-- The text that `atomicIntent` hashes. -/
def AtomicIntent.text (intent : AtomicIntent) : GoString := Json.object
  [Json.member "Version" (Decimal.ofNat 1),
    Json.member "Clock" (clockText intent.clock),
    Json.member "Entries" (Json.array (intent.entries.map AtomicIntentEntry.text))]

def atomicIntent (sha256 : GoString → Digest) (batch : AtomicBatchRequest) (clock : ClockPolicy) : Digest :=
  sha256 (AtomicBatchRequest.intent batch clock).text

/-! ## Receipts -/

/-- What an atomic admission returns. -/
structure BatchAnswer where
  decision : AtomicBatchDecision
  error : Option Sentinel
  deriving DecidableEq, Repr

def maxAtomicReceiptBytes : Nat := 16 * 1024

/-- The checks of `decodeAtomicReceipt` on one decision of an allowed batch. -/
def allowedReceipt (decision : Decision) (request : Request) : Machine Bool := do
  let most ← u64 ((decision.limit : Int) - request.cost)
  pure (decide (decision.allowed = true ∧ decision.reason = .allowed ∧ decision.retryAfter = ⟨0⟩ ∧
    decision.remaining ≤ most))

/-- Those on one of a rejected batch; `some true` for an exhausted bucket. -/
def rejectedReceipt (decision : Decision) (request : Request) : Machine (Option Bool) :=
  if decision.allowed = true then pure none
  else match decision.reason with
    | .limited =>
      if decision.remaining ≥ request.cost ∨ decision.retryAfter.nanos ≤ 0 then pure none
      else do
        let longest ← tokenDuration request.cost 0 request.policy
        pure (if decision.retryAfter.nanos > longest.nanos then none else some true)
    | .atomicRejected =>
      pure (if decision.remaining < request.cost ∨ decision.retryAfter ≠ ⟨0⟩ then none else some false)
    | _ => pure none

/-- The loop of `decodeAtomicReceipt`: `none` for a corrupt receipt, otherwise whether
a bucket was exhausted. -/
def checkReceipt (allowed : Bool) : List (Decision × Request) → Bool → Machine (Option Bool)
  | [], limited => pure (some limited)
  | (decision, request) :: rest, limited =>
    if decision.limit ≠ request.policy.limit ∨ decision.remaining > decision.limit ∨
        decision.backend ≠ .ofLiteral "postgres" ∨ decision.policyRevision ≠ request.policy.revision ∨
        decision.reset = Time.zero then pure none
    else if allowed then do
      if ← allowedReceipt decision request then checkReceipt allowed rest limited else pure none
    else do
      match ← rejectedReceipt decision request with
      | none => pure none
      | some exhausted => checkReceipt allowed rest (limited || exhausted)

/-- `decodeAtomicReceipt`, of what the JSON decoder makes of the column. -/
def decodeAtomicReceipt (receipt : Option AtomicBatchDecision) (batch : AtomicBatchRequest) :
    Machine (Except Sentinel BatchAnswer) :=
  match receipt with
  | none => pure (.error .corrupt)
  | some saved =>
    if saved.commandID ≠ [] ∨ saved.decisions.length ≠ batch.requests.length then pure (.error .corrupt)
    else do
      match ← checkReceipt saved.allowed (saved.decisions.zip batch.requests) false with
      | none => pure (.error .corrupt)
      | some limited =>
        if saved.allowed then pure (.ok ⟨{ saved with commandID := batch.commandID }, none⟩)
        else if limited then pure (.ok ⟨{ saved with commandID := batch.commandID }, some .rejected⟩)
        else pure (.error .corrupt)

/-! The length of a receipt in compact JSON. -/

def compactMember (name : String) (value : Nat) : Nat := name.length + 3 + value

def compactLength (members : List Nat) : Nat := 2 + members.sum + (members.length - 1)

def booleanLength (value : Bool) : Nat := if value then 4 else 5

/-- A quoted RFC 3339 time in UTC, with the digits of its fraction that are not
trailing zeros. -/
def timestampLength (time : Time) : Nat :=
  let fraction := (time.nanos % 1000000000).toNat
  22 + if fraction = 0 then 0 else 10 - ((Nat.digits 10 fraction).takeWhile (· = 0)).length

def reasonLength : Reason → Nat
  | .allowed => 9
  | .limited => 9
  | .failOpen => 11
  | .backendUnavailable => 21
  | .atomicRejected => 17
  | .other text => stringLength text

def decisionLength (decision : Decision) : Nat := compactLength
  [compactMember "Allowed" (booleanLength decision.allowed),
    compactMember "Remaining" (decimalLength decision.remaining),
    compactMember "Limit" (decimalLength decision.limit),
    compactMember "Reset" (timestampLength decision.reset),
    compactMember "RetryAfter" (integerLength decision.retryAfter.nanos),
    compactMember "Reason" (reasonLength decision.reason),
    compactMember "Backend" (stringLength decision.backend),
    compactMember "PolicyRevision" (stringLength decision.policyRevision)]

def receiptLength (saved : AtomicBatchDecision) : Nat := compactLength
  [compactMember "CommandID" (stringLength saved.commandID),
    compactMember "Allowed" (booleanLength saved.allowed),
    compactMember "Decisions" (compactLength (saved.decisions.map decisionLength))]

/-- A time that JSON can carry: its year has at most four digits. -/
def jsonTime (time : Time) : Bool :=
  decide (-62167219200000000000 ≤ time.nanos ∧ time.nanos < 253402300800000000000)

/-- The receipt that is stored, if it can be encoded and is short enough. -/
def encodeAtomicReceipt (decision : AtomicBatchDecision) : Option AtomicBatchDecision :=
  let saved := { decision with commandID := [] }
  if saved.decisions.all (fun decision => jsonTime decision.reset) = false then none
  else if receiptLength saved > maxAtomicReceiptBytes then none
  else some saved

/-! ## The transaction -/

/-- A big-endian signed 32-bit word. -/
def signedWord (bytes : List UInt8) : Int := (bigEndian bytes : Int).bmod 4294967296

/-- The lock of a command: the first two words of its digest. -/
def commandLock (command : Digest) : Lock :=
  .command (signedWord ((List.ofFn command).take 4)) (signedWord (((List.ofFn command).drop 4).take 4))

/-- The loop over the sorted locks, which passes over repeats. -/
def lockBuckets : Option Int → List Int → Call Unit
  | _, [] => pure ()
  | previous, key :: rest => do
    if previous = some key then pure ()
    else do
      let _ ← statement (.acquire (Lock.bucket key) .done)
      pure ()
    lockBuckets (some key) rest

/-- The one observation of a batch. -/
def atomicTime (clock : ClockPolicy) (batch : AtomicBatchRequest) : Call Time :=
  match batch.requests with
  | [] => ExceptT.lift .panic
  | first :: _ =>
    match clock with
    | .clientClock => pure (.ofUnixMicro first.now.unixMicro)
    | .serverClock => do
      let now ← statement (.observe .done)
      pure (.ofUnixMicro now)

def loadStates (now : Time) : List Digest → Call (List (Option PersistedState))
  | [] => pure []
  | key :: rest => do
    let state ← loadStateStrict key now
    let states ← loadStates now rest
    pure (state :: states)

/-- The loop that moves the observation up to what the states have seen. -/
def latestObservation (now : Time) : List (Option PersistedState) → Time
  | [] => now
  | none :: rest => latestObservation now rest
  | some state :: rest =>
    latestObservation (if state.observedMicros > now.unixMicro then .ofUnixMicro state.observedMicros else now) rest

/-- One bucket of a batch after its speculative debit. -/
structure Debit where
  request : Request
  state : PersistedState
  answer : Answer

/-- The loop of speculative debits. -/
def debitAll (now : Time) : List (Request × Option PersistedState) → Call (List Debit)
  | [] => pure []
  | (request, current) :: rest => do
    let request := { request with now := now }
    let mutation ← compute (mutateState current request)
    let (next, answer) ← strictPostgresDecisionResult mutation
    let decision := { answer.decision with
      backend := .ofLiteral "postgres", policyRevision := request.policy.revision }
    let debits ← debitAll now rest
    pure (⟨request, next, ⟨decision, answer.error⟩⟩ :: debits)

/-- The decision on a bucket whose speculative debit is taken back. -/
def restored (now : Time) (debit : Debit) : Machine Decision :=
  if debit.answer.decision.allowed = false then pure debit.answer.decision
  else do
    let tokens ← u64 ((debit.state.tokens : Int) + debit.request.cost)
    let missing ← u64 ((debit.request.policy.limit : Int) - tokens)
    let wait ← tokenDuration missing debit.state.remainder debit.request.policy
    pure { debit.answer.decision with
      allowed := false, reason := .atomicRejected, remaining := tokens, reset := now.add wait }

def restoreAll (now : Time) : List Debit → Machine (List Decision)
  | [] => pure []
  | debit :: rest => do
    let decision ← restored now debit
    let decisions ← restoreAll now rest
    pure (decision :: decisions)

def writeDebits : List (Digest × Debit) → Call Unit
  | [] => pure ()
  | (key, debit) :: rest => do
    let ttl ← compute (postgresAdmissionTTL debit.request.policy)
    writeCell (.bucket key) (some ⟨encodeState debit.state, expiryFrom debit.state.observedMicros ttl⟩)
    writeDebits rest

/-- All buckets debited, or none with the balances they were found with. -/
def settleDebits (commandID : GoString) (keys : List Digest) (now : Time) (debits : List Debit) :
    Call BatchAnswer :=
  if debits.all (fun debit => decide (debit.answer.error = none)) then do
    writeDebits (keys.zip debits)
    pure ⟨⟨commandID, true, debits.map fun debit => debit.answer.decision⟩, none⟩
  else do
    let decisions ← compute (restoreAll now debits)
    pure ⟨⟨commandID, false, decisions⟩, some .rejected⟩

/-- The part of `admitAtomic` for a command that is not known yet. -/
def admitFirst (sha256 : GoString → Digest) (clock : ClockPolicy) (batch : AtomicBatchRequest) : Call BatchAnswer := do
  let keys := batch.requests.map fun request => sha256 request.bucketName
  lockBuckets none ((keys.map advisoryKey).mergeSort fun a b => decide (a ≤ b))
  let observed ← atomicTime clock batch
  let states ← loadStates observed keys
  let now := latestObservation observed states
  let debits ← debitAll now (batch.requests.zip states)
  let answer ← settleDebits batch.commandID keys now debits
  match encodeAtomicReceipt answer.decision with
  | none => throw (.sentinel .corrupt)
  | some saved => do
    writeCell (.command (sha256 batch.commandID)) (some ⟨atomicIntent sha256 batch clock, some saved⟩)
    commitStrict
    pure answer

/-- The part of `admitAtomic` for a command that left a receipt. -/
def replayReceipt (sha256 : GoString → Digest) (clock : ClockPolicy) (batch : AtomicBatchRequest) (row : CommandRow) :
    Call BatchAnswer :=
  if row.intentDigest ≠ atomicIntent sha256 batch clock then throw (.sentinel .invalidRequest)
  else do
    match ← compute (decodeAtomicReceipt row.receipt batch) with
    | .error problem => throw (.sentinel problem)
    | .ok answer => do
      commitStrict
      pure answer

/-- `nativeExecutor.admitAtomic`. -/
def admitAtomic (sha256 : GoString → Digest) (clock : ClockPolicy) (batch : AtomicBatchRequest) :
    Program database (Except StoreError BatchAnswer) :=
  strictTransaction do
    statement (.configure .done)
    let _ ← statement (.acquire (commandLock (sha256 batch.commandID)) .done)
    match ← readCell (.command (sha256 batch.commandID)) with
    | some row => replayReceipt sha256 clock batch row
    | none => admitFirst sha256 clock batch

def Store.admitAtomicStrict (sha256 : GoString → Digest) (clock : ClockPolicy) (context : ContextState)
    (batch : AtomicBatchRequest) : Program database (Except StoreError BatchAnswer) :=
  match batch.validate, postgresStrictContext context with
  | some problem, _ => pure (.error (.sentinel problem))
  | none, some problem => pure (.error problem)
  | none, none => admitAtomic sha256 clock batch

end RateLimit.Postgres
